import CountedHeap.Proofs.Collecting
import CountedHeap.Proofs.TwinOperations

/-!
A collection of both heaps. Values are copied with all of their blocks, the bytes of no meaning
included; these stay behind headers, so the copies come to the same places in the same order, and
what is left behind is the same. Once a collection has run out of room nothing is said any more.
-/

namespace CountedHeap.Heap

/-- Heaps in the middle of a collection that differ behind the headers of blocks only. The blocks
that still lie in the half that is left are unknown to the allocators. -/
structure MovingJoined (h h' : Heap) : Prop where
  pools : ∃ free, h.pool.Twins h'.pool free (h.table.addresses.filter h.pool.contains)
  behind : h.pool.memory.Same h'.pool.memory (Memory.InHeaders h.table.addresses)
  frame : ∃ pool poison, h' = { h with pool, config := { h.config with poison } }

structure MovingTwins (total : Nat) (s₀ s : Store) (h h' : Heap) : Prop where
  left : h.Moving total s₀ s
  right : h'.Moving total s₀ s
  fits : total ≤ h.pool.region.size
  halved : h.Halved
  halved' : h'.Halved
  joined : MovingJoined h h'

variable {h h' : Heap} {total : Nat} {s₀ s : Store} {r : Reference} {c : Cell}

namespace MovingJoined

theorem table_eq (hj : MovingJoined h h') : h'.table = h.table := by
  obtain ⟨_, _, rfl⟩ := hj.frame
  rfl

theorem region_eq (hj : MovingJoined h h') : h'.pool.region = h.pool.region :=
  hj.pools.choose_spec.region

theorem contains_eq (hj : MovingJoined h h') : h'.pool.contains = h.pool.contains :=
  hj.pools.choose_spec.contains_eq

theorem deref_eq (hj : MovingJoined h h') (r : Reference) : h.deref r = h'.deref r := by
  have hsize := hj.behind.size_eq
  obtain ⟨_, _, rfl⟩ := hj.frame
  simp only [deref, memory] at hsize ⊢
  rw [hsize]

theorem headers (hj : MovingJoined h h') : ∃ free,
    h.pool.Twins h'.pool free (h.table.addresses.filter h.pool.contains) ∧
      h.pool.memory.Same h'.pool.memory fun i =>
        Memory.InHeaders (free ++ h.table.addresses.filter h.pool.contains) i ∨
          Memory.InHeaders h.table.addresses i := by
  obtain ⟨free, hp⟩ := hj.pools
  exact ⟨free, hp, hp.headers.or hj.behind⟩

end MovingJoined

namespace MovingTwins

theorem setCountAt (hm : MovingTwins total s₀ s h h') (hr : s r = some c) {count : Nat}
    (hcount : count < Word.limit) :
    Mirrored (MovingTwins total s₀ (s.set r { c with count })) (h.setCountAt c.addr count)
      (h'.setCountAt c.addr count) := by
  obtain ⟨free, hp, hs⟩ := hm.joined.headers
  obtain ⟨_, b, hframe⟩ := hm.joined.frame
  refine Mirrored.imp (R := MovingJoined) (write_mirrored ?_) fun g g' hg hg' hj => ?_
  · refine (stored_mirrored hs ..).imp fun n n' hn _ hs' => ?_
    have hl := hm.left.laid_rewrite hr hp.laid ((hm.left.holds hr).setCount hcount hn)
    refine ⟨⟨free, hl, hp.region, hp.freeHead, hs'.mono fun _ => .inl⟩, hs'.mono fun _ => .inr,
      { h'.pool with memory := n' }, b, ?_⟩
    rw [hframe]
  · obtain ⟨hf, -, hml, -⟩ := hm.left.setCountAt hr hcount hg
    obtain ⟨hf', -, hmr, -⟩ := hm.right.setCountAt hr hcount hg'
    exact ⟨hml, hmr, hf.region ▸ hm.fits, hf.halved hm.halved, hf'.halved hm.halved', hj⟩

theorem deref_bind {β β' : Type} {S : β → β' → Prop} {f : Nat → Except Fault β}
    {g : Nat → Except Fault β'} (hm : MovingTwins total s₀ s h h')
    (hfg : ∀ c, s r = some c → Mirrored S (f c.addr) (g c.addr)) :
    Mirrored S (h.deref r >>= f) (h'.deref r >>= g) := by
  refine Mirrored.bind_eq (hm.joined.deref_eq r) fun a ha => ?_
  obtain ⟨c, hc, rfl⟩ := hm.left.deref_eq_ok.mp ha
  exact hfg c hc

theorem retain (hm : MovingTwins total s₀ s h h') (r : Reference) :
    Mirrored (fun g g' => ∃ s', MovingTwins total s₀ s' g g') (h.retain r) (h'.retain r) := by
  refine hm.deref_bind fun c hr => ?_
  simp only [hm.left.countAt_eq hr, hm.right.countAt_eq hr, ok_bind]
  refine Mirrored.bind_eq rfl fun n hn => ?_
  obtain ⟨rfl, hlt⟩ := Word.fit_eq_ok.mp hn
  exact (hm.setCountAt hr hlt).imp fun _ _ _ _ hm' => ⟨_, hm'⟩

end MovingTwins

theorem HandedOut.header_outside {new size i a : Nat} {free taken : List Nat}
    (hm : h.HandedOut total size s₀ s new) (hl : h.pool.Laid free (new :: taken))
    (ha : a ∈ free ∨ a ∈ h.table.addresses) (hi : Memory.InHeader a i) :
    i < new ∨ new + h.pool.memory.sizeAt new ≤ i := by
  obtain ⟨hlo, hhi⟩ := hi
  rcases ha with ha | ha
  · have hne : a ≠ new :=
      (List.nodup_append.mp hl.nodup).2.2 a ha new List.mem_cons_self
    have hap := hl.apart (List.mem_append_left _ ha) (b := new) (by simp) hne
    have hab := (hl.bounds (List.mem_append_left _ ha)).2.2.1
    omega
  · obtain ⟨q, hq⟩ := (Table.mem_addresses hm.small).mp ha
    obtain ⟨d, hd, rfl⟩ := hm.get?_eq_some.mp hq
    have hap := hm.apart_new hd
    have hroom := (hm.holds hd).header_le
    omega

theorem copyTo_mirrored {new : Nat} {free : List Nat}
    (hm : h.HandedOut total (h.pool.memory.sizeAt c.addr) s₀ s new) (hr : s r = some c)
    (hout : h.pool.contains c.addr = false)
    (hfit : h.pool.memory.sizeAt c.addr ≤ h.pool.memory.sizeAt new)
    (hp : h.pool.Twins h'.pool free (new :: h.table.addresses.filter h.pool.contains))
    (hbehind : h.pool.memory.Same h'.pool.memory (Memory.InHeaders h.table.addresses))
    (hframe : ∃ pool poison, h' = { h with pool, config := { h.config with poison } }) :
    Mirrored MovingJoined
      (h.copyTo r c.addr (h.pool.memory.sizeAt c.addr) new (h.pool.memory.sizeAt new))
      (h'.copyTo r c.addr (h.pool.memory.sizeAt c.addr) new (h.pool.memory.sizeAt new)) := by
  have hnb := hp.laid.bounds (a := new) (by simp)
  have hlt := hp.laid.sizeAt_lt (a := new) (by simp)
  have hinside := hp.laid.inside
  have hold := (hm.holds hr).header_le
  simp only [Memory.maxSize, Block.headerSize] at hlt hnb hold
  have hnew : h.pool.contains new = true := Pool.contains_iff.mpr ⟨hnb.1, by omega⟩
  have holdMem : c.addr ∈ h.table.addresses := Table.mem_addresses_of_get? (hm.get?_eq hr)
  have hknown := hp.headers.or hbehind
  refine Mirrored.bind (R := fun g g' => ∃ n n', g = { h with pool := { h.pool with memory := n } } ∧
      g' = { h' with pool := { h'.pool with memory := n' } } ∧
      Pool.Twins { h.pool with memory := n } { h'.pool with memory := n' } free
        (new :: h.table.addresses.filter h.pool.contains) ∧
      n.Same n' (Memory.InHeaders (new :: h.table.addresses)))
    (write_mirrored ?_) ?_
  · refine (hknown.copied ..).bind fun m m' hcopy _ hs => ?_
    refine (hs.store (new + Block.sizeOffset) 8 _).imp fun n n' hset _ hs' => ?_
    obtain ⟨hc, hsize, -⟩ := (hm.holds hr).copy hfit (by simp only [Word.limit]; omega) hcopy hset
    rw [Nat.add_sub_cancel_left] at hs'
    have hall : n.Same n' fun i => Memory.InHeader new i ∨
        ∃ a, (a ∈ free ∨ a ∈ h.table.addresses) ∧ Memory.InHeader a i := by
      refine ⟨hs'.size_eq, ?_⟩
      rintro i (⟨hlo, hhi⟩ | ⟨a, ha, hi⟩)
      · simp only [Block.headerSize] at hhi
        refine hs'.byte_eq i (.inl (.inr ⟨hlo, by omega, .inr ⟨c.addr, holdMem, ?_, ?_⟩⟩))
        · omega
        · simp only [Block.headerSize]
          omega
      · have hoff := hm.header_outside hp.laid ha hi
        refine hs'.byte_eq i (.inl (.inl ⟨?_, by omega⟩))
        exact ha.imp (fun ha => ⟨a, List.mem_append_left _ ha, hi⟩) fun ha => ⟨a, ha, hi⟩
    refine ⟨n, n', rfl, rfl, hp.write List.mem_cons_self hc hsize (hall.mono ?_), hall.mono ?_⟩
    · rintro i ⟨a, ha, hi⟩
      simp only [List.mem_append, List.mem_cons, List.mem_filter] at ha
      rcases ha with ha | rfl | ha
      · exact .inr ⟨a, .inl ha, hi⟩
      · exact .inl hi
      · exact .inr ⟨a, .inr ha.1, hi⟩
    · rintro i ⟨a, ha, hi⟩
      rcases List.mem_cons.mp ha with rfl | ha
      · exact .inl hi
      · exact .inr ⟨a, .inr ha, hi⟩
  · rintro _ _ - - ⟨n, n', rfl, rfl, hp', hbehind'⟩
    obtain ⟨_, b, rfl⟩ := hframe
    refine Mirrored.bind_eq rfl fun table htable => Mirrored.pure_pure ?_
    obtain ⟨old, hget, -, hperm, -⟩ := Table.set_eq htable
    rw [show Table.get? _ r = some c.addr from hm.get?_eq hr, Option.some_inj] at hget
    subst hget
    refine ⟨⟨free, hp'.perm (filter_perm hperm hnew hout)⟩, hbehind'.mono ?_, _, b, rfl⟩
    rintro i ⟨a, ha, hi⟩
    exact ⟨a, hperm.mem_iff.mp (List.mem_cons_of_mem _ ha), hi⟩

namespace MovingTwins

theorem relocate (hm : MovingTwins total s₀ s h h') (hr : s r = some c)
    (hout : h.pool.contains c.addr = false) :
    (relocate r c.addr).Mirrors h h'
      (fun p g g' => MovingTwins total s₀ (s.set r ⟨p.1, 1, c.content⟩) g g')
      fun _ _ _ => True := by
  have hmem : c.addr ∈ h.table.addresses := Table.mem_addresses_of_get? (hm.left.get?_eq hr)
  have hjoined : (Heap.relocate r c.addr).Mirrors h h' (fun _ g g' => MovingJoined g g')
      fun _ _ _ => True := by
    refine Mirrored.bind_eq (hm.joined.behind.read_eq fun i hi => ⟨c.addr, hmem, hi⟩).symm
      fun b hb => ?_
    obtain ⟨-, rfl⟩ := Block.read_eq_ok.mp hb
    refine (hm.setCountAt hr (by decide)).bind fun g g' hreset _ hm₁ => ?_
    obtain ⟨hf₁, -, -, hsame₁⟩ := hm.left.setCountAt hr (by decide) hreset
    have hself : (s.set r { c with count := 1 }) r = some { c with count := 1 } := Store.set_self
    have hsize₁ : g.pool.memory.sizeAt c.addr = h.memory.sizeAt c.addr := hsame₁ hr
    have hrequest := hm₁.left.requestSize_eq hself
    have hout₁ : g.pool.contains c.addr = false := by
      rw [hf₁.contains]
      exact hout
    rw [Memory.header_size, ← hsize₁]
    obtain ⟨free, hp⟩ := hm₁.joined.pools
    refine (hp.alloc hm₁.joined.behind _).bind fun a a' ha _ hrel => ?_
    obtain ⟨e, rfl, rfl⟩ | ⟨⟨new, p⟩, ⟨_, p'⟩, rfl, rfl, rfl, hbehind, free', hp'⟩ := hrel.ends
    · exact Mirrored.pure_pure ⟨rfl, trivial⟩
    · obtain ⟨hf₂, hfit, hm₂, hsizes⟩ := hm₁.left.alloc hrequest ha
      have hcontains : p.contains = g.pool.contains := hf₂.contains
      have hsize₂ := hsizes r _ hself
      simp only at hsize₂
      rw [← hsize₂] at hm₂ hfit ⊢
      refine Mirrored.bind_eq (hp'.read_eq (by simp)).symm fun b hb => ?_
      obtain ⟨-, rfl⟩ := Block.read_eq_ok.mp hb
      obtain ⟨_, b, hframe⟩ := hm₁.joined.frame
      refine (copyTo_mirrored (h := { g with pool := p }) (c := { c with count := 1 }) hm₂ hself
        (hcontains ▸ hout₁) hfit (hcontains.symm ▸ hp') hbehind ⟨p', b, ?_⟩).bind ?_
      · rw [hframe]
      · exact fun _ _ _ _ hj => Mirrored.pure_pure ⟨rfl, hj⟩
  have hout' : h'.pool.contains c.addr = false := hm.joined.contains_eq ▸ hout
  have hfits' : total ≤ h'.pool.region.size := hm.joined.region_eq ▸ hm.fits
  refine (hjoined.and_ends (hm.left.relocate hm.fits hr hout)
    (hm.right.relocate hfits' hr hout')).imp ?_ fun _ _ _ _ => trivial
  rintro ⟨new, size⟩ g g' ⟨hj, hl, hr'⟩
  exact ⟨hl.moving, hr'.moving, hl.frame.region ▸ hm.fits, hl.frame.halved hm.halved,
    hr'.frame.halved hm.halved', hj⟩

theorem meet (hm : MovingTwins total s₀ s h h') (r : Reference) :
    (meet r).Mirrors h h' (fun _ g g' => ∃ s', MovingTwins total s₀ s' g g')
      fun _ _ _ => True := by
  unfold Heap.meet
  split
  case isTrue => exact Action.mirrors_pure ⟨s, hm⟩
  case isFalse =>
    refine Action.get_bind (by simp only [hm.joined.table_eq]) ?_
    cases hr : s r with
    | none =>
      rw [hm.left.get?_eq_none hr]
      exact Action.mirrors_fault
    | some c =>
      rw [hm.left.get?_eq hr]
      refine Action.get_bind (by simp only [hm.joined.contains_eq]) ?_
      split
      case isTrue =>
        refine Action.update_bind (hm.retain r) fun g g' _ hm' => ?_
        exact Action.mirrors_pure hm'
      case isFalse hout =>
        refine Action.mirrors_bind ((hm.relocate hr (Bool.not_eq_true _ ▸ hout)).imp ?_
          fun _ _ _ hb => hb)
        rintro ⟨new, size⟩ g g' hm'
        have hkind := hm'.left.kindAt_eq Store.set_self
        have hkind' := hm'.right.kindAt_eq Store.set_self
        have hheld := hm'.left.children_eq Store.set_self
        have hheld' := hm'.right.children_eq Store.set_self
        refine Action.read_bind ?_ fun held _ => Action.mirrors_pure ⟨_, hm'⟩
        simp only at hkind hkind' hheld hheld' ⊢
        rw [hkind, hkind', ok_bind, ok_bind, hheld, hheld']

end MovingTwins

def Travelling (total : Nat) (s₀ : Store) (h h' : Heap) : Prop :=
  ∃ s, MovingTwins total s₀ s h h'

namespace Travelling

variable {next : List Reference → Tally → Action CollectionError Tally}

theorem runPending (hnext : ∀ {pending t h h'}, Travelling total s₀ h h' →
      (next pending t).Mirrors h h' (fun _ g g' => Travelling total s₀ g g') fun _ _ _ => True)
    (hm : Travelling total s₀ h h') (pending : List Reference) (t : Tally) :
    (runPending next pending t).Mirrors h h' (fun _ g g' => Travelling total s₀ g g')
      fun _ _ _ => True := by
  induction pending generalizing h h' with
  | nil => exact Action.mirrors_pure hm
  | cons r rest ih =>
    obtain ⟨s, hm⟩ := hm
    refine Action.mirrors_bind ((hm.meet r).imp ?_ fun _ _ _ hb => hb)
    intro o g g' hm'
    cases o with
    | none => exact ih hm'
    | some p => exact hnext hm'

theorem evacuateAll (hm : Travelling total s₀ h h') (copies : Nat) (pending : List Reference)
    (t : Tally) :
    (evacuateAll copies pending t).Mirrors h h' (fun _ g g' => Travelling total s₀ g g')
      fun _ _ _ => True := by
  induction copies generalizing h h' pending t with
  | zero => exact runPending (fun _ => Action.mirrors_fault) hm pending t
  | succ copies ih =>
    show (Heap.runPending (Heap.evacuateAll copies) pending t).Mirrors ..
    exact runPending (fun {pending t _ _} hm' => ih hm' pending t) hm pending t

theorem evacuateRoots (hm : Travelling total s₀ h h') (roots : List Reference) (t : Tally) :
    (roots.foldlM evacuate t).Mirrors h h' (fun _ g g' => Travelling total s₀ g g')
      fun _ _ _ => True := by
  induction roots generalizing h h' t with
  | nil => exact Action.mirrors_pure hm
  | cons root rest ih =>
    refine Action.mirrors_bind (Action.get_bind ?_ ?_)
    · simp only [hm.choose_spec.joined.table_eq]
    · exact (hm.evacuateAll _ [root] t).imp (fun t' _ _ hm' => ih hm' t') fun _ _ _ hb => hb

end Travelling

namespace Twins

variable (ht : Twins s h h')
include ht

theorem bytes_eq : h'.bytes = h.bytes := by
  have hused := ht.joined.used_eq
  rw [ht.left.used_eq, ht.right.used_eq, Except.ok.injEq] at hused
  exact hused.symm

theorem flip : Mirrored (fun g g' => Travelling g.bytes s g g') h.flip h'.flip := by
  obtain ⟨free, hp⟩ := ht.joined.pools
  have hknown : h.pool.memory.Same h'.pool.memory (Memory.InHeaders h.table.addresses) :=
    hp.headers.mono fun i hi => by
      obtain ⟨a, ha, hi⟩ := hi
      exact ⟨a, List.mem_append_right _ ha, hi⟩
  obtain ⟨_, b, hframe⟩ := ht.joined.frame
  refine Mirrored.imp (R := fun g g' => ∃ free, g.pool.Twins g'.pool free [] ∧
      g.pool.memory.Same g'.pool.memory (Memory.InHeaders h.table.addresses) ∧
      ∃ pool poison, g' = { g with pool, config := { g.config with poison } }) ?_ ?_
  · rw [Heap.flip, Heap.flip, show h'.spare = h.spare by rw [hframe]]
    refine (Pool.activate_mirrored hknown ht.left.bound _).bind fun p p' _ _ hp' => ?_
    refine Mirrored.pure_pure ⟨_, hp'.1, hp'.2, p', b, ?_⟩
    rw [hframe]
  · rintro g g' hflip hflip' ⟨free', hp', hbehind, hframe'⟩
    obtain ⟨hhalved, hbytes, hm, -, hcopies, htable, -⟩ := ht.left.flip hflip
    obtain ⟨hhalved', hbytes', hm', -⟩ := ht.right.flip hflip'
    rw [hbytes', ht.bytes_eq, ← hbytes] at hm'
    have hnone : g.table.addresses.filter g.pool.contains = [] :=
      List.eq_nil_of_length_eq_zero hcopies
    refine ⟨s, hm, hm', (ht.left.collecting [] hflip).fits, hhalved, hhalved', ⟨free', ?_⟩, ?_,
      hframe'⟩
    · rw [hnone]
      exact hp'
    · rw [htable]
      exact hbehind

end Twins

theorem MovingTwins.sweep (hm : MovingTwins total s₀ s h h') : Twinned h.sweep h'.sweep := by
  have hcopied : h'.isCopied = h.isCopied := by
    funext q
    rw [isCopied, isCopied, hm.joined.table_eq, hm.joined.contains_eq]
  have hswept' := hm.right.sweep hm.halved'
  rw [hcopied] at hswept'
  refine ⟨_, hm.left.sweep hm.halved, hswept', ?_, ?_⟩
  · obtain ⟨free, hp⟩ := hm.joined.pools
    refine ⟨free, ?_⟩
    show h.pool.Twins h'.pool free (h.table.keepIf h.pool.contains).2.addresses
    rw [(Table.keepIf_eq _ _).2.1]
    exact hp
  · obtain ⟨_, b, hframe⟩ := hm.joined.frame
    refine ⟨h'.pool, b, ?_⟩
    rw [Heap.sweep, Heap.sweep, hm.joined.contains_eq]
    rw [hframe]

theorem Twinned.record (ht : Twinned h h') (t : Tally) (c : Collection) :
    Mirrored Twinned (h.record t c) (h'.record t c) := by
  obtain ⟨s, hl, hr, ⟨free, hp⟩, q, b, hframe⟩ := ht
  have hstats : h'.stats = h.stats := by rw [hframe]
  unfold Heap.record
  refine Mirrored.bind_eq (by rw [hstats]) fun stats _ => Mirrored.pure_pure ?_
  refine ⟨s, hl.restat stats, hr.restat stats, ⟨free, hp⟩, q, b, ?_⟩
  rw [hframe]

theorem Twins.collect (ht : Twins s h h') (roots : List Reference) :
    (collect roots).Mirrors h h' (fun _ g g' => Twinned g g') fun _ _ _ => True := by
  refine Action.read_bind ht.joined.used_eq fun usedBefore _ => ?_
  refine Action.update_bind ht.flip fun g g' _ hm => ?_
  refine Action.mirrors_bind ((hm.evacuateRoots roots {}).imp ?_ fun _ _ _ hb => hb)
  rintro t k k' ⟨s', hm'⟩
  have hswept := hm'.sweep
  refine Action.update_bind (R := fun j j' => j = k.sweep ∧ j' = k'.sweep) ⟨rfl, rfl⟩ ?_
  rintro _ _ - ⟨rfl, rfl⟩
  refine Action.read_bind hswept.choose_spec.joined.used_eq fun usedAfter _ => ?_
  refine Action.update_bind (R := Twinned) (hswept.record t _) fun _ _ _ hrecorded => ?_
  exact Action.mirrors_pure hrecorded

end CountedHeap.Heap
