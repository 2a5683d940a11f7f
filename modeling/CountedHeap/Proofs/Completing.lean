import CountedHeap.Proofs.PoolRuns
import CountedHeap.Proofs.Totals

/-!
Collections come to an end. Where all that is reached is there, no reference is missing; a value is
copied once, so the copies are no more than the table has slots; and the edges are no more than the
bytes in which they stand, so no count is too large for a word.
-/

namespace CountedHeap

theorem Memory.copy_answers {m : Memory} {start size dest : Nat} (hstart : start + size ≤ m.size)
    (hdest : dest + size ≤ m.size) :
    ∃ n, m.copy start (start + size) dest = .ok n ∧ n.size = m.size := by
  have hslice : m.slice start (start + size) = .ok (m.bytesFrom start size) :=
    Memory.slice_eq_ok.mpr ⟨⟨Nat.le_add_right .., hstart⟩, by rw [Nat.add_sub_cancel_left]⟩
  refine ⟨m.setBytes dest (m.bytesFrom start size), ?_, Memory.size_setBytes ..⟩
  simp only [copy, hslice, ok_bind, Memory.put_eq_ok, Memory.length_bytesFrom, hdest, true_and]

theorem Table.set_answers {t : Table} {r : Reference} {old : Nat} (hr : t.get? r = some old)
    (addr : Nat) : ∃ u, t.set r addr = .ok u := by
  obtain ⟨hlive, hslot⟩ := Table.get?_eq_some.mp hr
  refine ⟨{ t with slots := t.slots.setIfInBounds r.index (some addr) }, ?_⟩
  simp only [Table.set, Table.slotOf, hlive, if_true, ok_bind, hslot]
  rfl

theorem Pool.activate_answers {p : Pool} {span : Span} (hle : span.start ≤ span.stop)
    (hin : span.stop ≤ p.memory.size) (haligned : 8 ∣ span.start)
    (hroom : Block.headerSize ≤ Word.roundDown span.size Block.alignment) :
    ∃ q, p.activate span = .ok q := by
  have hround : Word.roundDown span.size Block.alignment ≤ span.size := by
    rw [Word.roundDown_eight]
    exact Nat.le_trans (Nat.div_mul_le_self ..) (Nat.mod_le ..)
  have hsize : span.size = span.stop - span.start := rfl
  have hhead : span.start + Block.headerSize ≤ p.memory.size := by omega
  obtain ⟨n, hwrite, -⟩ :=
    Memory.writeFree_answers (Word.roundDown span.size Block.alignment) none hhead
  simp only [activate, throw_bind, guard_eq_ok, bind_eq_ok, Word.isAligned_eq_ok, pure_eq_ok,
    Bool.and_eq_true, decide_eq_true_eq, exists_eq_left', beq_iff_eq]
  exact ⟨_, ⟨hle, hin⟩, Nat.mod_eq_zero_of_dvd haligned, hroom, n, hwrite, rfl⟩

theorem Content.length_held_le (x : Content) : x.held.length ≤ x.room := by
  cases x with
  | array slots =>
    have hlength := List.length_filter_le (·.isLive) slots
    simp only [Content.held, Content.room, Layout.elementOffset] at *
    omega
  | _ => simp [Content.held, Content.room, Layout.listSize, Layout.dictSize]

namespace Heap

variable {h h' h₁ : Heap} {s₀ s : Store} {roots seen pending rest : List Reference}
  {r : Reference} {c : Cell} {t : Tally} {total : Nat}

theorem Sound.flip_answers (hs : h.Sound s) : ∃ h', h.flip = .ok h' := by
  have hin := hs.halved.inside
  have hround := roundDown_halfSize h.config
  have hroomy := hs.halved.roomy
  have hspare : h.spare.start ≤ h.spare.stop ∧ h.spare.stop ≤ h.pool.memory.size ∧
      8 ∣ h.spare.start ∧ h.spare.size = h.config.halfSize := by
    have hdvd : 8 ∣ h.config.halfSize := by
      rw [← hround, Word.roundDown_eight]
      exact Nat.dvd_mul_left ..
    rcases hs.halved.halves with ⟨-, hspare⟩ | ⟨-, hspare⟩
    all_goals
      rw [hspare]
      simp only [Span.size]
      omega
  obtain ⟨hle, hstop, haligned, hsize⟩ := hspare
  obtain ⟨p, hactivate⟩ := Pool.activate_answers hle hstop haligned (by rwa [hsize, hround])
  simp only [Heap.flip, hactivate, ok_bind]
  exact ⟨_, rfl⟩

theorem Stored.copyTo_answers (hs : h.Stored s) (hr : s r = some c) {new size : Nat}
    (hhead : Block.headerSize ≤ size) (hold : c.addr + size ≤ h.pool.memory.size)
    (hnew : new + size ≤ h.pool.memory.size) (allocated : Nat) :
    ∃ h', h.copyTo r c.addr size new allocated = .ok h' := by
  obtain ⟨m, hcopy, hm⟩ := Memory.copy_answers hold hnew
  have hfield : new + Block.sizeOffset + 8 ≤ m.size := by
    simp only [Block.headerSize, Block.sizeOffset] at *
    omega
  obtain ⟨n, hset, -⟩ := Memory.store_answers allocated hfield
  obtain ⟨u, htable⟩ := Table.set_answers (hs.get?_eq hr) new
  simp only [Heap.copyTo, bind_eq_ok, write_eq_ok, pure_eq_ok]
  exact ⟨_, _, ⟨n, ⟨m, hcopy, hset⟩, rfl⟩, u, htable, rfl⟩

theorem Moving.relocate_completes (hm : h.Moving total s₀ s) (hr : s r = some c) :
    (Heap.relocate r c.addr).Completes h := by
  have hread : h.block c.addr = .ok (h.pool.memory.header c.addr) :=
    Block.read_eq_ok.mpr ⟨hm.header_le hr, rfl⟩
  obtain ⟨h₁, hreset⟩ := hm.setCountAt_answers hr 1
  obtain ⟨hf₁, ht₁, hm₁, -⟩ := hm.setCountAt hr (by decide) hreset
  have hself : (s.set r { c with count := 1 }) r = some { c with count := 1 } := Store.set_self
  have hsize₁ := hm.sizeAt_setCountAt hr (by decide) hreset
  have hrequest := hm₁.requestSize_eq hself
  obtain ⟨free, hl, -⟩ := hm₁.laid
  obtain ⟨e, halloc⟩ := hl.alloc_answers (Pool.requestSize_eq_ok.mp hrequest).1
  simp only [Action.Completes, Heap.relocate, Action.runOn, ExceptT.run, ExceptT.mk, hread, ok_bind,
    resetCount, hreset, Memory.header_size, ← hsize₁, halloc]
  cases e with
  | error e => exact ⟨_, _, rfl⟩
  | ok e =>
    obtain ⟨new, p⟩ := e
    obtain ⟨hf₂, hfit, hm₂, hsizes⟩ := hm₁.alloc hrequest halloc
    obtain ⟨free', hl', -⟩ := hm₂.laid
    have hread' : Block.read p.memory new = .ok (p.memory.header new) :=
      hl'.read_eq (a := new) (by simp)
    have hhead : Block.headerSize ≤ h₁.pool.memory.sizeAt c.addr := (hm₁.holds hself).header_le
    have hold := hm₂.inside hself
    rw [hsizes r _ hself] at hold
    have hroom : new + p.memory.sizeAt new ≤ p.memory.size :=
      Nat.le_trans (hl'.bounds (a := new) (by simp)).2.1 hl'.inside
    have hnew : new + h₁.pool.memory.sizeAt c.addr ≤ p.memory.size :=
      Nat.le_trans (Nat.add_le_add_left hfit new) hroom
    obtain ⟨h₂, hcopy⟩ := hm₂.toStored.copyTo_answers hself hhead hold hnew (p.memory.sizeAt new)
    simp only [ok_bind, Heap.block, memory_eq, hread', Memory.header_size, hcopy]
    exact ⟨_, _, rfl⟩

theorem Stored.edges_le (hs : h.Stored s) (q : Reference) : edges s.held q ≤ h.bytes := by
  rw [edges.eq_entries hs.small fun r => hs.held_eq_nil, bytes, ← Table.map_entries, List.map_map]
  refine List.sum_le_sum fun e he => ?_
  obtain ⟨r, a⟩ := e
  obtain ⟨c, hc, rfl⟩ := hs.get?_eq_some.mp ((Table.mem_entries hs.small).mp he)
  have hroom := (hs.holds hc).room
  calc (s.held r).count q ≤ (s.held r).length := List.count_le_length
    _ ≤ c.content.room := Store.held_eq hc ▸ c.content.length_held_le
    _ ≤ h.pool.memory.sizeAt c.addr := hroom

theorem copies_le (h : Heap) : h.copies ≤ h.table.size :=
  Nat.le_trans (List.length_filter_le ..)
    (Nat.le_trans (List.length_filterMap_le ..) (Nat.le_of_eq Array.length_toList))

theorem edges_copiedEdges_le (h : Heap) (s₀ : Store) (q : Reference) :
    edges (h.copiedEdges s₀) q ≤ edges s₀.held q := by
  refine edges.mono fun r _ => ?_
  rw [copiedEdges]
  split
  · exact Nat.le_refl _
  · exact Nat.zero_le _

structure Countable (s : Store) (roots : List Reference) : Prop where
  closed : ∀ q, s.Reaches roots q → ∃ x, s.content q = some x
  fits : ∀ q, q.isLive = true → roots.count q + edges s.held q < Word.limit

namespace Collecting

theorem meet_completes (hc : Collecting h₁ s₀ roots seen (r :: rest) t h s)
    (hs₀ : Countable s₀ roots) (hseen : seen <+: roots) : (Heap.meet r).Completes h := by
  by_cases hlive : r.isLive = true
  · obtain ⟨x, hx⟩ := hs₀.closed r (hc.waiting r List.mem_cons_self hlive)
    rw [← hc.moving.same] at hx
    obtain ⟨c, hr, rfl⟩ := Store.content_eq_some.mp hx
    simp only [Heap.meet, hlive, Bool.not_true, Bool.false_eq_true, if_false,
      Action.completes_bind, Action.completes_get, Action.ends_get, hc.moving.get?_eq hr,
      Action.completes_ite, Action.completes_update, Action.ends_update, Action.completes_read,
      Action.ends_read, Action.completes_pure, implies_true, and_true, true_and]
    refine ⟨fun hin => ?_, fun hout => ⟨hc.moving.relocate_completes hr, ?_⟩⟩
    · have hcopied := (hc.moving.isCopied_eq hr).trans hin
      have haccounts := hc.accounts r hlive
      rw [if_pos hcopied, Store.count_eq hr, List.count_cons_self] at haccounts
      have hfew := hs₀.fits r hlive
      have hroots := hseen.sublist.count_le r
      have hedges := h.edges_copiedEdges_le s₀ r
      exact hc.moving.retain_answers hr (by omega)
    · have hout' := (hc.moving.isCopied_eq hr).trans (Bool.not_eq_true _ ▸ hout)
      refine (hc.relocate hr hout').imp ?_ fun _ _ _ => trivial
      rintro ⟨new, n⟩ h' ⟨-, -, -, hm, -⟩
      exact ⟨_, bind_eq_ok.mpr ⟨_, hm.kindAt_eq Store.set_self, hm.children_eq Store.set_self⟩⟩
  · simp only [Heap.meet, hlive, Bool.not_false, if_true, Action.completes_pure]

end Collecting

section

variable {P : List Reference → Tally → Heap → Prop} {E : CollectionError → Heap → Prop}

theorem runPending_completes {next : List Reference → Tally → Action CollectionError Tally}
    (hmeet : ∀ {r rest t h}, P (r :: rest) t h →
      (meet r).Completes h ∧ (meet r).Ends h (Next P rest t) E)
    (hnext : ∀ {pending n h}, P pending (t.add n) h → (next pending (t.add n)).Completes h)
    (hP : P pending t h) : (runPending next pending t).Completes h := by
  induction pending generalizing h with
  | nil => exact Action.completes_pure
  | cons r rest ih =>
    simp only [runPending, Action.completes_bind]
    refine ⟨(hmeet hP).1, (hmeet hP).2.imp (fun o h' ho => ?_) fun _ _ _ => trivial⟩
    cases o with
    | none => exact ih ho
    | some p => exact hnext ho

theorem evacuateAll_completes
    (hmeet : ∀ {r rest t h}, P (r :: rest) t h →
      (meet r).Completes h ∧ (meet r).Ends h (Next P rest t) E)
    {most : Nat} (hmost : ∀ {pending t h}, P pending t h → t.survivors ≤ most)
    (copies : Nat) (hcopies : most ≤ t.survivors + copies) (hP : P pending t h) :
    (evacuateAll copies pending t).Completes h := by
  induction copies generalizing pending t h with
  | zero =>
    refine runPending_completes hmeet (fun {_ n _} hP => ?_) hP
    have hle := hmost hP
    simp only [Tally.add] at hle
    omega
  | succ copies ih =>
    refine runPending_completes hmeet (fun {_ n _} hP => ih ?_ hP) hP
    simp only [Tally.add]
    omega

end

namespace Collecting

theorem evacuate_completes {root : Reference} (hc : Collecting h₁ s₀ roots seen [] t h s)
    (hs₀ : Countable s₀ roots) (hseen : seen ++ [root] <+: roots) :
    (Heap.evacuate t root).Completes h := by
  have hroot : root ∈ roots := hseen.subset (List.mem_append_right seen List.mem_cons_self)
  have hmost {pending : List Reference} {t : Tally} {h' : Heap}
      (hstands : Stands h₁ s₀ roots (seen ++ [root]) pending t h') :
      t.survivors ≤ h.table.size := by
    obtain ⟨s', hc'⟩ := hstands
    rw [hc'.tally, hc.frame.slots, ← hc'.frame.slots]
    exact copies_le h'
  simp only [Heap.evacuate, Action.completes_bind, Action.completes_get, Action.ends_get, true_and]
  refine evacuateAll_completes (P := Stands h₁ s₀ roots (seen ++ [root]))
    (E := fun e _ => h₁.Exhausts e) ?_ hmost _ (Nat.le_add_left ..) ⟨s, hc.see hroot⟩
  rintro r rest t h ⟨s, hc⟩
  exact ⟨hc.meet_completes hs₀ hseen, hc.meet⟩

theorem evacuateRoots_completes (hc : Collecting h₁ s₀ roots seen [] t h s)
    (hs₀ : Countable s₀ roots) (hroots : seen ++ rest = roots) :
    (rest.foldlM Heap.evacuate t).Completes h := by
  induction rest generalizing seen t h s with
  | nil => exact Action.completes_pure
  | cons root rest ih =>
    have hseen : seen ++ [root] <+: roots := ⟨rest, by rw [List.append_assoc]; exact hroots⟩
    simp only [List.foldlM_cons, Action.completes_bind]
    refine ⟨hc.evacuate_completes hs₀ hseen, ?_⟩
    refine (hc.evacuate (hroots ▸ by simp)).imp ?_ fun _ _ _ => trivial
    rintro t' h' ⟨s', hc'⟩
    exact ih hc' (by rw [List.append_assoc]; exact hroots)

end Collecting

theorem Sound.collect_completes (hs : h.Sound s) (hroots : Countable s roots) :
    (Heap.collect roots).Completes h ∨
      ¬h.stats.Roomy h.config.halfSize ∧ (Heap.collect roots).runOn h = .error .overflow := by
  obtain ⟨h₁, hflip⟩ := hs.flip_answers
  have hhalved := (hs.flip hflip).1
  have hconfig := (hs.flip hflip).2.2.2.2.2.2.1
  have hstart := hs.collecting roots hflip
  obtain ⟨htallied, hstats⟩ := hs.flip_tallied hflip
  obtain ⟨a, h₂, hrun⟩ := hstart.evacuateRoots_completes hroots (List.nil_append roots)
  have htallies := hstart.evacuateRoots_tallies (List.nil_append roots) htallied
  unfold Heap.collect
  rw [Action.Completes, Action.runOn_bind_ok (Action.runOn_read hs.used_eq),
    Action.runOn_update_bind, hflip, ok_bind]
  cases a with
  | error e => exact .inl ⟨_, _, Action.runOn_bind_error hrun⟩
  | ok t =>
    obtain ⟨⟨s₂, hc⟩, ht, hstats₂⟩ := htallies.good hrun
    have hswept := hc.moving.sweep (hc.frame.halved hhalved)
    have hcopied := hc.moving.copiedBytes_le
    rw [← ht, hc.frame.region, hhalved.size_eq, hconfig] at hcopied
    have hreclaimed : h.bytes - h₂.sweep.bytes ≤ h.config.halfSize :=
      Nat.le_trans (Nat.sub_le ..) hs.bytes_le
    rw [Action.runOn_bind_ok hrun, Action.runOn_update_bind, ok_bind,
      Action.runOn_bind_ok (Action.runOn_read hswept.used_eq), Action.runOn_update_bind]
    have hsame : h₂.sweep.stats = h.stats := hstats₂.trans hstats
    rcases Stats.add_answers (s := h.stats) hcopied hreclaimed with ⟨stats, hadd⟩ | ⟨hfull, hadd⟩
    · exact .inl ⟨_, _, by rw [record, Collection.reclaimed, hsame, hadd]; rfl⟩
    · exact .inr ⟨hfull, by rw [record, Collection.reclaimed, hsame, hadd]; rfl⟩

end Heap
end CountedHeap
