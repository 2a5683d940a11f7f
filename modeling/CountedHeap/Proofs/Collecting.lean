import CountedHeap.Proofs.Edges
import CountedHeap.Proofs.Moving

/-!
What a collection does. While it runs, the count of a value that was copied and the number of times
it still waits to be met add up to the times it was met so far: once for each root that was seen
and once for each edge from a value that was copied. At the end nothing waits, so the copied values
are those that the roots reach and their counts are exact.
-/

namespace CountedHeap

namespace Store

def held (s : Store) (r : Reference) : List Reference := (s.content r).elim [] Content.held

def count (s : Store) (r : Reference) : Nat := (s r).elim 0 Cell.count

inductive Reaches (s : Store) (roots : List Reference) : Reference → Prop
  | root {q} : q ∈ roots → q.isLive = true → s.Reaches roots q
  | edge {r q} : s.Reaches roots r → q ∈ s.held r → q.isLive = true → s.Reaches roots q

variable {s : Store} {r : Reference} {c : Cell}

theorem held_eq (hr : s r = some c) : s.held r = c.content.held := by
  rw [held, content, hr]
  rfl

theorem count_eq (hr : s r = some c) : s.count r = c.count := by
  rw [count, hr]
  rfl

theorem Reaches.isLive {roots : List Reference} (h : s.Reaches roots r) : r.isLive = true := by
  cases h with
  | root _ hlive => exact hlive
  | edge _ _ hlive => exact hlive

end Store

namespace Heap

variable {h h' h₁ : Heap} {s₀ s : Store} {roots seen pending rest : List Reference}
  {r : Reference} {t : Tally}

theorem Stored.held_eq_nil (hs : h.Stored s) (hr : h.table.get? r = none) : s.held r = [] := by
  rw [hs.table, Option.map_eq_none_iff] at hr
  rw [Store.held, Store.content, hr]
  rfl

def copiedEdges (h : Heap) (s₀ : Store) (r : Reference) : List Reference :=
  if h.isCopied r then s₀.held r else []

def Next (P : List Reference → Tally → Heap → Prop) (rest : List Reference) (t : Tally) :
    Option (Nat × List Reference) → Heap → Prop
  | none => P rest t
  | some p => P (p.2 ++ rest) (t.add p.1)

/-- How a collection stands that started from `h₁` with the values of `s₀`. -/
structure Collecting (h₁ : Heap) (s₀ : Store) (roots seen pending : List Reference) (t : Tally)
    (h : Heap) (s : Store) : Prop where
  frame : h₁.SameFrame h
  fits : h₁.bytes ≤ h₁.pool.region.size
  moving : h.Moving h₁.bytes s₀ s
  accounts : ∀ q, q.isLive = true → (if h.isCopied q then s.count q else 0) + pending.count q =
    seen.count q + edges (h.copiedEdges s₀) q
  reached : ∀ q, h.isCopied q = true → s₀.Reaches roots q
  waiting : ∀ q ∈ pending, q.isLive = true → s₀.Reaches roots q
  tally : t.survivors = h.copies

def Stands (h₁ : Heap) (s₀ : Store) (roots seen pending : List Reference) (t : Tally) (h : Heap) :
    Prop :=
  ∃ s, Collecting h₁ s₀ roots seen pending t h s

def Exhausts (h₁ : Heap) (e : CollectionError) : Prop :=
  e = .toSpaceExhausted ⟨Block.headerSize, h₁.pool.region.size⟩ ∧
    h₁.bytes = h₁.pool.region.size

namespace Collecting

theorem skip (hc : Collecting h₁ s₀ roots seen (r :: rest) t h s) (hr : r.isLive = false) :
    Collecting h₁ s₀ roots seen rest t h s := by
  refine ⟨hc.frame, hc.fits, hc.moving, fun q hq => ?_, hc.reached,
    fun q hq => hc.waiting q (List.mem_cons_of_mem _ hq), hc.tally⟩
  have hne : r ≠ q := by
    rintro rfl
    rw [hr] at hq
    cases hq
  have haccounts := hc.accounts q hq
  rwa [List.count_cons_of_ne hne] at haccounts

theorem recount (hc : Collecting h₁ s₀ roots seen (r :: rest) t h s)
    (hcopied : h.isCopied r = true) (hret : h.retain r = .ok h') :
    ∃ s', Collecting h₁ s₀ roots seen rest t h' s' := by
  obtain ⟨c, hr, hf, htable, hm, -⟩ := hc.moving.retain hret
  have hsame : h'.isCopied = h.isCopied := by
    funext q
    simp only [isCopied, htable, hf.contains]
  have hedges : h'.copiedEdges s₀ = h.copiedEdges s₀ := by
    funext q
    simp only [copiedEdges, hsame]
  refine ⟨_, hc.frame.trans hf, hc.fits, hm, fun q hq => ?_, ?_,
    fun q hq => hc.waiting q (List.mem_cons_of_mem _ hq), ?_⟩
  · have haccounts := hc.accounts q hq
    rw [hsame, hedges, ← haccounts]
    by_cases hqr : q = r
    · subst hqr
      have hmore : (s.set q { c with count := c.count + 1 }).count q = c.count + 1 :=
        Store.count_eq Store.set_self
      rw [if_pos hcopied, if_pos hcopied, hmore, Store.count_eq hr, List.count_cons_self]
      omega
    · rw [List.count_cons_of_ne (Ne.symm hqr), Store.count, Store.set_of_ne hqr]
      rfl
  · rw [hsame]
    exact hc.reached
  · rw [hc.tally, copies, copies, htable, hf.contains]

theorem advance (hc : Collecting h₁ s₀ roots seen (r :: rest) t h s) {c : Cell} {new n : Nat}
    (hr : s r = some c) (hout : h.isCopied r = false)
    (hd : Relocated h h₁.bytes s₀ s r c new h') :
    Collecting h₁ s₀ roots seen (c.content.held ++ rest) (t.add n) h'
      (s.set r ⟨new, 1, c.content⟩) := by
  obtain ⟨hf, hnew, hcopies, hm, -⟩ := hd
  have hlive := hc.moving.isLive hr
  have hheld : s₀.held r = c.content.held := by
    rw [Store.held, ← hc.moving.same r, Store.content, hr]
    rfl
  have hreach : s₀.Reaches roots r := hc.waiting r List.mem_cons_self hlive
  have hself : h'.isCopied r = true := (hm.isCopied_eq Store.set_self).trans hnew
  have hother : ∀ q, q ≠ r → h'.isCopied q = h.isCopied q := by
    intro q hq
    simp only [isCopied, hm.table, hc.moving.table, Store.set_of_ne hq, hf.contains]
  -- The edges of `r` count from now on, and those of no other value besides.
  have hedges : h'.copiedEdges s₀ = Function.update (h.copiedEdges s₀) r c.content.held := by
    funext q
    by_cases hq : q = r
    · subst hq
      rw [Function.update_self, copiedEdges, hself, if_pos rfl, hheld]
    · rw [Function.update_of_ne hq, copiedEdges, copiedEdges, hother q hq]
  refine ⟨hc.frame.trans hf, hc.fits, hm, fun q hq => ?_, fun q hq => ?_,
    fun q hq hqlive => ?_, ?_⟩
  · have haccounts := hc.accounts q hq
    have hmore := @edges.update (h.copiedEdges s₀) r q hlive c.content.held
    have hnone : h.copiedEdges s₀ r = [] := by rw [copiedEdges, hout]; rfl
    rw [hnone, List.count_nil] at hmore
    rw [hedges, List.count_append]
    by_cases hqr : q = r
    · subst hqr
      have hone : (s.set q ⟨new, 1, c.content⟩).count q = 1 := Store.count_eq Store.set_self
      rw [hself, if_pos rfl, hone]
      rw [hout, List.count_cons_self] at haccounts
      simp only [Bool.false_eq_true, if_false] at haccounts
      omega
    · rw [hother q hqr, Store.count, Store.set_of_ne hqr]
      rw [List.count_cons_of_ne (Ne.symm hqr), Store.count] at haccounts
      omega
  · by_cases hqr : q = r
    · subst hqr
      exact hreach
    · rw [hother q hqr] at hq
      exact hc.reached q hq
  · rcases List.mem_append.mp hq with hq | hq
    · exact .edge hreach (hheld ▸ hq) hqlive
    · exact hc.waiting q (List.mem_cons_of_mem _ hq) hqlive
  · rw [hcopies, ← hc.tally]
    rfl

theorem relocate (hc : Collecting h₁ s₀ roots seen pending t h s) {c : Cell} (hr : s r = some c)
    (hout : h.isCopied r = false) :
    (Heap.relocate r c.addr).Ends h (fun p h' => Relocated h h₁.bytes s₀ s r c p.1 h') fun e _ =>
      h₁.Exhausts e ∧ h.copiedBytes = h₁.pool.region.size ∧
        h.pool.memory.sizeAt c.addr = Block.headerSize := by
  have hends := hc.moving.relocate (hc.frame.region ▸ hc.fits) hr
    ((hc.moving.isCopied_eq hr).symm.trans hout)
  rw [hc.frame.region] at hends
  exact hends.imp (fun _ _ hd => hd) fun e _ he => ⟨⟨he.1, he.2.1⟩, he.2.2⟩

/-- A reference that is met names no value, or one that is copied already, or one that moves and
puts what it holds in its place. -/
theorem meet_ends (hc : Collecting h₁ s₀ roots seen pending t h s)
    {good : Option (Nat × List Reference) → Heap → Prop} {bad : CollectionError → Heap → Prop}
    (hdead : r.isLive = false → good none h)
    (hcopied : ∀ h', h.isCopied r = true → h.retain r = .ok h' → good none h')
    (hmoved : ∀ c, s r = some c → h.isCopied r = false → (Heap.relocate r c.addr).Ends h
      (fun p h' => good (some (p.2, c.content.held)) h') bad) :
    (meet r).Ends h good bad := by
  by_cases hlive : r.isLive = true
  case neg =>
    rw [Bool.not_eq_true] at hlive
    simp only [Heap.meet, hlive, Bool.not_false, if_true, Action.ends_pure]
    exact hdead hlive
  simp only [Heap.meet, hlive, Bool.not_true, Bool.false_eq_true, if_false, Action.ends_bind,
    Action.ends_get]
  cases hr : s r with
  | none =>
    rw [hc.moving.get?_eq_none hr]
    simp only [Action.ends_fault]
  | some c =>
    rw [hc.moving.get?_eq hr]
    simp only [Action.ends_bind, Action.ends_get, Action.ends_ite, Action.ends_update,
      Action.ends_pure, Action.ends_read, bind_eq_ok]
    have heq := hc.moving.isCopied_eq hr
    refine ⟨fun hin h' hret => hcopied h' (heq.trans hin) hret, fun hout => ?_⟩
    have hout' := heq.trans (Bool.not_eq_true _ ▸ hout)
    refine ((hc.relocate hr hout').and (hmoved c hr hout')).imp ?_ fun _ _ he => he.2
    rintro ⟨new, n⟩ h' ⟨hd, hgood⟩ held ⟨k, hk, hheld⟩
    rw [hd.moving.kindAt_eq Store.set_self] at hk
    cases hk
    rw [hd.moving.children_eq Store.set_self] at hheld
    cases hheld
    exact hgood

theorem meet (hc : Collecting h₁ s₀ roots seen (r :: rest) t h s) :
    (meet r).Ends h (Next (Stands h₁ s₀ roots seen) rest t) fun e _ => h₁.Exhausts e := by
  refine hc.meet_ends (fun hdead => ⟨s, hc.skip hdead⟩)
    (fun h' hcopied hret => hc.recount hcopied hret) fun c hr hout => ?_
  exact (hc.relocate hr hout).imp (fun p h' hd => ⟨_, hc.advance hr hout hd⟩) fun _ _ he => he.1

end Collecting

section

variable {P : List Reference → Tally → Heap → Prop} {E : CollectionError → Heap → Prop}

theorem runPending_ends {next : List Reference → Tally → Action CollectionError Tally}
    (hmeet : ∀ {r rest t h}, P (r :: rest) t h → (meet r).Ends h (Next P rest t) E)
    (hnext : ∀ {pending t h}, P pending t h →
      (next pending t).Ends h (fun t' h' => P [] t' h') E)
    (hP : P pending t h) : (runPending next pending t).Ends h (fun t' h' => P [] t' h') E := by
  induction pending generalizing h with
  | nil => exact Action.ends_pure.mpr hP
  | cons r rest ih =>
    simp only [runPending, Action.ends_bind]
    refine (hmeet hP).imp (fun o h' ho => ?_) fun _ _ he => he
    cases o with
    | none => exact ih ho
    | some p => exact hnext ho

theorem evacuateAll_ends
    (hmeet : ∀ {r rest t h}, P (r :: rest) t h → (meet r).Ends h (Next P rest t) E)
    (copies : Nat) (hP : P pending t h) :
    (evacuateAll copies pending t).Ends h (fun t' h' => P [] t' h') E := by
  induction copies generalizing pending t h with
  | zero =>
    refine runPending_ends hmeet (fun _ => ?_) hP
    simp only [Action.ends_fault]
  | succ copies ih => exact runPending_ends hmeet ih hP

end

namespace Collecting

theorem see {root : Reference} (hc : Collecting h₁ s₀ roots seen [] t h s) (hroot : root ∈ roots) :
    Collecting h₁ s₀ roots (seen ++ [root]) [root] t h s := by
  refine ⟨hc.frame, hc.fits, hc.moving, fun q hq => ?_, hc.reached, fun q hq hlive => ?_, hc.tally⟩
  · have haccounts := hc.accounts q hq
    rw [List.count_nil] at haccounts
    rw [List.count_append]
    omega
  · rw [List.mem_singleton] at hq
    exact .root (hq ▸ hroot) hlive

theorem evacuate {root : Reference} (hc : Collecting h₁ s₀ roots seen [] t h s)
    (hroot : root ∈ roots) :
    (evacuate t root).Ends h
      (Stands h₁ s₀ roots (seen ++ [root]) []) fun e _ => h₁.Exhausts e := by
  simp only [Heap.evacuate, Action.ends_bind, Action.ends_get]
  refine evacuateAll_ends ?_ _ ⟨s, hc.see hroot⟩
  rintro r rest t h ⟨s, hc⟩
  exact hc.meet

theorem evacuateRoots (hc : Collecting h₁ s₀ roots seen [] t h s) (hroots : seen ++ rest = roots) :
    (rest.foldlM Heap.evacuate t).Ends h
      (Stands h₁ s₀ roots roots []) fun e _ => h₁.Exhausts e := by
  induction rest generalizing seen t h s with
  | nil =>
    rw [List.append_nil] at hroots
    subst hroots
    exact Action.ends_pure.mpr ⟨s, hc⟩
  | cons root rest ih =>
    simp only [List.foldlM_cons, Action.ends_bind]
    refine (hc.evacuate (hroots ▸ by simp)).imp ?_ fun _ _ he => he
    rintro t' h' ⟨s', hc'⟩
    exact ih hc' (by rw [List.append_assoc]; exact hroots)

theorem copied_iff (hc : Collecting h₁ s₀ roots roots [] t h s) (q : Reference) :
    h.isCopied q = true ↔ s₀.Reaches roots q := by
  refine ⟨hc.reached q, fun hreach => ?_⟩
  have hpos : ∀ q, q.isLive = true → 0 < roots.count q + edges (h.copiedEdges s₀) q →
      h.isCopied q = true := by
    intro q hlive hpos
    have haccounts := hc.accounts q hlive
    by_contra hnot
    rw [if_neg hnot, List.count_nil] at haccounts
    omega
  induction hreach with
  | root hmem hlive => exact hpos _ hlive (Nat.add_pos_left (List.count_pos_iff.mpr hmem) _)
  | @edge r q hr hmem hlive ih =>
    refine hpos q hlive (Nat.add_pos_right _ (edges.pos_of_mem hr.isLive ?_))
    rw [copiedEdges, if_pos ih]
    exact hmem

theorem count_eq (hc : Collecting h₁ s₀ roots roots [] t h s) {q : Reference}
    (hq : h.isCopied q = true) (hlive : q.isLive = true) :
    s.count q = roots.count q + edges (h.copiedEdges s₀) q := by
  have haccounts := hc.accounts q hlive
  rwa [if_pos hq, List.count_nil, Nat.add_zero] at haccounts

end Collecting

theorem Sound.bounds (hs : h.Sound s) {c : Cell} (hr : s r = some c) :
    h.active.start ≤ c.addr ∧ c.addr + h.pool.memory.sizeAt c.addr ≤ h.active.stop := by
  obtain ⟨free, hl⟩ := hs.laid
  have hb := hl.bounds (List.mem_append_right free (Table.mem_addresses_of_get? (hs.get?_eq hr)))
  rw [hs.halved.region] at hb
  exact ⟨hb.1, hb.2.1⟩

theorem Halved.size_eq (hh : h.Halved) : h.pool.region.size = h.config.halfSize := by
  rw [hh.region, Span.size]
  rcases hh.halves with ⟨hactive, -⟩ | ⟨hactive, -⟩
  all_goals
    rw [hactive]
    simp only
    omega

theorem Sound.used_eq (hs : h.Sound s) : h.used = .ok h.bytes :=
  let ⟨_, hl⟩ := hs.laid
  hl.used_eq

theorem Sound.bytes_le (hs : h.Sound s) : h.bytes ≤ h.config.halfSize := by
  obtain ⟨free, hl⟩ := hs.laid
  have hsum := hl.sum_sizes
  rw [← hs.halved.size_eq, Span.size, bytes]
  omega

theorem Sound.flip (hs : h.Sound s) (hf : h.flip = .ok h') :
    h'.Halved ∧ h'.bytes = h.bytes ∧ h'.Moving h'.bytes s s ∧ (∀ q, h'.isCopied q = false) ∧
      h'.copies = 0 ∧ h'.table = h.table ∧ h'.config = h.config ∧ h'.active = h.spare ∧
      SameSizes h s h' := by
  simp only [Heap.flip, bind_eq_ok, pure_eq_ok] at hf
  obtain ⟨p, hactivate, rfl⟩ := hf
  obtain ⟨hl, hregion, -, hin, hle, hc⟩ := Pool.activate_laid hs.bound hactivate
  have hstop : h.spare.stop = h.spare.start + h.config.halfSize ∧
      (h.active.stop ≤ h.spare.start ∨ h.spare.stop ≤ h.active.start) := by
    rcases hs.halved.halves with ⟨hactive, hspare⟩ | ⟨hactive, hspare⟩
    all_goals
      rw [hactive, hspare]
      simp only
      omega
  have hsize : h.spare.size = h.config.halfSize := by
    rw [Span.size, hstop.1, Nat.add_sub_cancel_left]
  have hregion' : p.region = h.spare := by
    rw [hregion, hsize, roundDown_halfSize, ← hstop.1]
  have hhead := hl.bounds (a := h.spare.start) (by simp)
  rw [hregion'] at hhead
  have houtside : ∀ q d, s q = some d →
      d.addr + h.pool.memory.sizeAt d.addr ≤ p.region.start ∨ p.region.stop ≤ d.addr := by
    intro q d hq
    have hb := hs.bounds hq
    rw [hregion']
    omega
  have hkept : ∀ q d, s q = some d → ∀ i, d.addr ≤ i →
      i < d.addr + h.pool.memory.sizeAt d.addr → p.memory.byte i = h.pool.memory.byte i := by
    intro q d hq i hlo hhi
    have hout := houtside q d hq
    rw [hregion'] at hout
    exact hc.byte_eq i (by omega)
  have hsizes : ∀ q d, s q = some d → p.memory.sizeAt d.addr = h.pool.memory.sizeAt d.addr :=
    fun q d hq => Memory.sizeAt_of_header ((hs.holds hq).header_congr (hkept q d hq))
  have hnot : ∀ q d, s q = some d → p.contains d.addr = false := by
    intro q d hq
    have hroom := (hs.holds hq).header_le
    have hout := houtside q d hq
    simp only [Block.headerSize] at hroom
    rw [Bool.eq_false_iff, ne_eq, Pool.contains_iff]
    omega
  have hnone : h.table.addresses.filter p.contains = [] := by
    refine List.filter_eq_nil_iff.mpr fun a ha => ?_
    obtain ⟨q, hq⟩ := (Table.mem_addresses hs.small).mp ha
    obtain ⟨d, hd, rfl⟩ := hs.get?_eq_some.mp hq
    rw [hnot q d hd]
    exact Bool.false_ne_true
  refine ⟨⟨hs.halved.halves.symm.imp And.symm And.symm, ?_, hregion', hs.halved.roomy⟩,
    hs.toStored.bytes_congr hsizes,
    ⟨?_, fun _ => rfl, fun {q d} hq => ?_, ⟨[h.spare.start], ?_, ?_⟩, ?_⟩, ?_, ?_, rfl, rfl, rfl,
    fun hq => hsizes _ _ hq⟩
  · rw [show p.memory.size = h.pool.memory.size from hc.size_eq]
    exact hs.halved.inside
  · exact hs.toStored.restrict (fun _ _ hq => hq) hs.table hs.small hc.size_eq hkept
  · obtain ⟨free, hlaid⟩ := hs.laid
    show 8 ∣ p.memory.sizeAt d.addr
    rw [hsizes q d hq]
    exact (hlaid.bounds (List.mem_append_right free
      (Table.mem_addresses_of_get? (hs.get?_eq hq)))).2.2.2.1
  · rw [show h.table.addresses.filter p.contains = [] from hnone]
    exact hl
  · exact ⟨Nat.le_refl _, fun _ => rfl, Nat.le_add_right _ _⟩
  · intro q d hq _
    rw [hsizes q d hq]
    exact houtside q d hq
  · intro q
    show (h.table.get? q).any p.contains = false
    rw [hs.table]
    cases hq : s q with
    | none => simp [hq]
    | some d => simp [hq, hnot q d hq]
  · rw [copies, hnone]
    rfl

theorem Sound.collecting (hs : h.Sound s) (roots : List Reference) (hflip : h.flip = .ok h₁) :
    Collecting h₁ s roots [] [] {} h₁ s := by
  obtain ⟨hhalved, hbytes, hm, hnone, hcopies, -, hconfig, -⟩ := hs.flip hflip
  have hfits : h₁.bytes ≤ h₁.pool.region.size := by
    rw [hbytes, hhalved.size_eq, hconfig]
    exact hs.bytes_le
  refine ⟨.refl h₁, hfits, hm, fun q _ => ?_, fun q hq => ?_,
    fun q hq => absurd hq List.not_mem_nil, hcopies.symm⟩
  · rw [hnone, edges.eq_zero fun r _ => ?_]
    · rfl
    · rw [copiedEdges, hnone]
      exact List.not_mem_nil
  · rw [hnone] at hq
    cases hq

theorem Moving.sweep {total : Nat} (hm : h.Moving total s₀ s) (hhalved : h.Halved) :
    h.sweep.Sound (fun q => if h.isCopied q then s q else none) := by
  obtain ⟨hget, haddresses, hsize⟩ := Table.keepIf_eq h.table h.pool.contains
  obtain ⟨free, hl, -⟩ := hm.laid
  refine ⟨hm.toStored.restrict (fun q d hq => ?_) ?_ ?_ rfl (fun _ _ _ _ _ _ => rfl), ⟨free, ?_⟩,
    hhalved.halves, hhalved.inside, hhalved.region, hhalved.roomy⟩
  · split at hq
    · exact hq
    · cases hq
  · show (h.table.keepIf h.pool.contains).2.get? = _
    rw [hget]
    funext q
    rw [isCopied, hm.table]
    cases hq : s q with
    | none => simp [hq]
    | some d => cases hd : h.pool.contains d.addr <;> simp [hq, hd, Option.filter]
  · show (h.table.keepIf h.pool.contains).2.size ≤ _
    rw [hsize]
    exact hm.small
  · show h.pool.Laid free (h.table.keepIf h.pool.contains).2.addresses
    rw [haddresses]
    exact hl

theorem record_eq_ok {col : Collection} : h.record t col = .ok h' ↔
    ∃ stats, h.stats.add t.copied col.reclaimed = .ok stats ∧ { h with stats } = h' := by
  simp only [record, bind_eq_ok, pure_eq_ok]

theorem Sound.restat (hs : h.Sound s) (stats : Stats) : { h with stats }.Sound s :=
  ⟨⟨hs.bound, hs.small, hs.table, hs.holds, hs.count, hs.inside, hs.aligned, hs.apart⟩, hs.laid,
    hs.halved.halves, hs.halved.inside, hs.halved.region, hs.halved.roomy⟩

/-- What a collection leaves behind: the values that the roots reach, each with the contents it
had and with a count of the ways in which it is reached. -/
structure Collected (h : Heap) (s : Store) (roots : List Reference) (c : Collection) (h' : Heap)
    (s' : Store) : Prop where
  sound : h'.Sound s'
  reached : ∀ q, (∃ c, s' q = some c) ↔ s.Reaches roots q
  content : ∀ q c, s' q = some c → s.content q = some c.content
  count : ∀ q c, s' q = some c → c.count = roots.count q + edges s'.held q
  survivors : c.survivors = h'.refsUsed
  slots : h'.table.size = h.table.size
  config : h'.config = h.config
  active : h'.active = h.spare

theorem Sound.collect (hs : h.Sound s) (roots : List Reference) :
    (collect roots).Ends h (fun c h' => ∃ s', h.Collected s roots c h' s') fun e _ =>
      e = .toSpaceExhausted ⟨Block.headerSize, h.config.halfSize⟩ ∧
        h.bytes = h.config.halfSize := by
  simp only [Heap.collect, Action.ends_bind, Action.ends_read, Action.ends_update,
    Action.ends_pure, Except.ok.injEq]
  rintro usedBefore _ h₁ hflip
  obtain ⟨hhalved, hbytes, -, -, -, htable, hconfig, hactive, -⟩ := hs.flip hflip
  have hregion : h₁.pool.region.size = h.config.halfSize := by rw [hhalved.size_eq, hconfig]
  have hexhausts : ∀ e, h₁.Exhausts e →
      e = .toSpaceExhausted ⟨Block.headerSize, h.config.halfSize⟩ ∧
        h.bytes = h.config.halfSize := fun e he => by rwa [Exhausts, hregion, hbytes] at he
  refine ((hs.collecting roots hflip).evacuateRoots (List.nil_append roots)).imp ?_
    fun e _ he => hexhausts e he
  rintro t h₂ ⟨s₂, hc⟩ _ rfl usedAfter _ _ hrecord
  obtain ⟨stats, -, rfl⟩ := record_eq_ok.mp hrecord
  -- What was not copied has lost its reference: the store is cut down to the copies.
  have hswept := hc.moving.sweep (hc.frame.halved hhalved)
  have hsome : ∀ q c, (if h₂.isCopied q then s₂ q else none) = some c ↔
      h₂.isCopied q = true ∧ s₂ q = some c := by
    intro q c
    by_cases hq : h₂.isCopied q = true <;> simp [hq]
  have hlive : ∀ q, h₂.isCopied q = true → ∃ c, s₂ q = some c := by
    intro q hq
    cases hc₂ : s₂ q with
    | none =>
      rw [isCopied, hc.moving.get?_eq_none hc₂] at hq
      cases hq
    | some c => exact ⟨c, rfl⟩
  refine ⟨_, hswept.restat stats, fun q => ?_, fun q c hq => ?_, fun q c hq => ?_, ?_, ?_, ?_, ?_⟩
  · rw [← hc.copied_iff q]
    simp only [hsome, exists_and_left]
    exact ⟨fun hq => hq.1, fun hq => ⟨hq, hlive q hq⟩⟩
  · obtain ⟨-, hq⟩ := (hsome q c).mp hq
    rw [← hc.moving.same q, Store.content, hq]
    rfl
  · obtain ⟨hcopied, hq⟩ := (hsome q c).mp hq
    have hedges : h₂.copiedEdges s =
        Store.held fun q => if h₂.isCopied q then s₂ q else none := by
      funext r
      rw [copiedEdges, Store.held, ← hc.moving.same r, Store.held, Store.content, Store.content]
      split <;> rfl
    rw [← Store.count_eq hq, hc.count_eq hcopied (hc.moving.isLive hq), hedges]
  · rw [refsUsed, Table.used_eq]
    show t.survivors = (h₂.table.keepIf h₂.pool.contains).2.addresses.length
    rw [(Table.keepIf_eq _ _).2.1, hc.tally, copies]
  · show (h₂.table.keepIf h₂.pool.contains).2.size = _
    rw [(Table.keepIf_eq _ _).2.2, hc.frame.slots, htable]
  · show h₂.config = _
    rw [hc.frame.config, hconfig]
  · show h₂.active = _
    rw [hc.frame.active, hactive]

end Heap
end CountedHeap
