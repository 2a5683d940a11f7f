import CountedHeap.Proofs.Compaction
import CountedHeap.Proofs.Exhaustion

/-!
What a collection costs. It leaves what is free in one piece, so whatever could be served before it
can be served after it, unless the value that is copied last swallows a header more than it had.
That takes memory only where all values survive and a single block of the least size was free.
-/

namespace CountedHeap

theorem sum_grants_eq {room : Nat} {sizes : List Nat} (hsizes : sizes ≠ [])
    (hpos : ∀ n ∈ sizes, 0 < n) (hfit : sizes.sum ≤ room)
    (hleft : room ≤ sizes.sum + Block.headerSize) : (grants room sizes).sum = room := by
  induction sizes generalizing room with
  | nil => exact absurd rfl hsizes
  | cons size rest ih =>
    rw [List.sum_cons] at hfit hleft
    cases rest with
    | nil =>
      rw [List.sum_nil] at hleft
      rw [grants, grants, List.sum_singleton, grant, if_neg (by omega)]
    | cons next more =>
      by_cases hcut : Block.headerSize < room - size
      · have hrest : (grants (room - size) (next :: more)).sum = room - size :=
          ih (List.cons_ne_nil _ _) (fun n hn => hpos n (List.mem_cons_of_mem _ hn)) (by omega)
            (by omega)
        rw [grants, grant, if_pos hcut, List.sum_cons, hrest]
        omega
      · rw [grants, grant, if_neg hcut, List.sum_cons]
        have hnone := sum_grants_le (room - room) (next :: more)
        omega

theorem sum_add_le_of_sublist {k : Nat} {xs ys : List Nat} (hsub : xs.Sublist ys)
    (hk : ∀ n ∈ ys, k ≤ n) : xs.sum + k * (ys.length - xs.length) ≤ ys.sum := by
  induction hsub with
  | slnil => simp
  | @cons xs ys y hsub ih =>
    have hrest := ih fun n hn => hk n (List.mem_cons_of_mem _ hn)
    have hy := hk y List.mem_cons_self
    have hlength := hsub.length_le
    rw [List.sum_cons, List.length_cons, Nat.sub_add_comm hlength, Nat.mul_succ]
    omega
  | @cons_cons xs ys y hsub ih =>
    have hrest := ih fun n hn => hk n (List.mem_cons_of_mem _ hn)
    simp only [List.sum_cons, List.length_cons, Nat.add_sub_add_right]
    omega

theorem grants_of_lt {room : Nat} {sizes : List Nat}
    (hlt : sizes.sum + Block.headerSize < room) : grants room sizes = sizes := by
  induction sizes generalizing room with
  | nil => rfl
  | cons size rest ih =>
    rw [List.sum_cons] at hlt
    rw [grants, grant, if_pos (by omega), ih (by omega)]

namespace Heap

/-- All that is free is one block of the least size, and every value survives. -/
structure Crammed (h : Heap) (col : Collection) : Prop where
  free : col.usedBefore + Block.headerSize = h.config.halfSize
  kept : col.survivors = h.refsUsed
  some : 0 < col.survivors

/-- No more memory is in use than before, and what could be served can still be served. -/
structure Spared (h : Heap) (col : Collection) (h' : Heap) : Prop where
  used : col.usedAfter ≤ col.usedBefore
  reclaimed : col.usedBefore = col.usedAfter + col.reclaimed
  serves : ∀ size, h.pool.Serves size → h'.pool.Serves size

/-- The free block of the least size is gone, and nothing came free instead. -/
structure Swallowed (h : Heap) (col : Collection) (h' : Heap) : Prop where
  used : col.usedAfter = col.usedBefore + Block.headerSize
  reclaimed : col.reclaimed = 0
  served : ∀ size, h.pool.Serves size ↔ size ≤ Block.headerSize
  serves : ∀ size, ¬h'.pool.Serves size

variable {h h' : Heap} {s s' : Store} {roots order : List Reference} {col : Collection}
  {free : List Nat}

theorem Sound.free_add_bytes (hs : h.Sound s) (hl : h.pool.Laid free h.table.addresses) :
    (free.map h.pool.memory.sizeAt).sum + h.bytes = h.config.halfSize := by
  have hsum := hl.sum_sizes
  have hhalf := hs.halved.size_eq
  simp only [Span.size] at hhalf
  rw [bytes]
  omega

theorem Sound.free_le (hs : h.Sound s) (hl : h.pool.Laid free h.table.addresses) {a : Nat}
    (ha : a ∈ free) : h.pool.memory.sizeAt a + h.bytes ≤ h.config.halfSize := by
  have hsum := hs.free_add_bytes hl
  have hle := List.le_sum_of_mem (List.mem_map_of_mem (f := h.pool.memory.sizeAt) ha)
  omega

theorem Sound.bytes_add_le (hs : h.Sound s) (hlt : h.bytes < h.config.halfSize) :
    h.bytes + Block.headerSize ≤ h.config.halfSize := by
  obtain ⟨free, hl⟩ := hs.laid
  have hsum := hs.free_add_bytes hl
  cases free with
  | nil =>
    rw [List.map_nil, List.sum_nil] at hsum
    omega
  | cons a free =>
    have hhead := (hl.bounds (a := a) (by simp)).2.2.1
    have hle := hs.free_le hl (a := a) (by simp)
    omega

section Amounts

variable (hs : h.Sound s) (hthere : ∀ q ∈ order, ∃ c, s q = some c) (hnodup : order.Nodup)
include hs hthere hnodup

theorem Sound.sum_footprint_add_le (hless : order.length ≠ h.refsUsed) :
    (order.map h.footprint).sum + Block.headerSize ≤ h.bytes := by
  obtain ⟨free, hl⟩ := hs.laid
  obtain ⟨part, hpart, hlength, hsum⟩ := hs.exists_sublist hthere hnodup
  have hbound := sum_add_le_of_sublist (hpart.map h.pool.memory.sizeAt)
    (List.forall_mem_map.mpr fun a ha => (hl.bounds (List.mem_append_right _ ha)).2.2.1)
  have hle := hpart.length_le
  rw [refsUsed, Table.used_eq] at hless
  rw [List.length_map, List.length_map, hsum] at hbound
  have hmul := Nat.le_mul_of_pos_right Block.headerSize
    (show 0 < h.table.addresses.length - part.length by omega)
  exact Nat.le_trans (Nat.add_le_add_left hmul _) hbound

theorem Sound.sum_footprint_eq (hall : order.length = h.refsUsed) :
    (order.map h.footprint).sum = h.bytes := by
  obtain ⟨part, hpart, hlength, hsum⟩ := hs.exists_sublist hthere hnodup
  rw [refsUsed, Table.used_eq, ← hlength] at hall
  rw [← hsum, hpart.eq_of_length hall, bytes]

end Amounts

namespace Arranged

variable (harr : h.Arranged s roots col h' order)
include harr

theorem usedAfter_of_lt (hlt : (order.map h.footprint).sum + Block.headerSize < h.config.halfSize) :
    col.usedAfter = (order.map h.footprint).sum := by
  rw [harr.total, harr.granted, grants_of_lt hlt]

theorem usedAfter_of_le (hs : h.Sound s) (hthere : ∀ q ∈ order, ∃ c, s q = some c)
    (hsome : order ≠ []) (hfit : (order.map h.footprint).sum ≤ h.config.halfSize)
    (hle : h.config.halfSize ≤ (order.map h.footprint).sum + Block.headerSize) :
    col.usedAfter = h.config.halfSize := by
  have hpos : ∀ n ∈ order.map h.footprint, 0 < n := by
    refine List.forall_mem_map.mpr fun r hr => ?_
    obtain ⟨c, hc⟩ := hthere r hr
    have hhead := (hs.holds hc).header_le
    rw [hs.footprint_eq hc]
    simp only [Block.headerSize] at hhead
    omega
  rw [harr.total, harr.granted]
  exact sum_grants_eq (List.map_eq_nil_iff.not.mpr hsome) hpos hfit hle

theorem there (hcol : h.Collected s roots col h' s') : ∀ q ∈ order, ∃ c, s q = some c := by
  intro q hq
  obtain ⟨c, hc⟩ := hcol.sound.occupied_iff.mp ((harr.occupied q).mpr hq)
  obtain ⟨d, hd, -⟩ := Store.content_eq_some.mp (hcol.content q c hc)
  exact ⟨d, hd⟩

theorem usedBefore_eq (hs : h.Sound s) : col.usedBefore = h.bytes :=
  Except.ok.inj (harr.before.symm.trans hs.used_eq)

theorem serves_of_le (hs : h.Sound s) (hs' : h'.Sound s') (hle : col.usedAfter ≤ col.usedBefore)
    {size : Nat} (hserves : h.pool.Serves size) : h'.pool.Serves size := by
  obtain ⟨free, hl⟩ := hs.laid
  obtain ⟨n, hn, a, ha, hfit⟩ := hl.serves_iff.mp hserves
  obtain ⟨hsize, rfl⟩ := Pool.requestSize_eq_ok.mp hn
  have hfree := hs.free_le hl ha
  have hbefore := harr.usedBefore_eq hs
  refine (harr.serves_iff hs' size).mpr ⟨hsize, ?_⟩
  rw [harr.config]
  change max ((size + 7) / 8 * 8) 24 ≤ _
  omega

theorem spared (hs : h.Sound s) (hcol : h.Collected s roots col h' s')
    (hfree : ¬h.Crammed col) : h.Spared col h' := by
  have hthere := harr.there hcol
  have hnodup := harr.visits.nodup List.nodup_nil
  have hbefore := harr.usedBefore_eq hs
  have hsum := hs.sum_footprint_le hthere hnodup
  have hbytes := hs.bytes_le
  have hused : col.usedAfter ≤ col.usedBefore := by
    by_cases hlt : (order.map h.footprint).sum + Block.headerSize < h.config.halfSize
    · rw [harr.usedAfter_of_lt hlt, hbefore]
      exact hsum
    by_cases hfull : h.bytes = h.config.halfSize
    · rw [hbefore, hfull]
      exact harr.used_le
    -- All that is not in use is a block of the least size, and the survivors take the rest.
    have hroom := hs.bytes_add_le (by omega)
    by_cases hsome : order = []
    · rw [harr.total, hsome]
      exact Nat.zero_le _
    by_cases hall : order.length = h.refsUsed
    · refine absurd ⟨by omega, harr.survivors.trans hall, ?_⟩ hfree
      rw [harr.survivors]
      exact List.length_pos_iff.mpr hsome
    · have hleft := hs.sum_footprint_add_le hthere hnodup hall
      simp only [Block.headerSize] at *
      omega
  exact ⟨hused, (Nat.add_sub_of_le hused).symm, fun _ => harr.serves_of_le hs hcol.sound hused⟩

theorem swallowed (hs : h.Sound s) (hcol : h.Collected s roots col h' s')
    (hcrammed : h.Crammed col) : h.Swallowed col h' := by
  obtain ⟨hfree, hkept, hsome⟩ := hcrammed
  have hthere := harr.there hcol
  have hall : order.length = h.refsUsed := harr.survivors.symm.trans hkept
  have hbefore := harr.usedBefore_eq hs
  have hsum := hs.sum_footprint_eq hthere (harr.visits.nodup List.nodup_nil) hall
  have hafter : col.usedAfter = h.config.halfSize := by
    refine harr.usedAfter_of_le hs hthere ?_ (by omega) (by omega)
    exact List.length_pos_iff.mp (harr.survivors ▸ hsome)
  refine ⟨hafter.trans hfree.symm, ?_, fun size => ?_, fun size hserves => ?_⟩
  · rw [Collection.reclaimed, hafter]
    omega
  · obtain ⟨free, hl⟩ := hs.laid
    have hfreeSum := hs.free_add_bytes hl
    rw [hl.serves_iff]
    constructor
    · rintro ⟨n, hn, a, ha, hfit⟩
      obtain ⟨-, rfl⟩ := Pool.requestSize_eq_ok.mp hn
      have hle := hs.free_le hl ha
      simp only [Block.headerSize] at *
      omega
    · intro hsize
      obtain ⟨a, ha⟩ : ∃ a, a ∈ free := by
        refine List.exists_mem_of_ne_nil free fun hnil => ?_
        rw [hnil, List.map_nil, List.sum_nil] at hfreeSum
        simp only [Block.headerSize] at hfree
        omega
      have hhead := (hl.bounds (List.mem_append_left _ ha)).2.2.1
      simp only [Block.headerSize] at *
      exact ⟨_, Pool.requestSize_eq_ok.mpr ⟨by simp only [Word.limit]; omega, rfl⟩, a, ha, by omega⟩
  · have hfit := ((harr.serves_iff hcol.sound size).mp hserves).2
    rw [harr.config, hafter, Nat.sub_self] at hfit
    simp only [Pool.rounded, Block.headerSize] at hfit
    omega

end Arranged

end Heap

namespace Client

variable {rule : Client → Request → Bool} {c : Client} {roots : List Reference}
  {col : Collection} {h' : Heap}

/-- A collection keeps what is in use from growing and serves what could be served, unless all that
was free is one block of the least size and every value survives; then that block is lost. -/
theorem Run.collect_spares (hrun : Run rule c)
    (hcollect : (Heap.collect roots).runOn c.heap = .ok (.ok col, h')) :
    (c.heap.used = .ok col.usedBefore ∧ h'.used = .ok col.usedAfter) ∧
      (¬c.heap.Crammed col → c.heap.Spared col h') ∧
        (c.heap.Crammed col → c.heap.Swallowed col h') := by
  obtain ⟨s, hs⟩ := hrun.consistent
  obtain ⟨s', hcol⟩ := (hs.collect roots).good hcollect
  obtain ⟨order, harr⟩ := (hs.collect_arranges roots).good hcollect
  exact ⟨⟨harr.before, harr.after⟩, harr.spared hs hcol, harr.swallowed hs hcol⟩

def crammed : Option Client :=
  session allows { poolSize := 176 } [.makeNone, .makeInteger 1, .makeInteger 2,
    .release (.ofIndex 0)]

def crammedRoots : List Reference := [.ofIndex 1, .ofIndex 2]

theorem crammed_collects : ∃ c, crammed = some c ∧ (∀ r ∈ crammedRoots, c.heap.Occupied r) ∧
    ∃ col h', (Heap.collect crammedRoots).runOn c.heap = .ok (.ok col, h') ∧
      c.heap.Crammed col := by
  have hall : (crammed.any fun c => crammedRoots.all (fun r => (c.heap.table.get? r).isSome) &&
      ((Heap.collect crammedRoots).runOn c.heap).toOption.any fun e =>
        e.1.toOption.any fun col =>
          decide (col.usedBefore + Block.headerSize = c.heap.config.halfSize ∧
            col.survivors = c.heap.refsUsed ∧ 0 < col.survivors)) = true := by decide +kernel
  obtain ⟨c, hc, hall⟩ := (Option.any_eq_true ..).mp hall
  rw [Bool.and_eq_true, List.all_eq_true] at hall
  obtain ⟨⟨outcome, h'⟩, hsome, hends⟩ := (Option.any_eq_true ..).mp hall.2
  obtain ⟨col, hcol, hends⟩ := (Option.any_eq_true ..).mp hends
  obtain rfl := toOption_eq_some.mp hcol
  obtain ⟨hfree, hkept, hpos⟩ := decide_eq_true_eq.mp hends
  exact ⟨c, hc, fun r hr => Option.isSome_iff_ne_none.mp (hall.1 r hr), col, h',
    toOption_eq_some.mp hsome, hfree, hkept, hpos⟩

theorem crammed_swallowed : ∃ c col h', crammed = some c ∧
    (Heap.collect crammedRoots).runOn c.heap = .ok (.ok col, h') ∧ c.heap.Crammed col ∧
      c.heap.Swallowed col h' := by
  obtain ⟨c, hc, -, col, h', hcollect, hcrammed⟩ := crammed_collects
  exact ⟨c, col, h', hc, hcollect, hcrammed,
    ((Run.session hc).collect_spares hcollect).2.2 hcrammed⟩

/-- Collecting may take memory, and a request that would have been served is not any more. -/
theorem collect_not_free : ∃ c col h', crammed = some c ∧ Run allows c ∧
    (∀ r ∈ crammedRoots, c.heap.Occupied r) ∧
      (Heap.collect crammedRoots).runOn c.heap = .ok (.ok col, h') ∧
        col.usedBefore < col.usedAfter ∧ col.usedBefore ≠ col.usedAfter + col.reclaimed ∧
          c.heap.pool.Serves 24 ∧ ¬h'.pool.Serves 24 := by
  obtain ⟨c, hc, hoccupied, col, h', hcollect, hcrammed⟩ := crammed_collects
  have hrun : Run allows c := Run.session hc
  obtain ⟨s, hs⟩ := hrun.consistent
  obtain ⟨s', hcol⟩ := (hs.collect crammedRoots).good hcollect
  obtain ⟨order, harr⟩ := (hs.collect_arranges crammedRoots).good hcollect
  obtain ⟨hused, hnothing, hserved, hserves⟩ := harr.swallowed hs hcol hcrammed
  have hless : col.usedBefore < col.usedAfter := by
    rw [hused]
    exact Nat.lt_add_of_pos_right (by decide)
  exact ⟨c, col, h', hc, hrun, hoccupied, hcollect, hless, by omega,
    (hserved 24).mpr (Nat.le_refl 24), hserves 24⟩

end Client
end CountedHeap
