import CountedHeap.Proofs.Client

/-!
The table and the allocator speak of the same values: the references in use and the blocks in use
of the active half correspond one to one, whatever a client has asked for.
-/

namespace CountedHeap

namespace Heap

/-- The blocks of the active half and the references to those in use. -/
structure Matched (h : Heap) (blocks : List Block) : Prop where
  walk : h.pool.blocks = .ok blocks
  region : h.pool.region = h.active
  halves : (h.active = ⟨0, h.config.halfSize⟩ ∧
      h.spare = ⟨h.config.halfSize, 2 * h.config.halfSize⟩) ∨
    (h.active = ⟨h.config.halfSize, 2 * h.config.halfSize⟩ ∧
      h.spare = ⟨0, h.config.halfSize⟩)
  inside : 2 * h.config.halfSize ≤ h.memory.size
  injective : ∀ r q a, h.table.get? r = some a → h.table.get? q = some a → r = q
  image : ∀ a, (∃ r, h.table.get? r = some a) ↔ ∃ b ∈ blocks, b.isFree = false ∧ b.addr = a
  aligned : ∀ b ∈ blocks, 8 ∣ b.addr
  answers : ∀ r a, h.table.get? r = some a →
    h.deref r = .ok a ∧ h.referenceAt a = .ok r ∧ h.inActive a = true
  refsUsed : h.refsUsed = blocks.countP fun b => !b.isFree
  used : ∃ own, h.table.entries.mapM (fun e => h.block e.2) = .ok own ∧
    h.used = .ok (own.map Block.size).sum

variable {h : Heap} {s : Store}

theorem Stored.not_free (hs : h.Stored s) {r : Reference} {c : Cell} (hr : s r = some c) :
    (h.pool.memory.header c.addr).isFree = false := by
  have htag : (h.pool.memory.header c.addr).tag = c.content.kind.tag := (hs.holds hr).tag
  rw [Block.isFree, htag]
  cases c.content <;> rfl

theorem Sound.matched (hs : h.Sound s) : ∃ blocks, h.Matched blocks := by
  obtain ⟨free, hl⟩ := hs.laid
  obtain ⟨addresses, hblocks, hperm⟩ := hl.blocks_eq
  have hnodup := (List.nodup_append.mp hl.nodup).2.1
  have hfree : ∀ a ∈ free, (h.pool.memory.header a).isFree = true := fun a ha =>
    hl.chained.isFree_of_mem ha
  have htaken : ∀ a ∈ h.table.addresses, (h.pool.memory.header a).isFree = false := by
    intro a ha
    obtain ⟨r, hr⟩ := (Table.mem_addresses hs.small).mp ha
    obtain ⟨c, hc, rfl⟩ := hs.get?_eq_some.mp hr
    exact hs.not_free hc
  refine ⟨_, hblocks, hs.halved.region, hs.halved.halves, hs.halved.inside,
    fun r q a hr hq => Table.get?_inj hnodup hr hq, fun a => ?_, ?_, fun r a hr => ?_, ?_, ?_⟩
  · rw [← Table.mem_addresses hs.small]
    simp only [List.mem_map, exists_exists_and_eq_and, Memory.header_addr]
    constructor
    · intro ha
      exact ⟨a, hperm.mem_iff.mp (List.mem_append_right free ha), htaken a ha, rfl⟩
    · rintro ⟨b, hb, hused, rfl⟩
      rcases List.mem_append.mp (hperm.mem_iff.mpr hb) with hbf | hbt
      · rw [hfree b hbf] at hused
        cases hused
      · exact hbt
  · simp only [List.mem_map, forall_exists_index, and_imp]
    rintro _ a ha rfl
    exact (hl.bounds (hperm.mem_iff.mpr ha)).2.2.2.2
  · obtain ⟨c, hc, rfl⟩ := hs.get?_eq_some.mp hr
    refine ⟨hs.deref_eq hc, ?_, ?_⟩
    · rw [referenceAt, Table.find?_eq hnodup hs.small hr]
    · have hb := hl.bounds (List.mem_append_right free (Table.mem_addresses_of_get? hr))
      have hsize := hb.2.2.1
      simp only [Block.headerSize] at hsize
      exact Pool.contains_iff.mpr ⟨hb.1, by omega⟩
  · rw [Heap.refsUsed, Table.used_eq, List.countP_map, ← hperm.countP_eq, List.countP_append,
      List.countP_eq_zero.mpr, Nat.zero_add, List.countP_eq_length.mpr]
    · intro a ha
      simp [htaken a ha]
    · intro a ha
      simp [hfree a ha]
  · refine ⟨_, mapM_eq_ok (g := fun e => h.pool.memory.header e.2) ?_, ?_⟩
    · rintro ⟨r, a⟩ he
      refine Block.read_eq_ok.mpr ⟨?_, rfl⟩
      have hmem := Table.mem_addresses_of_get? ((Table.mem_entries hs.small).mp he)
      exact hl.header_inside (List.mem_append_right free hmem)
    · rw [Heap.used, hl.used_eq, ← Table.map_entries, List.map_map, List.map_map]
      rfl

end Heap

namespace Client

variable {rule : Client → Request → Bool} {c : Client}

theorem Run.heap_matched (hrun : Run rule c) : ∃ blocks, c.heap.Matched blocks := by
  obtain ⟨s, hs⟩ := hrun.consistent
  exact hs.matched

theorem sample_matched : ∃ c, sample = some c ∧ ∃ blocks, c.heap.Matched blocks := by
  obtain ⟨c, hc, -⟩ := sample_collects
  exact ⟨c, hc, (Run.session hc).heap_matched⟩

end Client
end CountedHeap
