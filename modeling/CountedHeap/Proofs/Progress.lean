import CountedHeap.Proofs.Accounts
import CountedHeap.Proofs.Completing
import Mathlib.Data.Finset.Card

/-!
Steps of a heap come to an end. A value that is there can be read and written to, and can be given
up: each value dies at most once, so a release makes no more of them die than the table has slots.
-/

namespace CountedHeap

namespace Store.Ledger

variable {s : Store} {arrays owned : List Reference} {r q : Reference}

theorem held_live (hl : s.Ledger arrays owned) (hq : q ∈ s.held r) : q.isLive = true := by
  obtain ⟨x, hx, hq⟩ := exists_of_held hq
  cases x with
  | list n v =>
    obtain ⟨xs, hv, -⟩ := hl.lists hx
    rw [List.mem_singleton.mp hq]
    exact hl.live hv
  | dict n o k v =>
    obtain ⟨ks, vs, hk, hv, -⟩ := hl.dicts hx
    rcases List.mem_pair.mp hq with rfl | rfl
    · exact hl.live hv
    · exact hl.live hk
  | array xs => exact (List.mem_filter.mp hq).2
  | _ => exact absurd hq List.not_mem_nil

theorem occupied_of_held (hl : s.Ledger arrays owned) (hq : q ∈ s.held r) :
    ∃ x, s.content q = some x := by
  cases hx : s.content q with
  | some x => exact ⟨x, rfl⟩
  | none => exact absurd hq (hl.not_held hx (hl.held_live hq) r)

end Store.Ledger

namespace Heap

variable {h h' : Heap} {s s₀ kept : Store} {r q v : Reference} {c : Cell} {x : Content}
  {arrays owned : List Reference} {tasks rest : List Task} {i n : Nat}

section Writing

theorem Stored.write_answers (hs : h.Stored s) (hr : s r = some c) {offset width value : Nat}
    (hfits : offset + width ≤ c.content.room) :
    ∃ h', h.write (·.store (c.addr + offset) width value) = .ok h' := by
  have hroom := hs.room_le hr
  obtain ⟨m, hstore, -⟩ := Memory.store_answers (m := h.pool.memory) value
    (show c.addr + offset + width ≤ h.pool.memory.size by omega)
  exact ⟨_, write_eq_ok.mpr ⟨m, hstore, rfl⟩⟩

theorem Stored.arraySet_answers (hs : h.Stored s) {xs : List Reference}
    (hr : s.content r = some (.array xs)) (hi : i < xs.length) (v : Reference) :
    ∃ h', h.arraySet r i v = .ok h' := by
  obtain ⟨c, hc, hx⟩ := Store.content_eq_some.mp hr
  have hslots := hs.slots_eq_ok.mpr ⟨c, xs, hc, hx, rfl⟩
  simp only [Heap.arraySet, hslots, ok_bind, hi, if_true]
  refine hs.write_answers hc ?_
  rw [hx]
  simp only [Content.room, Layout.elementOffset]
  omega

theorem Stored.storeField_answers (hs : h.Stored s) (hr : s.content r = some x) {offset : Nat}
    (hfits : offset + 8 ≤ x.room) (n : Nat) : ∃ h', h.storeField r offset n = .ok h' := by
  obtain ⟨c, hc, rfl⟩ := Store.content_eq_some.mp hr
  simp only [Heap.storeField, hs.deref_eq hc, ok_bind]
  exact hs.write_answers hc hfits

theorem Stored.storeReference_answers (hs : h.Stored s) (hr : s.content r = some x) {offset : Nat}
    (hfits : offset + 4 ≤ x.room) (v : Reference) :
    ∃ h', h.storeReference r offset v = .ok h' := by
  obtain ⟨c, hc, rfl⟩ := Store.content_eq_some.mp hr
  simp only [Heap.storeReference, hs.deref_eq hc, ok_bind]
  exact hs.write_answers hc hfits

end Writing

section Releasing

theorem Stored.giveUp_answers (hs : h.Stored s) (hr : s r = some c) :
    ∃ h' held, h.giveUp r = .ok (h', held) := by
  simp only [Heap.giveUp, hs.deref_eq hr, ok_bind, hs.countAt_eq hr]
  by_cases hzero : c.count = 0
  · exact ⟨h, none, by rw [if_pos hzero]; rfl⟩
  · obtain ⟨h₁, hset⟩ := hs.setCountAt_answers hr (c.count - 1)
    have hlt : c.count < Word.limit := by
      rw [← hs.count hr]
      exact Memory.linkAt_lt ..
    have hs₁ := hs.setCountAt hr (show c.count - 1 < Word.limit by omega) hset
    have hself : (s.set r { c with count := c.count - 1 }) r =
        some { c with count := c.count - 1 } := Store.set_self
    rw [if_neg hzero, hset, ok_bind]
    by_cases hone : 1 < c.count
    · exact ⟨h₁, none, by rw [if_pos hone]; rfl⟩
    · rw [if_neg hone, hs₁.kindAt_eq hself, ok_bind, hs₁.children_eq hself, ok_bind]
      exact ⟨h₁, _, rfl⟩

theorem Stored.isFree_eq (hs : h.Stored s) (hr : s r = some c) :
    (h.pool.memory.header c.addr).isFree = false := by
  have htag : (h.pool.memory.header c.addr).tag = c.content.kind.tag := (hs.holds hr).tag
  rw [Block.isFree, htag]
  cases c.content <;> rfl

theorem Sound.discard_answers (hs : h.Sound s) (hr : s r = some c) :
    ∃ h', h.discard r = .ok h' := by
  obtain ⟨free, hl⟩ := hs.laid
  have hget := hs.get?_eq hr
  obtain ⟨p, hfree⟩ := hl.free_answers (Table.mem_addresses_of_get? hget) (hs.isFree_eq hr)
  have hlt := Table.index_lt_size hget
  simp only [Heap.discard, hs.deref_eq hr, ok_bind, Table.clear, Table.slotOf, hs.isLive hr,
    if_true, hlt, hfree]
  exact ⟨_, rfl⟩

theorem giveUp_table {held : Option (List Reference)} (hgive : h.giveUp r = .ok (h', held)) :
    h'.table = h.table := by
  simp only [Heap.giveUp, bind_eq_ok] at hgive
  obtain ⟨addr, -, count, -, hgive⟩ := hgive
  split at hgive
  · simp only [pure_eq_ok, Prod.mk.injEq] at hgive
    rw [hgive.1]
  · simp only [bind_eq_ok] at hgive
    obtain ⟨h₁, hset, hgive⟩ := hgive
    obtain ⟨m, -, rfl⟩ := write_eq_ok.mp hset
    split at hgive
    · simp only [pure_eq_ok, Prod.mk.injEq] at hgive
      rw [← hgive.1]
    · simp only [bind_eq_ok, pure_eq_ok, Prod.mk.injEq] at hgive
      obtain ⟨-, -, -, -, rfl, -⟩ := hgive
      rfl

theorem Stored.discard_slots (hs : h.Stored s) (hdiscard : h.discard r = .ok h') :
    h'.table.size = h.table.size := by
  simp only [Heap.discard, bind_eq_ok, hs.deref_eq_ok, pure_eq_ok] at hdiscard
  obtain ⟨_, ⟨c, hr, rfl⟩, table, hclear, pool, -, rfl⟩ := hdiscard
  exact (Table.clear_eq (hs.get?_eq hr) hclear).2.2

def countedSlots (s : Store) (slots : Nat) : Finset Nat :=
  (Finset.range slots).filter fun index => 0 < s.count (.ofIndex index)

/-- A release under way in a table of so many slots; what is about to be freed is there once. -/
structure Droppable (s₀ : Store) (owned : List Reference) (slots : Nat) (tasks : List Task)
    (h : Heap) (s : Store) : Prop where
  sound : h.Sound s
  dropping : Dropping s₀ (fun _ => none) owned tasks s
  live : ∀ r ∈ released tasks, r.isLive = true
  there : ∀ r ∈ discarded tasks, ∃ c, s r = some c
  once : (discarded tasks).Nodup
  size_eq : h.table.size = slots

namespace Droppable

variable {slots bound : Nat} {next : List Task → Heap → Except Fault Heap}

theorem occupied (hd : Droppable s₀ owned slots (.release r :: rest) h s) :
    ∃ c, s r = some c := by
  have hcount := hd.dropping.counted (hd.live r List.mem_cons_self)
  cases hr : s r with
  | some c => exact ⟨c, rfl⟩
  | none =>
    rw [Store.count_of_none hr] at hcount
    omega

theorem discard (hd : Droppable s₀ owned slots (.discard r :: rest) h s)
    (hdiscard : h.discard r = .ok h') : Droppable s₀ owned slots rest h' (s.erase r) := by
  obtain ⟨c, -, hs'⟩ := hd.sound.discard hdiscard
  obtain ⟨hnot, hnodup⟩ := List.nodup_cons.mp hd.once
  refine ⟨hs', hd.dropping.discard, hd.live, fun q hq => ?_, hnodup,
    (hd.sound.discard_slots hdiscard).trans hd.size_eq⟩
  obtain ⟨d, hd⟩ := hd.there q (List.mem_cons_of_mem _ hq)
  have hne : q ≠ r := fun heq => hnot (heq ▸ hq)
  exact ⟨d, (Store.erase_of_ne hne).trans hd⟩

theorem there_set (hd : Droppable s₀ owned slots tasks h s) (hq : q ∈ discarded tasks)
    (c : Cell) : ∃ d, (s.set r c) q = some d := by
  by_cases hqr : q = r
  · exact ⟨c, hqr ▸ Store.set_self⟩
  · obtain ⟨d, hd⟩ := hd.there q hq
    exact ⟨d, (Store.set_of_ne hqr).trans hd⟩

theorem spared (hd : Droppable s₀ owned slots (.release r :: rest) h s)
    (hgive : h.giveUp r = .ok (h', none)) :
    ∃ s', Droppable s₀ owned slots rest h' s' ∧ countedSlots s' slots ⊆ countedSlots s slots := by
  obtain ⟨c, hr, hs', ho⟩ := hd.sound.giveUp hgive
  have hmore : c.count ≠ 1 := by
    intro hone
    rw [if_pos hone] at ho
    cases ho
  have hlive := hd.live r List.mem_cons_self
  obtain ⟨-, hless, -, -⟩ := hd.dropping.lowered hr hlive rfl
  refine ⟨_, ⟨hs', hd.dropping.spared hr hlive hmore, fun q hq => hd.live q (.tail _ hq),
    fun q hq => hd.there_set hq _, hd.once, (giveUp_table hgive ▸ hd.size_eq)⟩, fun i hi => ?_⟩
  obtain ⟨hi, hpos⟩ := Finset.mem_filter.mp hi
  exact Finset.mem_filter.mpr ⟨hi, Nat.lt_of_lt_of_le hpos (hless _)⟩

theorem killed (hd : Droppable s₀ owned slots (.release r :: rest) h s)
    (hheld : ∀ p q, q ∈ s₀.held p → q.isLive = true) {held : List Reference}
    (hgive : h.giveUp r = .ok (h', some held)) :
    ∃ s', Droppable s₀ owned slots (held.map .release ++ .discard r :: rest) h' s' ∧
      (countedSlots s' slots).card < (countedSlots s slots).card := by
  obtain ⟨c, hr, hs', ho⟩ := hd.sound.giveUp hgive
  have hone : c.count = 1 := by
    by_contra hmore
    rw [if_neg hmore] at ho
    cases ho
  rw [if_pos hone] at ho
  cases ho
  have hlive := hd.live r List.mem_cons_self
  obtain ⟨-, hless, hnot, -⟩ := hd.dropping.lowered hr hlive rfl
  have hcontent := hd.dropping.fewer r c.content (Store.content_of hr)
  refine ⟨_, ⟨hs', hd.dropping.killed hr hlive hone nofun, fun q hq => ?_, fun q hq => ?_, ?_,
    giveUp_table hgive ▸ hd.size_eq⟩, Finset.card_lt_card ?_⟩
  · rw [released_dead] at hq
    rcases List.mem_append.mp hq with hq | hq
    · exact hheld r q (by rwa [Store.held_of_content hcontent])
    · exact hd.live q (.tail _ hq)
  · rw [discarded_dead] at hq
    rcases List.mem_cons.mp hq with rfl | hq
    · exact ⟨_, Store.set_self⟩
    · exact hd.there_set hq _
  · rw [discarded_dead]
    exact List.nodup_cons.mpr ⟨hnot, hd.once⟩
  -- The count of `r` was one and is zero, so its slot drops out and none comes in.
  · refine Finset.ssubset_iff_subset_ne.mpr ⟨fun i hi => ?_, fun heq => ?_⟩
    · obtain ⟨hi, hpos⟩ := Finset.mem_filter.mp hi
      exact Finset.mem_filter.mpr ⟨hi, Nat.lt_of_lt_of_le hpos (hless _)⟩
    · have hlt := hd.size_eq ▸ Table.index_lt_size (hd.sound.get?_eq hr)
      have hmem : r.index ∈ countedSlots s slots := by
        refine Finset.mem_filter.mpr ⟨Finset.mem_range.mpr hlt, ?_⟩
        rw [Reference.ofIndex_index hlive, Store.count_eq hr]
        omega
      rw [← heq] at hmem
      have hpos := (Finset.mem_filter.mp hmem).2
      rw [Reference.ofIndex_index hlive, Store.count_set, Function.update_self] at hpos
      simp only [hone] at hpos
      omega

theorem runTasks_answers (hheld : ∀ p q, q ∈ s₀.held p → q.isLive = true)
    (hnext : ∀ {tasks h s}, Droppable s₀ owned slots tasks h s →
      (countedSlots s slots).card < bound → ∃ h', next tasks h = .ok h')
    (hd : Droppable s₀ owned slots tasks h s) (hbound : (countedSlots s slots).card ≤ bound) :
    ∃ h', runTasks next tasks h = .ok h' := by
  induction tasks generalizing h s with
  | nil => exact ⟨h, rfl⟩
  | cons task rest ih =>
    cases task with
    | discard r =>
      obtain ⟨c, hr⟩ := hd.there r List.mem_cons_self
      obtain ⟨h₁, hdiscard⟩ := hd.sound.discard_answers hr
      have hcount : (s.erase r).count = s.count := by
        rw [Store.count_erase]
        exact Function.update_eq_self_iff.mpr (hd.dropping.dying r List.mem_cons_self).symm
      obtain ⟨h', hrest⟩ := ih (hd.discard hdiscard) (by rwa [countedSlots, hcount])
      exact ⟨h', by simp only [runTasks, hdiscard, ok_bind, hrest]⟩
    | release r =>
      obtain ⟨c, hr⟩ := hd.occupied
      obtain ⟨h₁, held, hgive⟩ := hd.sound.giveUp_answers hr
      cases held with
      | none =>
        obtain ⟨s₁, hd₁, hsub⟩ := hd.spared hgive
        obtain ⟨h', hrest⟩ := ih hd₁ (Nat.le_trans (Finset.card_le_card hsub) hbound)
        exact ⟨h', by simp only [runTasks, hgive, ok_bind, hrest]⟩
      | some held =>
        obtain ⟨s₁, hd₁, hlt⟩ := hd.killed hheld hgive
        obtain ⟨h', hrest⟩ := hnext hd₁ (Nat.lt_of_lt_of_le hlt hbound)
        exact ⟨h', by simp only [runTasks, hgive, ok_bind, hrest]⟩

theorem releaseAll_answers (hheld : ∀ p q, q ∈ s₀.held p → q.isLive = true) {deaths : Nat}
    (hd : Droppable s₀ owned slots tasks h s) (hbound : (countedSlots s slots).card ≤ deaths) :
    ∃ h', releaseAll deaths tasks h = .ok h' := by
  induction deaths generalizing tasks h s with
  | zero => exact hd.runTasks_answers hheld (fun _ hlt => absurd hlt (Nat.not_lt_zero _)) hbound
  | succ deaths ih =>
    exact hd.runTasks_answers hheld (fun hd₁ hlt => ih hd₁ (Nat.le_of_lt_succ hlt)) hbound

end Droppable

theorem Sound.owned_release_answers (hs : h.Sound s) (hl : s.Ledger arrays owned)
    (hr : r ∈ arrays ++ owned) (hlive : r.isLive = true) : ∃ h', h.release r = .ok h' := by
  have hperm := List.perm_cons_erase hr
  have hexact : s.Exact [] (r :: (arrays ++ owned).erase r) :=
    hl.exact.of_eq rfl rfl fun q _ => (hperm.count_eq q).symm
  have hd : Droppable s ((arrays ++ owned).erase r) h.table.size [.release r] h s := by
    refine ⟨hs, ⟨hexact, fun q hq => absurd hq List.not_mem_nil, fun q c hq => .inl ?_, .refl s,
      fun _ => Nat.le_refl _, nofun, fun q hq => absurd hq List.not_mem_nil⟩, fun q hq => ?_,
      fun q hq => absurd hq List.not_mem_nil, List.nodup_nil, rfl⟩
    · exact Store.count_eq hq ▸ hl.positive (Store.content_of hq)
    · rw [List.mem_singleton.mp hq]
      exact hlive
  refine hd.releaseAll_answers (fun p q => hl.held_live) ?_
  exact Nat.le_trans (Finset.card_filter_le ..) (Nat.le_of_eq (Finset.card_range _))

theorem Sound.release_answers (hs : h.Sound s) (hl : s.Ledger arrays (r :: owned))
    (hlive : r.isLive = true) : ∃ h', h.release r = .ok h' :=
  hs.owned_release_answers hl (List.mem_append_right _ List.mem_cons_self) hlive

end Releasing

end Heap

end CountedHeap
