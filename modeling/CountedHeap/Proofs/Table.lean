import CountedHeap.Table
import CountedHeap.Proofs.Outcome
import Mathlib.Data.List.Basic
import Mathlib.Logic.Function.Basic
import Mathlib.Order.Bounds.Basic

/-!
The reference table as a map from references to addresses. Each operation changes the address of
one reference and adds or takes away one address; which slot it used does not matter.
-/

namespace CountedHeap

namespace Reference

theorem index_lt (r : Reference) : r.index < 2 ^ 31 := by
  have hlt := r.raw.toInt_lt
  unfold index
  omega

theorem isLive_iff {r : Reference} : r.isLive = true ↔ 0 ≤ r.raw.toInt := by
  simp only [isLive, decide_eq_true_eq, Int32.le_iff_toInt_le]
  rfl

theorem toInt_ofIndex {n : Nat} (h : n < 2 ^ 31) : (ofIndex n).raw.toInt = n :=
  Int32.toInt_ofNat_of_lt h

theorem isLive_ofIndex {n : Nat} (h : n < 2 ^ 31) : (ofIndex n).isLive = true := by
  rw [isLive_iff, toInt_ofIndex h]
  exact Int.natCast_nonneg n

theorem index_ofIndex {n : Nat} (h : n < 2 ^ 31) : (ofIndex n).index = n := by
  rw [index, toInt_ofIndex h, Int.toNat_natCast]

theorem ext_index {r q : Reference} (hr : r.isLive = true) (hq : q.isLive = true)
    (h : r.index = q.index) : r = q := by
  rw [isLive_iff] at hr hq
  unfold index at h
  obtain ⟨r⟩ := r
  obtain ⟨q⟩ := q
  exact congrArg Reference.mk (Int32.toInt_inj.mp (by simp only at *; omega))

theorem ofIndex_index {r : Reference} (hr : r.isLive = true) : ofIndex r.index = r :=
  ext_index (isLive_ofIndex r.index_lt) hr (index_ofIndex r.index_lt)

end Reference

namespace Table

variable {t u : Table} {r q : Reference} {a addr index : Nat}

def addresses (t : Table) : List Nat := t.slots.toList.filterMap id

theorem get?_eq_some :
    t.get? r = some a ↔ r.isLive = true ∧ t.slots[r.index]? = some (some a) := by
  unfold get?
  by_cases hr : r.isLive = true
  · rw [if_pos hr, Option.join_eq_some_iff]
    exact (and_iff_right hr).symm
  · rw [if_neg hr]
    exact iff_of_false (by simp) fun h => hr h.1

theorem index_lt_size (h : t.get? r = some a) : r.index < t.size := by
  obtain ⟨hlt, -⟩ := Array.getElem?_eq_some_iff.mp (get?_eq_some.mp h).2
  exact hlt

theorem isLive_of_get? (h : t.get? r = some a) : r.isLive = true := (get?_eq_some.mp h).1

section Entries

def entry (t : Table) (index : Nat) : Option Nat := t.slots[index]?.join

theorem get?_eq_entry (t : Table) (r : Reference) :
    t.get? r = if r.isLive then t.entry r.index else none := rfl

theorem entry_of_le (hle : t.size ≤ index) : t.entry index = none := by
  rw [entry, Array.getElem?_eq_none hle]
  rfl

theorem lt_size_of_entry (h : t.entry index = some addr) : index < t.size := by
  by_contra hle
  rw [entry_of_le (Nat.le_of_not_lt hle)] at h
  cases h

theorem slot_eq (hlt : index < t.size) : t.slots[index] = t.entry index := by
  rw [entry, Array.getElem?_eq_getElem hlt]
  rfl

theorem entry_setSlot (hlt : index < t.size) (slot : Option Nat) :
    entry { t with slots := t.slots.setIfInBounds index slot } =
      Function.update t.entry index slot := by
  funext i
  by_cases hi : i = index
  · subst hi
    rw [Function.update_self]
    exact congrArg Option.join (Array.getElem?_setIfInBounds_self_of_lt hlt)
  · rw [Function.update_of_ne hi]
    exact congrArg Option.join (Array.getElem?_setIfInBounds_ne (Ne.symm hi))

theorem entry_push {slot : Option Nat} (hu : u.slots = t.slots.push slot) :
    u.entry = Function.update t.entry t.size slot := by
  funext i
  unfold entry
  by_cases hi : i = t.size
  · subst hi
    rw [Function.update_self, hu]
    exact congrArg Option.join Array.getElem?_push_size
  · rw [Function.update_of_ne hi, hu, Array.getElem?_push, if_neg (show ¬i = t.slots.size from hi)]

theorem entry_keepIf (t : Table) (keep : Nat → Bool) :
    (t.keepIf keep).2.entry = fun i => (t.entry i).filter keep := by
  funext i
  simp only [keepIf, entry, Array.getElem?_map]
  rcases t.slots[i]? with - | - | a
  · rfl
  · rfl
  · cases hkeep : keep a <;> simp [Option.filter, hkeep]

theorem isLeast_of_findIdx? (hfind : t.slots.findIdx? (·.isNone) = some index) :
    index < t.size ∧ IsLeast {i | t.entry i = none} index := by
  obtain ⟨hlt, hnone, hbefore⟩ := Array.findIdx?_eq_some_iff_getElem.mp hfind
  refine ⟨hlt, (slot_eq hlt).symm.trans (Option.isNone_iff_eq_none.mp hnone),
    fun i hi => Nat.le_of_not_lt fun hi' => hbefore i hi' ?_⟩
  exact Option.isNone_iff_eq_none.mpr ((slot_eq (hi'.trans hlt)).trans hi)

theorem isLeast_of_full (hfull : t.slots.findIdx? (·.isNone) = none) :
    IsLeast {i | t.entry i = none} t.size := by
  refine ⟨entry_of_le (Nat.le_refl _), fun i hi => Nat.le_of_not_lt fun hlt => ?_⟩
  have hsome := Array.findIdx?_eq_none_iff.mp hfull _ (Array.getElem_mem hlt)
  rw [Option.isNone_iff_eq_none.mpr ((slot_eq hlt).trans hi)] at hsome
  cases hsome

theorem get?_update {slot : Option Nat} (hr : r.isLive = true)
    (hu : u.entry = Function.update t.entry r.index slot) :
    u.get? = Function.update t.get? r slot := by
  funext q
  by_cases hq : q = r
  · subst hq
    rw [Function.update_self, get?_eq_entry, if_pos hr, hu, Function.update_self]
  · rw [Function.update_of_ne hq, get?_eq_entry, get?_eq_entry, hu]
    by_cases hlive : q.isLive = true
    · have hne : q.index ≠ r.index := fun h => hq (Reference.ext_index hlive hr h)
      rw [if_pos hlive, if_pos hlive, Function.update_of_ne hne]
    · rw [if_neg hlive, if_neg hlive]

theorem get?_setSlot (hr : r.isLive = true) (hlt : r.index < t.size) (slot : Option Nat) :
    get? { t with slots := t.slots.setIfInBounds r.index slot } =
      Function.update t.get? r slot :=
  get?_update hr (entry_setSlot hlt slot)

end Entries

theorem addresses_setSlot {index : Nat} {old : Option Nat} (h : t.slots[index]? = some old)
    (slot : Option Nat) :
    (old.toList ++ addresses { t with slots := t.slots.setIfInBounds index slot }).Perm
      (slot.toList ++ t.addresses) := by
  rw [← Array.getElem?_toList] at h
  obtain ⟨hlt, hold⟩ := List.getElem?_eq_some_iff.mp h
  have hsplit : t.slots.toList =
      t.slots.toList.take index ++ old :: t.slots.toList.drop (index + 1) := by
    rw [← hold, List.getElem_cons_drop, List.take_append_drop]
  have hset : (t.slots.setIfInBounds index slot).toList =
      t.slots.toList.take index ++ slot :: t.slots.toList.drop (index + 1) := by
    rw [Array.toList_setIfInBounds, List.set_eq_take_append_cons_drop, if_pos hlt]
  have haddr : t.addresses = (t.slots.toList.take index).filterMap id ++
      (old.toList ++ (t.slots.toList.drop (index + 1)).filterMap id) := by
    unfold addresses
    conv_lhs => rw [hsplit]
    rw [List.filterMap_append]
    cases old <;> rfl
  have haddr' : addresses { t with slots := t.slots.setIfInBounds index slot } =
      (t.slots.toList.take index).filterMap id ++
      (slot.toList ++ (t.slots.toList.drop (index + 1)).filterMap id) := by
    unfold addresses
    rw [hset, List.filterMap_append]
    cases slot <;> rfl
  rw [haddr, haddr', List.perm_iff_count]
  intro c
  simp only [List.count_append]
  omega

theorem mem_addresses_iff_slot :
    a ∈ t.addresses ↔ ∃ index : Nat, t.slots[index]? = some (some a) := by
  rw [addresses, List.mem_filterMap]
  simp only [id_eq, exists_eq_right, List.mem_iff_getElem?, Array.getElem?_toList]

theorem mem_addresses (hsmall : t.size ≤ 2 ^ 31) :
    a ∈ t.addresses ↔ ∃ r, t.get? r = some a := by
  rw [mem_addresses_iff_slot]
  constructor
  · rintro ⟨index, h⟩
    obtain ⟨hlt, -⟩ := Array.getElem?_eq_some_iff.mp h
    have hindex : index < 2 ^ 31 := Nat.lt_of_lt_of_le hlt hsmall
    refine ⟨.ofIndex index, get?_eq_some.mpr ⟨Reference.isLive_ofIndex hindex, ?_⟩⟩
    rw [Reference.index_ofIndex hindex]
    exact h
  · rintro ⟨r, h⟩
    exact ⟨r.index, (get?_eq_some.mp h).2⟩

theorem mem_addresses_of_get? (h : t.get? r = some a) : a ∈ t.addresses :=
  mem_addresses_iff_slot.mpr ⟨r.index, (get?_eq_some.mp h).2⟩

theorem get?_inj (hn : t.addresses.Nodup) (hr : t.get? r = some a) (hq : t.get? q = some a) :
    r = q := by
  obtain ⟨hrl, hrs⟩ := get?_eq_some.mp hr
  obtain ⟨hql, hqs⟩ := get?_eq_some.mp hq
  refine Reference.ext_index hrl hql ?_
  have hset := addresses_setSlot hrs none
  -- With the slot of `r` cleared the address is still there through `q`.
  by_contra hne
  have hstill : a ∈ addresses { t with slots := t.slots.setIfInBounds r.index none } := by
    refine mem_addresses_of_get? (r := q) (get?_eq_some.mpr ⟨hql, ?_⟩)
    rw [Array.getElem?_setIfInBounds_ne hne]
    exact hqs
  have hcount := hset.count_eq a
  have hone := List.nodup_iff_count.mp hn a
  have hpos := List.count_pos_iff.mpr hstill
  simp only [Option.toList_some, Option.toList_none, List.nil_append, List.singleton_append,
    List.count_cons_self] at hcount
  omega

theorem referenceAt_eq_ok {index : Nat} :
    referenceAt index = .ok r ↔ index < 2 ^ 31 ∧ .ofIndex index = r := by
  unfold referenceAt maxIndex
  split
  · rename_i hle
    simp only [Except.ok.injEq, show index < 2 ^ 31 by omega, true_and]
  · rename_i hle
    simp only [reduceCtorEq, false_iff]
    rintro ⟨hlt, -⟩
    omega

theorem reserve_slots (h : t.reserve = .ok u) : u.slots = t.slots := by
  unfold reserve at h
  split at h
  · cases h
    rfl
  · simp only at h
    generalize (if t.capacity = 0 then t.initial else 2 * t.capacity) = capacity at h
    split at h
    · cases h
      rfl
    · cases h

theorem slotOf_eq_ok : slotOf r = .ok index ↔ r.isLive = true ∧ r.index = index := by
  by_cases hlive : r.isLive = true <;> simp [slotOf, hlive]

theorem assign_cases (h : t.assign addr = .ok (r, u)) :
    ∃ index < 2 ^ 31, r = .ofIndex index ∧ IsLeast {i | t.entry i = none} index ∧
      ((index < t.size ∧ u = { t with slots := t.slots.setIfInBounds index (some addr) }) ∨
        (index = t.size ∧
          ∃ v, t.reserve = .ok v ∧ u = { v with slots := t.slots.push (some addr) })) := by
  unfold assign at h
  split at h
  case h_1 index hfind =>
    simp only [bind_eq_ok, pure_eq_ok, referenceAt_eq_ok, Prod.mk.injEq] at h
    obtain ⟨_, ⟨hindex, rfl⟩, rfl, rfl⟩ := h
    obtain ⟨hlt, hleast⟩ := isLeast_of_findIdx? hfind
    exact ⟨index, hindex, rfl, hleast, .inl ⟨hlt, rfl⟩⟩
  case h_2 hfull =>
    simp only [bind_eq_ok, pure_eq_ok, referenceAt_eq_ok, Prod.mk.injEq] at h
    obtain ⟨_, ⟨hindex, rfl⟩, v, hreserve, rfl, rfl⟩ := h
    exact ⟨t.size, hindex, rfl, isLeast_of_full hfull,
      .inr ⟨rfl, v, hreserve, by rw [reserve_slots hreserve]⟩⟩

theorem assign_eq (h : t.assign a = .ok (r, u)) :
    r.isLive = true ∧ t.get? r = none ∧ u.get? = Function.update t.get? r (some a) ∧
      u.addresses.Perm (a :: t.addresses) ∧ t.size ≤ u.size ∧
      (t.size ≤ 2 ^ 31 → u.size ≤ 2 ^ 31) := by
  obtain ⟨index, hindex, rfl, hleast, hu⟩ := assign_cases h
  have hlive := Reference.isLive_ofIndex hindex
  have hself := Reference.index_ofIndex hindex
  have hunused : t.get? (.ofIndex index) = none := by
    rw [get?_eq_entry, if_pos hlive, hself]
    exact hleast.1
  rcases hu with ⟨hlt, rfl⟩ | ⟨rfl, v, hreserve, rfl⟩
  · have hslot : t.slots[index]? = some none := by
      rw [Array.getElem?_eq_getElem hlt]
      exact congrArg some ((slot_eq hlt).trans hleast.1)
    have hsize : Table.size { t with slots := t.slots.setIfInBounds index (some a) } = t.size :=
      Array.size_setIfInBounds
    exact ⟨hlive, hunused, get?_update hlive (hself.symm ▸ entry_setSlot hlt (some a)),
      addresses_setSlot hslot (some a), hsize.ge, hsize.le.trans⟩
  · have hsize : Table.size { v with slots := t.slots.push (some a) } = t.size + 1 :=
      Array.size_push _
    refine ⟨hlive, hunused, get?_update hlive (hself.symm ▸ entry_push rfl), ?_, by omega,
      fun _ => by omega⟩
    simp only [addresses, Array.toList_push, List.filterMap_append]
    exact List.perm_append_comm

theorem set_eq (h : t.set r a = .ok u) :
    ∃ old, t.get? r = some old ∧ u.get? = Function.update t.get? r (some a) ∧
      (old :: u.addresses).Perm (a :: t.addresses) ∧ u.size = t.size := by
  unfold set slotOf at h
  by_cases hlive : r.isLive = true
  · simp only [hlive, if_true, ok_bind] at h
    split at h
    · cases h
    · cases h
    · rename_i old hslot
      cases h
      have hget : t.get? r = some old := get?_eq_some.mpr ⟨hlive, hslot⟩
      exact ⟨old, hget, get?_setSlot hlive (index_lt_size hget) _, addresses_setSlot hslot (some a),
        Array.size_setIfInBounds⟩
  · simp only [hlive] at h
    cases h

theorem clear_eq (hget : t.get? r = some a) (h : t.clear r = .ok u) :
    u.get? = Function.update t.get? r none ∧ (a :: u.addresses).Perm t.addresses ∧
      u.size = t.size := by
  obtain ⟨hlive, hslot⟩ := get?_eq_some.mp hget
  have hlt := index_lt_size hget
  simp only [clear, slotOf, hlive, if_true, ok_bind, throw_bind, guard_eq_ok, pure_eq_ok] at h
  obtain ⟨-, rfl⟩ := h
  exact ⟨get?_setSlot hlive hlt none, addresses_setSlot hslot none, Array.size_setIfInBounds⟩

theorem keepIf_eq (t : Table) (keep : Nat → Bool) :
    (t.keepIf keep).2.get? = (fun r => (t.get? r).filter keep) ∧
      (t.keepIf keep).2.addresses = t.addresses.filter keep ∧
      (t.keepIf keep).2.size = t.size := by
  refine ⟨?_, ?_, Array.size_map⟩
  · funext r
    rw [get?_eq_entry, get?_eq_entry, entry_keepIf]
    split <;> rfl
  · simp only [keepIf, addresses, Array.toList_map, List.filterMap_map]
    induction t.slots.toList with
    | nil => rfl
    | cons s rest ih =>
      cases s with
      | none => simpa using ih
      | some a => cases hk : keep a <;> simpa [hk] using ih

theorem used_eq (t : Table) : t.used = t.addresses.length := by
  unfold used addresses
  rw [← Array.countP_toList]
  induction t.slots.toList with
  | nil => rfl
  | cons s rest ih => cases s <;> simpa using ih

theorem mem_entries (hsmall : t.size ≤ 2 ^ 31) : (r, a) ∈ t.entries ↔ t.get? r = some a := by
  simp only [entries, List.mem_filterMap, Prod.exists, List.mem_zipIdx_iff_getElem?,
    Array.getElem?_toList, Option.map_eq_some_iff, Prod.mk.injEq, get?_eq_some]
  constructor
  · rintro ⟨slot, index, hslot, b, rfl, rfl, rfl⟩
    obtain ⟨hlt, -⟩ := Array.getElem?_eq_some_iff.mp hslot
    have hindex : index < 2 ^ 31 := Nat.lt_of_lt_of_le hlt hsmall
    rw [Reference.index_ofIndex hindex]
    exact ⟨Reference.isLive_ofIndex hindex, hslot⟩
  · rintro ⟨hlive, hslot⟩
    exact ⟨some a, r.index, hslot, a, rfl, Reference.ofIndex_index hlive, rfl⟩

theorem map_entries (t : Table) : t.entries.map Prod.snd = t.addresses := by
  have hlist : ∀ (slots : List (Option Nat)) (start : Nat),
      ((slots.zipIdx start).filterMap fun e =>
        e.1.map (Reference.ofIndex e.2, ·)).map Prod.snd = slots.filterMap id := by
    intro slots
    induction slots with
    | nil => exact fun _ => rfl
    | cons slot rest ih =>
      intro start
      cases slot with
      | none => exact ih (start + 1)
      | some a => exact congrArg (a :: ·) (ih (start + 1))
  exact hlist t.slots.toList 0

theorem pairwise_entries (hsmall : t.size ≤ 2 ^ 31) :
    (t.entries.map fun e => e.1.index).Pairwise (· < ·) := by
  have hsorted : (t.slots.toList.zipIdx).Pairwise fun e f => e.2 < f.2 ∧ f.2 < 2 ^ 31 := by
    rw [List.pairwise_iff_getElem]
    intro i j hi hj hlt
    rw [List.length_zipIdx] at hj
    have hsize : j < t.size := hj
    simp only [List.getElem_zipIdx]
    omega
  refine List.pairwise_map.mpr (hsorted.filterMap _ ?_)
  rintro ⟨slot, i⟩ ⟨slot', j⟩ ⟨hlt, hj⟩ e he f hf
  obtain ⟨_, -, rfl⟩ := Option.map_eq_some_iff.mp he
  obtain ⟨_, -, rfl⟩ := Option.map_eq_some_iff.mp hf
  simp only [Reference.index_ofIndex hj, Reference.index_ofIndex (hlt.trans hj)]
  exact hlt

theorem findIdx?_eq_some_iff :
    t.slots.findIdx? (· == some addr) = some index ↔ IsLeast {i | t.entry i = some addr} index := by
  simp only [Array.findIdx?_eq_some_iff_getElem, beq_iff_eq]
  constructor
  · rintro ⟨hlt, hsome, hbefore⟩
    refine ⟨(slot_eq hlt).symm.trans hsome, fun i hi => Nat.le_of_not_lt fun hi' => ?_⟩
    exact hbefore i hi' ((slot_eq (hi'.trans hlt)).trans hi)
  · rintro ⟨hsome, hleast⟩
    have hlt : index < t.size := lt_size_of_entry hsome
    refine ⟨hlt, (slot_eq hlt).trans hsome, fun i hi hsome' => Nat.not_le_of_lt hi (hleast ?_)⟩
    exact (slot_eq (hi.trans hlt)).symm.trans hsome'

theorem find?_eq_some (hsmall : t.size ≤ 2 ^ 31) :
    t.find? addr = some r ↔ r.isLive = true ∧ IsLeast {i | t.entry i = some addr} r.index := by
  rw [find?, Option.map_eq_some_iff]
  simp only [findIdx?_eq_some_iff]
  constructor
  · rintro ⟨index, hleast, rfl⟩
    have hindex : index < 2 ^ 31 := (lt_size_of_entry hleast.1).trans_le hsmall
    exact ⟨Reference.isLive_ofIndex hindex, (Reference.index_ofIndex hindex).symm ▸ hleast⟩
  · rintro ⟨hlive, hleast⟩
    exact ⟨r.index, hleast, Reference.ofIndex_index hlive⟩

theorem get?_of_find? (hsmall : t.size ≤ 2 ^ 31) (h : t.find? a = some r) :
    t.get? r = some a := by
  obtain ⟨hlive, hleast⟩ := (find?_eq_some hsmall).mp h
  rw [get?_eq_entry, if_pos hlive]
  exact hleast.1

theorem find?_eq (hn : t.addresses.Nodup) (hsmall : t.size ≤ 2 ^ 31) (h : t.get? r = some a) :
    t.find? a = some r := by
  have hlive := isLive_of_get? h
  have hentry : t.entry r.index = some a := by rwa [get?_eq_entry, if_pos hlive] at h
  refine (find?_eq_some hsmall).mpr ⟨hlive, hentry, fun i hi => ?_⟩
  have hindex : i < 2 ^ 31 := (lt_size_of_entry hi).trans_le hsmall
  have hget : t.get? (.ofIndex i) = some a := by
    rwa [get?_eq_entry, if_pos (Reference.isLive_ofIndex hindex), Reference.index_ofIndex hindex]
  rw [get?_inj hn h hget, Reference.index_ofIndex hindex]

end Table
end CountedHeap
