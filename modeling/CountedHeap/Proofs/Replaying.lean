import CountedHeap.Proofs.Table
import Mathlib.Data.Set.Card

/-!
The reference table as a partial map from indices to addresses. Whatever calls have been made, the
table holds what they amount to when they are replayed on such a map. A new address goes to the
least index that is free, and the room is the least that doubling from the first one can give.
-/

namespace CountedHeap.Table

inductive Call
  | assign (addr : Nat)
  | set (r : Reference) (addr : Nat)
  | clear (r : Reference)
  | keepIf (keep : Nat → Bool)

def perform (t : Table) : Call → Except Fault Table
  | .assign addr => do return (← t.assign addr).2
  | .set r addr => t.set r addr
  | .clear r => t.clear r
  | .keepIf keep => .ok (t.keepIf keep).2

def performAll (initial : Nat) (calls : List Call) : Except Fault Table :=
  calls.foldlM perform (ofInitial initial)

/-- A partial map, and one more than the largest index that was ever assigned. -/
structure Register where
  entries : Nat → Option Nat
  extent : Nat

namespace Register

def empty : Register := ⟨fun _ => none, 0⟩

/-- The least index without an entry: from the extent on there are none. -/
def vacant (p : Register) : Nat :=
  ((List.range p.extent).find? fun i => (p.entries i).isNone).getD p.extent

def after (p : Register) : Call → Register
  | .assign addr =>
      ⟨Function.update p.entries p.vacant (some addr), max p.extent (p.vacant + 1)⟩
  | .set r addr => { p with entries := Function.update p.entries r.index (some addr) }
  | .clear r => { p with entries := Function.update p.entries r.index none }
  | .keepIf keep => { p with entries := fun i => (p.entries i).filter keep }

def replay (calls : List Call) : Register := calls.foldl after empty

theorem isLeast_vacant {p : Register} (hp : ∀ i, p.extent ≤ i → p.entries i = none) :
    IsLeast {i | p.entries i = none} p.vacant := by
  unfold vacant
  cases hfind : (List.range p.extent).find? fun i => (p.entries i).isNone with
  | some index =>
    obtain ⟨hnone, -, hbefore⟩ := List.find?_range_eq_some.mp hfind
    refine ⟨Option.isNone_iff_eq_none.mp hnone, fun i hi => Nat.le_of_not_lt fun hlt => ?_⟩
    have hsome := hbefore i hlt
    rw [show p.entries i = none from hi] at hsome
    cases hsome
  | none =>
    refine ⟨hp _ (Nat.le_refl _), fun i hi => Nat.le_of_not_lt fun hlt => ?_⟩
    have hsome := List.find?_range_eq_none.mp hfind i hlt
    rw [show p.entries i = none from hi] at hsome
    cases hsome

theorem extent_le_after (p : Register) (call : Call) : p.extent ≤ (p.after call).extent := by
  cases call with
  | assign addr => exact Nat.le_max_left ..
  | set r addr | clear r | keepIf keep => exact Nat.le_refl _

theorem extent_replay_pos (calls : List Call) :
    0 < (replay calls).extent ↔ ∃ addr, .assign addr ∈ calls := by
  induction calls using List.reverseRecOn with
  | nil => exact iff_of_false (by decide) (by simp)
  | append_singleton calls call ih =>
    rw [replay, List.foldl_concat, ← replay]
    simp only [List.mem_append, List.mem_singleton, exists_or, ← ih]
    cases call with
    | assign addr => exact iff_of_true (by simp [after]) (.inr ⟨addr, rfl⟩)
    | set r addr | clear r | keepIf keep => simp [after]

end Register

variable {t u : Table} {p : Register} {initial addr index : Nat} {r : Reference} {call : Call}
  {calls : List Call}

open Register (replay)

/-- The rooms that doubling can give to a table that starts with `initial` slots, or with one where
that is none, and in which so many fit. -/
def roomsFor (initial size : Nat) : Set Nat := {c | (∃ k, c = max initial 1 * 2 ^ k) ∧ size ≤ c}

section Rooms

theorem isLeast_roomsFor_one (initial : Nat) : IsLeast (roomsFor initial 1) (max initial 1) := by
  refine ⟨⟨⟨0, (Nat.mul_one _).symm⟩, Nat.le_max_right ..⟩, ?_⟩
  rintro _ ⟨⟨k, rfl⟩, -⟩
  exact Nat.le_mul_of_pos_right _ (Nat.two_pow_pos k)

theorem isLeast_roomsFor_of_lt {size c : Nat} (hc : IsLeast (roomsFor initial size) c)
    (hlt : size < c) : IsLeast (roomsFor initial (size + 1)) c :=
  ⟨⟨hc.1.1, hlt⟩, fun _ hd => hc.2 ⟨hd.1, Nat.le_of_succ_le hd.2⟩⟩

theorem isLeast_roomsFor_double {c : Nat} (hc : c ∈ roomsFor initial c) :
    IsLeast (roomsFor initial (c + 1)) (2 * c) := by
  obtain ⟨⟨k, rfl⟩, -⟩ := hc
  have hpos : 0 < max initial 1 := Nat.le_max_right ..
  have hk := Nat.mul_pos hpos (Nat.two_pow_pos k)
  refine ⟨⟨⟨k + 1, ?_⟩, by omega⟩, ?_⟩
  · rw [Nat.pow_succ', Nat.mul_left_comm]
  · rintro _ ⟨⟨j, rfl⟩, hle⟩
    have hj : k < j := (Nat.pow_lt_pow_iff_right (by decide)).mp (Nat.lt_of_mul_lt_mul_left hle)
    rw [Nat.mul_left_comm, ← Nat.pow_succ']
    exact Nat.mul_le_mul_left _ (Nat.pow_le_pow_right (by decide) hj)

end Rooms

structure Keeps (t : Table) (initial : Nat) (p : Register) : Prop where
  entry : t.entry = p.entries
  size : t.size = p.extent
  small : t.size ≤ 2 ^ 31
  first : t.initial = max initial 1
  unused : t.size = 0 → t.capacity = 0
  room : t.size ≠ 0 → IsLeast (roomsFor initial t.size) t.capacity

namespace Keeps

theorem new (initial : Nat) : (ofInitial initial).Keeps initial .empty :=
  ⟨rfl, rfl, Nat.zero_le _, rfl, fun _ => rfl, fun h => absurd rfl h⟩

section Steps

variable (hk : t.Keeps initial p)
include hk

theorem isLeast_vacant : IsLeast {i | t.entry i = none} p.vacant :=
  hk.entry ▸ Register.isLeast_vacant fun _ hi => hk.entry ▸ entry_of_le (hk.size ▸ hi)

theorem setSlot (slot : Option Nat) (hlt : index < t.size) :
    Keeps { t with slots := t.slots.setIfInBounds index slot } initial
      { p with entries := Function.update p.entries index slot } := by
  have hsize : Table.size { t with slots := t.slots.setIfInBounds index slot } = t.size :=
    Array.size_setIfInBounds
  refine ⟨?_, hsize.trans hk.size, hsize.le.trans hk.small, hk.first, ?_, ?_⟩
  · rw [entry_setSlot hlt, hk.entry]
  · rw [hsize]
    exact hk.unused
  · rw [hsize]
    exact hk.room

theorem reserve {v : Table} (h : t.reserve = .ok v) :
    v.initial = t.initial ∧ IsLeast (roomsFor initial (t.size + 1)) v.capacity := by
  by_cases hzero : t.size = 0
  · have hempty := hk.unused hzero
    simp only [Table.reserve, hempty, hzero, Nat.lt_irrefl, if_false, if_true] at h
    split at h
    case isTrue =>
      cases h
      exact ⟨rfl, hk.first ▸ hzero ▸ isLeast_roomsFor_one initial⟩
    case isFalse => cases h
  have hroom := hk.room hzero
  by_cases hfits : t.size < t.capacity
  · obtain rfl : t = v := by simpa only [Table.reserve, if_pos hfits, Except.ok.injEq] using h
    exact ⟨rfl, isLeast_roomsFor_of_lt hroom hfits⟩
  · have hfull : t.capacity = t.size := Nat.le_antisymm (Nat.le_of_not_lt hfits) hroom.1.2
    simp only [Table.reserve, if_neg hfits, if_neg (hfull ▸ hzero)] at h
    split at h
    case isTrue =>
      cases h
      exact ⟨rfl, hfull ▸ isLeast_roomsFor_double (hfull ▸ hroom.1)⟩
    case isFalse => cases h

theorem assign (h : t.assign addr = .ok (r, u)) :
    r.isLive = true ∧ r.index = p.vacant ∧ u.Keeps initial (p.after (.assign addr)) := by
  obtain ⟨index, hindex, rfl, hleast, hu⟩ := assign_cases h
  obtain rfl := hk.isLeast_vacant.unique hleast
  refine ⟨Reference.isLive_ofIndex hindex, Reference.index_ofIndex hindex, ?_⟩
  have hsize := hk.size
  rcases hu with ⟨hlt, rfl⟩ | ⟨hfull, v, hreserve, rfl⟩
  · have hextent : max p.extent (p.vacant + 1) = p.extent := by omega
    rw [Register.after, hextent]
    exact hk.setSlot (some addr) hlt
  · obtain ⟨hfirst, hroom⟩ := hk.reserve hreserve
    have hextent : max p.extent (p.vacant + 1) = t.size + 1 := by omega
    have hpush : Table.size { v with slots := t.slots.push (some addr) } = t.size + 1 :=
      Array.size_push _
    rw [Register.after, hextent]
    refine ⟨?_, hpush, by omega, hfirst.trans hk.first, fun hzero => by omega, fun _ => ?_⟩
    · rw [entry_push rfl, hk.entry, hfull]
    · rw [hpush]
      exact hroom

theorem set (h : t.set r addr = .ok u) : u.Keeps initial (p.after (.set r addr)) := by
  simp only [Table.set, bind_eq_ok] at h
  obtain ⟨index, hindex, hu⟩ := h
  obtain ⟨-, rfl⟩ := slotOf_eq_ok.mp hindex
  split at hu
  case h_1 | h_2 => cases hu
  case h_3 hslot =>
    cases hu
    exact hk.setSlot (some addr) (Array.getElem?_eq_some_iff.mp hslot).1

theorem clear (h : t.clear r = .ok u) : u.Keeps initial (p.after (.clear r)) := by
  simp only [Table.clear, bind_eq_ok, throw_bind, guard_eq_ok, pure_eq_ok] at h
  obtain ⟨index, hindex, hlt, rfl⟩ := h
  obtain ⟨-, rfl⟩ := slotOf_eq_ok.mp hindex
  exact hk.setSlot none hlt

theorem keepIf (keep : Nat → Bool) : (t.keepIf keep).2.Keeps initial (p.after (.keepIf keep)) := by
  have hsize : (t.keepIf keep).2.size = t.size := Array.size_map
  refine ⟨?_, hsize.trans hk.size, hsize.le.trans hk.small, hk.first, ?_, ?_⟩
  · rw [entry_keepIf, hk.entry]
    rfl
  · rw [hsize]
    exact hk.unused
  · rw [hsize]
    exact hk.room

theorem perform (h : t.perform call = .ok u) : u.Keeps initial (p.after call) := by
  cases call with
  | assign addr =>
    simp only [Table.perform, bind_eq_ok, pure_eq_ok] at h
    obtain ⟨⟨r, v⟩, hassign, rfl⟩ := h
    exact (hk.assign hassign).2.2
  | set r addr => exact hk.set h
  | clear r => exact hk.clear h
  | keepIf keep =>
    cases h
    exact hk.keepIf keep

end Steps

theorem performAll (h : performAll initial calls = .ok t) : t.Keeps initial (.replay calls) := by
  have hrun : ∀ (calls : List Call) {t u : Table} {p : Register}, t.Keeps initial p →
      calls.foldlM Table.perform t = .ok u → u.Keeps initial (calls.foldl Register.after p) := by
    intro calls
    induction calls with
    | nil =>
      intro t u p hk h
      cases h
      exact hk
    | cons call rest ih =>
      intro t u p hk h
      rw [List.foldlM_cons, bind_eq_ok] at h
      obtain ⟨v, hfirst, hrest⟩ := h
      exact ih (hk.perform hfirst) hrest
  exact hrun calls (new initial) h

end Keeps

section Reading

theorem encard_slots {f : Option Nat → Bool} (hf : f none = false) (slots : List (Option Nat)) :
    {i : Nat | f slots[i]?.join = true}.encard = slots.countP f := by
  induction slots using List.reverseRecOn with
  | nil => simp [hf]
  | append_singleton slots slot ih =>
    have hend : slots[slots.length]?.join = none := by simp
    have hlast : (slots ++ [slot])[slots.length]?.join = slot := by simp
    have hrest (i : Nat) (hi : i ≠ slots.length) :
        (slots ++ [slot])[i]?.join = slots[i]?.join := by
      rcases Nat.lt_or_gt_of_ne hi with hlt | hgt
      · rw [List.getElem?_append_left hlt]
      · rw [List.getElem?_eq_none (by simpa using hgt), List.getElem?_eq_none (Nat.le_of_lt hgt)]
    rw [List.countP_append, List.countP_singleton]
    cases hslot : f slot with
    | false =>
      have hset : {i : Nat | f (slots ++ [slot])[i]?.join = true} =
          {i : Nat | f slots[i]?.join = true} := by
        ext i
        by_cases hi : i = slots.length
        · subst hi
          simp only [Set.mem_ofPred_eq, hlast, hend, hslot, hf]
        · simp only [Set.mem_ofPred_eq, hrest i hi]
      rw [hset, ih]
      rfl
    | true =>
      have hset : {i : Nat | f (slots ++ [slot])[i]?.join = true} =
          insert slots.length {i : Nat | f slots[i]?.join = true} := by
        ext i
        by_cases hi : i = slots.length
        · subst hi
          simp only [Set.mem_ofPred_eq, hlast, hslot, Set.mem_insert_iff, true_or]
        · simp only [Set.mem_ofPred_eq, hrest i hi, Set.mem_insert_iff, hi, false_or]
      have hnew : slots.length ∉ {i : Nat | f slots[i]?.join = true} := by
        rw [Set.mem_ofPred_eq, hend, hf]
        decide
      rw [hset, Set.encard_insert_of_notMem hnew, ih]
      rfl

theorem used_eq_encard (t : Table) : t.used = {i | t.entry i ≠ none}.encard := by
  rw [used, ← Array.countP_toList, ← encard_slots rfl]
  simp only [Option.isSome_iff_ne_none, Array.getElem?_toList]
  rfl

theorem keepIf_fst (t : Table) (keep : Nat → Bool) :
    (t.keepIf keep).1 = {i | ∃ a, t.entry i = some a ∧ keep a = false}.encard := by
  rw [keepIf, ← Array.countP_toList, ← encard_slots rfl]
  simp only [Option.any_eq_true, Bool.not_eq_true', Array.getElem?_toList]
  rfl

end Reading

/-- What a table answers after some calls, and what room it has, in terms of what the calls amount
to. -/
structure Replayed (initial : Nat) (calls : List Call) (t : Table) : Prop where
  lookup : ∀ r, t.get? r = if r.isLive then (replay calls).entries r.index else none
  reuse : ∀ addr r u, t.assign addr = .ok (r, u) → r.isLive = true ∧
    IsLeast {i | (replay calls).entries i = none} r.index ∧
    u.get? = Function.update t.get? r (some addr)
  sweep : ∀ keep,
    (t.keepIf keep).1 = {i | ∃ a, (replay calls).entries i = some a ∧ keep a = false}.encard ∧
    (t.keepIf keep).2.get? = fun r => (t.get? r).filter keep
  sorted : (t.entries.map fun e => e.1.index).Pairwise (· < ·)
  listed : ∀ r a, (r, a) ∈ t.entries ↔
    r.isLive = true ∧ (replay calls).entries r.index = some a
  counted : t.used = {i | (replay calls).entries i ≠ none}.encard
  found : ∀ r a, t.find? a = some r ↔
    r.isLive = true ∧ IsLeast {i | (replay calls).entries i = some a} r.index
  size : t.size = (replay calls).extent
  lasting : ∀ call u, t.perform call = .ok u → t.size ≤ u.size
  unused : (∀ addr, .assign addr ∉ calls) → t.capacity = 0
  room : ∀ addr, .assign addr ∈ calls → IsLeast (roomsFor initial t.size) t.capacity

/-- However slots were taken, cleared and taken again, the table is a partial map, takes the least
free index first, and doubles its room when it has to. -/
theorem replayed (h : performAll initial calls = .ok t) : Replayed initial calls t := by
  have hk := Keeps.performAll h
  have hextent := Register.extent_replay_pos calls
  have hlookup (r : Reference) :
      t.get? r = if r.isLive then (replay calls).entries r.index else none := by
    rw [get?_eq_entry, hk.entry]
  refine ⟨hlookup, fun addr r u hassign => ?_, fun keep => ⟨?_, (keepIf_eq t keep).1⟩,
    pairwise_entries hk.small, fun r a => ?_, ?_, fun r a => ?_, hk.size, fun call u hcall => ?_,
    fun hnone => hk.unused ?_, fun addr hmem => hk.room ?_⟩
  · obtain ⟨hlive, hindex, -⟩ := hk.assign hassign
    exact ⟨hlive, hindex ▸ hk.entry ▸ hk.isLeast_vacant, (assign_eq hassign).2.2.1⟩
  · rw [keepIf_fst, hk.entry]
  · rw [mem_entries hk.small, hlookup, Option.ite_none_right_eq_some]
  · rw [used_eq_encard, hk.entry]
  · rw [find?_eq_some hk.small, hk.entry]
  · rw [hk.size, (hk.perform hcall).size]
    exact Register.extent_le_after ..
  · rw [hk.size]
    exact Nat.eq_zero_of_not_pos fun hpos => (hextent.mp hpos).elim hnone
  · rw [hk.size]
    exact Nat.ne_of_gt (hextent.mpr ⟨addr, hmem⟩)

def churn : List Call :=
  [.assign 0, .assign 24, .assign 64, .clear (.ofIndex 0), .keepIf (· ≠ 24), .assign 88,
    .set (.ofIndex 2) 96]

theorem churn_replayed : performAll 2 churn = .ok ⟨#[some 88, none, some 96], 2, 4⟩ ∧
    Replayed 2 churn ⟨#[some 88, none, some 96], 2, 4⟩ := by
  have hrun : performAll 2 churn = .ok ⟨#[some 88, none, some 96], 2, 4⟩ := by
    with_unfolding_all rfl
  exact ⟨hrun, replayed hrun⟩

end CountedHeap.Table
