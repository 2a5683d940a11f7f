import CountedHeap.Proofs.Table
import Mathlib.Algebra.BigOperators.Group.Finset.Basic
import Mathlib.Algebra.Order.BigOperators.Group.Finset
import Mathlib.Algebra.BigOperators.Group.List.Basic

/-!
How often a reference is led to. Of a map from references to the references they lead to, the sum
over all live references counts an edge as often as it occurs.
-/

namespace CountedHeap

open Finset

def overwrite {α : Type} (f : Reference → α) : List (Reference × α) → Reference → α
  | [] => f
  | e :: rest => Function.update (overwrite f rest) e.1 e.2

theorem overwrite_of_not_mem {α : Type} {f : Reference → α} {changes : List (Reference × α)}
    {r : Reference} (hr : r ∉ changes.map Prod.fst) : overwrite f changes r = f r := by
  induction changes with
  | nil => rfl
  | cons e rest ih =>
    rw [List.map_cons, List.mem_cons, not_or] at hr
    rw [overwrite, Function.update_of_ne hr.1, ih hr.2]

theorem overwrite_of_mem {α : Type} {f : Reference → α} {changes : List (Reference × α)}
    (hnodup : (changes.map Prod.fst).Nodup) {e : Reference × α} (he : e ∈ changes) :
    overwrite f changes e.1 = e.2 := by
  induction changes with
  | nil => exact absurd he List.not_mem_nil
  | cons d rest ih =>
    rw [List.map_cons, List.nodup_cons] at hnodup
    rcases List.mem_cons.mp he with rfl | he
    · rw [overwrite, Function.update_self]
    · have hne : e.1 ≠ d.1 := fun h => hnodup.1 (h ▸ List.mem_map_of_mem he)
      rw [overwrite, Function.update_of_ne hne, ih hnodup.2 he]

theorem overwrite_comp {α β : Type} (g : α → β) (f : Reference → α)
    (changes : List (Reference × α)) :
    (fun r => g (overwrite f changes r)) =
      overwrite (fun r => g (f r)) (changes.map fun e => (e.1, g e.2)) := by
  induction changes with
  | nil => rfl
  | cons e rest ih =>
    funext r
    rw [List.map_cons, overwrite, overwrite, ← ih]
    by_cases hr : r = e.1
    · subst hr
      rw [Function.update_self, Function.update_self]
    · rw [Function.update_of_ne hr, Function.update_of_ne hr]

theorem overwrite_self {α : Type} {f : Reference → α} {changes : List (Reference × α)}
    {r : Reference} (hr : r ∉ changes.map Prod.fst) :
    overwrite f ((r, f r) :: changes) = overwrite f changes := by
  rw [overwrite, Function.update_eq_self_iff]
  exact (overwrite_of_not_mem hr).symm

@[irreducible]
def edges (out : Reference → List Reference) (q : Reference) : Nat :=
  ∑ i ∈ range (2 ^ 31), (out (.ofIndex i)).count q

namespace edges

variable {out out' : Reference → List Reference} {r p q : Reference}

theorem eq_zero (h : ∀ r, r.isLive = true → q ∉ out r) : edges out q = 0 := by
  unfold edges
  refine sum_eq_zero fun i hi => ?_
  exact List.count_eq_zero.mpr (h _ (Reference.isLive_ofIndex (mem_range.mp hi)))

theorem split (hr : r.isLive = true) :
    edges out q = (out r).count q +
      ∑ i ∈ (range (2 ^ 31)).erase r.index, (out (.ofIndex i)).count q := by
  have hmem : r.index ∈ range (2 ^ 31) := mem_range.mpr r.index_lt
  have hsum := add_sum_erase _ (fun i => (out (.ofIndex i)).count q) hmem
  rw [Reference.ofIndex_index hr] at hsum
  unfold edges
  exact hsum.symm

theorem update (hr : r.isLive = true) (held : List Reference) :
    edges (Function.update out r held) q + (out r).count q = edges out q + held.count q := by
  have hrest : ∑ i ∈ (range (2 ^ 31)).erase r.index,
      (Function.update out r held (.ofIndex i)).count q =
      ∑ i ∈ (range (2 ^ 31)).erase r.index, (out (.ofIndex i)).count q := by
    refine sum_congr rfl fun i hi => ?_
    obtain ⟨hne, hlt⟩ := mem_erase.mp hi
    rw [Function.update_of_ne]
    intro heq
    rw [← heq, Reference.index_ofIndex (mem_range.mp hlt)] at hne
    exact hne rfl
  rw [split hr, @split out r q hr, hrest, Function.update_self]
  omega

theorem overwrite {changes : List (Reference × List Reference)}
    (hlive : ∀ e ∈ changes, e.1.isLive = true) (hnodup : (changes.map Prod.fst).Nodup) :
    edges (overwrite out changes) q + (changes.map fun e => (out e.1).count q).sum =
      edges out q + (changes.map fun e => e.2.count q).sum := by
  induction changes with
  | nil => rfl
  | cons e rest ih =>
    rw [List.map_cons, List.nodup_cons] at hnodup
    have hrest := ih (fun e he => hlive e (List.mem_cons_of_mem _ he)) hnodup.2
    have hhead := @update (CountedHeap.overwrite out rest) e.1 q (hlive e List.mem_cons_self) e.2
    rw [overwrite_of_not_mem hnodup.1] at hhead
    simp only [List.map_cons, List.sum_cons]
    rw [CountedHeap.overwrite]
    omega

theorem count_le (hr : r.isLive = true) : (out r).count q ≤ edges out q := by
  rw [split hr]
  exact Nat.le_add_right ..

theorem pos_of_mem (hr : r.isLive = true) (hq : q ∈ out r) : 0 < edges out q :=
  Nat.lt_of_lt_of_le (List.count_pos_iff.mpr hq) (count_le hr)

theorem two_le (hr : r.isLive = true) (hp : p.isLive = true) (hne : r ≠ p) (hqr : q ∈ out r)
    (hqp : q ∈ out p) : 2 ≤ edges out q := by
  have hmem : p.index ∈ (range (2 ^ 31)).erase r.index := by
    refine mem_erase.mpr ⟨fun h => hne (Reference.ext_index hr hp h.symm), ?_⟩
    exact mem_range.mpr p.index_lt
  have hsnd := single_le_sum (f := fun i => (out (.ofIndex i)).count q)
    (fun _ _ => Nat.zero_le _) hmem
  have hr' := List.count_pos_iff.mpr hqr
  have hp' := List.count_pos_iff.mpr hqp
  simp only [Reference.ofIndex_index hp] at hsnd
  rw [split hr]
  omega

theorem eq_entries {t : Table} (hsmall : t.size ≤ 2 ^ 31)
    (hout : ∀ r, t.get? r = none → out r = []) :
    edges out q = (t.entries.map fun e => (out e.1).count q).sum := by
  have hbelow : edges out q = ∑ i ∈ range t.size, (out (.ofIndex i)).count q := by
    unfold edges
    refine (sum_subset (range_mono hsmall) fun i hi hnot => ?_).symm
    rw [hout, List.count_nil]
    rw [mem_range] at hi hnot
    refine Option.eq_none_iff_forall_ne_some.mpr fun a ha => hnot ?_
    have hlt := Table.index_lt_size ha
    rwa [Reference.index_ofIndex hi] at hlt
  have hlist : ∀ (slots : List (Option Nat)) (start : Nat),
      (∀ i, slots[i]? = some none → out (.ofIndex (start + i)) = []) →
      ∑ i ∈ range slots.length, (out (.ofIndex (start + i))).count q =
        (((slots.zipIdx start).filterMap fun e =>
          e.1.map (Reference.ofIndex e.2, ·)).map fun e => (out e.1).count q).sum := by
    intro slots
    induction slots with
    | nil => exact fun _ _ => rfl
    | cons slot rest ih =>
      intro start hnone
      have hrest := ih (start + 1) fun i hi => by
        have hs := hnone (i + 1) hi
        rwa [show start + (i + 1) = start + 1 + i by omega] at hs
      have hshift : ∑ i ∈ range rest.length, (out (.ofIndex (start + (i + 1)))).count q =
          ∑ i ∈ range rest.length, (out (.ofIndex (start + 1 + i))).count q :=
        sum_congr rfl fun i _ => by rw [show start + (i + 1) = start + 1 + i by omega]
      rw [List.length_cons, sum_range_succ', hshift, hrest, List.zipIdx_cons]
      cases slot with
      | none =>
        rw [hnone 0 rfl]
        rfl
      | some a => exact Nat.add_comm _ _
  rw [hbelow]
  have hall := hlist t.slots.toList 0 fun i hi => by
    have hlt := (List.getElem?_eq_some_iff.mp hi).1
    rw [Nat.zero_add]
    refine hout _ ?_
    rw [Array.length_toList] at hlt
    have hindex : i < 2 ^ 31 := Nat.lt_of_lt_of_le hlt hsmall
    rw [Table.get?, if_pos (Reference.isLive_ofIndex hindex), Reference.index_ofIndex hindex,
      ← Array.getElem?_toList, hi]
    rfl
  simp only [Nat.zero_add] at hall
  exact hall

theorem mono (h : ∀ r, r.isLive = true → (out r).count q ≤ (out' r).count q) :
    edges out q ≤ edges out' q := by
  unfold edges
  exact sum_le_sum fun i hi => h _ (Reference.isLive_ofIndex (mem_range.mp hi))

end edges
end CountedHeap
