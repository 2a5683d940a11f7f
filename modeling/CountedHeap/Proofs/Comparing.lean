import CountedHeap.Proofs.Equality

/-!
Comparisons that come to an end. Values from which no way leads into a cycle are ordered, or found
to have no order, in fewer steps down than a comparison may take.
-/

namespace CountedHeap

namespace Heap

def orderUpTo (h : Heap) (depth : Nat) (a b : Reference) : Query Failure Ordering := do
  let ka ← h.kindOf a
  let kb ← h.kindOf b
  unless ka = kb && ka.isOrdered do throw (.incomparable ka kb)
  h.orderWithin depth ka a b

theorem order_eq_upTo (h : Heap) : h.order = h.orderUpTo h.nesting := rfl

theorem orderWithin_list (h : Heap) (depth : Nat) (a b : Reference) :
    h.orderWithin (depth + 1) .list a b = do
      let l ← h.listParts a
      let r ← h.listParts b
      let o ← h.orderFrom (h.orderUpTo depth) l.values r.values 0 (min l.size r.size)
      return o.then (compare l.size r.size) := rfl

variable {h : Heap} {s : Store} {arrays owned : List Reference} {x y : Content}
  {a b u v : Reference} {n n' depth : Nat} {xs ys : List Reference}

theorem Stored.orderFrom_answers (hs : h.Stored s) (hu : s.content u = some (.array xs))
    (hv : s.content v = some (.array ys))
    {order : Reference → Reference → Query Failure Ordering}
    {index count : Nat} (hxs : index + count ≤ xs.length) (hys : index + count ≤ ys.length)
    (horder : ∀ i p q, i < index + count → xs[i]? = some p → ys[i]? = some q →
      ∃ o, order p q = .ok o) : ∃ o, h.orderFrom order u v index count = .ok o := by
  induction count generalizing index with
  | zero => exact ⟨_, rfl⟩
  | succ count ih =>
    have hp := List.getElem?_eq_getElem (show index < xs.length by omega)
    have hq := List.getElem?_eq_getElem (show index < ys.length by omega)
    rw [orderFrom, hs.arrayGet_of_content hu hp, hs.arrayGet_of_content hv hq, query_lift,
      query_lift]
    refine query_answers (horder index _ _ (by omega) hp hq) fun o _ => ?_
    cases o with
    | eq => exact ih (by omega) (by omega) fun i p q hi => horder i p q (by omega)
    | lt | gt => exact ⟨_, rfl⟩

namespace Stored

variable (hs : h.Stored s) (hl : s.Ledger arrays owned)
include hs hl

theorem orderUpTo_answers (haa : h.AcyclicFrom a) (hab : h.AcyclicFrom b)
    (ha : s.content a = some x) (hb : s.content b = some y) (hplain : ¬s.IsArray a)
    (hdepth : h.weight a ≤ depth) : ∃ o, h.orderUpTo depth a b = .ok o := by
  -- An element weighs less than its list, so a depth of its weight is enough for a value.
  induction depth generalizing a b x y with
  | zero => exact absurd (h.weight_pos a) (by omega)
  | succ depth ih =>
    rw [orderUpTo, hs.kindOf_eq_ok.mpr ⟨x, ha, rfl⟩, hs.kindOf_eq_ok.mpr ⟨y, hb, rfl⟩, query_lift,
      query_lift]
    by_cases hkinds : (x.kind = y.kind && x.kind.isOrdered) = true
    · simp only [hkinds, if_true]
      obtain ⟨hkind, hordered⟩ : x.kind = y.kind ∧ x.kind.isOrdered = true := by simpa using hkinds
      obtain ⟨c, hc, hcx⟩ := Store.content_eq_some.mp ha
      obtain ⟨d, hd, hdy⟩ := Store.content_eq_some.mp hb
      have hv := hcx ▸ hs.value_eq hc
      have hw := hdy ▸ hs.value_eq hd
      cases x with
      | array xs => exact absurd ⟨xs, ha⟩ hplain
      | dict => cases hordered
      | list n u =>
        cases y <;> cases hkind
        rename_i n' v
        obtain ⟨xs, hu, hxs⟩ := hl.lists ha
        obtain ⟨ys, hv, hys⟩ := hl.lists hb
        have hparts : h.listParts a = .ok ⟨n, u⟩ := hs.listParts_eq_ok.mpr ha
        have hparts' : h.listParts b = .ok ⟨n', v⟩ := hs.listParts_eq_ok.mpr hb
        rw [Content.kind, orderWithin_list, hparts, hparts', query_lift, query_lift]
        have hfits := hxs.fits
        have hfits' := hys.fits
        refine query_answers (hs.orderFrom_answers hu hv (by dsimp only; omega)
          (by dsimp only; omega) fun i p q hi hp hq => ?_) fun o _ => ⟨_, rfl⟩
        have hi : i < min n n' := Nat.zero_add (min n n') ▸ hi
        have hmem : p ∈ xs.take n :=
          List.mem_iff_getElem?.mpr ⟨i, by rw [List.getElem?_take_of_lt (by omega), hp]⟩
        have hmem' : q ∈ ys.take n' :=
          List.mem_iff_getElem?.mpr ⟨i, by rw [List.getElem?_take_of_lt (by omega), hq]⟩
        obtain ⟨hap, hlt, z, hz, hpplain⟩ := hs.below_element hl haa ha hu hmem
        obtain ⟨haq, -, w, hw, -⟩ := hs.below_element hl hab hb hv hmem'
        exact ih hap haq hz hw hpplain (by omega)
      | none | bool | integer | string =>
        cases y <;> cases hkind
        simp only [Content.kind, orderWithin, truth, integer, stringBytes, hv, hw, Content.value,
          ok_bind]
        exact ⟨_, rfl⟩
    · simp only [hkinds]
      exact ⟨_, rfl⟩

theorem compareBy_answers (op : Comparison) (ha : h.Grounded a) (hb : h.Grounded b) :
    ∃ r, h.compareBy op a b = .ok r := by
  obtain ⟨hashown, haa⟩ := ha
  obtain ⟨hbshown, hab⟩ := hb
  obtain ⟨x, hx, hplain⟩ := hs.shows_iff.mp hashown
  obtain ⟨y, hy, -⟩ := hs.shows_iff.mp hbshown
  have hweight := hs.weight_le_nesting hl hx
  cases op with
  | equals =>
    obtain ⟨e, he, -⟩ := hs.equal_decides hl ⟨hashown, haa⟩ ⟨hbshown, hab⟩
    exact ⟨.ok e, by rw [compareBy, he]; rfl⟩
  | less | greater | lessEqual | greaterEqual =>
    simp only [compareBy, order_eq_upTo]
    exact query_answers (hs.orderUpTo_answers hl haa hab hx hy hplain hweight) fun o _ => ⟨_, rfl⟩

end Stored

end Heap
end CountedHeap
