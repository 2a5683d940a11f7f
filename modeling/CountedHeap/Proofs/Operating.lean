import CountedHeap.Heap.Operate
import CountedHeap.Proofs.DictAnswering

/-!
Operators and subscripts that come to an end. Operands are values that users see, and every kind of
those has its operations, be they only absent ones.
-/

namespace CountedHeap.Heap

variable {h : Heap} {s : Store} {arrays owned : List Reference}
  {r left right subscript item : Reference} {x : Content}

theorem Stored.integer_eq (hs : h.Stored s) {n : Int64} (hr : s.content r = some (.integer n)) :
    h.integer r = .ok n := by
  obtain ⟨c, hc, hx⟩ := Store.content_eq_some.mp hr
  rw [integer, hs.value_eq hc, hx]
  rfl

theorem Stored.truth_answers (hs : h.Stored s) (hr : s.content r = some x)
    (hkind : x.kind = .none ∨ x.kind = .bool) : ∃ b, h.truth r = .ok b := by
  obtain ⟨c, hc, rfl⟩ := Store.content_eq_some.mp hr
  rw [truth, hs.value_eq hc]
  cases hx : c.content with
  | none | bool b => exact ⟨_, rfl⟩
  | _ => rcases hx ▸ hkind with hkind | hkind <;> cases hkind

theorem Stored.truthy_answers (hs : h.Stored s) (hr : Seen s r) : ∃ b, h.truthy r = .ok b := by
  obtain ⟨x, hx, hkind⟩ := hr
  rw [truthy, hs.kindOf_eq_ok.mpr ⟨x, hx, rfl⟩, ok_bind]
  cases x with
  | none => exact hs.truth_answers hx (.inl rfl)
  | bool b => exact hs.truth_answers hx (.inr rfl)
  | integer n => exact ⟨_, bind_eq_ok.mpr ⟨n, hs.integer_eq hx, rfl⟩⟩
  | string bytes => exact ⟨_, bind_eq_ok.mpr ⟨bytes, hs.stringBytes_eq_ok.mpr hx, rfl⟩⟩
  | list size values =>
    exact ⟨_, bind_eq_ok.mpr ⟨⟨size, values⟩, hs.listParts_eq_ok.mpr hx, rfl⟩⟩
  | dict size occupied keys values =>
    exact ⟨_, bind_eq_ok.mpr ⟨⟨size, occupied, keys, values⟩, hs.dictParts_eq_ok.mpr hx, rfl⟩⟩
  | array xs => exact absurd rfl hkind

theorem Stored.length_answers (hs : h.Stored s) (hr : Seen s r) : ∃ a, h.length r = .ok a := by
  obtain ⟨x, hx, hkind⟩ := hr
  rw [Heap.length, hs.kindOf_eq_ok.mpr ⟨x, hx, rfl⟩]
  cases x with
  | none | bool b | integer n => exact ⟨_, rfl⟩
  | string bytes =>
    have hbytes : h.stringBytes r = .ok bytes := hs.stringBytes_eq_ok.mpr hx
    simp only [Content.kind, lengthAs?, hbytes, ok_bind]
    exact ⟨_, rfl⟩
  | list size values =>
    simp only [Content.kind, lengthAs?, hs.listParts_answers hx, ok_bind]
    exact ⟨_, rfl⟩
  | dict size occupied keys values =>
    have hparts : h.dictParts r = .ok ⟨size, occupied, keys, values⟩ := hs.dictParts_eq_ok.mpr hx
    simp only [Content.kind, lengthAs?, hparts, ok_bind]
    exact ⟨_, rfl⟩
  | array xs => exact absurd rfl hkind

variable (hs : h.Sound s) (hm : h.Moderate) (hr : Seen s r)
include hs hm

include hr in
theorem unary_completes (op : UnaryOperator) : (unary op r).Completes h := by
  obtain ⟨x, hx, hkind⟩ := hr
  have hk : h.kindOf r = .ok x.kind := hs.kindOf_eq_ok.mpr ⟨x, hx, rfl⟩
  simp only [unary, Action.completes_bind, Action.completes_read, Action.ends_read, hk,
    Except.ok.injEq, exists_eq', forall_eq', true_and]
  cases x with
  | integer n =>
    simp only [Content.kind, unaryAs?, Action.completes_bind, Action.completes_read,
      Action.ends_read, Action.completes_ofMemory, hs.integer_eq hx, Except.ok.injEq, exists_eq',
      forall_eq', true_and]
    exact hs.makeInteger_completes hm _
  | array xs => exact absurd rfl hkind
  | _ => exact Action.completes_throw

theorem binary_completes (op : BinaryOperator) (hleft : Seen s left) (hright : Seen s right) :
    (binary op left right).Completes h := by
  obtain ⟨x, hx, hkind⟩ := hleft
  obtain ⟨y, hy, -⟩ := hright
  have hl : h.kindOf left = .ok x.kind := hs.kindOf_eq_ok.mpr ⟨x, hx, rfl⟩
  have hr : h.kindOf right = .ok y.kind := hs.kindOf_eq_ok.mpr ⟨y, hy, rfl⟩
  simp only [binary, Action.completes_bind, Action.completes_read, Action.ends_read, hl, hr,
    Except.ok.injEq, exists_eq', forall_eq', true_and]
  by_cases hkinds : x.kind = y.kind
  · rw [if_pos hkinds]
    cases x with
    | integer n =>
      cases y <;> cases hkinds
      rename_i n'
      simp only [Content.kind, binaryAs?, binaryIntegers, Action.completes_bind,
        Action.completes_read, Action.ends_read, hs.integer_eq hx, hs.integer_eq hy,
        Except.ok.injEq, exists_eq', forall_eq', true_and]
      cases op.onIntegers n n' with
      | ok m => exact Action.completes_ofMemory.mpr (hs.makeInteger_completes hm m)
      | error e => exact Action.completes_throw
    | string bytes =>
      cases y <;> cases hkinds
      cases op with
      | add => exact Action.completes_ofMemory.mpr (hs.makeConcatenation_completes hm hx hy)
      | _ => exact Action.completes_throw
    | array xs => exact absurd rfl hkind
    | _ => exact Action.completes_throw
  · rw [if_neg hkinds]
    exact Action.completes_throw

variable (hl : s.Ledger arrays owned) (hrare : Rare (arrays ++ owned)) (hsub : Seen s subscript)
include hl hr hsub

include hrare in
theorem subscript_completes : (Heap.subscript r subscript).Completes h := by
  obtain ⟨x, hx, hkind⟩ := hr
  have hk : h.kindOf r = .ok x.kind := hs.kindOf_eq_ok.mpr ⟨x, hx, rfl⟩
  simp only [Heap.subscript, Action.completes_bind, Action.completes_read, Action.ends_read, hk,
    Except.ok.injEq, exists_eq', forall_eq', true_and]
  cases x with
  | list size values => exact hs.listSubscript_completes hl hx hsub hm hrare
  | dict size occupied keys values => exact dictGet_completes hs hl hsub hx hm hrare
  | array xs => exact absurd rfl hkind
  | _ => exact Action.completes_throw

include hrare in
theorem assignItem_completes (hitem : Seen s item) : (assignItem r subscript item).Completes h := by
  obtain ⟨x, hx, hkind⟩ := hr
  have hk : h.kindOf r = .ok x.kind := hs.kindOf_eq_ok.mpr ⟨x, hx, rfl⟩
  simp only [Heap.assignItem, Action.completes_bind, Action.completes_read, Action.ends_read, hk,
    Except.ok.injEq, exists_eq', forall_eq', true_and]
  cases x with
  | list size values => exact hs.listAssign_completes hl hx hsub hm hrare hitem
  | dict size occupied keys values =>
    exact dictSet_completes (hs.editing hl .nothing hx) hm hrare hitem hsub hx
  | array xs => exact absurd rfl hkind
  | _ => exact Action.completes_throw

omit hm in
theorem deleteItem_completes : (deleteItem r subscript).Completes h := by
  obtain ⟨x, hx, hkind⟩ := hr
  have hk : h.kindOf r = .ok x.kind := hs.kindOf_eq_ok.mpr ⟨x, hx, rfl⟩
  simp only [Heap.deleteItem, Action.completes_bind, Action.completes_read, Action.ends_read, hk,
    Except.ok.injEq, exists_eq', forall_eq', true_and]
  cases x with
  | list size values => exact hs.listDelete_completes hl hx hsub
  | dict size occupied keys values => exact dictDelete_completes hs hl hsub hx
  | array xs => exact absurd rfl hkind
  | _ => exact Action.completes_throw

end CountedHeap.Heap
