import CountedHeap.Proofs.Acquiring
import CountedHeap.Proofs.Strings
import Mathlib.Algebra.Order.Group.Unbundled.Int
import Mathlib.Data.Int.ModEq

/-!
Integers are counted modulo 2 ^ 64. An operator works out the exact result and brings it into the
range of a signed word; only a division by zero has no result. Where there is room for it, the
result is a new value, and everything else is as it was.
-/

namespace CountedHeap

section Words

variable {l r : Int64}

theorem div_mul_add_mod_modEq (l r : Int64) :
    (l / r).toInt * r.toInt + (l % r).toInt ≡ l.toInt [ZMOD 2 ^ 64] := by
  have hwrap : (l / r).toInt ≡ l.toInt.tdiv r.toInt [ZMOD 2 ^ 64] := by
    rw [Int64.toInt_div]
    exact Int.bmod_emod
  calc (l / r).toInt * r.toInt + (l % r).toInt
      ≡ l.toInt.tdiv r.toInt * r.toInt + (l % r).toInt [ZMOD 2 ^ 64] :=
        (hwrap.mul_right _).add_right _
    _ = l.toInt := by rw [Int64.toInt_mod, Int.mul_comm, Int.mul_tdiv_add_tmod]

theorem abs_mod_lt (hr : r ≠ 0) : |(l % r).toInt| < |r.toInt| := by
  have hzero : r.toInt ≠ 0 := fun h => hr (Int64.toInt_inj.mp h)
  rw [Int64.toInt_mod, Int.abs_eq_natAbs, Int.abs_eq_natAbs, Int.natAbs_tmod]
  exact Int.ofNat_lt.mpr (Nat.mod_lt _ (Int.natAbs_pos.mpr hzero))

theorem sign_mod (l r : Int64) : l % r = 0 ∨ (l % r).toInt.sign = l.toInt.sign := by
  by_cases hdvd : r.toInt ∣ l.toInt
  · refine .inl (Int64.toInt_inj.mp ?_)
    rw [Int64.toInt_mod]
    exact Int.tmod_eq_zero_of_dvd hdvd
  · refine .inr ?_
    rw [Int64.toInt_mod, Int.sign_tmod, if_neg hdvd]

end Words

namespace Heap

/-- There is a block and a reference left for an integer. -/
structure HasRoom (h : Heap) : Prop where
  block : h.pool.Serves Layout.integerSize
  reference : h.table.Accepts

def Makes (h : Heap) (x : Action Failure Reference) (n : Int) : Prop :=
  ∃ q h' k, x.runOn h = .ok (.ok q, h') ∧ ¬h.Occupied q ∧ h'.value q = .ok (.integer k) ∧
    k.toInt = n.bmod (2 ^ 64) ∧ h'.refcount q = .ok 1 ∧
      ∀ p, h.Occupied p → Intact h h' p ∧ h'.refcount p = h.refcount p

/-- What operators make of the integers at two references. -/
structure Calculates (h : Heap) (left right : Reference) (l r : Int64) : Prop where
  add : h.Makes (binary .add left right) (l.toInt + r.toInt)
  subtract : h.Makes (binary .subtract left right) (l.toInt - r.toInt)
  multiply : h.Makes (binary .multiply left right) (l.toInt * r.toInt)
  negate : h.Makes (unary .negate left) (-l.toInt)
  divide : r ≠ 0 → ∃ q m : Int64, h.Makes (binary .divide left right) q.toInt ∧
    h.Makes (binary .modulo left right) m.toInt ∧
    q.toInt = (l.toInt.tdiv r.toInt).bmod (2 ^ 64) ∧
    q.toInt * r.toInt + m.toInt ≡ l.toInt [ZMOD 2 ^ 64] ∧
    |m.toInt| < |r.toInt| ∧ (m = 0 ∨ m.toInt.sign = l.toInt.sign)
  refuse : ∀ op, (∃ e, (binary op left right).runOn h = .ok (.error e, h) ∧ e.kind = .valueError) ↔
    (op = .divide ∨ op = .modulo) ∧ r = 0

variable {h h' : Heap} {s : Store} {left right q : Reference} {l r : Int64}

theorem Stored.integer_eq_ok (hs : h.Stored s) :
    h.integer left = .ok l ↔ s.content left = some (.integer l) := by
  refine ⟨fun hl => ?_, hs.integer_eq⟩
  obtain ⟨v, hv, hl⟩ := bind_eq_ok.mp hl
  obtain ⟨c, hc, rfl⟩ := hs.value_eq_ok.mp hv
  refine Store.content_eq_some.mpr ⟨c, hc, ?_⟩
  cases hx : c.content <;> rw [hx] at hl <;> cases hl
  rfl

section Making

variable (hs : h.Sound s)
include hs

theorem Sound.make_fill_answers {k : Kind} {size : Nat} {f : Nat → Memory → Except Fault Memory}
    (hmake : (Heap.make k size).runOn h = .ok (.ok q, h'))
    (hfill : ∀ {addr} {m : Memory}, addr + size ≤ m.size → ∃ n, f addr m = .ok n) :
    ∃ h₂, (do let r ← Heap.make k size; fillIn r f; return r :
      Action OutOfMemory Reference).runOn h = .ok (.ok q, h₂) := by
  obtain ⟨addr, hf, ha⟩ := (hs.make_allotted k size).good hmake
  obtain ⟨a, h₂, hrun⟩ := ha.fillIn_completes hf hfill
  rw [Action.runOn_bind_ok hmake]
  cases a with
  | ok u => exact ⟨h₂, by rw [Action.runOn_bind_ok hrun]; rfl⟩
  | error e =>
    have hnever : (fillIn q f).Ends h' (fun _ _ => True) fun _ _ => False :=
      Action.ends_update.mpr fun _ _ => trivial
    exact (hnever.bad hrun).elim

theorem Sound.makes_of_runOn (hroom : h.HasRoom) {x : Action Failure Reference} {n : Int64}
    (hx : x.runOn h = (liftM (Heap.makeInteger n) : Action Failure Reference).runOn h) {k : Int}
    (hk : n.toInt = k.bmod (2 ^ 64)) : h.Makes x k := by
  obtain ⟨q, h₁, hmake⟩ :=
    (hs.make_answers_iff (by decide : Kind.integer ≠ .free) _).mpr ⟨hroom.block, hroom.reference⟩
  obtain ⟨h', hrun⟩ := hs.make_fill_answers hmake (fillInteger_answers n)
  have hmade := (hs.makeInteger n).good hrun
  obtain ⟨addr, hs'⟩ := hmade.sound
  refine ⟨q, h', n, ?_, hmade.not_occupied hs.toStored, hs'.value_eq Store.set_self, hk,
    hs'.refcount_eq Store.set_self, fun p hp => ⟨?_, hmade.refcount_eq hs.toStored hp⟩⟩
  · rw [hx]
    show (Action.mapError Failure.outOfMemory _).runOn h = _
    rw [Action.runOn_mapError]
    exact congrArg (· >>= _) hrun
  · have hcreates : Creates (Scope.consts ⟨h.Occupied, fun _ => False, True⟩)
        (Heap.makeInteger n) := .integer n
    obtain ⟨s', hsteady⟩ := hcreates.steady hs (fun _ hq => hq) hrun
    exact hsteady.intact hs hp not_false (hs'.occupied_set hs hp)

end Making

section Operators

variable (hs : h.Stored s) (hl : h.integer left = .ok l)
include hs hl

theorem Stored.unary_integer (op : UnaryOperator) : (unary op left).runOn h =
    (liftM (makeInteger (op.onInteger l)) : Action Failure Reference).runOn h := by
  have hx := hs.integer_eq_ok.mp hl
  rw [unary, Action.runOn_bind_ok (Action.runOn_read (hs.kindOf_eq_ok.mpr ⟨_, hx, rfl⟩))]
  exact Action.runOn_bind_ok (Action.runOn_read (hs.integer_eq hx))

theorem Stored.binary_integers (hr : h.integer right = .ok r) (op : BinaryOperator) :
    (binary op left right).runOn h = match op.onIntegers l r with
      | .ok n => (liftM (makeInteger n) : Action Failure Reference).runOn h
      | .error e => .ok (.error e, h) := by
  have hx := hs.integer_eq_ok.mp hl
  have hy := hs.integer_eq_ok.mp hr
  rw [binary, Action.runOn_bind_ok (Action.runOn_read (hs.kindOf_eq_ok.mpr ⟨_, hx, rfl⟩)),
    Action.runOn_bind_ok (Action.runOn_read (hs.kindOf_eq_ok.mpr ⟨_, hy, rfl⟩))]
  show (binaryIntegers op left right).runOn h = _
  rw [binaryIntegers, Action.runOn_bind_ok (Action.runOn_read (hs.integer_eq hx)),
    Action.runOn_bind_ok (Action.runOn_read (hs.integer_eq hy))]
  cases op.onIntegers l r <;> rfl

end Operators

end Heap

namespace Client

open Heap

variable {c : Client} {left right : Reference} {l r : Int64} {rule : Client → Request → Bool}

/-- Whatever a client has done before, the operators calculate modulo 2 ^ 64. -/
theorem Run.integers_calculate (hrun : Run rule c) (hroom : c.heap.HasRoom)
    (hl : c.heap.integer left = .ok l) (hr : c.heap.integer right = .ok r) :
    c.heap.Calculates left right l r := by
  obtain ⟨s, hs⟩ := hrun.consistent
  have hbinary := hs.toStored.binary_integers hl hr
  refine ⟨hs.makes_of_runOn hroom (hbinary .add) (Int64.toInt_add l r),
    hs.makes_of_runOn hroom (hbinary .subtract) (Int64.toInt_sub l r),
    hs.makes_of_runOn hroom (hbinary .multiply) (Int64.toInt_mul l r),
    hs.makes_of_runOn hroom (hs.toStored.unary_integer hl .negate) (Int64.toInt_neg l),
    fun hzero => ⟨l / r, l % r, ?_, ?_, Int64.toInt_div l r, div_mul_add_mod_modEq l r,
      abs_mod_lt hzero, sign_mod l r⟩, fun op => ⟨?_, ?_⟩⟩
  · refine hs.makes_of_runOn hroom ?_ (Int64.toInt_bmod _).symm
    rw [hbinary, BinaryOperator.onIntegers, if_neg hzero]
  · refine hs.makes_of_runOn hroom ?_ (Int64.toInt_bmod _).symm
    rw [hbinary, BinaryOperator.onIntegers, if_neg hzero]
  · rintro ⟨e, herror, -⟩
    rw [hbinary] at herror
    cases hop : op.onIntegers l r with
    | ok n =>
      obtain ⟨q, h', -, hanswer, -⟩ := hs.makes_of_runOn hroom (n := n) rfl (Int64.toInt_bmod _).symm
      rw [hop] at herror
      cases hanswer.symm.trans herror
    | error e => exact (onIntegers_eq_error.mp hop).1
  · intro hop
    refine ⟨.divisionByZero, ?_, rfl⟩
    rw [hbinary, onIntegers_eq_error.mpr ⟨hop, rfl⟩]

def extremes : Option Client :=
  session allows { poolSize := 256 }
    [.makeInteger (-0x8000000000000000), .makeInteger 7, .release (.ofIndex 1), .makeInteger (-1)]

theorem extremes_calculate : ∃ c, extremes = some c ∧
    c.heap.Calculates (.ofIndex 0) (.ofIndex 1) (-0x8000000000000000) (-1) := by
  have hall : (extremes.any fun c =>
      (c.heap.integer (.ofIndex 0)).toOption == some (-0x8000000000000000) &&
        ((c.heap.integer (.ofIndex 1)).toOption == some (-1) &&
          (decide (c.heap.table.size ≤ Table.maxIndex ∧ c.heap.table.size < c.heap.table.capacity) &&
            ((c.heap.pool.alloc Layout.integerSize).toOption.bind (·.toOption)).isSome))) = true := by
    decide +kernel
  obtain ⟨c, hc, hall⟩ := (Option.any_eq_true ..).mp hall
  obtain ⟨hleft, hall⟩ := Bool.and_eq_true_iff.mp hall
  obtain ⟨hright, hall⟩ := Bool.and_eq_true_iff.mp hall
  obtain ⟨htable, hblock⟩ := Bool.and_eq_true_iff.mp hall
  obtain ⟨hsize, hspare⟩ := of_decide_eq_true htable
  obtain ⟨e, hblock⟩ := Option.isSome_iff_exists.mp hblock
  obtain ⟨answer, halloc, hanswer⟩ := Option.bind_eq_some_iff.mp hblock
  have hserves : c.heap.pool.Serves Layout.integerSize :=
    ⟨e.1, e.2, toOption_eq_some.mp hanswer ▸ toOption_eq_some.mp halloc⟩
  exact ⟨c, hc, (Run.session hc).integers_calculate ⟨hserves, .inr ⟨hsize, .inl hspare⟩⟩
    (eq_ok_of_toOption hleft) (eq_ok_of_toOption hright)⟩

end Client
end CountedHeap
