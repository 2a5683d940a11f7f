import CountedHeap.Heap.Dicts
import CountedHeap.Heap.Lists

/-!
Operators and subscripts. What a kind does not support is absent before any value is looked at; an
operator on two values asks for two of the same kind.
-/

namespace CountedHeap

/-- Arithmetic wraps around; a quotient is cut off towards zero and a remainder has the sign of
the dividend. -/
def BinaryOperator.onIntegers (op : BinaryOperator) (left right : Int64) :
    Except Failure Int64 :=
  match op with
  | .add => .ok (left + right)
  | .subtract => .ok (left - right)
  | .multiply => .ok (left * right)
  | .divide => if right = 0 then .error .divisionByZero else .ok (left / right)
  | .modulo => if right = 0 then .error .divisionByZero else .ok (left % right)

def UnaryOperator.onInteger (op : UnaryOperator) (n : Int64) : Int64 :=
  match op with
  | .negate => -n
  | .identity => n

namespace Heap

/-- A kind that users never see has no operations, not even absent ones. -/
def noOperations {α : Type} (k : Kind) : Option (Action Failure α) :=
  some (throwThe Fault (.noOperations k))

def unaryAs? (k : Kind) (op : UnaryOperator) (r : Reference) :
    Option (Action Failure Reference) :=
  match k with
  | .integer => some do
      let n ← Action.read (·.integer r)
      makeInteger (op.onInteger n)
  | .array | .free => noOperations k
  | _ => none

def binaryIntegers (op : BinaryOperator) (left right : Reference) : Action Failure Reference := do
  let l ← Action.read (·.integer left)
  let r ← Action.read (·.integer right)
  match op.onIntegers l r with
  | .ok n => makeInteger n
  | .error e => throw e

def binaryAs? (k : Kind) (op : BinaryOperator) (left right : Reference) :
    Option (Action Failure Reference) :=
  match k, op with
  | .integer, _ => some (binaryIntegers op left right)
  | .string, .add => some do makeConcatenation left right
  | .array, _ | .free, _ => noOperations k
  | _, _ => none

def subscriptAs? (k : Kind) (r subscript : Reference) : Option (Action Failure Reference) :=
  match k with
  | .list => some (listSubscript r subscript)
  | .dict => some (dictGet r subscript)
  | .array | .free => noOperations k
  | _ => none

def assignAs? (k : Kind) (r subscript item : Reference) : Option (Action Failure Unit) :=
  match k with
  | .list => some (listAssign r subscript item)
  | .dict => some (dictSet r subscript item)
  | .array | .free => noOperations k
  | _ => none

def deleteAs? (k : Kind) (r subscript : Reference) : Option (Action Failure Unit) :=
  match k with
  | .list => some (listDelete r subscript)
  | .dict => some (dictDelete r subscript)
  | .array | .free => noOperations k
  | _ => none

def unary (op : UnaryOperator) (r : Reference) : Action Failure Reference := do
  let k ← Action.read (·.kindOf r)
  match unaryAs? k op r with
  | some action => action
  | none => throw (.badUnary op k)

def binary (op : BinaryOperator) (left right : Reference) : Action Failure Reference := do
  let l ← Action.read (·.kindOf left)
  let r ← Action.read (·.kindOf right)
  match if l = r then binaryAs? l op left right else none with
  | some action => action
  | none => throw (.badBinary op l r)

def subscript (r subscript : Reference) : Action Failure Reference := do
  let k ← Action.read (·.kindOf r)
  match subscriptAs? k r subscript with
  | some action => action
  | none => throw (.notSubscriptable k)

def assignItem (r subscript item : Reference) : Action Failure Unit := do
  let k ← Action.read (·.kindOf r)
  match assignAs? k r subscript item with
  | some action => action
  | none => throw (.noItemAssignment k)

def deleteItem (r subscript : Reference) : Action Failure Unit := do
  let k ← Action.read (·.kindOf r)
  match deleteAs? k r subscript with
  | some action => action
  | none => throw (.noItemDeletion k)

end Heap
end CountedHeap
