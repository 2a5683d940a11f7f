import CountedHeap.Heap.Value

/-!
Truth, length and hash of a value. A kind without a length or a hash has no such function, which
is known before the value is looked at; users never see arrays, and those have no functions.
-/

namespace CountedHeap

/-- Folds the bytes in from the left, each with its sign. -/
def stringHash (bytes : List UInt8) : UInt64 :=
  bytes.foldl (fun h b => h * 31 + b.toInt8.toInt64.toUInt64) 1125899906842597

namespace Heap

variable (h : Heap)

def truthyAs (k : Kind) (r : Reference) : Except Fault Bool :=
  match k with
  | .none | .bool => h.truth r
  | .integer => do return (← h.integer r) != 0
  | .string => do return !(← h.stringBytes r).isEmpty
  | .list => do return 0 < (← h.listParts r).size
  | .dict => do return 0 < (← h.dictParts r).size
  | .array | .free => .error (.noOperations k)

def lengthAs? (k : Kind) (r : Reference) : Option (Except Fault Nat) :=
  match k with
  | .none | .bool | .integer => none
  | .string => some do return (← h.stringBytes r).length
  | .list => some do return (← h.listParts r).size
  | .dict => some do return (← h.dictParts r).size
  | .array | .free => some (.error (.noOperations k))

def singletonHash (r : Reference) : Except Fault UInt64 := do
  match ← h.value r with
  | .none => return -1
  | _ => return if ← h.truth r then 1 else 0

def hashAs? (k : Kind) (r : Reference) : Option (Except Fault UInt64) :=
  match k with
  | .none | .bool => some (h.singletonHash r)
  | .integer => some do return (← h.integer r).toUInt64
  | .string => some do return stringHash (← h.stringBytes r)
  | .list | .dict => none
  | .array | .free => some (.error (.noOperations k))

def truthy (r : Reference) : Except Fault Bool := do
  h.truthyAs (← h.kindOf r) r

def length (r : Reference) : Query Failure Nat := do
  let k ← h.kindOf r
  match h.lengthAs? k r with
  | some n => n
  | none => throw (.noLength k)

def hash (r : Reference) : Query Failure UInt64 := do
  let k ← h.kindOf r
  match h.hashAs? k r with
  | some x => x
  | none => throw (.unhashable k)

end Heap
end CountedHeap
