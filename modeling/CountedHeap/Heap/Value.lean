import CountedHeap.Heap.Basic

/-!
What the bytes of a block mean. An array is decoded slot by slot, as its slots are asked for.
-/

namespace CountedHeap

structure Slots where
  addr : Nat
  capacity : Nat

inductive Value
  | none
  | bool (b : Bool)
  | integer (n : Int64)
  | string (bytes : List UInt8)
  | list (size : Nat) (values : Reference)
  /-- `occupied` counts the key slots that hold a key or a tombstone. -/
  | dict (size occupied : Nat) (keys values : Reference)
  | array (slots : Slots)

def Value.kind : Value → Kind
  | none => .none
  | bool _ => .bool
  | integer _ => .integer
  | string _ => .string
  | list .. => .list
  | dict .. => .dict
  | array _ => .array

namespace Slots

def read (m : Memory) (addr : Nat) : Except Fault Slots := do
  return ⟨addr, ← m.load64 (addr + Layout.capacityOffset)⟩

def get (s : Slots) (m : Memory) (index : Nat) : Except Fault Reference := do
  unless index < s.capacity do throw (.arrayIndex index s.capacity)
  return ⟨← m.loadInt32 (s.addr + Layout.elementOffset index)⟩

def referencesFrom (s : Slots) (m : Memory) (index : Nat) : Nat → Except Fault (List Reference)
  | 0 => .ok []
  | count + 1 => do
      let r ← s.get m index
      return r :: (← s.referencesFrom m (index + 1) count)

def references (s : Slots) (m : Memory) : Except Fault (List Reference) :=
  s.referencesFrom m 0 s.capacity

end Slots

namespace Heap

def value (h : Heap) (r : Reference) : Except Fault Value := do
  let addr ← h.deref r
  let m := h.memory
  match ← h.kindAt addr with
  | .none => return .none
  | .bool => return .bool ((← h.block addr).aux != 0)
  | .integer => return .integer (← m.loadInt64 (addr + Layout.integerOffset))
  | .string =>
      let payload ← m.slice (addr + Layout.stringOffset) (← (← h.block addr).stop)
      return .string (payload.takeWhile (· != 0))
  | .list =>
      let size ← m.load64 (addr + Layout.listSizeOffset)
      return .list size ⟨← m.loadInt32 (addr + Layout.listValuesOffset)⟩
  | .dict =>
      let size ← m.load64 (addr + Layout.dictSizeOffset)
      let occupied ← m.load64 (addr + Layout.dictOccupiedOffset)
      let keys ← m.loadInt32 (addr + Layout.dictKeysOffset)
      let values ← m.loadInt32 (addr + Layout.dictValuesOffset)
      return .dict size occupied ⟨keys⟩ ⟨values⟩
  | .array => return .array (← Slots.read m addr)
  | .free => throw (.pointsAtFree r)

def slots (h : Heap) (r : Reference) : Except Fault Slots := do
  let addr ← h.deref r
  unless (← h.kindAt addr) = .array do throw .notAnArray
  Slots.read h.memory addr

def arrayGet (h : Heap) (r : Reference) (index : Nat) : Except Fault Reference := do
  (← h.slots r).get h.memory index

def arraySet (h : Heap) (r : Reference) (index : Nat) (value : Reference) : Except Fault Heap := do
  let slots ← h.slots r
  unless index < slots.capacity do throw .slotOutside
  h.write (·.storeInt32 (slots.addr + Layout.elementOffset index) value.raw)

def arrayCapacity (h : Heap) (r : Reference) : Except Fault Nat := do
  return (← h.slots r).capacity

def truth (h : Heap) (r : Reference) : Except Fault Bool := do
  match ← h.value r with
  | .none => return false
  | .bool b => return b
  | other => throw (.expected "a singleton" other.kind)

def integer (h : Heap) (r : Reference) : Except Fault Int64 := do
  match ← h.value r with
  | .integer n => return n
  | other => throw (.expected "an integer" other.kind)

def stringBytes (h : Heap) (r : Reference) : Except Fault (List UInt8) := do
  match ← h.value r with
  | .string bytes => return bytes
  | other => throw (.expected "a string" other.kind)

structure ListParts where
  size : Nat
  values : Reference

def listParts (h : Heap) (r : Reference) : Except Fault ListParts := do
  match ← h.value r with
  | .list size values => return ⟨size, values⟩
  | other => throw (.expected "a list" other.kind)

structure DictParts where
  size : Nat
  occupied : Nat
  keys : Reference
  values : Reference

def dictParts (h : Heap) (r : Reference) : Except Fault DictParts := do
  match ← h.value r with
  | .dict size occupied keys values => return ⟨size, occupied, keys, values⟩
  | other => throw (.expected "a dict" other.kind)

/-- The references that the block at `addr` holds, in the order in which they are followed: a
dict's values before its keys. -/
def children (h : Heap) (addr : Nat) : Kind → Except Fault (List Reference)
  | .list => do return [⟨← h.memory.loadInt32 (addr + Layout.listValuesOffset)⟩]
  | .dict => do
      let values ← h.memory.loadInt32 (addr + Layout.dictValuesOffset)
      let keys ← h.memory.loadInt32 (addr + Layout.dictKeysOffset)
      return [⟨values⟩, ⟨keys⟩]
  | .array => do
      let slots ← Slots.read h.memory addr
      return (← slots.references h.memory).filter (·.isLive)
  | _ => .ok []

end Heap
end CountedHeap
