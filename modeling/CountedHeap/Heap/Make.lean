import CountedHeap.Heap.Release

/-!
New values. Each starts with a count of one, which the caller owns; where no block is left for it
the heap stays as it was.
-/

namespace CountedHeap.Heap

/-- Stamps the header of a block that was handed out, and gives it a reference. -/
def adopt (h : Heap) (k : Kind) (addr : Nat) (pool : Pool) : Except Fault (Reference × Heap) := do
  unless (← Block.read pool.memory addr).isFree do throw .handedOutTwice
  let m ← pool.memory.store32 addr k.tag
  let m ← m.store32 (addr + Block.auxOffset) 0
  let m ← m.store64 (addr + Layout.countOffset) 1
  let pool ← Pool.writePattern { pool with memory := m } addr
  let (r, table) ← h.table.assign addr
  return (r, { h with pool, table })

/-- A block of at least `size` bytes for a value of kind `k`. -/
def make (k : Kind) (size : Nat) : Action OutOfMemory Reference := ExceptT.mk fun h => do
  if k = .free then throw .freeKind
  match ← h.pool.alloc size with
  | .error e => return (.error e, h)
  | .ok (addr, pool) =>
      let (r, h) ← h.adopt k addr pool
      return (.ok r, h)

def fillIn (r : Reference) (f : Nat → Memory → Except Fault Memory) : Action OutOfMemory Unit :=
  Action.update fun h => do
    let addr ← h.deref r
    h.write (f addr)

def makeNone : Action OutOfMemory Reference := make .none Block.headerSize

def makeBool (b : Bool) : Action OutOfMemory Reference := do
  let r ← make .bool Block.headerSize
  fillIn r fun addr m => m.store32 (addr + Block.auxOffset) b.toNat
  return r

def makeInteger (n : Int64) : Action OutOfMemory Reference := do
  let r ← make .integer Layout.integerSize
  fillIn r fun addr m => m.storeInt64 (addr + Layout.integerOffset) n
  return r

def makeString (bytes : List UInt8) : Action OutOfMemory Reference := do
  if bytes.contains 0 then throwThe Fault .nulInString
  let r ← make .string (← Layout.stringSize bytes.length)
  fillIn r fun addr m => m.put (addr + Layout.stringOffset) (bytes ++ [0])
  return r

def makeConcatenation (left right : Reference) : Action OutOfMemory Reference := do
  let leftLength := (← Action.read (·.stringBytes left)).length
  let rightLength := (← Action.read (·.stringBytes right)).length
  let r ← make .string (← Layout.stringSize (leftLength + rightLength))
  let leftStart := (← Action.read (·.deref left)) + Layout.stringOffset
  let rightStart := (← Action.read (·.deref right)) + Layout.stringOffset
  fillIn r fun addr m => do
    let start := addr + Layout.stringOffset
    let m ← m.copy leftStart (leftStart + leftLength) start
    let m ← m.copy rightStart (rightStart + rightLength) (start + leftLength)
    m.put (start + leftLength + rightLength) [0]
  return r

def emptySlots (m : Memory) (addr : Nat) : Nat → Except Fault Memory
  | 0 => .ok m
  | count + 1 => do
      emptySlots (← m.storeInt32 addr Reference.null.raw) (addr + 4) count

def makeArray (capacity : Nat) : Action OutOfMemory Reference := do
  let r ← make .array (← Layout.arraySize capacity)
  fillIn r fun addr m => do
    let m ← m.store64 (addr + Layout.capacityOffset) capacity
    emptySlots m (addr + Layout.elementsOffset) capacity
  return r

def checkArray (r : Reference) : Action OutOfMemory Unit := Action.read fun h => do
  unless (← h.kindOf r) = .array do throw .notAnArray

/-- An empty list, which takes over the array. -/
def makeList (values : Reference) : Action OutOfMemory Reference := do
  checkArray values
  let r ← make .list Layout.listSize
  fillIn r fun addr m => do
    let m ← m.store64 (addr + Layout.listSizeOffset) 0
    m.storeInt32 (addr + Layout.listValuesOffset) values.raw
  return r

/-- An empty dict, which takes over both arrays. -/
def makeDict (keys values : Reference) : Action OutOfMemory Reference := do
  checkArray keys
  checkArray values
  let keyRoom ← Action.read (·.arrayCapacity keys)
  let valueRoom ← Action.read (·.arrayCapacity values)
  unless keyRoom = valueRoom do throwThe Fault .unequalArrays
  let r ← make .dict Layout.dictSize
  fillIn r fun addr m => do
    let m ← m.store64 (addr + Layout.dictSizeOffset) 0
    let m ← m.store64 (addr + Layout.dictOccupiedOffset) 0
    let m ← m.storeInt32 (addr + Layout.dictKeysOffset) keys.raw
    m.storeInt32 (addr + Layout.dictValuesOffset) values.raw
  return r

end CountedHeap.Heap
