import CountedHeap.Heap.Inspect
import CountedHeap.Heap.Make

/-!
Lists stand on an array, which is replaced by one of twice the room when it is full. The list owns
one reference to each element; moving elements leaves their counts alone.
-/

namespace CountedHeap.Heap

def listGet (h : Heap) (list : Reference) (index : Nat) : Except Fault Reference := do
  let parts ← h.listParts list
  unless index < parts.size do throw (.listIndex index parts.size)
  h.arrayGet parts.values index

def placeFrom (h : Heap) (values : Reference) (index : Nat) : List Reference → Except Fault Heap
  | [] => .ok h
  | r :: rest => do
      let h ← h.retain r
      (← h.arraySet values index r).placeFrom values (index + 1) rest

def newList (elements : List Reference) : Action OutOfMemory Reference := do
  let values ← makeArray elements.length
  let list ← (makeList values).orUndo (·.release values)
  Action.update (·.placeFrom values 0 elements)
  Action.update (·.storeField list Layout.listSizeOffset elements.length)
  return list

def moveFrom (h : Heap) (source dest : Reference) (index : Nat) : Nat → Except Fault Heap
  | 0 => .ok h
  | count + 1 => do
      let h ← h.arraySet dest index (← h.arrayGet source index)
      (← h.arraySet source index .null).moveFrom source dest (index + 1) count

def roomFor (list : Reference) (parts : ListParts) : Action OutOfMemory Reference := do
  let capacity ← Action.read (·.arrayCapacity parts.values)
  if parts.size = capacity then
    let grown ← makeArray (max (← Word.mul capacity 2) 1)
    Action.update (·.moveFrom parts.values grown 0 parts.size)
    Action.update (·.release parts.values)
    Action.update (·.storeReference list Layout.listValuesOffset grown)
    return grown
  else return parts.values

def listPush (list item : Reference) : Action OutOfMemory Unit := do
  let parts ← Action.read (·.listParts list)
  let values ← roomFor list parts
  Action.update (·.retain item)
  Action.update (·.arraySet values parts.size item)
  Action.update (·.storeField list Layout.listSizeOffset (parts.size + 1))

/-- A negative subscript counts from the end. -/
def listIndex (h : Heap) (list subscript : Reference) : Query Failure Nat := do
  match ← h.value subscript with
  | .integer n =>
      let parts ← h.listParts list
      let n := if n < 0 then n + Int64.ofNat parts.size else n
      if n < 0 || parts.size ≤ n.toNatClampNeg then throw .listIndexRange
      return n.toNatClampNeg
  | _ => throw .listIndexKind

def listSubscript (list subscript : Reference) : Action Failure Reference := do
  let index ← Action.ask (·.listIndex list subscript)
  let element ← Action.read (·.listGet list index)
  Action.update (·.retain element)
  return element

def listAssign (list subscript item : Reference) : Action Failure Unit := do
  let index ← Action.ask (·.listIndex list subscript)
  let parts ← Action.read (·.listParts list)
  let replaced ← Action.read (·.arrayGet parts.values index)
  Action.update (·.retain item)
  Action.update (·.arraySet parts.values index item)
  Action.update (·.release replaced)

def shiftFrom (h : Heap) (values : Reference) (index : Nat) : Nat → Except Fault Heap
  | 0 => .ok h
  | count + 1 => do
      (← h.arraySet values index (← h.arrayGet values (index + 1))).shiftFrom values (index + 1)
        count

def listDelete (list subscript : Reference) : Action Failure Unit := do
  let index ← Action.ask (·.listIndex list subscript)
  let parts ← Action.read (·.listParts list)
  let removed ← Action.read (·.arrayGet parts.values index)
  let last := parts.size - 1
  Action.update (·.shiftFrom parts.values index (last - index))
  Action.update (·.arraySet parts.values last .null)
  Action.update (·.storeField list Layout.listSizeOffset last)
  Action.update (·.release removed)

end CountedHeap.Heap
