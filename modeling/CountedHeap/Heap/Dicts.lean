import CountedHeap.Heap.Make
import CountedHeap.Heap.Order

/-!
Dicts are hash tables over two arrays of the same room, one of keys and one of values. A key is
searched from its hash on, slot by slot; a deleted key leaves a tombstone. At half of its room the
table is rebuilt with twice as much.
-/

namespace CountedHeap.Heap

def makeTables (room : Nat) : Action OutOfMemory (Reference × Reference) := do
  let keys ← makeArray room
  let values ← (makeArray room).orUndo (·.release keys)
  return (keys, values)

structure Entry where
  slot : Nat
  key : Reference
  hash : UInt64

def entriesFrom (h : Heap) (keys : Reference) (slot : Nat) : Nat → Query Failure (List Entry)
  | 0 => return []
  | count + 1 => do
      let key ← h.arrayGet keys slot
      if key.isLive then
        let hash ← h.hash key
        return ⟨slot, key, hash⟩ :: (← h.entriesFrom keys (slot + 1) count)
      else h.entriesFrom keys (slot + 1) count

/-- Moves an entry to other tables; its counts stay. -/
def moveEntry (h : Heap) (parts : DictParts) (keys values : Reference) (e : Entry) :
    Except Fault Heap := do
  match ← h.findKey keys e.hash e.key false with
  | none => throw .noFreeSlot
  | some target => do
      let value ← h.arrayGet parts.values e.slot
      let h ← h.arraySet keys target e.key
      let h ← h.arraySet values target value
      let h ← h.arraySet parts.keys e.slot .null
      h.arraySet parts.values e.slot .null

/-- Rebuilds the table with twice the room and without tombstones. -/
def dictGrow (dict : Reference) : Action Failure Unit := do
  let parts ← Action.read (·.dictParts dict)
  let capacity ← Action.read (·.arrayCapacity parts.keys)
  let minimum := (← get).config.dictMinCapacity
  let room := max (← Word.mul capacity 2) minimum
  let entries ← Action.ask (·.entriesFrom parts.keys 0 capacity)
  let (keys, values) ← makeTables room
  Action.update fun h => entries.foldlM (·.moveEntry parts keys values ·) h
  Action.update (·.release parts.keys)
  Action.update (·.release parts.values)
  Action.update (·.storeReference dict Layout.dictKeysOffset keys)
  Action.update (·.storeReference dict Layout.dictValuesOffset values)
  Action.update (·.storeField dict Layout.dictOccupiedOffset parts.size)

/-- The slot for a new key, in a table that is rebuilt as long as it has none. Its room doubles
with each attempt, so a word limits their number. -/
def slotFor (dict : Reference) (hash : UInt64) (key : Reference) :
    Nat → Action Failure (DictParts × Nat)
  | 0 => throwThe Fault .endless
  | attempts + 1 => do
      let parts ← Action.read (·.dictParts dict)
      match ← Action.read (·.findKey parts.keys hash key false) with
      | some slot => return (parts, slot)
      | none =>
          dictGrow dict
          slotFor dict hash key attempts

def maxGrowths : Nat := 66

/-- Adds an entry whose key is not in the table. When the table cannot grow after that, the entry
stays. -/
def dictInsert (dict : Reference) (hash : UInt64) (key value : Reference) :
    Action Failure Unit := do
  let (parts, slot) ← slotFor dict hash key maxGrowths
  let fresh := (← Action.read (·.arrayGet parts.keys slot)).isNull
  Action.update (·.retain key)
  Action.update (·.retain value)
  Action.update (·.arraySet parts.keys slot key)
  Action.update (·.arraySet parts.values slot value)
  Action.update (·.storeField dict Layout.dictSizeOffset (← Word.add parts.size 1))
  let occupied ← Word.add parts.occupied fresh.toNat
  Action.update (·.storeField dict Layout.dictOccupiedOffset occupied)
  let capacity ← Action.read (·.arrayCapacity parts.keys)
  if capacity ≤ (← Word.mul occupied 2) then dictGrow dict

def dictSet (dict key value : Reference) : Action Failure Unit := do
  let hash ← Action.ask (·.hash key)
  let parts ← Action.read (·.dictParts dict)
  match ← Action.read (·.lookup parts.keys hash key) with
  | some slot =>
      let replaced ← Action.read (·.arrayGet parts.values slot)
      Action.update (·.retain value)
      Action.update (·.arraySet parts.values slot value)
      Action.update (·.release replaced)
  | none => dictInsert dict hash key value

def dictGet (dict key : Reference) : Action Failure Reference := do
  let hash ← Action.ask (·.hash key)
  let parts ← Action.read (·.dictParts dict)
  match ← Action.read (·.lookup parts.keys hash key) with
  | some slot =>
      let value ← Action.read (·.arrayGet parts.values slot)
      Action.update (·.retain value)
      return value
  | none => throw .missingKey

def dictDelete (dict key : Reference) : Action Failure Unit := do
  let hash ← Action.ask (·.hash key)
  let parts ← Action.read (·.dictParts dict)
  match ← Action.read (·.lookup parts.keys hash key) with
  | some slot =>
      let oldKey ← Action.read (·.arrayGet parts.keys slot)
      let oldValue ← Action.read (·.arrayGet parts.values slot)
      Action.update (·.arraySet parts.keys slot .tombstone)
      Action.update (·.arraySet parts.values slot .null)
      Action.update (·.storeField dict Layout.dictSizeOffset (← Word.sub parts.size 1))
      Action.update (·.release oldKey)
      Action.update (·.release oldValue)
  | none => throw .missingKeyToDelete

/-- Twice as much room as there are pairs. A later pair takes the place of an earlier one with an
equal key. -/
def newDict (pairs : List (Reference × Reference)) : Action Failure Reference := do
  let minimum := (← get).config.dictMinCapacity
  let (keys, values) ← makeTables (max (← Word.mul pairs.length 2) minimum)
  let dict ← (makeDict keys values).orUndo fun h => do (← h.release keys).release values
  pairs.forM fun (key, value) => (dictSet dict key value).orUndo (·.release dict)
  return dict

end CountedHeap.Heap
