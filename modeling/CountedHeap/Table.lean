import CountedHeap.Fault

/-!
The reference table says where each value lies. A cleared slot is used again before the table
grows, the lowest first; growth doubles the room.
-/

namespace CountedHeap

structure Table where
  slots : Array (Option Nat)
  initial : Nat
  capacity : Nat
  deriving Inhabited

namespace Table

def ofInitial (initial : Nat) : Table := ⟨#[], max initial 1, 0⟩

def size (t : Table) : Nat := t.slots.size

def isEmpty (t : Table) : Bool := t.size == 0

/-- More slots than this do not fit into the address space. -/
def maxCapacity : Nat := 0x7ffffffffffffff

def maxIndex : Nat := 0x7fffffff

def referenceAt (index : Nat) : Except Fault Reference :=
  if index ≤ maxIndex then .ok (.ofIndex index) else .error .tableOverflow

def slotOf (r : Reference) : Except Fault Nat :=
  if r.isLive then .ok r.index else .error (.notAnIndex r)

def reserve (t : Table) : Except Fault Table :=
  if t.size < t.capacity then .ok t
  else
    let capacity := if t.capacity = 0 then t.initial else 2 * t.capacity
    if capacity ≤ maxCapacity then .ok { t with capacity } else .error .overflow

def assign (t : Table) (addr : Nat) : Except Fault (Reference × Table) := do
  match t.slots.findIdx? (·.isNone) with
  | some index =>
      return (← referenceAt index, { t with slots := t.slots.setIfInBounds index (some addr) })
  | none =>
      let r ← referenceAt t.size
      let t ← t.reserve
      return (r, { t with slots := t.slots.push (some addr) })

def get? (t : Table) (r : Reference) : Option Nat :=
  if r.isLive then t.slots[r.index]?.join else none

def set (t : Table) (r : Reference) (addr : Nat) : Except Fault Table := do
  let index ← slotOf r
  match t.slots[index]? with
  | none => throw .outOfBounds
  | some none => throw (.unusedReference r)
  | some (some _) => return { t with slots := t.slots.setIfInBounds index (some addr) }

def clear (t : Table) (r : Reference) : Except Fault Table := do
  let index ← slotOf r
  unless index < t.size do throw .outOfBounds
  return { t with slots := t.slots.setIfInBounds index none }

/-- The lowest reference to `addr`. -/
def find? (t : Table) (addr : Nat) : Option Reference :=
  (t.slots.findIdx? (· == some addr)).map .ofIndex

/-- Clears the slots whose address fails the test, and counts them. -/
def keepIf (t : Table) (keep : Nat → Bool) : Nat × Table :=
  let dropped (slot : Option Nat) : Bool := slot.any fun addr => !keep addr
  (t.slots.countP dropped, { t with slots := t.slots.map fun s => if dropped s then none else s })

def used (t : Table) : Nat := t.slots.countP (·.isSome)

def entries (t : Table) : List (Reference × Nat) :=
  t.slots.toList.zipIdx.filterMap fun (slot, index) => slot.map (.ofIndex index, ·)

end Table
end CountedHeap
