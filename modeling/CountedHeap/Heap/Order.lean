import CountedHeap.Heap.Inspect

/-!
Order and equality of values. Values of different kinds are never equal and never ordered; lists
compare element by element, dicts only for equality. A depth bounds how far containers nest.
-/

namespace CountedHeap

def Kind.isOrdered (k : Kind) : Bool := k != .dict

namespace Heap

variable (h : Heap)

def orderFrom (order : Reference → Reference → Query Failure Ordering) (left right : Reference)
    (index : Nat) : Nat → Query Failure Ordering
  | 0 => return .eq
  | count + 1 => do
      let a ← h.arrayGet left index
      let b ← h.arrayGet right index
      match ← order a b with
      | .eq => orderFrom order left right (index + 1) count
      | o => return o

def orderWithin : Nat → Kind → Reference → Reference → Query Failure Ordering
  | 0, _, _, _ => throwThe Fault .endless
  | depth + 1, k, left, right =>
      let order (a b : Reference) : Query Failure Ordering := do
        let ka ← h.kindOf a
        let kb ← h.kindOf b
        unless ka = kb && ka.isOrdered do throw (.incomparable ka kb)
        orderWithin depth ka a b
      match k with
      | .none | .bool => do return compare (← h.truth left).toNat (← h.truth right).toNat
      | .integer => do return compare (← h.integer left).toInt (← h.integer right).toInt
      | .string => do return compare (← h.stringBytes left) (← h.stringBytes right)
      | .list => do
          let l ← h.listParts left
          let r ← h.listParts right
          let o ← h.orderFrom order l.values r.values 0 (min l.size r.size)
          return o.then (compare l.size r.size)
      | .dict => throw (.incomparable k k)
      | .array | .free => throwThe Fault (.noOperations k)

/-- The first slot from `start` on, around the end of the table, at which the search for a key
stops: an empty one, the key, or, unless these are skipped, a tombstone. -/
def probe (same : Reference → Except Fault Bool) (keys : Slots) (start : Nat) (skip : Bool)
    (index : Nat) : Nat → Except Fault (Option Nat)
  | 0 => return none
  | count + 1 => do
      let slot := (start + index) % keys.capacity
      let key ← keys.get h.memory slot
      let stop ← if key.isTombstone then pure !skip
        else if key.isNull then pure true
        else same key
      if stop then return some slot
      probe same keys start skip (index + 1) count

def findKeyBy (equal : Reference → Reference → Except Fault Bool) (keys : Reference)
    (hash : UInt64) (key : Reference) (skip : Bool) : Except Fault (Option Nat) := do
  let slots ← h.slots keys
  if slots.capacity = 0 then return none
  h.probe (equal key) slots (hash.toNat % slots.capacity) skip 0 slots.capacity

def lookupBy (equal : Reference → Reference → Except Fault Bool) (keys : Reference)
    (hash : UInt64) (key : Reference) : Except Fault (Option Nat) := do
  match ← h.findKeyBy equal keys hash key true with
  | none => return none
  | some slot => return if (← h.arrayGet keys slot).isLive then some slot else none

def equalFrom (equal : Reference → Reference → Except Fault Bool) (left right : Reference)
    (index : Nat) : Nat → Except Fault Bool
  | 0 => return true
  | count + 1 => do
      let a ← h.arrayGet left index
      let b ← h.arrayGet right index
      if ← equal a b then equalFrom equal left right (index + 1) count else return false

def includedFrom (equal : Reference → Reference → Except Fault Bool) (left right : DictParts)
    (keys : Slots) (slot : Nat) : Nat → Except Fault Bool
  | 0 => return true
  | count + 1 => do
      let key ← keys.get h.memory slot
      if !key.isLive then includedFrom equal left right keys (slot + 1) count
      else match ← (h.hash key).run with
        | .error _ => return false
        | .ok hash =>
            match ← h.lookupBy equal right.keys hash key with
            | none => return false
            | some other => do
                let a ← h.arrayGet left.values slot
                let b ← h.arrayGet right.values other
                if ← equal a b then includedFrom equal left right keys (slot + 1) count
                else return false

def equalWithin : Nat → Kind → Reference → Reference → Except Fault Bool
  | 0, _, _, _ => .error .endless
  | depth + 1, k, left, right =>
      let equal (a b : Reference) : Except Fault Bool := do
        let k ← h.kindOf a
        if k = (← h.kindOf b) then equalWithin depth k a b else return false
      match k with
      | .none | .bool => do return (← h.truth left) == (← h.truth right)
      | .integer => do return (← h.integer left) == (← h.integer right)
      | .string => do return (← h.stringBytes left) == (← h.stringBytes right)
      | .list => do
          let l ← h.listParts left
          let r ← h.listParts right
          if l.size = r.size then h.equalFrom equal l.values r.values 0 l.size else return false
      | .dict => do
          let l ← h.dictParts left
          let r ← h.dictParts right
          if l.size = r.size then do
            let keys ← h.slots l.keys
            h.includedFrom equal l r keys 0 keys.capacity
          else return false
      | .array | .free => .error (.noOperations k)

/-- A comparison that comes back to two values which it is comparing already never ends; any other
goes no deeper than there are pairs of references. -/
def nesting : Nat := h.table.size * h.table.size + 1

def orderAs (k : Kind) (left right : Reference) : Query Failure Ordering :=
  h.orderWithin h.nesting k left right

def equalAs (k : Kind) (left right : Reference) : Except Fault Bool :=
  h.equalWithin h.nesting k left right

def order (left right : Reference) : Query Failure Ordering := do
  let l ← h.kindOf left
  let r ← h.kindOf right
  unless l = r && l.isOrdered do throw (.incomparable l r)
  h.orderAs l left right

def equal (left right : Reference) : Except Fault Bool := do
  let k ← h.kindOf left
  if k = (← h.kindOf right) then h.equalAs k left right else return false

def compareBy (op : Comparison) (left right : Reference) : Query Failure Bool :=
  match op with
  | .equals => h.equal left right
  | op => do return op.holds (← h.order left right)

def findKey (keys : Reference) (hash : UInt64) (key : Reference) (skip : Bool) :
    Except Fault (Option Nat) := h.findKeyBy h.equal keys hash key skip

def lookup (keys : Reference) (hash : UInt64) (key : Reference) : Except Fault (Option Nat) :=
  h.lookupBy h.equal keys hash key

end Heap
end CountedHeap
