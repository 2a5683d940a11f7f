import CountedHeap.Heap.Make

/-!
A collection makes the spare half the active one and copies into it what the roots reach. Values
keep their references and get their counts anew: one for each time they are met. What stays behind
loses its reference.
-/

namespace CountedHeap

structure Collection where
  roots : Nat
  survivors : Nat
  usedBefore : Nat
  usedAfter : Nat

def Collection.reclaimed (c : Collection) : Nat := c.usedBefore - c.usedAfter

structure Tally where
  survivors : Nat := 0
  copied : Nat := 0

def Tally.add (t : Tally) (bytes : Nat) : Tally := ⟨t.survivors + 1, t.copied + bytes⟩

namespace Heap

def flip (h : Heap) : Except Fault Heap := do
  let pool ← h.pool.activate h.spare
  return { h with pool, active := h.spare, spare := h.active }

def resetCount (h : Heap) (old : Nat) : Except Fault Heap := h.setCountAt old 1

/-- Copies the block at `old` to a block that was handed out for it, which may be larger, and
moves the reference. -/
def copyTo (h : Heap) (r : Reference) (old size new allocated : Nat) : Except Fault Heap := do
  let h ← h.write fun m => do Block.setSize (← m.copy old (old + size) new) new allocated
  return { h with table := ← h.table.set r new }

def relocate (r : Reference) (old : Nat) : Action CollectionError (Nat × Nat) :=
  ExceptT.mk fun h => do
    let size := (← h.block old).size
    let h ← h.resetCount old
    match ← h.pool.alloc size with
    | .error e => return (.error (.toSpaceExhausted e), h)
    | .ok (new, pool) =>
        let h := { h with pool }
        let allocated := (← h.block new).size
        return (.ok (new, allocated), ← h.copyTo r old size new allocated)

/-- Counts a value that is copied already, or else copies it and answers its new size and what it
holds. -/
def meet (r : Reference) : Action CollectionError (Option (Nat × List Reference)) := do
  if !r.isLive then return none
  match (← get).table.get? r with
  | none => throwThe Fault (.reachableButReleased r)
  | some old =>
      if (← get).pool.contains old then
        Action.update (·.retain r)
        return none
      let (new, allocated) ← relocate r old
      let held ← Action.read fun h => do h.children new (← h.kindAt new)
      return some (allocated, held)

/-- Works the stack off up to the first value that is copied, and goes on from there with
`next`. -/
def runPending (next : List Reference → Tally → Action CollectionError Tally) :
    List Reference → Tally → Action CollectionError Tally
  | [], tally => return tally
  | r :: rest, tally => do
      match ← meet r with
      | none => runPending next rest tally
      | some (allocated, held) => next (held ++ rest) (tally.add allocated)

def evacuateAll : Nat → List Reference → Tally → Action CollectionError Tally
  | 0 => runPending fun _ _ => throwThe Fault .endless
  | copies + 1 => runPending (evacuateAll copies)

/-- Moves a value and what it reaches, each before what it holds. A value is copied once, so no
more are copied than the table has slots. -/
def evacuate (tally : Tally) (root : Reference) : Action CollectionError Tally := do
  evacuateAll (← get).table.size [root] tally

/-- Clears the references that still lead to the half that was left. -/
def sweep (h : Heap) : Heap := { h with table := (h.table.keepIf h.pool.contains).2 }

def record (h : Heap) (tally : Tally) (c : Collection) : Except Fault Heap := do
  return { h with stats := ← h.stats.add tally.copied c.reclaimed }

def collect (roots : List Reference) : Action CollectionError Collection := do
  let usedBefore ← Action.read (·.used)
  Action.update (·.flip)
  let tally ← roots.foldlM evacuate {}
  Action.update fun h => .ok h.sweep
  let usedAfter ← Action.read (·.used)
  let c : Collection := ⟨roots.length, tally.survivors, usedBefore, usedAfter⟩
  Action.update (·.record tally c)
  return c

end Heap
end CountedHeap
