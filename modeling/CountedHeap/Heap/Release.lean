import CountedHeap.Heap.Value

/-!
Giving a reference up. The last one to a value gives up what the value holds, one after the other,
and then frees its block. What is still to be done stands on a stack, so that a value at the end
of a long chain is no deeper than one at its start.
-/

namespace CountedHeap

inductive Task
  | release (r : Reference)
  | discard (r : Reference)

namespace Heap

def discard (h : Heap) (r : Reference) : Except Fault Heap := do
  let addr ← h.deref r
  let table ← h.table.clear r
  return { h with table, pool := ← h.pool.free addr }

/-- Counts one reference less, and answers what a value holds whose last one that was. A count of
zero stays. -/
def giveUp (h : Heap) (r : Reference) : Except Fault (Heap × Option (List Reference)) := do
  let addr ← h.deref r
  let count ← h.countAt addr
  if count = 0 then return (h, none)
  let h ← h.setCountAt addr (count - 1)
  if 1 < count then return (h, none)
  return (h, some (← h.children addr (← h.kindAt addr)))

/-- Works the stack off up to the first value that dies, and goes on from there with `next`. -/
def runTasks (next : List Task → Heap → Except Fault Heap) :
    List Task → Heap → Except Fault Heap
  | [], h => .ok h
  | .discard r :: rest, h => do runTasks next rest (← h.discard r)
  | .release r :: rest, h => do
      match ← h.giveUp r with
      | (h, none) => runTasks next rest h
      | (h, some held) => next (held.map .release ++ .discard r :: rest) h

def releaseAll : Nat → List Task → Heap → Except Fault Heap
  | 0 => runTasks fun _ _ => .error .endless
  | deaths + 1 => runTasks (releaseAll deaths)

/-- A value dies once, so no more die than the table has slots. -/
def release (h : Heap) (r : Reference) : Except Fault Heap :=
  releaseAll h.table.size [.release r] h

end Heap
end CountedHeap
