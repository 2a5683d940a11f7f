import CountedHeap.Failure
import CountedHeap.Layout
import CountedHeap.Table

/-!
A heap holds a pool of two halves, of which the active one takes the values, and the table of
references to them. An action on a heap ends in an answer or an error beside the heap it leaves,
or in a fault.
-/

namespace CountedHeap

/-- Totals over all collections of a heap, each a word. -/
structure Stats where
  collections : Nat := 0
  copiedBytes : Nat := 0
  reclaimedBytes : Nat := 0
  deriving Inhabited

def Stats.add (s : Stats) (copied reclaimed : Nat) : Except Fault Stats := do
  return ⟨← Word.add s.collections 1, ← Word.add s.copiedBytes copied,
    ← Word.add s.reclaimedBytes reclaimed⟩

structure Heap where
  pool : Pool
  table : Table
  active : Span
  /-- The half that the next collection copies into. -/
  spare : Span
  stats : Stats
  config : Config
  deriving Inhabited

abbrev Query (ε α : Type) := ExceptT ε (Except Fault) α

/-- What is done to a heap before an error stays done. -/
abbrev Action (ε α : Type) := ExceptT ε (StateT Heap (Except Fault)) α

namespace Action

variable {ε δ α : Type}

def read (f : Heap → Except Fault α) : Action ε α :=
  ExceptT.mk fun h => do return (.ok (← f h), h)

def ask (f : Heap → Query ε α) : Action ε α :=
  ExceptT.mk fun h => do return (← (f h).run, h)

def update (f : Heap → Except Fault Heap) : Action ε Unit :=
  ExceptT.mk fun h => do return (.ok (), ← f h)

def mapError (f : ε → δ) (x : Action ε α) : Action δ α := ExceptT.adapt f x

/-- Undoes on an error what has been done so far, and passes the error on. -/
def orUndo (x : Action ε α) (undo : Heap → Except Fault Heap) : Action ε α :=
  tryCatch x fun e => do
    update undo
    throw e

def runOn (x : Action ε α) (h : Heap) : Except Fault (Except ε α × Heap) := x.run h

instance : MonadLift (Action OutOfMemory) (Action Failure) := ⟨mapError .outOfMemory⟩

end Action

namespace Heap

def ofConfig (c : Config) : Except Fault (Except ConfigError Heap) :=
  match c.validate with
  | .error e => .ok (.error e)
  | .ok () => do
      let half := c.halfSize
      let pool ← (← Pool.idle c.alignedPoolSize c.poison).activate ⟨0, half⟩
      return .ok {
        pool
        table := .ofInitial c.initialRefs
        active := ⟨0, half⟩
        spare := ⟨half, 2 * half⟩
        stats := {}
        config := c }

def memory (h : Heap) : Memory := h.pool.memory

def used (h : Heap) : Except Fault Nat := h.pool.used

def refsUsed (h : Heap) : Nat := h.table.used

def inActive (h : Heap) (addr : Nat) : Bool := h.pool.contains addr

def write (h : Heap) (f : Memory → Except Fault Memory) : Except Fault Heap := do
  let memory ← f h.pool.memory
  return { h with pool := { h.pool with memory } }

def deref (h : Heap) (r : Reference) : Except Fault Nat := do
  unless r.isLive && r.index < h.table.size do throw (.invalidReference r)
  match h.table.get? r with
  | none => throw (.releasedReference r)
  | some addr =>
      unless addr < h.memory.size do throw (.outsidePool r)
      unless ← Word.isAligned addr Block.alignment do throw .misaligned
      return addr

def block (h : Heap) (addr : Nat) : Except Fault Block := Block.read h.memory addr

def kindAt (h : Heap) (addr : Nat) : Except Fault Kind := do
  let block ← h.block addr
  match Kind.ofTag? block.tag with
  | some k => return k
  | none => throw (.unknownTag block.tag addr)

def kindOf (h : Heap) (r : Reference) : Except Fault Kind := do
  h.kindAt (← h.deref r)

def countAt (h : Heap) (addr : Nat) : Except Fault Nat :=
  h.memory.load64 (addr + Layout.countOffset)

def setCountAt (h : Heap) (addr count : Nat) : Except Fault Heap :=
  h.write (·.store64 (addr + Layout.countOffset) count)

def refcount (h : Heap) (r : Reference) : Except Fault Nat := do
  h.countAt (← h.deref r)

def retain (h : Heap) (r : Reference) : Except Fault Heap := do
  let addr ← h.deref r
  h.setCountAt addr (← Word.add (← h.countAt addr) 1)

def referenceAt (h : Heap) (addr : Nat) : Except Fault Reference :=
  match h.table.find? addr with
  | some r => .ok r
  | none => .error (.unreferenced addr)

def storeField (h : Heap) (r : Reference) (offset value : Nat) : Except Fault Heap := do
  let addr ← h.deref r
  h.write (·.store64 (addr + offset) value)

def storeReference (h : Heap) (r : Reference) (offset : Nat) (value : Reference) :
    Except Fault Heap := do
  let addr ← h.deref r
  h.write (·.storeInt32 (addr + offset) value.raw)

end Heap
end CountedHeap
