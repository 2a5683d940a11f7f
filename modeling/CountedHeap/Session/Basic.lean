import CountedHeap.Globals
import CountedHeap.Heap.Collect
import CountedHeap.Heap.Dump
import CountedHeap.Heap.Operate

/-!
A session is what a program runs against: a heap, the global bindings, of which `None`, `True` and
`False` are always there, and the pending exception. An operation that fails leaves its exception
pending and answers the null reference; any other reference it answers is owned by the caller.
-/

namespace CountedHeap

structure Session where
  heap : Heap
  globals : Globals
  pending : Pending
  noneRef : Reference
  trueRef : Reference
  falseRef : Reference

abbrev Turn (α : Type) := StateT Session (Except Fault) α

namespace Session

def singletons : List String := ["None", "True", "False"]

/-- Binds a name to a value that is handed over. -/
def handOver (s : Session) (name : String) (value : Reference) : Except Fault Session := do
  let (globals, heap) ← s.globals.bind s.heap name value
  return { s with globals, heap := ← heap.release value }

def makeSingletons : Action OutOfMemory (Reference × Reference × Reference) := do
  let none ← Heap.makeNone
  let yes ← Heap.makeBool true
  let no ← Heap.makeBool false
  return (none, yes, no)

/-- The bindings are the only owners of the three values. -/
def ofConfig (c : Config) : Except Fault (Except InitError Session) := do
  match ← Heap.ofConfig c with
  | .error e => return .error (.config e)
  | .ok h =>
      match ← makeSingletons.runOn h with
      | (.error e, _) => return .error (.memory e)
      | (.ok (noneRef, trueRef, falseRef), heap) =>
          let s : Session := ⟨heap, [], none, noneRef, trueRef, falseRef⟩
          let s ← s.handOver "None" noneRef
          let s ← s.handOver "True" trueRef
          return .ok (← s.handOver "False" falseRef)

def onHeap {ε α : Type} (x : Action ε α) : Turn (Except ε α) := fun s => do
  let (a, heap) ← x.runOn s.heap
  return (a, { s with heap })

def updateHeap (f : Heap → Except Fault Heap) : Turn Unit := fun s => do
  return ((), { s with heap := ← f s.heap })

def readHeap {α : Type} (f : Heap → Except Fault α) : Turn α := fun s => do
  return (← f s.heap, s)

def raise (e : Exception) : Turn Unit := modify fun s => { s with pending := some e }

/-- Leaves the exception of a failure pending. -/
def attempt {α : Type} (x : Turn (Except Failure α)) : Turn (Option α) := do
  match ← x with
  | .ok a => return some a
  | .error f =>
      raise f.exception
      return none

def attemptRef (x : Turn (Except Failure Reference)) : Turn Reference := do
  return (← attempt x).getD .null

def retained (r : Reference) : Turn Reference := do
  updateHeap (·.retain r)
  return r

def noneRetained : Turn Reference := do retained (← get).noneRef

def boolRetained (b : Bool) : Turn Reference := do
  let s ← get
  retained (if b then s.trueRef else s.falseRef)

def integer (n : Int64) : Turn Reference :=
  attemptRef (onHeap (liftM (Heap.makeInteger n)))

def string (bytes : List UInt8) : Turn Reference :=
  attemptRef (onHeap (liftM (Heap.makeString bytes)))

def list (elements : List Reference) : Turn Reference :=
  attemptRef (onHeap (liftM (Heap.newList elements)))

def dict (pairs : List (Reference × Reference)) : Turn Reference :=
  attemptRef (onHeap (Heap.newDict pairs))

/-- A reference that names nothing is not given up. -/
def release (r : Reference) : Turn Unit :=
  if r.isLive then updateHeap (·.release r) else pure ()

/-- Binds a name and takes the caller's reference. -/
def assign (name : String) (value : Reference) : Turn Unit :=
  if singletons.contains name then do
    updateHeap (·.release value)
    raise (Failure.assignSingleton name).exception
  else fun s => do return ((), ← s.handOver name value)

def lookup (name : String) : Turn Reference := do
  let s ← get
  attemptRef (onHeap (s.globals.get name))

def unbind (name : String) : Turn Unit := do
  if singletons.contains name then raise (Failure.deleteSingleton name).exception
  else
    let s ← get
    match ← attempt (onHeap (s.globals.delete name)) with
    | some globals => modify fun s => { s with globals }
    | none => pure ()

def truthy (r : Reference) : Turn Bool := readHeap (·.truthy r)

def unary (op : UnaryOperator) (r : Reference) : Turn Reference :=
  attemptRef (onHeap (Heap.unary op r))

def binary (op : BinaryOperator) (left right : Reference) : Turn Reference :=
  attemptRef (onHeap (Heap.binary op left right))

def compareBy (op : Comparison) (left right : Reference) : Turn Reference := do
  match ← attempt (onHeap (Action.ask (·.compareBy op left right))) with
  | some b => boolRetained b
  | none => return .null

def subscript (r subscript : Reference) : Turn Reference :=
  attemptRef (onHeap (Heap.subscript r subscript))

def assignItem (r subscript item : Reference) : Turn Unit := do
  let _ ← attempt (onHeap (Heap.assignItem r subscript item))

def deleteItem (r subscript : Reference) : Turn Unit := do
  let _ ← attempt (onHeap (Heap.deleteItem r subscript))

def collect : Turn (Except Failure Collection) := do
  let s ← get
  onHeap (Action.mapError .collection (Heap.collect s.globals.references))

def printGlobals (s : Session) : Printer Unit := s.globals.print s.heap

def dump (s : Session) : Printer Unit := do
  s.printGlobals
  Printer.write "\nMemory Contents:\n"
  s.heap.dump

def close (s : Session) : Except Fault Heap := s.globals.clear s.heap

end Session
end CountedHeap
