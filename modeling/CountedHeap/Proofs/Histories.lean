import CountedHeap.Proofs.Programs
import CountedHeap.Proofs.Views

/-!
Histories: whatever is done to a heap or to a session, one operation after the other, with all
answers, errors and faults, and with what can be seen after each step. References are asked about
as they come, whether they name a value or not.
-/

namespace CountedHeap

/-- Commands to a session, requests to its heap, and the operations of a kind on any values. -/
inductive Operation
  | command (q : Command)
  | request (q : Request)
  | unaryAs (k : Kind) (op : UnaryOperator) (r : Reference)
  | binaryAs (k : Kind) (op : BinaryOperator) (left right : Reference)
  | subscriptAs (k : Kind) (r index : Reference)
  | assignAs (k : Kind) (r index item : Reference)
  | deleteAs (k : Kind) (r index : Reference)

inductive Response
  | done
  | reference (r : Reference)
  | truth (b : Bool)
  | written (r : Reference) (text : String)
  | collection (c : Collection)
  | failure (f : Failure)
  | unsupported

namespace Session

variable {α : Type}

def answer (f : α → Response) (x : Action Failure α) : Turn Response := do
  match ← onHeap x with
  | .ok a => return f a
  | .error e => return .failure e

def answerIf (f : α → Response) : Option (Action Failure α) → Turn Response
  | some x => answer f x
  | none => return .unsupported

def made (x : Action OutOfMemory Reference) : Turn Response := answer .reference (liftM x)

end Session

open Heap Session in
def Request.perform : Request → Turn Response
  | makeNone => made Heap.makeNone
  | makeBool b => made (Heap.makeBool b)
  | makeInteger n => made (Heap.makeInteger n)
  | makeString bytes => made (Heap.makeString bytes)
  | makeConcatenation left right => made (Heap.makeConcatenation left right)
  | makeArray capacity => made (Heap.makeArray capacity)
  | makeList values => made (Heap.makeList values)
  | makeDict keys values => made (Heap.makeDict keys values)
  | newList elements => made (Heap.newList elements)
  | newDict pairs => answer .reference (Heap.newDict pairs)
  | listPush list item => answer (fun _ => .done) (liftM (Heap.listPush list item))
  | dictGet dict key => answer .reference (Heap.dictGet dict key)
  | dictSet dict key value => answer (fun _ => .done) (Heap.dictSet dict key value)
  | dictDelete dict key => answer (fun _ => .done) (Heap.dictDelete dict key)
  | unary op r => answer .reference (Heap.unary op r)
  | binary op left right => answer .reference (Heap.binary op left right)
  | subscript r index => answer .reference (Heap.subscript r index)
  | assignItem r index item => answer (fun _ => .done) (Heap.assignItem r index item)
  | deleteItem r index => answer (fun _ => .done) (Heap.deleteItem r index)
  | retain r => do
      updateHeap (·.retain r)
      return .done
  | release r => do
      updateHeap (·.release r)
      return .done
  | bind name value => fun s => do
      let (globals, heap) ← s.globals.bind s.heap name value
      return (.done, { s with heap, globals })
  | lookup name => do
      let s ← get
      answer .reference (s.globals.get name)
  | unbind name => do
      let s ← get
      match ← onHeap (s.globals.delete name) with
      | .ok globals =>
          modify fun s => { s with globals }
          return .done
      | .error e => return .failure e
  | clear => do
      let s ← get
      updateHeap s.globals.clear
      modify fun s => { s with globals := [] }
      return .done
  | collect roots => answer .collection (Action.mapError .collection (Heap.collect roots))

open Session in
def Command.perform : Command → Turn Response
  | none => .reference <$> noneRetained
  | bool b => .reference <$> boolRetained b
  | integer n => .reference <$> Session.integer n
  | string bytes => .reference <$> Session.string bytes
  | list elements => .reference <$> Session.list elements
  | dict pairs => .reference <$> Session.dict pairs
  | release r => (fun _ => .done) <$> Session.release r
  | assign name value => (fun _ => .done) <$> Session.assign name value
  | lookup name => .reference <$> Session.lookup name
  | unbind name => (fun _ => .done) <$> Session.unbind name
  | truthy r => .truth <$> Session.truthy r
  | unary op r => .reference <$> Session.unary op r
  | binary op left right => .reference <$> Session.binary op left right
  | compare op left right => .reference <$> compareBy op left right
  | subscript r index => .reference <$> Session.subscript r index
  | assignItem r index item => (fun _ => .done) <$> Session.assignItem r index item
  | deleteItem r index => (fun _ => .done) <$> Session.deleteItem r index
  | call name args room => (fun p => .written p.1 p.2) <$> Session.call name args room
  | collect => do
      match ← Session.collect with
      | .ok c => return .collection c
      | .error e => return .failure e

namespace Operation

open Session in
def perform : Operation → Turn Response
  | command q => q.perform
  | request q => q.perform
  | unaryAs k op r => answerIf .reference (Heap.unaryAs? k op r)
  | binaryAs k op left right => answerIf .reference (Heap.binaryAs? k op left right)
  | subscriptAs k r index => answerIf .reference (Heap.subscriptAs? k r index)
  | assignAs k r index item => answerIf (fun _ => .done) (Heap.assignAs? k r index item)
  | deleteAs k r index => answerIf (fun _ => .done) (Heap.deleteAs? k r index)

def exhausts : Operation → Response → Bool
  | command .collect, .failure _ | request (.collect _), .failure _ => true
  | command q, .written r _ => q.callsCollector && !r.isLive
  | _, _ => false

end Operation

namespace Session

/-- What can be seen of a session; `closed` is what would be left of its heap. -/
structure View where
  heap : Heap.View
  globals : Globals
  pending : Pending
  bindings : Printer Unit
  dump : Printer Unit
  closed : Except Fault Heap.View

def view (s : Session) : View :=
  ⟨s.heap.view, s.globals, s.pending, s.printGlobals, s.dump, Heap.view <$> s.close⟩

inductive Event
  | refused (e : InitError)
  | fault (f : Fault)
  | answered (a : Response)
  | seen (v : View)

variable (stops : Operation → Response → Bool)

/-- The answers to operations, each before what can be seen then. Nothing comes after a fault, or
after an answer to stop at. -/
def history (s : Session) : List Operation → List Event
  | [] => []
  | q :: rest =>
      match q.perform s with
      | .error f => [.fault f]
      | .ok (a, s') =>
          .answered a :: if stops q a then [] else .seen s'.view :: s'.history rest

def ofHeap (heap : Heap) : Session := ⟨heap, [], none, .null, .null, .null⟩

def historyFrom (start : Except Fault (Except InitError Session)) (operations : List Operation) :
    List Event :=
  match start with
  | .error f => [.fault f]
  | .ok (.error e) => [.refused e]
  | .ok (.ok s) => .seen s.view :: s.history stops operations

def bare (c : Config) : Except Fault (Except InitError Session) := do
  match ← Heap.ofConfig c with
  | .error e => return .error (.config e)
  | .ok heap => return .ok (ofHeap heap)

end Session
end CountedHeap
