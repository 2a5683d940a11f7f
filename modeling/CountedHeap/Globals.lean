import CountedHeap.Heap.Print
import CountedHeap.Heap.Release

/-!
The global bindings of a program, in the order in which they were first made. Each owns a
reference to its value.
-/

namespace CountedHeap

abbrev Globals := List (String × Reference)

namespace Globals

def find? (g : Globals) (name : String) : Option Reference := g.lookup name

def contains (g : Globals) (name : String) : Bool := (g.find? name).isSome

def references (g : Globals) : List Reference := g.map (·.2)

/-- Puts a value in the place of the one bound to `name`, or binds it behind all others. -/
def put (g : Globals) (name : String) (value : Reference) : Globals :=
  if g.contains name then g.map fun b => if b.1 == name then (name, value) else b
  else g ++ [(name, value)]

def remove (g : Globals) (name : String) : Globals := g.filter fun b => b.1 != name

def get (g : Globals) (name : String) : Action Failure Reference :=
  match g.find? name with
  | none => throw (.unboundName name)
  | some value => do
      Action.update (·.retain value)
      return value

/-- Retains the new value before the old one is released. -/
def bind (g : Globals) (h : Heap) (name : String) (value : Reference) :
    Except Fault (Globals × Heap) := do
  let h ← h.retain value
  let h ← match g.find? name with
    | some replaced => h.release replaced
    | none => pure h
  return (g.put name value, h)

def delete (g : Globals) (name : String) : Action Failure Globals :=
  match g.find? name with
  | none => throw (.unboundName name)
  | some value => do
      Action.update (·.release value)
      return g.remove name

def clear (g : Globals) (h : Heap) : Except Fault Heap :=
  g.references.foldlM (·.release ·) h

def printBinding (h : Heap) (b : String × Reference) : Printer Unit := do
  Printer.write (b.1 ++ " = ref " ++ b.2.text ++ "; value ")
  h.repr b.2
  Printer.write "\n"

def print (g : Globals) (h : Heap) : Printer Unit := do
  Printer.write s!"{g.length} Globals:\n"
  g.forM (printBinding h)

end Globals
end CountedHeap
