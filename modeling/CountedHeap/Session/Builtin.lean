import CountedHeap.Session.Basic

/-!
The functions that a program can call by name. Arguments are borrowed, and the answer is owned by
the caller; an output that is full makes the call fail.
-/

namespace CountedHeap

inductive Builtin
  | mem
  | gc
  | len
  | bool
  | print
  deriving DecidableEq

def Builtin.ofName? : String → Option Builtin
  | "mem" => some mem
  | "gc" => some gc
  | "len" => some len
  | "bool" => some bool
  | "print" => some print
  | _ => none

structure Answer where
  result : Except Failure Reference
  written : String := ""

namespace Session

/-- Answers None if all was written. -/
def answerNone (out : Printed) : Turn Answer := do
  if out.complete then return ⟨.ok (← noneRetained), out.text⟩
  else return ⟨.error .outputFull, out.text⟩

def usage (h : Heap) : Printer Unit := do
  let used ← h.used
  let refs := h.refsUsed
  Printer.write s!"{used} bytes in use; {refs} refs in use\n"

def displayLine (h : Heap) (args : List Reference) : Printer Unit := do
  args.zipIdx.forM fun (r, index) => do
    if 0 < index then Printer.write " "
    h.display r
  Printer.write "\n"

def callBuiltin (b : Builtin) (name : String) (args : List Reference) (room : Option Nat) :
    Turn Answer := do
  match b, args with
  | .mem, [] => answerNone (← readHeap fun h => (usage h).print room)
  | .gc, [] =>
      match ← collect with
      | .ok _ => return ⟨.ok (← noneRetained), ""⟩
      | .error e => return ⟨.error e, ""⟩
  | .len, [r] =>
      match ← onHeap (Action.ask (·.length r)) with
      | .ok n => return ⟨← onHeap (liftM (Heap.makeInteger (Int64.ofNat n))), ""⟩
      | .error e => return ⟨.error e, ""⟩
  | .bool, [r] => return ⟨.ok (← boolRetained (← truthy r)), ""⟩
  | .print, args => answerNone (← readHeap fun h => (displayLine h args).print room)
  | .mem, args | .gc, args => return ⟨.error (.takesNoArguments name args.length), ""⟩
  | .len, args | .bool, args => return ⟨.error (.takesOneArgument name args.length), ""⟩

/-- Calls a function by its name, and answers what it wrote as well. -/
def call (name : String) (args : List Reference) (room : Option Nat) :
    Turn (Reference × String) := do
  let answer ← match Builtin.ofName? name with
    | some b => callBuiltin b name args room
    | none => pure ⟨.error (.noSuchFunction name), ""⟩
  return (← attemptRef (pure answer.result), answer.written)

end Session
end CountedHeap
