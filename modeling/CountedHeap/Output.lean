import CountedHeap.Fault
import CountedHeap.Text.Utf8

/-!
Text goes to an output that may take only so many bytes: what still fits is written, and then the
writing stops. A fault met while the text is made up stops it as well.
-/

namespace CountedHeap

structure Output where
  text : String := ""
  room : Option Nat := none

inductive Stop
  | fault (f : Fault)
  | full

abbrev Printer := ExceptT Stop (StateM Output)

structure Printed where
  text : String
  complete : Bool

namespace Printer

instance : MonadLift (Except Fault) Printer where
  monadLift
    | .ok a => pure a
    | .error f => throw (.fault f)

/-- The bytes of a character that is cut off count as one replacement character. -/
def write (s : String) : Printer Unit := do
  let out ← get
  match out.room with
  | none => set { out with text := out.text ++ s }
  | some room =>
      if s.utf8ByteSize ≤ room then set (Output.mk (out.text ++ s) (some (room - s.utf8ByteSize)))
      else
        let cut := Utf8.decode (s.toUTF8.extract 0 room).toList
        set (Output.mk (out.text ++ cut) (some 0))
        throw .full

def print (p : Printer Unit) (room : Option Nat) : Except Fault Printed :=
  match p.run.run ⟨"", room⟩ with
  | (.ok (), out) => .ok ⟨out.text, true⟩
  | (.error .full, out) => .ok ⟨out.text, false⟩
  | (.error (.fault f), _) => .error f

def text (p : Printer Unit) : Except Fault String := do
  return (← p.print none).text

end Printer
end CountedHeap
