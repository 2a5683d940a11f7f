import CountedHeap.Heap.Value
import CountedHeap.Output
import CountedHeap.Text.Quoted

/-!
Values as users see them. A depth limits how far containers nest, which also ends the text of one
that is part of itself. What a container holds is shown with quotes around strings.
-/

namespace CountedHeap

def Value.describe (m : Memory) : Value → Except Fault String
  | none => .ok "None"
  | bool b => .ok ("Bool(" ++ toString b ++ ")")
  | integer n => .ok ("Integer(" ++ toString n.toInt ++ ")")
  | string bytes => .ok ("String(" ++ Text.quote (Utf8.decode bytes) ++ ")")
  | list size values =>
      .ok ("List \x7b size: " ++ toString size ++ ", values: " ++ values.name ++ " \x7d")
  | dict size occupied keys values =>
      .ok ("Dict \x7b size: " ++ toString size ++ ", occupied: " ++ toString occupied ++
        ", keys: " ++ keys.name ++ ", values: " ++ values.name ++ " \x7d")
  | array slots => do
      let refs ← slots.references m
      return "[" ++ ", ".intercalate (refs.map Reference.name) ++ "]"

namespace Heap

variable (h : Heap)

def describe (r : Reference) : Except Fault String := do
  (← h.value r).describe h.memory

def writeElements (item : Reference → Printer Unit) (values : Reference) (index : Nat) :
    Nat → Printer Unit
  | 0 => pure ()
  | count + 1 => do
      if 0 < index then Printer.write ", "
      item (← h.arrayGet values index)
      writeElements item values (index + 1) count

/-- The entries from a slot on, separated by commas; `first` while none has been written. -/
def writeEntries (item : Reference → Printer Unit) (keys : Slots) (values : Reference)
    (first : Bool) (slot : Nat) : Nat → Printer Unit
  | 0 => pure ()
  | count + 1 => do
      let key ← keys.get h.memory slot
      if key.isLive then
        unless first do Printer.write ", "
        let value ← h.arrayGet values slot
        item key
        Printer.write ": "
        item value
        writeEntries item keys values false (slot + 1) count
      else writeEntries item keys values first (slot + 1) count

def writeAs (item : Reference → Printer Unit) (k : Kind) (r : Reference) (quoted : Bool) :
    Printer Unit :=
  match k with
  | .none | .bool => do
      match ← h.value r with
      | .none => Printer.write "None"
      | .bool true => Printer.write "True"
      | _ => Printer.write "False"
  | .integer => do Printer.write (toString (← h.integer r).toInt)
  | .string => do
      let s := Utf8.decode (← h.stringBytes r)
      if quoted then
        Printer.write "\""
        Printer.write s
        Printer.write "\""
      else Printer.write s
  | .list => do
      let parts ← h.listParts r
      Printer.write "["
      h.writeElements item parts.values 0 parts.size
      Printer.write "]"
  | .dict => do
      let parts ← h.dictParts r
      let keys ← h.slots parts.keys
      Printer.write "\x7b"
      h.writeEntries item keys parts.values true 0 keys.capacity
      Printer.write "\x7d"
  | .array | .free => throw (.fault (.noOperations k))

def writeNested (r : Reference) : Nat → Bool → Printer Unit
  | 0, _ => Printer.write "..."
  | depth + 1, quoted => do
      h.writeAs (fun item => writeNested item depth true) (← h.kindOf r) r quoted

/-- Writes a value as one of kind `k` with `depth` levels left for what it holds. -/
def writeWithin (k : Kind) (r : Reference) (depth : Nat) (quoted : Bool) : Printer Unit :=
  h.writeAs (fun item => h.writeNested item depth true) k r quoted

def display (r : Reference) : Printer Unit := h.writeNested r h.config.maxPrintDepth false

def repr (r : Reference) : Printer Unit := h.writeNested r h.config.maxPrintDepth true

end Heap
end CountedHeap
