import CountedHeap.Heap.Print

/-!
The blocks of the active half, one line each in address order. A free block shows its size, a
value its reference, count and kind as well, and what it holds one level deep.
-/

namespace CountedHeap.Heap

variable (h : Heap)

def dumpElements (slots : Slots) (index : Nat) : Nat → Printer Unit
  | 0 => pure ()
  | count + 1 => do
      let r ← slots.get h.memory index
      if 0 < index then Printer.write ", "
      Printer.write r.text
      dumpElements slots (index + 1) count

def dumpContents (r : Reference) : Printer Unit := do
  match ← h.value r with
  | .list _ values => Printer.write ("values = " ++ values.text ++ "\n")
  | .dict _ _ keys values =>
      Printer.write ("keys = " ++ keys.text ++ "; values = " ++ values.text ++ "\n")
  | .array slots =>
      Printer.write "values = ["
      h.dumpElements slots 0 slots.capacity
      Printer.write "]\n"
  | _ =>
      Printer.write "value = "
      h.writeNested r 1 true
      Printer.write "\n"

def dumpBlock (b : Block) : Printer Unit :=
  if b.isFree then Printer.write ("Free  " ++ hexPadded b.addr ++ s!"; size {b.size}\n")
  else do
    let r := (h.table.find? b.addr).getD .null
    Printer.write ("Value " ++ hexPadded b.addr ++ s!"; size {b.size}; ref " ++ r.text ++
      s!"; refcnt: {b.link}; ")
    match if r.isLive then Kind.ofTag? b.tag else none with
    | none => Printer.write "type = UNKNOWN; the memory pool is probably corrupt\n"
    | some k =>
        Printer.write ("type = " ++ k.dumpName ++ "; ")
        h.dumpContents r

def dumpFrom : Nat → Nat → Printer Unit
  | 0, _ => pure ()
  | fuel + 1, addr =>
      if h.pool.region.stop ≤ addr then pure () else do
        let (block, next) ← h.pool.visit addr
        h.dumpBlock block
        dumpFrom fuel next

def dump : Printer Unit := h.dumpFrom h.pool.region.size h.pool.region.start

end CountedHeap.Heap
