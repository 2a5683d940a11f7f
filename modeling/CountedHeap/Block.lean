import CountedHeap.Memory
import CountedHeap.Word

/-!
A block is a run of bytes behind a header of 24 bytes: tag, auxiliary word, size with the header,
and a link. In a free block the link is the next free block; an owner keeps a count there.
-/

namespace CountedHeap

structure Block where
  addr : Nat
  tag : Nat
  aux : Nat
  size : Nat
  link : Nat

namespace Block

def headerSize : Nat := 24

def alignment : Nat := 8

def auxOffset : Nat := 4

def sizeOffset : Nat := 8

def linkOffset : Nat := 16

/-- The link of the last free block. -/
def endOfList : Nat := Word.limit - 1

def poisonByte : UInt8 := 0xCC

def read (m : Memory) (addr : Nat) : Except Fault Block := do
  unless addr + headerSize ≤ m.size do throw .headerOutside
  return ⟨addr, m.number addr 4, m.number (addr + auxOffset) 4, m.number (addr + sizeOffset) 8,
    m.number (addr + linkOffset) 8⟩

def isFree (b : Block) : Bool := b.tag == Kind.free.tag

def stop (b : Block) : Except Fault Nat := Word.add b.addr b.size

def total : List Block → Nat
  | [] => 0
  | b :: rest => b.size + total rest

def payload (b : Block) (m : Memory) : Except Fault (List UInt8) := do
  m.slice (b.addr + headerSize) (← b.stop)

def nextFree (b : Block) : Except Fault (Option Nat) :=
  if b.isFree then .ok (if b.link = endOfList then none else some b.link) else .error .notFree

def linkOf (next : Option Nat) : Nat := next.getD endOfList

def setLink (m : Memory) (addr : Nat) (next : Option Nat) : Except Fault Memory :=
  m.store64 (addr + linkOffset) (linkOf next)

def setSize (m : Memory) (addr size : Nat) : Except Fault Memory :=
  m.store64 (addr + sizeOffset) size

def writeFree (m : Memory) (addr size : Nat) (next : Option Nat) : Except Fault Memory := do
  let m ← m.store32 addr Kind.free.tag
  let m ← m.store32 (addr + auxOffset) 0
  let m ← setSize m addr size
  setLink m addr next

end Block
end CountedHeap
