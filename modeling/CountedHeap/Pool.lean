import CountedHeap.Block

/-!
A best-fit allocator over one region of a memory. Free blocks hang on a list through their links;
a freed block goes to its head, and neighbours are never merged.
-/

namespace CountedHeap

/-- The addresses from `start` up to, but not including, `stop`. -/
structure Span where
  start : Nat
  stop : Nat
  deriving DecidableEq, Inhabited

namespace Span

def contains (s : Span) (addr : Nat) : Bool := s.start ≤ addr && addr < s.stop

def size (s : Span) : Nat := s.stop - s.start

end Span

/-- No free block was large enough for the request, which is given after rounding. -/
structure OutOfMemory where
  requested : Nat
  used : Nat
  deriving DecidableEq

def OutOfMemory.message (e : OutOfMemory) : String :=
  s!"cannot service request of size {e.requested} with {e.used} bytes allocated"

structure Pool where
  memory : Memory
  region : Span
  freeHead : Option Nat
  poison : Bool
  deriving Inhabited

namespace Pool

def idle (size : Nat) (poison : Bool) : Except Fault Pool := do
  return ⟨← Memory.zeroed size, ⟨0, 0⟩, none, poison⟩

/-- Makes the whole of a span one free block; what was allocated before is forgotten. -/
def activate (p : Pool) (span : Span) : Except Fault Pool := do
  unless span.start ≤ span.stop && span.stop ≤ p.memory.size do throw .badRegion
  unless ← Word.isAligned span.start Block.alignment do throw .misaligned
  let size := Word.roundDown span.size Block.alignment
  unless Block.headerSize ≤ size do throw (.regionTooSmall size)
  let memory ← Block.writeFree p.memory span.start size none
  let region := ⟨span.start, span.start + size⟩
  return { p with memory, region, freeHead := some span.start }

def ofSize (size : Nat) (poison : Bool) : Except Fault Pool := do
  (← idle size poison).activate ⟨0, Word.roundDown size Block.alignment⟩

def freeFrom (m : Memory) (taken : Nat → Fault) : Nat → Option Nat → Except Fault (List Block)
  | _, none => .ok []
  | 0, some _ => .error .endless
  | fuel + 1, some addr => do
      let block ← Block.read m addr
      unless block.isFree do throw (taken addr)
      return block :: (← freeFrom m taken fuel (← block.nextFree))

/-- Blocks of an endless list would outnumber the addresses. -/
def walk (p : Pool) (taken : Nat → Fault) : Except Fault (List Block) :=
  freeFrom p.memory taken (p.memory.size + 1) p.freeHead

def freeBlocks (p : Pool) : Except Fault (List Block) := p.walk fun _ => .notFree

def used (p : Pool) : Except Fault Nat := do
  let free ← Word.fit (Block.total (← p.freeBlocks))
  Word.sub p.region.size free

def contains (p : Pool) (addr : Nat) : Bool := p.region.contains addr

/-- The block at `addr` and where the next one starts; after a block of size zero none does. -/
def visit (p : Pool) (addr : Nat) : Except Fault (Block × Nat) := do
  let block ← Block.read p.memory addr
  if block.size = 0 then return (block, p.region.stop)
  return (block, ← block.stop)

def blocksFrom (p : Pool) : Nat → Nat → Except Fault (List Block)
  | 0, _ => .ok []
  | fuel + 1, addr =>
      if p.region.stop ≤ addr then .ok [] else do
        let (block, next) ← p.visit addr
        return block :: (← blocksFrom p fuel next)

def blocks (p : Pool) : Except Fault (List Block) := p.blocksFrom p.region.size p.region.start

def withPrevious (blocks : List Block) : List (Option Nat × Block) :=
  (none :: blocks.map fun b => some b.addr).zip blocks

/-- Of the blocks that hold `size` bytes the smallest, and of several such the first. -/
def bestFit (size : Nat) (blocks : List (Option Nat × Block)) : Option (Option Nat × Block) :=
  blocks.foldl
    (fun best c =>
      if size ≤ c.2.size && best.all fun b => c.2.size < b.2.size then some c else best)
    none

def requestSize (size : Nat) : Except Fault Nat := do
  return max (← Word.alignUp size Block.alignment) Block.headerSize

/-- Takes `size` bytes of a free block and puts what takes its place on the list behind
`previous`: the rest, where that is more than a header, else its successor. -/
def carve (p : Pool) (size : Nat) (previous : Option Nat) (block : Block) :
    Except Fault Pool := do
  let next ← block.nextFree
  let rest := block.size - size
  let (memory, heir) ← if Block.headerSize < rest then do
      let memory ← Block.writeFree p.memory (block.addr + size) rest next
      pure (← Block.setSize memory block.addr size, some (block.addr + size))
    else pure (p.memory, next)
  match previous with
  | none => return { p with memory, freeHead := heir }
  | some previous => return { p with memory := ← Block.setLink memory previous heir }

/-- The address of a block of at least `size` bytes, header included. Its tag is still that of a
free block. -/
def alloc (p : Pool) (size : Nat) : Except Fault (Except OutOfMemory (Nat × Pool)) := do
  let size ← requestSize size
  match bestFit size (withPrevious (← p.walk .freeListCorrupted)) with
  | none => return .error ⟨size, ← p.used⟩
  | some (previous, block) => return .ok (block.addr, ← p.carve size previous block)

/-- Where the pool poisons, fills the payload of a block. -/
def writePattern (p : Pool) (addr : Nat) : Except Fault Pool :=
  if p.poison then do
    let block ← Block.read p.memory addr
    let memory ← p.memory.fill (addr + Block.headerSize) (← block.stop) Block.poisonByte
    return { p with memory }
  else .ok p

def free (p : Pool) (addr : Nat) : Except Fault Pool := do
  unless p.contains addr do throw (.outsideRegion addr)
  let block ← Block.read p.memory addr
  if block.isFree then throw (.doubleFree addr)
  let memory ← Block.writeFree p.memory addr block.size p.freeHead
  writePattern { p with memory, freeHead := some addr } addr

end Pool
end CountedHeap
