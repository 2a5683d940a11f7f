import CountedHeap.Block

/-!
The sizes a heap is made with. The pool is cut into two halves, of which one is in use at a time.
-/

namespace CountedHeap

structure Config where
  poolSize : Nat := 1024
  /-- Whether payloads are overwritten when they are freed and before they are used. -/
  poison : Bool := true
  initialRefs : Nat := 8
  maxPrintDepth : Nat := 4
  dictMinCapacity : Nat := 16
  deriving Inhabited

inductive ConfigError
  | poolTooSmall (poolSize : Nat)
  | zeroDictCapacity
  deriving DecidableEq

def ConfigError.message : ConfigError → String
  | poolTooSmall poolSize =>
      s!"a pool of {poolSize} bytes is too small to hold a block header in each half"
  | zeroDictCapacity => "the minimum dict capacity must be non-zero"

namespace Config

def alignedPoolSize (c : Config) : Nat := Word.roundDown c.poolSize Block.alignment

def halfSize (c : Config) : Nat := Word.roundDown (c.poolSize / 2) Block.alignment

def validate (c : Config) : Except ConfigError Unit := do
  if c.halfSize < Block.headerSize then throw (.poolTooSmall c.poolSize)
  if c.dictMinCapacity = 0 then throw .zeroDictCapacity

end Config
end CountedHeap
