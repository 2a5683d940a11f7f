import CountedHeap.Hex
import CountedHeap.Kind
import CountedHeap.Reference

/-!
A fault is a broken promise of the caller or a damaged heap. It ends the run: no state is left
after it. Faults that a machine check raises have no text.
-/

namespace CountedHeap

inductive Fault
  | overflow
  | outOfBounds
  | notPowerOfTwo
  | misaligned
  | badRegion
  | headerOutside
  | notFree
  | handedOutTwice
  | freeKind
  | nulInString
  | notAnArray
  | unequalArrays
  | slotOutside
  /-- A walk that never comes to an end. -/
  | endless
  | regionTooSmall (size : Nat)
  | freeListCorrupted (addr : Nat)
  | outsideRegion (addr : Nat)
  | doubleFree (addr : Nat)
  | notAnIndex (r : Reference)
  | unusedReference (r : Reference)
  | tableOverflow
  | invalidReference (r : Reference)
  | releasedReference (r : Reference)
  | outsidePool (r : Reference)
  | unknownTag (tag addr : Nat)
  | unreferenced (addr : Nat)
  | pointsAtFree (r : Reference)
  | arrayIndex (index capacity : Nat)
  | listIndex (index size : Nat)
  /-- Not the kind of value that is wanted; `wanted` comes with its article. -/
  | expected (wanted : String) (got : Kind)
  | noOperations (k : Kind)
  | noFreeSlot
  | reachableButReleased (r : Reference)
  deriving DecidableEq

namespace Fault

def message? : Fault → Option String
  | regionTooSmall size => some s!"a region of {size} bytes cannot hold a block"
  | freeListCorrupted addr => some ("free list corrupted at " ++ hex addr)
  | outsideRegion addr =>
      some ("attempted to free " ++ hex addr ++ ", which is outside of the active region")
  | doubleFree addr => some ("double free of block at " ++ hex addr)
  | notAnIndex r => some (r.name ++ " does not index the reference table")
  | unusedReference r => some ("cannot repoint unused " ++ r.name)
  | tableOverflow => some "reference table overflow"
  | invalidReference r => some ("invalid reference " ++ r.name)
  | releasedReference r => some (r.name ++ " refers to a released value")
  | outsidePool r => some (r.name ++ " points outside of the pool")
  | unknownTag tag addr =>
      some (s!"unknown type tag {tag} at " ++ hex addr ++ ", the pool is probably corrupt")
  | unreferenced addr => some ("value at " ++ hex addr ++ " has no reference")
  | pointsAtFree r => some (r.name ++ " points at a free block")
  | arrayIndex index capacity =>
      some s!"index {index} out of bounds for ref array of capacity {capacity}"
  | listIndex index size => some s!"list index {index} out of bounds for size {size}"
  | expected wanted got => some (s!"expected {wanted}, got " ++ got.label)
  | noOperations k => some (k.label ++ " values have no operations")
  | noFreeSlot =>
      some "internal error: entered unreachable code: resized dict table has no free slot"
  | reachableButReleased r => some (r.name ++ " is reachable but has been released")
  | _ => none

end Fault
end CountedHeap
