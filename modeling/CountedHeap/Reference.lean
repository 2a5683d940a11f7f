/-!
A reference names a value by its slot in the reference table, so it stays good while the value
moves. Negative references name nothing; two of them have a use of their own.
-/

namespace CountedHeap

structure Reference where
  raw : Int32
  deriving DecidableEq, Inhabited

namespace Reference

def null : Reference := ⟨-1⟩

/-- A key slot whose key was deleted: probing goes on past it. -/
def tombstone : Reference := ⟨-2⟩

def isNull (r : Reference) : Bool := r == null

def isTombstone (r : Reference) : Bool := r == tombstone

def isLive (r : Reference) : Bool := 0 ≤ r.raw

def index (r : Reference) : Nat := r.raw.toInt.toNat

def ofIndex (n : Nat) : Reference := ⟨Int32.ofNat n⟩

def text (r : Reference) : String := toString r.raw.toInt

def name (r : Reference) : String :=
  if r.isNull then "Reference::NULL"
  else if r.isTombstone then "Reference::TOMBSTONE"
  else "Reference(" ++ r.text ++ ")"

end Reference

theorem isLive_null : Reference.null.isLive = false := by decide

theorem isLive_tombstone : Reference.tombstone.isLive = false := by decide

end CountedHeap
