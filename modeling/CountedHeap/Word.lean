import CountedHeap.Fault

/-!
Sizes and addresses are 64-bit words, held as natural numbers: a result that does not fit is a
fault. Alignment works on the bits of a word, as a mask of the low ones.
-/

namespace CountedHeap.Word

def limit : Nat := 0x10000000000000000

def fit (n : Nat) : Except Fault Nat :=
  if n < limit then .ok n else .error .overflow

def add (a b : Nat) : Except Fault Nat := fit (a + b)

def mul (a b : Nat) : Except Fault Nat := fit (a * b)

def sub (a b : Nat) : Except Fault Nat :=
  if b ≤ a then .ok (a - b) else .error .overflow

def complement (n : Nat) : Nat := limit - 1 - n

def isPowerOfTwo (n : Nat) : Bool := n != 0 && n &&& (n - 1) == 0

def roundDown (n align : Nat) : Nat := n &&& complement (align - 1)

/-- The least multiple of `align` from `n` on. -/
def alignUp (n align : Nat) : Except Fault Nat := do
  unless isPowerOfTwo align do throw .notPowerOfTwo
  let top ← sub (← add n align) 1
  return roundDown top align

/-- The greatest multiple of `align` up to `n`. -/
def alignDown (n align : Nat) : Except Fault Nat := do
  unless isPowerOfTwo align do throw .notPowerOfTwo
  return roundDown n align

def isAligned (n align : Nat) : Except Fault Bool := do
  return n &&& (← sub align 1) == 0

theorem fit_of_lt {n : Nat} (h : n < limit) : fit n = .ok n := by simp [fit, h]

theorem fit_eq_ok {n m : Nat} : fit n = .ok m ↔ n = m ∧ n < limit := by
  by_cases h : n < limit <;> simp [fit, h]

theorem sub_eq_ok {a b n : Nat} : sub a b = .ok n ↔ b ≤ a ∧ a - b = n := by
  by_cases h : b ≤ a <;> simp [sub, h]

end CountedHeap.Word
