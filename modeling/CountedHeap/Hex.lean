/-!
Addresses are written in lower-case hexadecimal behind `0x`, either as short as possible or
padded to eight digits.
-/

namespace CountedHeap

def hexDigits (n : Nat) : String := String.ofList (Nat.toDigits 16 n)

def hex (n : Nat) : String := "0x" ++ hexDigits n

def hexPadded (n : Nat) : String :=
  let digits := Nat.toDigits 16 n
  "0x" ++ String.ofList (List.replicate (8 - digits.length) '0' ++ digits)

end CountedHeap
