/-!
Bytes read as UTF-8. Where they are not, each longest run that could have begun a character
becomes one replacement character.
-/

namespace CountedHeap.Utf8

/-- A character that has begun: how many bytes are to come, the bits so far, and the range that
the next byte has to lie in. -/
structure Started where
  missing : Nat
  bits : Nat
  low : Nat
  high : Nat

inductive Lead
  | char (c : Char)
  | started (s : Started)
  | invalid

/-- What a byte begins. The second byte is limited where the character could be written shorter,
would be a surrogate, or would lie above the last code point. -/
def lead (b : Nat) : Lead :=
  if b < 0x80 then .char (.ofNat b)
  else if b < 0xC2 then .invalid
  else if b < 0xE0 then .started ⟨1, b % 0x20, 0x80, 0xBF⟩
  else if b = 0xE0 then .started ⟨2, 0, 0xA0, 0xBF⟩
  else if b = 0xED then .started ⟨2, 0xD, 0x80, 0x9F⟩
  else if b < 0xF0 then .started ⟨2, b % 0x10, 0x80, 0xBF⟩
  else if b = 0xF0 then .started ⟨3, 0, 0x90, 0xBF⟩
  else if b < 0xF4 then .started ⟨3, b % 8, 0x80, 0xBF⟩
  else if b = 0xF4 then .started ⟨3, 4, 0x80, 0x8F⟩
  else .invalid

def replacement : Char := '\uFFFD'

def begin (b : Nat) : List Char × Option Started :=
  match lead b with
  | .char c => ([c], none)
  | .started s => ([], some s)
  | .invalid => ([replacement], none)

def step (state : Option Started) (b : Nat) : List Char × Option Started :=
  match state with
  | none => begin b
  | some s =>
      if s.low ≤ b && b ≤ s.high then
        let bits := s.bits * 64 + b % 64
        if s.missing = 1 then ([.ofNat bits], none)
        else ([], some ⟨s.missing - 1, bits, 0x80, 0xBF⟩)
      else
        let (cs, next) := begin b
        (replacement :: cs, next)

def chars (state : Option Started) : List UInt8 → List Char
  | [] => if state.isSome then [replacement] else []
  | b :: rest =>
      let (cs, next) := step state b.toNat
      cs ++ chars next rest

def decode (bytes : List UInt8) : String := String.ofList (chars none bytes)

end CountedHeap.Utf8
