import CountedHeap.Proofs.Memory
import Mathlib.Tactic.Ring

/-!
The formats in which numbers stand in a memory: words and signed integers of 32 and of 64 bits,
and sizes. A number may stand at any address, aligned or not, with its low byte first. Main
statement: what is written is read back and what was read may be written back, nothing but the
bytes of the number changes, and an access that reaches past the end faults before it touches any.
-/

namespace CountedHeap

namespace Memory

theorem setByte_byte (m : Memory) (addr : Nat) : m.setByte addr (m.byte addr) = m := by
  by_cases h : addr < m.size
  · obtain ⟨⟨a⟩⟩ := m
    have ha : addr < a.size := h
    have hbyte : byte ⟨⟨a⟩⟩ addr = a[addr] := dif_pos h
    rw [hbyte]
    show (⟨⟨a.set! addr a[addr]⟩⟩ : Memory) = ⟨⟨a⟩⟩
    rw [Array.set!_eq_setIfInBounds, Array.setIfInBounds, dif_pos ha, Array.set_getElem_self]
  · exact setByte_of_le (Nat.le_of_not_lt h) _

theorem setNumber_number (m : Memory) (addr width : Nat) :
    m.setNumber addr (m.number addr width) width = m := by
  induction width generalizing addr with
  | zero => rfl
  | succ width ih =>
    have hb := (m.byte addr).toNat_lt
    have hlow : UInt8.ofNat ((m.byte addr).toNat + 256 * m.number (addr + 1) width) =
        m.byte addr := by
      apply UInt8.toNat_inj.mp
      rw [UInt8.toNat_ofNat', Nat.add_mul_mod_self_left, Nat.mod_eq_of_lt hb]
    have hhigh : ((m.byte addr).toNat + 256 * m.number (addr + 1) width) / 256 =
        m.number (addr + 1) width := by
      omega
    rw [number, setNumber, hlow, setByte_byte, hhigh, ih]

theorem byte_setNumber (m : Memory) (addr value width i : Nat) (h : addr + width ≤ m.size)
    (hi : i < width) :
    ((m.setNumber addr value width).byte (addr + i)).toNat = value / 256 ^ i % 256 := by
  induction width generalizing m addr value i with
  | zero => exact absurd hi (Nat.not_lt_zero i)
  | succ width ih =>
    rw [setNumber]
    cases i with
    | zero =>
      -- The bytes that follow are written above the first one.
      rw [Nat.add_zero addr, byte_setNumber_of_lt _ _ _ _ _ (Nat.lt_succ_self addr),
        byte_setByte, if_pos ⟨rfl, by omega⟩, UInt8.toNat_ofNat', Nat.pow_zero, Nat.div_one]
    | succ i =>
      have htail := ih (m.setByte addr (UInt8.ofNat value)) (addr + 1) (value / 256) i
        (by rw [size_setByte]; omega) (Nat.lt_of_succ_lt_succ hi)
      rw [Nat.add_right_comm, Nat.add_assoc] at htail
      rw [htail, Nat.div_div_eq_div_mul, ← Nat.pow_succ']

def writeByte (addr : Nat) (b : UInt8) : EStateM Fault Memory Unit := fun m =>
  if addr < m.size then .ok () (m.setByte addr b) else .error .outOfBounds m

/-- The bytes of a number, written in place one after the other. A fault leaves behind what was
written before it. -/
def writeNumber (addr value : Nat) : Nat → EStateM Fault Memory Unit
  | 0 => pure ()
  | width + 1 => do
    writeByte addr (UInt8.ofNat value)
    writeNumber (addr + 1) (value / 256) width

theorem writeNumber_of_le {m : Memory} {addr width : Nat} (h : addr + width ≤ m.size)
    (value : Nat) : writeNumber addr value width m = .ok () (m.setNumber addr value width) := by
  induction width generalizing m addr value with
  | zero => rfl
  | succ width ih =>
    have hroom : addr + 1 + width ≤ (m.setByte addr (UInt8.ofNat value)).size := by
      rw [size_setByte]
      omega
    have hbyte (b : UInt8) : writeByte addr b m = .ok () (m.setByte addr b) := if_pos (by omega)
    show EStateM.bind (writeByte addr (UInt8.ofNat value)) _ m = _
    rw [EStateM.bind, hbyte]
    exact ih hroom (value / 256)

example : writeNumber 2 0x04030201 4 ⟨⟨#[0, 0, 0, 0]⟩⟩ = .error .outOfBounds ⟨⟨#[0, 0, 1, 2]⟩⟩ :=
  rfl

end Memory

inductive Format
  | word32
  | int32
  | word64
  | int64
  | size

namespace Format

def width : Format → Nat
  | word32 | int32 => 4
  | word64 | int64 | size => 8

@[reducible]
def Number : Format → Type
  | word32 | word64 | size => Nat
  | int32 => Int32
  | int64 => Int64

def Holds : (f : Format) → f.Number → Prop
  | word32, n => n < 2 ^ 32
  | word64, n | size, n => n < 2 ^ 64
  | int32, _ | int64, _ => True

def toInt : (f : Format) → f.Number → Int
  | word32, n | word64, n | size, n => Int.ofNat n
  | int32, n => n.toInt
  | int64, n => n.toInt

def load : (f : Format) → Memory → Nat → Except Fault f.Number
  | word32, m, addr => m.load32 addr
  | int32, m, addr => m.loadInt32 addr
  | word64, m, addr | size, m, addr => m.load64 addr
  | int64, m, addr => m.loadInt64 addr

def store : (f : Format) → Memory → Nat → f.Number → Except Fault Memory
  | word32, m, addr, n => m.store32 addr n
  | int32, m, addr, n => m.storeInt32 addr n
  | word64, m, addr, n | size, m, addr, n => m.store64 addr n
  | int64, m, addr, n => m.storeInt64 addr n

def encode : (f : Format) → f.Number → Nat
  | word32, n | word64, n | size, n => n
  | int32, n => n.toUInt32.toNat
  | int64, n => n.toUInt64.toNat

def decode : (f : Format) → Nat → f.Number
  | word32, n | word64, n | size, n => n
  | int32, n => Int32.ofNat n
  | int64, n => Int64.ofNat n

def Fits (f : Format) (m : Memory) (addr : Nat) : Prop := addr + f.width ≤ m.size

instance (f : Format) (m : Memory) (addr : Nat) : Decidable (f.Fits m addr) :=
  inferInstanceAs (Decidable (addr + f.width ≤ m.size))

def write (f : Format) (addr : Nat) (x : f.Number) : EStateM Fault Memory Unit := do
  ofExcept ((← get).check addr (addr + f.width))
  Memory.writeNumber addr (f.encode x) f.width

variable {f : Format} {m n : Memory} {addr : Nat} {x : f.Number}

theorem load_eq (f : Format) (m : Memory) (addr : Nat) :
    f.load m addr = f.decode <$> m.load addr f.width := by
  cases f with
  | word32 => exact (id_map (m.load addr 4)).symm
  | word64 | size => exact (id_map (m.load addr 8)).symm
  | int32 => exact bind_pure_comp Int32.ofNat (m.load addr 4)
  | int64 => exact bind_pure_comp Int64.ofNat (m.load addr 8)

theorem store_eq (f : Format) (m : Memory) (addr : Nat) (x : f.Number) :
    f.store m addr x = m.store addr f.width (f.encode x) := by
  cases f <;> rfl

section Bounds

theorem check_of_fits (h : f.Fits m addr) : m.check addr (addr + f.width) = .ok () :=
  Memory.check_eq_ok.mpr ⟨Nat.le_add_right .., h⟩

theorem check_of_not_fits (h : ¬f.Fits m addr) :
    m.check addr (addr + f.width) = .error .outOfBounds :=
  if_neg fun hrange => h hrange.2

theorem load_of_fits (h : f.Fits m addr) :
    f.load m addr = .ok (f.decode (m.number addr f.width)) := by
  rw [load_eq, Memory.load_eq_ok.mpr ⟨h, rfl⟩]
  rfl

theorem load_of_not_fits (h : ¬f.Fits m addr) : f.load m addr = .error .outOfBounds := by
  rw [load_eq, Memory.load, check_of_not_fits h]
  rfl

theorem store_of_fits (h : f.Fits m addr) (x : f.Number) :
    f.store m addr x = .ok (m.setNumber addr (f.encode x) f.width) := by
  rw [store_eq]
  exact Memory.store_eq_ok.mpr ⟨h, rfl⟩

theorem store_of_not_fits (h : ¬f.Fits m addr) (x : f.Number) :
    f.store m addr x = .error .outOfBounds := by
  rw [store_eq, Memory.store, check_of_not_fits h]
  rfl

theorem write_eq (f : Format) (m : Memory) (addr : Nat) (x : f.Number) :
    f.write addr x m = match f.store m addr x with
      | .ok n => .ok () n
      | .error e => .error e m := by
  have hwrite : f.write addr x m = EStateM.bind (ofExcept (m.check addr (addr + f.width)))
      (fun _ => Memory.writeNumber addr (f.encode x) f.width) m := rfl
  by_cases h : f.Fits m addr
  · rw [hwrite, check_of_fits h, store_of_fits h]
    exact Memory.writeNumber_of_le h _
  · rw [hwrite, check_of_not_fits h, store_of_not_fits h]
    rfl

end Bounds

section Encoding

theorem holds_decode (f : Format) {k : Nat} (h : k < 256 ^ f.width) : f.Holds (f.decode k) := by
  cases f with
  | word32 => exact h
  | word64 | size => exact h
  | int32 | int64 => trivial

theorem encode_decode (f : Format) {k : Nat} (h : k < 256 ^ f.width) :
    f.encode (f.decode k) = k := by
  cases f with
  | word32 | word64 | size => rfl
  | int32 =>
    show (Int32.ofNat k).toUInt32.toNat = k
    rw [Int32.toUInt32_ofNat', UInt32.toNat_ofNat']
    exact Nat.mod_eq_of_lt h
  | int64 =>
    show (Int64.ofNat k).toUInt64.toNat = k
    rw [Int64.toUInt64_ofNat', UInt64.toNat_ofNat']
    exact Nat.mod_eq_of_lt h

theorem decode_encode (h : f.Holds x) : f.decode (f.encode x % 256 ^ f.width) = x := by
  cases f with
  | word32 => exact Nat.mod_eq_of_lt h
  | word64 | size => exact Nat.mod_eq_of_lt h
  | int32 => exact Memory.ofNat_int32 x
  | int64 => exact Memory.ofNat_int64 x

theorem toNat_eq_emod {w : Nat} (v : BitVec w) : (v.toNat : Int) = v.toInt % (2 ^ w : Nat) := by
  rw [BitVec.toInt_eq_toNat_bmod, Int.bmod_emod]
  exact (Int.emod_eq_of_lt (Int.natCast_nonneg _) (Int.ofNat_lt.mpr v.isLt)).symm

theorem encode_eq_emod (h : f.Holds x) : (f.encode x : Int) = f.toInt x % 256 ^ f.width := by
  cases f with
  | word32 => exact (Int.emod_eq_of_lt (Int.natCast_nonneg x) (Int.ofNat_lt.mpr h)).symm
  | word64 | size => exact (Int.emod_eq_of_lt (Int.natCast_nonneg x) (Int.ofNat_lt.mpr h)).symm
  | int32 => exact toNat_eq_emod x.toBitVec
  | int64 => exact toNat_eq_emod x.toBitVec

theorem digit_emod (a : Int) {i w : Nat} (h : i < w) :
    a % 256 ^ w / 256 ^ i % 256 = a / 256 ^ i % 256 := by
  obtain ⟨k, rfl⟩ := Nat.exists_eq_add_of_lt h
  have hpow : (256 : Int) ^ (i + k + 1) = 256 ^ i * (256 * 256 ^ k) := by ring
  have hne : (256 : Int) ^ i ≠ 0 := pow_ne_zero i (by decide)
  have hsplit := Int.emod_add_mul_ediv a (256 ^ (i + k + 1))
  calc a % 256 ^ (i + k + 1) / 256 ^ i % 256
      = (a % 256 ^ (i + k + 1) / 256 ^ i + 256 * (256 ^ k * (a / 256 ^ (i + k + 1)))) % 256 := by
        rw [Int.add_mul_emod_self_left]
    _ = (a % 256 ^ (i + k + 1) + 256 ^ i * (256 * (256 ^ k * (a / 256 ^ (i + k + 1))))) /
          256 ^ i % 256 := by
        rw [Int.add_mul_ediv_left _ _ hne]
    _ = a / 256 ^ i % 256 := by
        rw [← Int.mul_assoc 256, ← Int.mul_assoc, ← hpow, hsplit]

theorem byte_of_store (hfits : f.Fits m addr) (h : f.Holds x) {i : Nat} (hi : i < f.width) :
    (((m.setNumber addr (f.encode x) f.width).byte (addr + i)).toNat : Int) =
      f.toInt x / 256 ^ i % 256 := by
  rw [Memory.byte_setNumber _ _ _ _ _ hfits hi, Int.natCast_emod, Int.natCast_ediv,
    encode_eq_emod h, Nat.cast_pow]
  exact digit_emod _ hi

end Encoding

theorem fits_iff {lo hi : Nat} (h : m.ChangedIn n lo hi) : f.Fits n addr ↔ f.Fits m addr := by
  rw [Fits, Fits, h.size_eq]

theorem load_of_changedIn {lo hi : Nat} (h : m.ChangedIn n lo hi)
    (hapart : addr + f.width ≤ lo ∨ hi ≤ addr) : f.load n addr = f.load m addr := by
  by_cases hfits : f.Fits m addr
  · rw [load_of_fits ((fits_iff h).mpr hfits), load_of_fits hfits, h.number_eq hapart]
  · rw [load_of_not_fits (mt (fits_iff h).mp hfits), load_of_not_fits hfits]

/-- What has become of the memory `m` when `x` was written to it at `addr`. -/
structure Written (f : Format) (m : Memory) (addr : Nat) (x : f.Number) (n : Memory) : Prop where
  changedIn : m.ChangedIn n addr (addr + f.width)
  digits : ∀ i < f.width, ((n.byte (addr + i)).toNat : Int) = f.toInt x / 256 ^ i % 256
  read_back : f.load n addr = .ok x
  others : ∀ (g : Format) (addr' : Nat), addr' + g.width ≤ addr ∨ addr + f.width ≤ addr' →
    g.load n addr' = g.load m addr'

/-- What loads and stores at an address come to. -/
structure Accesses (f : Format) (m : Memory) (addr : Nat) : Prop where
  loads : f.Fits m addr → ∃ x, f.Holds x ∧ f.load m addr = .ok x ∧ f.store m addr x = .ok m
  stores : f.Fits m addr → ∀ x, f.Holds x → ∃ n, f.store m addr x = .ok n ∧
    f.write addr x m = .ok () n ∧ f.Written m addr x n
  faults : ¬f.Fits m addr → f.load m addr = .error .outOfBounds ∧
    ∀ x, f.store m addr x = .error .outOfBounds ∧ f.write addr x m = .error .outOfBounds m

theorem store_number (h : f.Fits m addr) :
    f.store m addr (f.decode (m.number addr f.width)) = .ok m := by
  rw [store_of_fits h, encode_decode f (m.number_lt addr f.width), Memory.setNumber_number]

theorem written (hfits : f.Fits m addr) (h : f.Holds x) :
    f.Written m addr x (m.setNumber addr (f.encode x) f.width) := by
  have hchanged := m.setNumber_changedIn addr (f.encode x) f.width
  refine ⟨hchanged, fun i hi => byte_of_store hfits h hi, ?_,
    fun g addr' hapart => load_of_changedIn hchanged hapart⟩
  rw [load_of_fits ((fits_iff hchanged).mpr hfits), Memory.number_setNumber _ _ _ _ hfits,
    decode_encode h]

/-- Wherever a number fits it is kept, and beside it all else; where it does not, nothing is
touched. -/
theorem numbers_kept (f : Format) (m : Memory) (addr : Nat) : f.Accesses m addr := by
  refine ⟨fun hfits => ?_, fun hfits x hx => ?_, fun hfits => ?_⟩
  · exact ⟨_, holds_decode f (m.number_lt addr f.width), load_of_fits hfits, store_number hfits⟩
  · refine ⟨_, store_of_fits hfits x, ?_, written hfits hx⟩
    rw [write_eq, store_of_fits hfits]
  · refine ⟨load_of_not_fits hfits, fun x => ⟨store_of_not_fits hfits x, ?_⟩⟩
    rw [write_eq, store_of_not_fits hfits]

theorem unaligned_kept : ∃ m n : Memory, Memory.zeroed 16 = .ok m ∧
    m.storeInt32 3 (-2) = .ok n ∧ n.loadInt32 3 = .ok (-2) ∧ n.load64 7 = .ok 0 ∧
    size.load m 9 = .error .outOfBounds ∧ size.write 9 1 m = .error .outOfBounds m := by
  let m : Memory := ⟨⟨Array.replicate 16 0⟩⟩
  obtain ⟨n, hstore, -, hwritten⟩ := (numbers_kept int32 m 3).stores (by decide) (-2) trivial
  have hbefore : word64.load m 7 = .ok 0 := by
    rw [load_of_fits (by decide)]
    decide
  have hafter := (hwritten.others word64 7 (.inr (by decide))).trans hbefore
  have hfaults := (numbers_kept size m 9).faults (by decide)
  exact ⟨m, n, rfl, hstore, hwritten.read_back, hafter, hfaults.1, (hfaults.2 1).2⟩

end Format
end CountedHeap
