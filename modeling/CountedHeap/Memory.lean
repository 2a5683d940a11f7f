import CountedHeap.Fault

/-!
A byte buffer. Numbers stand in it with their low byte first. Every access names a range of
bytes, which has to lie in the buffer, and none changes the size.
-/

namespace CountedHeap

structure Memory where
  bytes : ByteArray
  deriving Inhabited

namespace Memory

/-- Half of the address space: no buffer is larger. -/
def maxSize : Nat := 0x7fffffffffffffff

def zeroed (n : Nat) : Except Fault Memory :=
  if n ≤ maxSize then .ok ⟨⟨Array.replicate n 0⟩⟩ else .error .overflow

def size (m : Memory) : Nat := m.bytes.size

def check (m : Memory) (start stop : Nat) : Except Fault Unit :=
  if start ≤ stop ∧ stop ≤ m.size then .ok () else .error .outOfBounds

def byte (m : Memory) (addr : Nat) : UInt8 :=
  if h : addr < m.bytes.size then m.bytes[addr] else 0

def setByte (m : Memory) (addr : Nat) (b : UInt8) : Memory := ⟨m.bytes.set! addr b⟩

def bytesFrom (m : Memory) (addr : Nat) : Nat → List UInt8
  | 0 => []
  | count + 1 => m.byte addr :: m.bytesFrom (addr + 1) count

def number (m : Memory) (addr : Nat) : Nat → Nat
  | 0 => 0
  | width + 1 => (m.byte addr).toNat + 256 * m.number (addr + 1) width

def setNumber (m : Memory) (addr value : Nat) : Nat → Memory
  | 0 => m
  | width + 1 => (m.setByte addr (UInt8.ofNat value)).setNumber (addr + 1) (value / 256) width

def setBytes (m : Memory) (addr : Nat) : List UInt8 → Memory
  | [] => m
  | b :: rest => (m.setByte addr b).setBytes (addr + 1) rest

def setAll (m : Memory) (addr : Nat) (b : UInt8) : Nat → Memory
  | 0 => m
  | count + 1 => (m.setByte addr b).setAll (addr + 1) b count

def load (m : Memory) (addr width : Nat) : Except Fault Nat := do
  m.check addr (addr + width)
  return m.number addr width

def store (m : Memory) (addr width value : Nat) : Except Fault Memory := do
  m.check addr (addr + width)
  return m.setNumber addr value width

def load32 (m : Memory) (addr : Nat) : Except Fault Nat := m.load addr 4

def store32 (m : Memory) (addr value : Nat) : Except Fault Memory := m.store addr 4 value

def load64 (m : Memory) (addr : Nat) : Except Fault Nat := m.load addr 8

def store64 (m : Memory) (addr value : Nat) : Except Fault Memory := m.store addr 8 value

def loadInt32 (m : Memory) (addr : Nat) : Except Fault Int32 := do
  return Int32.ofNat (← m.load addr 4)

def storeInt32 (m : Memory) (addr : Nat) (value : Int32) : Except Fault Memory :=
  m.store addr 4 value.toUInt32.toNat

def loadInt64 (m : Memory) (addr : Nat) : Except Fault Int64 := do
  return Int64.ofNat (← m.load addr 8)

def storeInt64 (m : Memory) (addr : Nat) (value : Int64) : Except Fault Memory :=
  m.store addr 8 value.toUInt64.toNat

def slice (m : Memory) (start stop : Nat) : Except Fault (List UInt8) := do
  m.check start stop
  return m.bytesFrom start (stop - start)

def put (m : Memory) (addr : Nat) (bytes : List UInt8) : Except Fault Memory := do
  m.check addr (addr + bytes.length)
  return m.setBytes addr bytes

def fill (m : Memory) (start stop : Nat) (b : UInt8) : Except Fault Memory := do
  m.check start stop
  return m.setAll start b (stop - start)

/-- Ranges may overlap: the bytes are read before any is written. -/
def copy (m : Memory) (start stop dest : Nat) : Except Fault Memory := do
  m.put dest (← m.slice start stop)

theorem size_setByte (m : Memory) (addr : Nat) (b : UInt8) : (m.setByte addr b).size = m.size :=
  ByteArray.size_set! ..

theorem size_setNumber (m : Memory) (addr value width : Nat) :
    (m.setNumber addr value width).size = m.size := by
  induction width generalizing m addr value with
  | zero => rfl
  | succ width ih => simp [setNumber, ih, size_setByte]

theorem size_setBytes (m : Memory) (addr : Nat) (bytes : List UInt8) :
    (m.setBytes addr bytes).size = m.size := by
  induction bytes generalizing m addr with
  | nil => rfl
  | cons b rest ih => simp [setBytes, ih, size_setByte]

theorem size_setAll (m : Memory) (addr : Nat) (b : UInt8) (count : Nat) :
    (m.setAll addr b count).size = m.size := by
  induction count generalizing m addr with
  | zero => rfl
  | succ count ih => simp [setAll, ih, size_setByte]

theorem setByte_of_le {m : Memory} {addr : Nat} (h : m.size ≤ addr) (b : UInt8) :
    m.setByte addr b = m := by
  obtain ⟨⟨a⟩⟩ := m
  simp only [setByte, ByteArray.set!, Array.set!_eq_setIfInBounds]
  rw [Array.setIfInBounds_eq_of_size_le h]

theorem byte_setByte (m : Memory) (addr i : Nat) (b : UInt8) :
    (m.setByte addr b).byte i = if i = addr ∧ addr < m.size then b else m.byte i := by
  by_cases ha : addr < m.size
  · have hs : (m.bytes.set! addr b).size = m.bytes.size := ByteArray.size_set! ..
    unfold byte setByte
    by_cases hi : i < m.bytes.size
    · rw [dif_pos (hs ▸ hi), dif_pos hi, ByteArray.getElem_set! _ _ _ _ ha hi]
      grind
    · rw [dif_neg (hs ▸ hi), dif_neg hi, if_neg]
      rintro ⟨rfl, -⟩
      exact hi ha
  · rw [setByte_of_le (by omega), if_neg (fun h => ha h.2)]

theorem byte_setNumber_of_lt (m : Memory) (addr value width i : Nat) (h : i < addr) :
    (m.setNumber addr value width).byte i = m.byte i := by
  induction width generalizing m addr value with
  | zero => rfl
  | succ width ih =>
    rw [setNumber, ih _ _ _ (by omega), byte_setByte]
    simp [Nat.ne_of_lt h]

theorem byte_setNumber_of_le (m : Memory) (addr value width i : Nat) (h : addr + width ≤ i) :
    (m.setNumber addr value width).byte i = m.byte i := by
  induction width generalizing m addr value with
  | zero => rfl
  | succ width ih =>
    rw [setNumber, ih _ _ _ (by omega), byte_setByte, if_neg (by omega)]

theorem number_congr {m n : Memory} {addr width : Nat}
    (h : ∀ i, addr ≤ i → i < addr + width → m.byte i = n.byte i) :
    m.number addr width = n.number addr width := by
  induction width generalizing addr with
  | zero => rfl
  | succ width ih =>
    rw [number, number, h addr (by omega) (by omega),
      ih fun i hi hlt => h i (by omega) (by omega)]

theorem byte_setBytes_of_lt (m : Memory) (addr i : Nat) (bytes : List UInt8) (h : i < addr) :
    (m.setBytes addr bytes).byte i = m.byte i := by
  induction bytes generalizing m addr with
  | nil => rfl
  | cons b rest ih =>
    rw [setBytes, ih _ _ (by omega), byte_setByte, if_neg (by omega)]

theorem byte_setBytes_of_le (m : Memory) (addr i : Nat) (bytes : List UInt8)
    (h : addr + bytes.length ≤ i) : (m.setBytes addr bytes).byte i = m.byte i := by
  induction bytes generalizing m addr with
  | nil => rfl
  | cons b rest ih =>
    rw [List.length_cons] at h
    rw [setBytes, ih _ _ (by omega), byte_setByte, if_neg (by omega)]

theorem bytesFrom_setBytes (m : Memory) (addr : Nat) (bytes : List UInt8)
    (h : addr + bytes.length ≤ m.size) :
    (m.setBytes addr bytes).bytesFrom addr bytes.length = bytes := by
  induction bytes generalizing m addr with
  | nil => rfl
  | cons b rest ih =>
    rw [List.length_cons] at h
    rw [setBytes, List.length_cons, bytesFrom, ih _ _ (by rw [size_setByte]; omega),
      byte_setBytes_of_lt _ _ _ _ (by omega), byte_setByte, if_pos ⟨rfl, by omega⟩]

end Memory
end CountedHeap
