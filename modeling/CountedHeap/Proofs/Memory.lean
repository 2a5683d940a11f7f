import CountedHeap.Proofs.Outcome

/-!
Which bytes an access touches. Every write changes the bytes of one range and keeps all others,
so that what is read from elsewhere stays, and what was written is read back.
-/

namespace CountedHeap.Memory

structure ChangedIn (m n : Memory) (lo hi : Nat) : Prop where
  size_eq : n.size = m.size
  byte_eq : ∀ i, i < lo ∨ hi ≤ i → n.byte i = m.byte i

namespace ChangedIn

variable {m n k : Memory} {lo hi lo' hi' : Nat}

theorem refl (m : Memory) (lo hi : Nat) : m.ChangedIn m lo hi := ⟨rfl, fun _ _ => rfl⟩

theorem trans (h₁ : m.ChangedIn n lo hi) (h₂ : n.ChangedIn k lo hi) : m.ChangedIn k lo hi :=
  ⟨h₂.size_eq.trans h₁.size_eq, fun i hi => (h₂.byte_eq i hi).trans (h₁.byte_eq i hi)⟩

theorem mono (h : m.ChangedIn n lo hi) (hlo : lo' ≤ lo) (hhi : hi ≤ hi') :
    m.ChangedIn n lo' hi' :=
  ⟨h.size_eq, fun i hi => h.byte_eq i (by omega)⟩

theorem number_eq (h : m.ChangedIn n lo hi) {addr width : Nat}
    (hd : addr + width ≤ lo ∨ hi ≤ addr) : n.number addr width = m.number addr width :=
  number_congr fun i _ _ => h.byte_eq i (by omega)

end ChangedIn

theorem length_bytesFrom (m : Memory) (addr count : Nat) :
    (m.bytesFrom addr count).length = count := by
  induction count generalizing addr with
  | zero => rfl
  | succ count ih => rw [bytesFrom, List.length_cons, ih]

theorem getElem_bytesFrom (m : Memory) (addr count i : Nat)
    (hi : i < (m.bytesFrom addr count).length) :
    (m.bytesFrom addr count)[i] = m.byte (addr + i) := by
  induction count generalizing addr i with
  | zero => exact absurd hi (Nat.not_lt_zero i)
  | succ count ih =>
    cases i with
    | zero => rfl
    | succ i =>
      simp only [bytesFrom, List.getElem_cons_succ, ih]
      congr 1
      omega

theorem bytesFrom_add (m : Memory) (addr a b : Nat) :
    m.bytesFrom addr (a + b) = m.bytesFrom addr a ++ m.bytesFrom (addr + a) b := by
  induction a generalizing addr with
  | zero => simp [bytesFrom]
  | succ a ih =>
    rw [Nat.succ_add, bytesFrom, ih, bytesFrom, List.cons_append]
    congr 3
    omega

theorem number_lt (m : Memory) (addr width : Nat) : m.number addr width < 256 ^ width := by
  induction width generalizing addr with
  | zero => exact Nat.one_pos
  | succ width ih =>
    have hb := (m.byte addr).toNat_lt
    have hr := ih (addr + 1)
    rw [number, Nat.pow_succ]
    omega

theorem number_shift {m n : Memory} {a b width : Nat}
    (h : ∀ i, i < width → m.byte (a + i) = n.byte (b + i)) :
    m.number a width = n.number b width := by
  induction width generalizing a b with
  | zero => rfl
  | succ width ih =>
    have h0 := h 0 (by omega)
    rw [Nat.add_zero, Nat.add_zero] at h0
    rw [number, number, h0, ih]
    intro i hi
    have hs := h (i + 1) (by omega)
    rwa [show a + (i + 1) = a + 1 + i by omega, show b + (i + 1) = b + 1 + i by omega] at hs

theorem bytesFrom_shift {m n : Memory} {a b count : Nat}
    (h : ∀ i, i < count → m.byte (a + i) = n.byte (b + i)) :
    m.bytesFrom a count = n.bytesFrom b count := by
  apply List.ext_getElem
  · rw [length_bytesFrom, length_bytesFrom]
  · intro i hi hj
    rw [getElem_bytesFrom, getElem_bytesFrom]
    rw [length_bytesFrom] at hi
    exact h i hi

theorem number_setNumber (m : Memory) (addr value width : Nat) (h : addr + width ≤ m.size) :
    (m.setNumber addr value width).number addr width = value % 256 ^ width := by
  induction width generalizing m addr value with
  | zero => simp [number, Nat.mod_one]
  | succ width ih =>
    rw [setNumber, number, ih _ _ _ (by rw [size_setByte]; omega),
      byte_setNumber_of_lt _ _ _ _ _ (by omega), byte_setByte, if_pos ⟨rfl, by omega⟩]
    rw [Nat.pow_succ', Nat.mod_mul, UInt8.toNat_ofNat']

theorem setNumber_changedIn (m : Memory) (addr value width : Nat) :
    m.ChangedIn (m.setNumber addr value width) addr (addr + width) := by
  refine ⟨size_setNumber .., fun i hi => ?_⟩
  rcases hi with hi | hi
  · exact byte_setNumber_of_lt _ _ _ _ _ hi
  · exact byte_setNumber_of_le _ _ _ _ _ hi

theorem setBytes_changedIn (m : Memory) (addr : Nat) (bytes : List UInt8) :
    m.ChangedIn (m.setBytes addr bytes) addr (addr + bytes.length) := by
  refine ⟨size_setBytes .., fun i hi => ?_⟩
  rcases hi with hi | hi
  · exact byte_setBytes_of_lt _ _ _ _ hi
  · exact byte_setBytes_of_le _ _ _ _ hi

theorem setAll_changedIn (m : Memory) (addr : Nat) (b : UInt8) (count : Nat) :
    m.ChangedIn (m.setAll addr b count) addr (addr + count) := by
  induction count generalizing m addr with
  | zero => exact ChangedIn.refl ..
  | succ count ih =>
    refine ⟨size_setAll .., fun i hi => ?_⟩
    rw [setAll, (ih _ _).byte_eq i (by omega), byte_setByte, if_neg (by omega)]

theorem byte_setBytes (m : Memory) (addr i : Nat) (bytes : List UInt8)
    (h : addr + bytes.length ≤ m.size) (hi : i < bytes.length) :
    (m.setBytes addr bytes).byte (addr + i) = bytes[i] := by
  have hb := bytesFrom_setBytes m addr bytes h
  rw [← getElem_bytesFrom _ addr bytes.length i (by rwa [length_bytesFrom])]
  simp only [hb]

@[simp]
theorem check_eq_ok {m : Memory} {start stop : Nat} {u : Unit} :
    m.check start stop = .ok u ↔ start ≤ stop ∧ stop ≤ m.size := by
  unfold check
  split <;> simp_all

theorem load_eq_ok {m : Memory} {addr width value : Nat} :
    m.load addr width = .ok value ↔ addr + width ≤ m.size ∧ m.number addr width = value := by
  simp [load]

theorem store_eq_ok {m n : Memory} {addr width value : Nat} :
    m.store addr width value = .ok n ↔
      addr + width ≤ m.size ∧ m.setNumber addr value width = n := by
  simp [store]

theorem slice_eq_ok {m : Memory} {start stop : Nat} {bytes : List UInt8} :
    m.slice start stop = .ok bytes ↔
      (start ≤ stop ∧ stop ≤ m.size) ∧ m.bytesFrom start (stop - start) = bytes := by
  simp [slice]

theorem put_eq_ok {m n : Memory} {addr : Nat} {bytes : List UInt8} :
    m.put addr bytes = .ok n ↔ addr + bytes.length ≤ m.size ∧ m.setBytes addr bytes = n := by
  simp [put]

theorem fill_eq_ok {m n : Memory} {start stop : Nat} {b : UInt8} :
    m.fill start stop b = .ok n ↔
      (start ≤ stop ∧ stop ≤ m.size) ∧ m.setAll start b (stop - start) = n := by
  simp [fill]

theorem store_changedIn {m n : Memory} {addr width value : Nat}
    (h : m.store addr width value = .ok n) : m.ChangedIn n addr (addr + width) := by
  obtain ⟨-, rfl⟩ := store_eq_ok.mp h
  exact setNumber_changedIn ..

theorem number_store {m n : Memory} {addr width value : Nat}
    (h : m.store addr width value = .ok n) : n.number addr width = value % 256 ^ width := by
  obtain ⟨hsize, rfl⟩ := store_eq_ok.mp h
  exact number_setNumber _ _ _ _ hsize

theorem fill_changedIn {m n : Memory} {start stop : Nat} {b : UInt8}
    (h : m.fill start stop b = .ok n) : m.ChangedIn n start stop := by
  obtain ⟨⟨hle, -⟩, rfl⟩ := fill_eq_ok.mp h
  have hc := setAll_changedIn m start b (stop - start)
  rwa [Nat.add_sub_cancel' hle] at hc

theorem put_changedIn {m n : Memory} {addr : Nat} {bytes : List UInt8}
    (h : m.put addr bytes = .ok n) : m.ChangedIn n addr (addr + bytes.length) := by
  obtain ⟨-, rfl⟩ := put_eq_ok.mp h
  exact setBytes_changedIn ..

theorem byte_put {m n : Memory} {addr i : Nat} {bytes : List UInt8}
    (h : m.put addr bytes = .ok n) (hi : i < bytes.length) : n.byte (addr + i) = bytes[i] := by
  obtain ⟨hsize, rfl⟩ := put_eq_ok.mp h
  exact byte_setBytes _ _ _ _ hsize hi

theorem copy_changedIn {m n : Memory} {start stop dest : Nat}
    (h : m.copy start stop dest = .ok n) : m.ChangedIn n dest (dest + (stop - start)) := by
  simp only [copy, bind_eq_ok, slice_eq_ok] at h
  obtain ⟨bytes, ⟨-, rfl⟩, h⟩ := h
  have hc := put_changedIn h
  rwa [length_bytesFrom] at hc

theorem byte_copy {m n : Memory} {start stop dest i : Nat}
    (h : m.copy start stop dest = .ok n) (hi : i < stop - start) :
    n.byte (dest + i) = m.byte (start + i) := by
  simp only [copy, bind_eq_ok, slice_eq_ok] at h
  obtain ⟨bytes, ⟨-, rfl⟩, h⟩ := h
  rw [byte_put h (by rwa [length_bytesFrom]), getElem_bytesFrom]

theorem ofNat_int32 (value : Int32) : Int32.ofNat (value.toUInt32.toNat % 256 ^ 4) = value := by
  have hlt : value.toUInt32.toNat < 256 ^ 4 := value.toUInt32.toNat_lt
  rw [Nat.mod_eq_of_lt hlt]
  exact Int32.ofNat_bitVecToNat value.toBitVec

theorem ofNat_int64 (value : Int64) : Int64.ofNat (value.toUInt64.toNat % 256 ^ 8) = value := by
  have hlt : value.toUInt64.toNat < 256 ^ 8 := value.toUInt64.toNat_lt
  rw [Nat.mod_eq_of_lt hlt]
  exact Int64.ofNat_bitVecToNat value.toBitVec

theorem zeroed_eq_ok {n : Nat} {m : Memory} (h : zeroed n = .ok m) : n ≤ maxSize ∧ m.size = n := by
  unfold zeroed at h
  split at h
  case isTrue hle =>
    cases h
    exact ⟨hle, by simp [size, ByteArray.size]⟩
  case isFalse => cases h

end CountedHeap.Memory
