import CountedHeap.Proofs.Outcome
import Mathlib.Order.Bounds.Basic

/-!
Masks as divisions. Clearing the low bits of a word leaves the greatest multiple of a power of
two, and the blocks of a pool are aligned to eight bytes. Rounding up adds before it clears, so it
fails for the last multiple of all as well, although that needs no rounding.
-/

namespace CountedHeap.Word

variable {n m align : Nat}

theorem limit_eq : limit = 2 ^ 64 := by decide

theorem testBit_complement {n : Nat} (hn : n < limit) (i : Nat) :
    (complement n).testBit i = (decide (i < 64) && !n.testBit i) := by
  have hc : complement n = 2 ^ 64 - (n + 1) := by
    unfold complement limit
    omega
  rw [hc, Nat.testBit_two_pow_sub_succ (limit_eq ▸ hn)]

theorem roundDown_two_pow {k : Nat} (hk : k < 64) (n : Nat) :
    roundDown n (2 ^ k) = n % limit / 2 ^ k * 2 ^ k := by
  have hlow : 2 ^ k - 1 < limit := by
    have hp : 2 ^ k < 2 ^ 64 := Nat.pow_lt_pow_right (by omega) hk
    rw [limit_eq]
    omega
  apply Nat.eq_of_testBit_eq
  intro i
  rw [roundDown, Nat.testBit_and, testBit_complement hlow, Nat.testBit_two_pow_sub_one,
    Nat.testBit_mul_two_pow, Nat.testBit_div_two_pow, limit_eq, Nat.testBit_mod_two_pow]
  by_cases hki : k ≤ i
  · rw [Nat.sub_add_cancel hki]
    by_cases hi : i < 64 <;> simp [hki, hi, Nat.not_lt.mpr hki]
  · simp [hki, Nat.lt_of_not_le hki]

theorem isPowerOfTwo_iff : isPowerOfTwo n = true ↔ ∃ k, n = 2 ^ k := by
  by_cases hn : n = 0
  · subst hn
    exact iff_of_false (by decide) fun ⟨k, hk⟩ => Nat.ne_of_lt (Nat.two_pow_pos k) hk
  · simp only [isPowerOfTwo, bne_iff_ne, ne_eq, hn, not_false_eq_true, Bool.and_eq_true, true_and,
      beq_iff_eq]
    exact Nat.and_sub_one_eq_zero_iff_isPowerOfTwo hn

theorem exists_two_pow (hp : isPowerOfTwo align = true) (ha : align < limit) :
    ∃ k < 64, align = 2 ^ k := by
  obtain ⟨k, rfl⟩ := isPowerOfTwo_iff.mp hp
  exact ⟨k, (Nat.pow_lt_pow_iff_right (by decide)).mp (limit_eq ▸ ha), rfl⟩

theorem roundDown_eq (hp : isPowerOfTwo align = true) (ha : align < limit) (hn : n < limit) :
    roundDown n align = n / align * align := by
  obtain ⟨k, hk, rfl⟩ := exists_two_pow hp ha
  rw [roundDown_two_pow hk, Nat.mod_eq_of_lt hn]

theorem pos_of_isPowerOfTwo (hp : isPowerOfTwo align = true) : 0 < align := by
  obtain ⟨k, rfl⟩ := isPowerOfTwo_iff.mp hp
  exact Nat.two_pow_pos k

theorem alignUp_eq (hp : isPowerOfTwo align = true) (ha : align < limit) (n : Nat) :
    alignUp n align =
      if n + align < limit then .ok ((n + align - 1) / align * align) else .error .overflow := by
  have hpos := pos_of_isPowerOfTwo hp
  by_cases hfits : n + align < limit
  · have hsub : sub (n + align) 1 = .ok (n + align - 1) := if_pos (by omega)
    simp only [alignUp, hp, if_true, add, fit_of_lt hfits, ok_bind, hsub, if_pos hfits,
      roundDown_eq hp ha (show n + align - 1 < limit by omega)]
    rfl
  · simp only [alignUp, hp, if_true, add, fit, if_neg hfits]
    rfl

theorem alignDown_eq (hp : isPowerOfTwo align = true) (ha : align < limit) (hn : n < limit) :
    alignDown n align = .ok (n / align * align) := by
  simp only [alignDown, hp, if_true, roundDown_eq hp ha hn]
  rfl

theorem isAligned_eq (hp : isPowerOfTwo align = true) (n : Nat) :
    isAligned n align = .ok (decide (align ∣ n)) := by
  have hsub : sub align 1 = .ok (align - 1) := if_pos (pos_of_isPowerOfTwo hp)
  obtain ⟨k, rfl⟩ := isPowerOfTwo_iff.mp hp
  simp only [isAligned, hsub, ok_bind, Nat.and_two_pow_sub_one_eq_mod, Nat.dvd_iff_mod_eq_zero]
  rfl

theorem roundDown_eight (n : Nat) : roundDown n Block.alignment = n % limit / 8 * 8 :=
  roundDown_two_pow (by decide : 3 < 64) n

theorem alignUp_eq_ok : alignUp n Block.alignment = .ok m ↔ n + 8 < limit ∧ (n + 7) / 8 * 8 = m := by
  rw [alignUp_eq (by decide) (by decide)]
  by_cases hfits : n + Block.alignment < limit
  · rw [if_pos hfits, Except.ok.injEq]
    exact (and_iff_right hfits).symm
  · rw [if_neg hfits]
    exact iff_of_false nofun fun h => hfits h.1

theorem isAligned_eq_ok {b : Bool} :
    isAligned n Block.alignment = .ok b ↔ (n % 8 == 0) = b := by
  rw [isAligned_eq (by decide), Except.ok.injEq]
  simp only [Block.alignment, Nat.dvd_iff_mod_eq_zero, beq_eq_decide]

theorem isGreatest_multiple (ha : 0 < align) (n : Nat) :
    IsGreatest {x | align ∣ x ∧ x ≤ n} (n / align * align) := by
  refine ⟨⟨Nat.dvd_mul_left .., Nat.div_mul_le_self ..⟩, ?_⟩
  rintro x ⟨⟨q, rfl⟩, hle⟩
  rw [Nat.mul_comm align]
  exact Nat.mul_le_mul_right align ((Nat.le_div_iff_mul_le ha).mpr (Nat.mul_comm align q ▸ hle))

theorem isLeast_multiple (ha : 0 < align) (n : Nat) :
    IsLeast {x | align ∣ x ∧ n ≤ x} ((n + align - 1) / align * align) := by
  have hmod := Nat.div_add_mod' (n + align - 1) align
  have hlt := Nat.mod_lt (n + align - 1) ha
  refine ⟨⟨Nat.dvd_mul_left .., by omega⟩, ?_⟩
  rintro x ⟨⟨q, rfl⟩, hle⟩
  rw [Nat.mul_comm align]
  refine Nat.mul_le_mul_right align (Nat.lt_succ_iff.mp ((Nat.div_lt_iff_lt_mul ha).mpr ?_))
  rw [Nat.succ_mul, Nat.mul_comm q]
  omega

theorem add_le_limit (hp : isPowerOfTwo align = true) (ha : align < limit) (hm : align ∣ m)
    (hlt : m < limit) : m + align ≤ limit := by
  obtain ⟨k, hk, rfl⟩ := exists_two_pow hp ha
  have hdvd : 2 ^ k ∣ limit := limit_eq ▸ Nat.pow_dvd_pow 2 (Nat.le_of_lt hk)
  have hle := Nat.le_of_dvd (Nat.sub_pos_of_lt hlt) (Nat.dvd_sub hdvd hm)
  omega

/-- What becomes of a word that is rounded to multiples of `align`. -/
structure Rounds (align n : Nat) : Prop where
  up : ∃ m, IsLeast {x | align ∣ x ∧ n ≤ x} m ∧
    alignUp n align = if m < limit ∧ n + align ≠ limit then .ok m else .error .overflow
  down : ∃ m, IsGreatest {x | align ∣ x ∧ x ≤ n} m ∧ alignDown n align = .ok m ∧
    alignUp m align = if m + align ≠ limit then .ok m else .error .overflow
  aligned : isAligned n align = .ok (decide (align ∣ n))
  between : ∀ lo hi, alignDown n align = .ok lo → alignUp n align = .ok hi → lo ≤ n ∧ n ≤ hi

theorem alignUp_of_isLeast (hp : isPowerOfTwo align = true) (ha : align < limit)
    (hm : IsLeast {x | align ∣ x ∧ n ≤ x} m) :
    alignUp n align = if m < limit ∧ n + align ≠ limit then .ok m else .error .overflow := by
  have hpos := pos_of_isPowerOfTwo hp
  obtain rfl := (isLeast_multiple hpos n).unique hm
  rw [alignUp_eq hp ha]
  refine if_congr ⟨fun hfits => ⟨?_, Nat.ne_of_lt hfits⟩, fun h => ?_⟩ rfl rfl
  · exact Nat.lt_of_le_of_lt (Nat.div_mul_le_self ..) (by omega)
  · have hnext := add_le_limit hp ha hm.1.1 h.1
    have hle := hm.1.2
    omega

/-- Rounding to multiples of a power of two is exact, except that the last multiple that is a word
cannot be rounded up. -/
theorem rounds_exactly (hp : isPowerOfTwo align = true) (ha : align < limit) (hn : n < limit) :
    Rounds align n := by
  have hpos := pos_of_isPowerOfTwo hp
  have hup := isLeast_multiple hpos n
  have hdown := isGreatest_multiple hpos n
  have hself : IsLeast {x | align ∣ x ∧ n / align * align ≤ x} (n / align * align) :=
    ⟨⟨hdown.1.1, Nat.le_refl _⟩, fun x hx => hx.2⟩
  refine ⟨⟨_, hup, alignUp_of_isLeast hp ha hup⟩,
    ⟨_, hdown, alignDown_eq hp ha hn, ?_⟩, isAligned_eq hp n, fun lo hi hlo hhi => ?_⟩
  · rw [alignUp_of_isLeast hp ha hself]
    exact if_congr (and_iff_right (Nat.lt_of_le_of_lt hdown.1.2 hn)) rfl rfl
  · rw [alignDown_eq hp ha hn, Except.ok.injEq] at hlo
    rw [alignUp_eq hp ha] at hhi
    split at hhi
    case isTrue =>
      cases hhi
      exact ⟨hlo ▸ hdown.1.2, hup.1.2⟩
    case isFalse => cases hhi

theorem rounds_half : isPowerOfTwo (2 ^ 62) = true ∧ 2 ^ 62 < limit ∧ 2 ^ 63 + 1 < limit ∧
    Rounds (2 ^ 62) (2 ^ 63 + 1) := by
  have hp : isPowerOfTwo (2 ^ 62) = true := by decide
  exact ⟨hp, by decide, by decide, rounds_exactly hp (by decide) (by decide)⟩

/-- The word is a multiple of eight already, and nothing has to be added to it. -/
theorem last_multiple_overflows :
    isPowerOfTwo 8 = true ∧ limit - 8 < limit ∧
      IsLeast {x | 8 ∣ x ∧ limit - 8 ≤ x} (limit - 8) ∧
      alignUp (limit - 8) 8 = .error .overflow :=
  ⟨by decide, by decide, ⟨⟨by decide, Nat.le_refl _⟩, fun _ hx => hx.2⟩, by decide⟩

end CountedHeap.Word
