import CountedHeap.Proofs.Printing

/-!
The lines of a dump and where they break. Numbers, addresses and references are written without
line breaks, and of the bytes of a string only the line break itself is read as one; so a line is
broken by a string that has one in it, and by nothing else.
-/

namespace CountedHeap

section Breaks

def Unbroken (s : String) : Prop := '\n' ∉ s.toList

instance : DecidablePred Unbroken := fun s => inferInstanceAs (Decidable ('\n' ∉ s.toList))

theorem unbroken_append {s t : String} : Unbroken (s ++ t) ↔ Unbroken s ∧ Unbroken t := by
  simp only [Unbroken, String.toList_append, List.mem_append, not_or]

theorem newline_not_mem_toDigits {base : Nat} (hbase : 1 < base) (n : Nat) :
    '\n' ∉ Nat.toDigits base n := by
  induction n using Nat.strongRecOn with
  | _ n ih =>
    rcases Nat.lt_or_ge n base with hlt | hge
    · rw [Nat.toDigits_of_lt_base hlt, List.mem_singleton]
      exact (Nat.digitChar_ne _ rfl).symm
    · rw [Nat.toDigits_of_base_le hbase hge, List.mem_append, List.mem_singleton, not_or]
      exact ⟨ih _ (Nat.div_lt_self (by omega) hbase), (Nat.digitChar_ne _ rfl).symm⟩

theorem unbroken_toString (n : Nat) : Unbroken (toString n) := by
  rw [Unbroken, Nat.toString_eq_ofList_toDigits, String.toList_ofList]
  exact newline_not_mem_toDigits (by decide) n

theorem unbroken_toString_int (n : Int) : Unbroken (toString n) := by
  cases n with
  | ofNat n => exact unbroken_toString n
  | negSucc n =>
    exact unbroken_append.mpr ⟨by decide, unbroken_toString (n + 1)⟩

theorem unbroken_hexPadded (n : Nat) : Unbroken (hexPadded n) := by
  refine unbroken_append.mpr ⟨by decide, ?_⟩
  rw [Unbroken, String.toList_ofList, List.mem_append, not_or]
  exact ⟨fun h => absurd (List.eq_of_mem_replicate h) (by decide),
    newline_not_mem_toDigits (by decide) n⟩

theorem unbroken_text (r : Reference) : Unbroken r.text := unbroken_toString_int _

theorem intercalate_cons (s t : String) (rest : List String) :
    s.intercalate (t :: rest) = t ++ String.join (rest.map (s ++ ·)) := by
  induction rest generalizing t with
  | nil => rw [String.intercalate_singleton, List.map_nil, String.join_nil, String.append_empty]
  | cons u rest ih =>
    rw [String.intercalate_cons_cons, ih, List.map_cons, String.join_cons, String.append_assoc,
      String.append_assoc]

theorem unbroken_join {texts : List String} (h : ∀ t ∈ texts, Unbroken t) :
    Unbroken (String.join texts) := by
  induction texts with
  | nil => decide
  | cons t rest ih =>
    rw [String.join_cons]
    exact unbroken_append.mpr
      ⟨h t List.mem_cons_self, ih fun u hu => h u (List.mem_cons_of_mem t hu)⟩

theorem unbroken_intercalate {s : String} {texts : List String} (hs : Unbroken s)
    (h : ∀ t ∈ texts, Unbroken t) : Unbroken (s.intercalate texts) := by
  cases texts with
  | nil =>
    rw [String.intercalate_nil]
    decide
  | cons t rest =>
    rw [intercalate_cons]
    refine unbroken_append.mpr ⟨h t List.mem_cons_self, unbroken_join fun u hu => ?_⟩
    obtain ⟨v, hv, rfl⟩ := List.mem_map.mp hu
    exact unbroken_append.mpr ⟨hs, h v (List.mem_cons_of_mem t hv)⟩

end Breaks

namespace Utf8

theorem ofNat_eq_newline {n : Nat} : Char.ofNat n = '\n' ↔ n = 0x0A := by
  constructor
  · intro h
    unfold Char.ofNat at h
    by_cases hvalid : n.isValidChar
    · rw [dif_pos hvalid] at h
      exact congrArg Char.toNat h
    · rw [dif_neg hvalid] at h
      cases h
  · rintro rfl
    rfl

structure Started.High (s : Started) : Prop where
  low : 0x80 ≤ s.low
  bits : 0 < s.bits ∨ (1 < s.missing ∧ 0x90 ≤ s.low ∧ s.high ≤ 0xBF)

theorem begin_newline {b : Nat} (hb : b < 256) :
    ('\n' ∈ (begin b).1 ↔ b = 0x0A) ∧ ∀ s ∈ (begin b).2, s.High := by
  unfold begin lead
  by_cases hascii : b < 0x80
  · simp only [if_pos hascii, List.mem_singleton, eq_comm (a := '\n'), ofNat_eq_newline]
    exact ⟨trivial, nofun⟩
  · simp only [if_neg hascii]
    have hne : b ≠ 0x0A := by omega
    have hstarted {s : Started} (hs : s.High) :
        ('\n' ∈ ([] : List Char) ↔ b = 0x0A) ∧ ∀ t ∈ some s, t.High :=
      ⟨iff_of_false List.not_mem_nil hne, fun t ht => Option.mem_some_iff.mp ht ▸ hs⟩
    have hinvalid : ('\n' ∈ [replacement] ↔ b = 0x0A) ∧ ∀ s ∈ (none : Option Started), s.High :=
      ⟨iff_of_false (by decide) hne, nofun⟩
    split_ifs
    · exact hinvalid
    · exact hstarted ⟨Nat.le_refl _, .inl (by simp only; omega)⟩
    · exact hstarted ⟨by decide, .inr (by decide)⟩
    · exact hstarted ⟨by decide, .inl (by decide)⟩
    · exact hstarted ⟨Nat.le_refl _, .inl (by simp only; omega)⟩
    · exact hstarted ⟨by decide, .inr (by decide)⟩
    · exact hstarted ⟨Nat.le_refl _, .inl (by simp only; omega)⟩
    · exact hstarted ⟨by decide, .inl (by decide)⟩
    · exact hinvalid

theorem step_newline {state : Option Started} {b : Nat} (hb : b < 256)
    (hstate : ∀ s ∈ state, s.High) :
    ('\n' ∈ (step state b).1 ↔ b = 0x0A) ∧ ∀ s ∈ (step state b).2, s.High := by
  cases state with
  | none => exact begin_newline hb
  | some s =>
    obtain ⟨hlow, hbits⟩ := hstate s rfl
    obtain ⟨hbegin, hnext⟩ := begin_newline hb
    unfold step
    by_cases hin : (s.low ≤ b && b ≤ s.high) = true
    · simp only [hin, if_true]
      simp only [Bool.and_eq_true, decide_eq_true_eq] at hin
      have hne : b ≠ 0x0A := by omega
      by_cases hlast : s.missing = 1
      · have hhigh : s.bits * 64 + b % 64 ≠ 0x0A := by omega
        simp only [if_pos hlast, List.mem_singleton, eq_comm (a := '\n'), ofNat_eq_newline]
        exact ⟨iff_of_false hhigh hne, nofun⟩
      · simp only [if_neg hlast, List.not_mem_nil, false_iff, Option.mem_some_iff]
        refine ⟨hne, ?_⟩
        rintro _ rfl
        exact ⟨Nat.le_refl _, .inl (by simp only; omega)⟩
    · simp only [hin, Bool.false_eq_true, if_false, List.mem_cons]
      refine ⟨?_, hnext⟩
      rw [or_iff_right (by decide), hbegin]

theorem chars_newline {state : Option Started} (hstate : ∀ s ∈ state, s.High)
    (bytes : List UInt8) : '\n' ∈ chars state bytes ↔ 0x0A ∈ bytes := by
  induction bytes generalizing state with
  | nil =>
    unfold chars
    refine iff_of_false ?_ List.not_mem_nil
    split <;> decide
  | cons b rest ih =>
    obtain ⟨hhere, hnext⟩ := step_newline b.toNat_lt hstate
    have hbyte : b.toNat = 0x0A ↔ 0x0A = b := by
      rw [eq_comm, ← UInt8.toNat_inj]
      rfl
    rw [chars, List.mem_append, List.mem_cons, ih hnext, hhere, hbyte]

theorem decode_unbroken (bytes : List UInt8) : Unbroken (decode bytes) ↔ 0x0A ∉ bytes := by
  have hnone : ∀ s ∈ (none : Option Started), s.High := nofun
  rw [Unbroken, decode, String.toList_ofList, chars_newline hnone]

end Utf8

namespace Printer

variable {p q : Printer Unit} {s t : String}

def Emits (p : Printer Unit) (s : String) : Prop :=
  ∀ text, p.run.run ⟨text, none⟩ = (.ok (), ⟨text ++ s, none⟩)

theorem emits_write (s : String) : (write s).Emits s := fun _ => rfl

theorem emits_pure : (pure () : Printer Unit).Emits "" := fun text => by
  rw [String.append_empty]
  rfl

theorem Emits.bind (hp : p.Emits s) (hq : q.Emits t) : (p >>= fun _ => q).Emits (s ++ t) := by
  intro text
  rw [run_bind, hp text]
  show q.run.run ⟨text ++ s, none⟩ = _
  rw [hq, String.append_assoc]

theorem Emits.of_eq (hp : p.Emits s) (h : s = t) : p.Emits t := h ▸ hp

theorem Emits.text_eq (hp : p.Emits s) : p.text = .ok s := by
  have hrun := hp ""
  rw [String.empty_append] at hrun
  simp only [text, print, hrun, ok_bind]
  rfl

end Printer

namespace Content

def shown : Content → String
  | none => "value = None"
  | bool b => "value = " ++ if b then "True" else "False"
  | integer n => "value = " ++ toString n.toInt
  | string bytes => "value = \"" ++ Utf8.decode bytes ++ "\""
  | list _ values => "values = " ++ values.text
  | dict _ _ keys values => "keys = " ++ keys.text ++ "; values = " ++ values.text
  | array xs => "values = [" ++ ", ".intercalate (xs.map Reference.text) ++ "]"

theorem unbroken_shown (x : Content) :
    Unbroken x.shown ↔ ∀ bytes, x = .string bytes → 0x0A ∉ bytes := by
  have hvalue : Unbroken "value = " := by decide
  cases x with
  | string bytes =>
    have hquote : Unbroken "\"" := by decide
    rw [shown, show "value = \"" = "value = " ++ "\"" from rfl, unbroken_append, unbroken_append,
      unbroken_append, Utf8.decode_unbroken]
    simp [hvalue, hquote]
  | none => exact iff_of_true (by decide) nofun
  | bool b => exact iff_of_true (by cases b <;> decide) nofun
  | integer n => exact iff_of_true (unbroken_append.mpr ⟨hvalue, unbroken_toString_int _⟩) nofun
  | list size values =>
    exact iff_of_true (unbroken_append.mpr ⟨by decide, unbroken_text _⟩) nofun
  | dict size occupied keys values =>
    refine iff_of_true ?_ nofun
    simp only [shown, unbroken_append, unbroken_text, and_true]
    decide
  | array xs =>
    refine iff_of_true ?_ nofun
    have helements : Unbroken (", ".intercalate (xs.map Reference.text)) :=
      unbroken_intercalate (by decide) fun t ht => by
        obtain ⟨q, -, rfl⟩ := List.mem_map.mp ht
        exact unbroken_text q
    simp only [shown, unbroken_append]
    exact ⟨⟨by decide, helements⟩, by decide⟩

end Content

theorem Kind.unbroken_dumpName (k : Kind) : Unbroken k.dumpName := by
  cases k <;> decide

/-- A line of a dump, without the line break. -/
inductive Line
  | free (addr size : Nat)
  | value (addr size : Nat) (r : Reference) (count : Nat) (x : Content)

namespace Line

def opening (word : String) (addr size : Nat) : String :=
  word ++ hexPadded addr ++ "; size " ++ toString size

def text : Line → String
  | free addr size => opening "Free  " addr size
  | value addr size r count x =>
      opening "Value " addr size ++ "; ref " ++ r.text ++ "; refcnt: " ++ toString count ++
        "; type = " ++ x.kind.dumpName ++ "; " ++ x.shown

def extent : Line → Nat × Nat
  | free addr size | value addr size .. => (addr, size)

def isFree : Line → Bool
  | free .. => true
  | value .. => false

def reference? : Line → Option Reference
  | free .. => none
  | value _ _ r .. => some r

def content? : Line → Option Content
  | free .. => none
  | value _ _ _ _ x => some x

theorem unbroken_opening {word : String} (hword : Unbroken word) (addr size : Nat) :
    Unbroken (opening word addr size) := by
  have hsize : Unbroken "; size " := by decide
  simp only [opening, unbroken_append, unbroken_hexPadded, unbroken_toString, hword, hsize, and_true]

theorem unbroken_text (l : Line) :
    Unbroken l.text ↔ ∀ bytes, l.content? = some (.string bytes) → 0x0A ∉ bytes := by
  cases l with
  | free addr size => exact iff_of_true (unbroken_opening (by decide) addr size) nofun
  | value addr size r count x =>
    have hfields : Unbroken "; ref " ∧ Unbroken "; refcnt: " ∧ Unbroken "; type = " ∧
        Unbroken "; " := by decide
    have hopening := unbroken_opening (show Unbroken "Value " by decide) addr size
    simp only [text, unbroken_append, hopening, unbroken_toString, CountedHeap.unbroken_text,
      Kind.unbroken_dumpName, hfields, true_and, Content.unbroken_shown, content?, Option.some_inj]

def joined (lines : List Line) : String := String.join (lines.map fun l => l.text ++ "\n")

theorem joined_cons (l : Line) (rest : List Line) :
    joined (l :: rest) = l.text ++ "\n" ++ joined rest := String.join_cons

theorem toList_joined (lines : List Line) :
    (joined lines).toList = ['\n'].intercalate (lines.map (·.text.toList) ++ [[]]) := by
  induction lines with
  | nil => rfl
  | cons l rest ih =>
    have hne : rest.map (·.text.toList) ++ [[]] ≠ [] := by simp
    rw [joined_cons, String.toList_append, ih, String.toList_append, List.map_cons,
      List.cons_append, List.intercalate_cons_of_ne_nil hne]
    rfl

theorem splitOn_joined {lines : List Line} (h : ∀ l ∈ lines, Unbroken l.text) :
    (joined lines).toList.splitOn '\n' = lines.map (·.text.toList) ++ [[]] := by
  rw [toList_joined]
  refine List.splitOn_intercalate _ (fun cs hcs => ?_) (by simp)
  rcases List.mem_append.mp hcs with hline | hend
  · obtain ⟨l, hl, rfl⟩ := List.mem_map.mp hline
    exact h l hl
  · rw [List.mem_singleton.mp hend]
    exact List.not_mem_nil

theorem count_joined (lines : List Line) :
    lines.length ≤ (joined lines).toList.count '\n' ∧
      ((joined lines).toList.count '\n' = lines.length ↔ ∀ l ∈ lines, Unbroken l.text) := by
  induction lines with
  | nil => exact ⟨Nat.le_refl _, iff_of_true rfl nofun⟩
  | cons l rest ih =>
    have hcount : (joined (l :: rest)).toList.count '\n' =
        l.text.toList.count '\n' + 1 + (joined rest).toList.count '\n' := by
      rw [joined_cons, String.toList_append, String.toList_append, List.count_append,
        List.count_append]
      rfl
    have hline : Unbroken l.text ↔ l.text.toList.count '\n' = 0 := List.count_eq_zero.symm
    simp only [List.forall_mem_cons, List.length_cons, hcount, hline, ← ih.2]
    omega

end Line

end CountedHeap
