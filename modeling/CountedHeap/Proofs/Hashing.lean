import CountedHeap.Heap.Dicts
import CountedHeap.Proofs.Store

/-!
Hash tables. The search for a key starts at the slot of its hash and passes the slots in order,
around the end of the table. No slot on the way to a key is empty, and no two keys are equal, so a
search that meets an empty slot or comes around has missed no equal key.
-/

namespace CountedHeap

def Content.hash? : Content → Option UInt64
  | none => some (-1)
  | bool b => some (if b then 1 else 0)
  | integer n => some n.toUInt64
  | string bytes => some (stringHash bytes)
  | _ => .none

/-- The slots from that of the hash up to this one, of which only the last may be empty. -/
def Way (keys : List Reference) (hash : UInt64) (slot : Nat) : Prop :=
  ∃ d < keys.length, (hash.toNat % keys.length + d) % keys.length = slot ∧
    ∀ e < d, keys[(hash.toNat % keys.length + e) % keys.length]? ≠ some .null

/-- The slots of a hash table, where `c` tells what its keys are. -/
structure Hashed (c : Reference → Option Content) (keys values : List Reference) : Prop where
  paired : values.length = keys.length
  entries : ∀ {i : Nat} {k v : Reference}, keys[i]? = some k → values[i]? = some v →
    (k.isLive = true ∧ v.isLive = true) ∨ ((k = .null ∨ k = .tombstone) ∧ v = .null)
  hashable : ∀ k ∈ keys, k.isLive = true → ∃ x n, c k = some x ∧ x.hash? = some n
  distinct : ∀ {i j : Nat} {k l : Reference} {x : Content}, keys[i]? = some k →
    keys[j]? = some l → k.isLive = true → l.isLive = true → c k = some x → c l = some x → i = j
  way : ∀ {i : Nat} {k : Reference} {x : Content} {n : UInt64}, keys[i]? = some k →
    k.isLive = true → c k = some x → x.hash? = some n → Way keys n i

/-- The tables of a dict with so many entries, and with so many key slots that are not empty. -/
structure Tabled (c : Reference → Option Content) (size occupied : Nat)
    (keys values : List Reference) : Prop extends Hashed c keys values where
  size_eq : keys.countP (·.isLive) = size
  occupied_eq : keys.countP (!·.isNull) = occupied

def Blank (slots : List Reference) : Prop := ∀ q ∈ slots, q = .null

structure Filled (size : Nat) (slots : List Reference) : Prop where
  fits : size ≤ slots.length
  live : ∀ q ∈ slots.take size, q.isLive = true
  blank : Blank (slots.drop size)

def Dead (slots : List Reference) : Prop := ∀ q ∈ slots, q.isLive = false

def Absent (c : Reference → Option Content) (keys : List Reference) (x : Content) : Prop :=
  ∀ k ∈ keys, k.isLive = true → c k ≠ some x

variable {c c' : Reference → Option Content} {keys values : List Reference} {x : Content}
  {hash : UInt64} {key v : Reference} {i slot : Nat} {skip : Bool} {o : Option Nat}

theorem getElem?_set_some {xs : List Reference} {j : Nat} {q : Reference}
    (h : (xs.set i v)[j]? = some q) : (j = i ∧ q = v) ∨ (j ≠ i ∧ xs[j]? = some q) := by
  by_cases hj : j = i
  · subst hj
    rw [List.getElem?_set_self'] at h
    obtain ⟨p, -, rfl⟩ := Option.map_eq_some_iff.mp h
    exact .inl ⟨rfl, rfl⟩
  · rw [List.getElem?_set_ne (Ne.symm hj)] at h
    exact .inr ⟨hj, h⟩

theorem Way.set (hw : Way keys hash slot) (hv : v ≠ .null) : Way (keys.set i v) hash slot := by
  obtain ⟨d, hd, hslot, hway⟩ := hw
  simp only [Way, List.length_set]
  refine ⟨d, hd, hslot, fun e he hnull => ?_⟩
  rcases getElem?_set_some hnull with ⟨-, h⟩ | ⟨-, h⟩
  · exact hv h.symm
  · exact hway e he h

theorem Blank.dead (h : Blank keys) : Dead keys := fun q hq => h q hq ▸ isLive_null

theorem blank_replicate (n : Nat) : Blank (.replicate n .null) :=
  fun _ hq => List.eq_of_mem_replicate hq

namespace Filled

variable {n : Nat} {xs : List Reference}

theorem replace (h : Filled n xs) (hi : i < n) (hv : v.isLive = true) : Filled n (xs.set i v) := by
  refine ⟨by rw [List.length_set]; exact h.fits, fun q hq => ?_, ?_⟩
  · rw [List.take_set] at hq
    rcases List.mem_or_eq_of_mem_set hq with hq | rfl
    · exact h.live q hq
    · exact hv
  · rw [List.drop_set_of_lt hi]
    exact h.blank

theorem add (h : Filled n xs) (hn : n < xs.length) (hv : v.isLive = true) :
    Filled (n + 1) (xs.set n v) := by
  refine ⟨by rw [List.length_set]; exact hn, fun q hq => ?_, ?_⟩
  · have htake : (xs.set n v).take (n + 1) = xs.take n ++ [v] := by
      rw [List.take_succ_eq_append_getElem (by rwa [List.length_set]),
        List.take_set_of_le (Nat.le_refl n), List.getElem_set_self]
    rw [htake, List.mem_append, List.mem_singleton] at hq
    rcases hq with hq | rfl
    · exact h.live q hq
    · exact hv
  · rw [List.drop_set_of_lt (Nat.lt_succ_self n)]
    intro q hq
    refine h.blank q ?_
    rw [List.drop_eq_getElem_cons hn]
    exact List.mem_cons_of_mem _ hq

end Filled

namespace Hashed

theorem congr (ht : Hashed c keys values) (h : ∀ k ∈ keys, k.isLive = true → c' k = c k) :
    Hashed c' keys values := by
  refine ⟨ht.paired, ht.entries, fun k hk hlive => ?_, fun hk hl hklive hllive hx hy => ?_,
    fun hk hlive hx hn => ?_⟩
  · rw [h k hk hlive]
    exact ht.hashable k hk hlive
  · rw [h _ (List.mem_of_getElem? hk) hklive] at hx
    rw [h _ (List.mem_of_getElem? hl) hllive] at hy
    exact ht.distinct hk hl hklive hllive hx hy
  · rw [h _ (List.mem_of_getElem? hk) hlive] at hx
    exact ht.way hk hlive hx hn

theorem of_blank (hk : Blank keys) (hv : Blank values) (hpaired : values.length = keys.length) :
    Hashed c keys values := by
  have hno : ∀ {i : Nat} {q : Reference}, keys[i]? = some q → q.isLive ≠ true := by
    intro i q hq
    rw [hk.dead q (List.mem_of_getElem? hq)]
    exact Bool.false_ne_true
  refine ⟨hpaired, fun hi hj => .inr ⟨.inl (hk _ (List.mem_of_getElem? hi)),
    hv _ (List.mem_of_getElem? hj)⟩, fun k hmem hlive => ?_,
    fun hi _ hlive _ => absurd hlive (hno hi), fun hi hlive => absurd hlive (hno hi)⟩
  rw [hk.dead k hmem] at hlive
  cases hlive

theorem putValue (ht : Hashed c keys values) (hk : keys[i]? = some key) (hlive : key.isLive = true)
    (hv : v.isLive = true) : Hashed c keys (values.set i v) := by
  refine ⟨by rw [List.length_set, ht.paired], fun {j k q} hj hq => ?_, ht.hashable, ht.distinct,
    ht.way⟩
  rcases getElem?_set_some hq with ⟨rfl, rfl⟩ | ⟨-, hq⟩
  · rw [hk, Option.some_inj] at hj
    exact .inl ⟨hj ▸ hlive, hv⟩
  · exact ht.entries hj hq

theorem put (ht : Hashed c keys values) (hx : c key = some x) (hn : x.hash? = some hash)
    (hlive : key.isLive = true) (hv : v.isLive = true) (habsent : Absent c keys x)
    (hway : Way keys hash i) : Hashed c (keys.set i key) (values.set i v) := by
  have hnull : key ≠ .null := by
    rintro rfl
    cases hlive
  refine ⟨by rw [List.length_set, List.length_set, ht.paired], fun {j k q} hk hq => ?_,
    fun k hk hklive => ?_, fun {j l k q y} hk hq hklive hqlive hy hz => ?_,
    fun {j k y n} hk hklive hy hm => ?_⟩
  · rcases getElem?_set_some hk with ⟨rfl, rfl⟩ | ⟨hj, hk⟩ <;>
      rcases getElem?_set_some hq with ⟨hj', rfl⟩ | ⟨hj', hq⟩
    · exact .inl ⟨hlive, hv⟩
    · exact absurd rfl hj'
    · exact absurd hj' hj
    · exact ht.entries hk hq
  · rcases List.mem_or_eq_of_mem_set hk with hk | rfl
    · exact ht.hashable k hk hklive
    · exact ⟨x, hash, hx, hn⟩
  · rcases getElem?_set_some hk with ⟨rfl, rfl⟩ | ⟨hj, hk'⟩ <;>
      rcases getElem?_set_some hq with ⟨rfl, rfl⟩ | ⟨hl, hq'⟩
    · rfl
    · rw [hx] at hy
      cases hy
      exact absurd hz (habsent q (List.mem_of_getElem? hq') hqlive)
    · rw [hx] at hz
      cases hz
      exact absurd hy (habsent k (List.mem_of_getElem? hk') hklive)
    · exact ht.distinct hk' hq' hklive hqlive hy hz
  · rcases getElem?_set_some hk with ⟨rfl, rfl⟩ | ⟨-, hk⟩
    · rw [hx] at hy
      cases hy
      rw [hn] at hm
      cases hm
      exact hway.set hnull
    · exact (ht.way hk hklive hy hm).set hnull

theorem bury (ht : Hashed c keys values) :
    Hashed c (keys.set i .tombstone) (values.set i .null) := by
  have htomb : (Reference.tombstone : Reference) ≠ .null := by decide
  refine ⟨by rw [List.length_set, List.length_set, ht.paired], fun {j k q} hk hq => ?_,
    fun k hk hklive => ?_, fun {j l k q y} hk hq hklive hqlive hy hz => ?_,
    fun {j k y n} hk hklive hy hm => ?_⟩
  · rcases getElem?_set_some hk with ⟨rfl, rfl⟩ | ⟨hj, hk⟩ <;>
      rcases getElem?_set_some hq with ⟨hj', rfl⟩ | ⟨hj', hq⟩
    · exact .inr ⟨.inr rfl, rfl⟩
    · exact absurd rfl hj'
    · exact absurd hj' hj
    · exact ht.entries hk hq
  · rcases List.mem_or_eq_of_mem_set hk with hk | rfl
    · exact ht.hashable k hk hklive
    · cases hklive
  · rcases getElem?_set_some hk with ⟨-, rfl⟩ | ⟨-, hk⟩
    · cases hklive
    rcases getElem?_set_some hq with ⟨-, rfl⟩ | ⟨-, hq⟩
    · cases hqlive
    exact ht.distinct hk hq hklive hqlive hy hz
  · rcases getElem?_set_some hk with ⟨-, rfl⟩ | ⟨-, hk⟩
    · cases hklive
    · exact (ht.way hk hklive hy hm).set htomb

end Hashed

theorem countP_set_slot {p : Reference → Bool} {old : Reference} (hi : keys[i]? = some old) :
    (keys.set i v).countP p + (p old).toNat = keys.countP p + (p v).toNat := by
  induction keys generalizing i with
  | nil => cases hi
  | cons q rest ih =>
    cases i with
    | zero =>
      cases hi
      rw [List.set_cons_zero, List.countP_cons, List.countP_cons]
      cases p old <;> cases p v <;> rfl
    | succ i =>
      have hrest := ih hi
      rw [List.set_cons_succ, List.countP_cons, List.countP_cons]
      omega

theorem Blank.countP_eq {p : Reference → Bool} (h : Blank keys) (hp : p .null = false) :
    keys.countP p = 0 := by
  refine List.countP_eq_zero.mpr fun q hq => ?_
  rw [h q hq, hp]
  exact Bool.false_ne_true

namespace Tabled

variable {n m : Nat}

theorem congr (ht : Tabled c n m keys values) (h : ∀ k ∈ keys, k.isLive = true → c' k = c k) :
    Tabled c' n m keys values := ⟨ht.toHashed.congr h, ht.size_eq, ht.occupied_eq⟩

theorem of_blank (hk : Blank keys) (hv : Blank values) (hpaired : values.length = keys.length) :
    Tabled c 0 0 keys values :=
  ⟨.of_blank hk hv hpaired, hk.countP_eq rfl, hk.countP_eq rfl⟩

theorem occupied_add_count (ht : Tabled c n m keys values) :
    m + keys.count .null = keys.length := by
  rw [← ht.occupied_eq, List.length_eq_countP_add_countP fun q : Reference => !q.isNull]
  refine congrArg _ (List.countP_congr fun q _ => ?_)
  simp [Reference.isNull]

theorem null_mem (ht : Tabled c n m keys values) (hlt : m < keys.length) : .null ∈ keys := by
  have hall := ht.occupied_add_count
  exact List.count_pos_iff.mp (by omega)

theorem size_le (ht : Tabled c n m keys values) : n ≤ m := by
  rw [← ht.size_eq, ← ht.occupied_eq]
  refine List.countP_mono_left fun q _ hlive => ?_
  have hne : q ≠ .null := by
    rintro rfl
    cases hlive
  simpa [Reference.isNull] using hne

theorem putValue (ht : Tabled c n m keys values) (hk : keys[i]? = some key)
    (hlive : key.isLive = true) (hv : v.isLive = true) : Tabled c n m keys (values.set i v) :=
  ⟨ht.toHashed.putValue hk hlive hv, ht.size_eq, ht.occupied_eq⟩

theorem put (ht : Tabled c n m keys values) (hx : c key = some x) (hn : x.hash? = some hash)
    (hlive : key.isLive = true) (hv : v.isLive = true) (habsent : Absent c keys x)
    (hway : Way keys hash i) {old : Reference} (hi : keys[i]? = some old)
    (hdead : old.isLive = false) :
    Tabled c (n + 1) (m + old.isNull.toNat) (keys.set i key) (values.set i v) := by
  have hsize := countP_set_slot (p := (·.isLive)) (v := key) hi
  have hoccupied := countP_set_slot (p := (!·.isNull)) (v := key) hi
  have hnull : key.isNull = false := by
    rw [Reference.isNull, beq_eq_false_iff_ne]
    rintro rfl
    cases hlive
  refine ⟨ht.toHashed.put hx hn hlive hv habsent hway, ?_, ?_⟩
  · simp only [hdead, hlive, ht.size_eq, Bool.toNat_false, Bool.toNat_true] at hsize
    exact hsize
  · rw [ht.occupied_eq] at hoccupied
    simp only [hnull] at hoccupied
    cases hold : old.isNull <;> simp only [hold, Bool.toNat_true, Bool.toNat_false, Bool.not_true,
      Bool.not_false] at hoccupied ⊢ <;> omega

theorem bury (ht : Tabled c (n + 1) m keys values) (hk : keys[i]? = some key)
    (hlive : key.isLive = true) :
    Tabled c n m (keys.set i .tombstone) (values.set i .null) := by
  have hsize := countP_set_slot (p := (·.isLive)) (v := .tombstone) hk
  have hoccupied := countP_set_slot (p := (!·.isNull)) (v := .tombstone) hk
  have hnull : key.isNull = false := by
    rw [Reference.isNull, beq_eq_false_iff_ne]
    rintro rfl
    cases hlive
  refine ⟨ht.toHashed.bury, ?_, ?_⟩
  · simp only [hlive, ht.size_eq, isLive_tombstone, Bool.toNat_false, Bool.toNat_true] at hsize
    omega
  · simp only [hnull, ht.occupied_eq] at hoccupied
    exact Nat.add_right_cancel hoccupied

end Tabled

def Passes (c : Reference → Option Content) (x : Content) (skip : Bool) (k : Reference) : Prop :=
  (k = .tombstone ∧ skip = true) ∨ (k.isLive = true ∧ c k ≠ some x)

def Stops (c : Reference → Option Content) (x : Content) (skip : Bool) (k : Reference) : Prop :=
  (k = .tombstone ∧ skip = false) ∨ k = .null ∨ (k.isLive = true ∧ c k = some x)

/-- The answer of a search from the slot of a hash on. -/
def Found (c : Reference → Option Content) (x : Content) (skip : Bool) (keys : List Reference)
    (hash : UInt64) : Option Nat → Prop
  | none => ∀ k ∈ keys, Passes c x skip k
  | some slot => ∃ d < keys.length, (hash.toNat % keys.length + d) % keys.length = slot ∧
      (∃ k, keys[slot]? = some k ∧ Stops c x skip k) ∧
        ∀ e < d, ∃ k, keys[(hash.toNat % keys.length + e) % keys.length]? = some k ∧
          Passes c x skip k

theorem Hashed.absent (ht : Hashed c keys values) (hn : x.hash? = some hash)
    (hf : Found c x true keys hash o)
    (ho : ∀ slot k, o = some slot → keys[slot]? = some k → k.isLive = false) :
    Absent c keys x := by
  intro k hk hlive hx
  cases o with
  | none =>
    rcases hf k hk with ⟨rfl, -⟩ | ⟨-, hne⟩
    · cases hlive
    · exact hne hx
  | some slot =>
    obtain ⟨d, hd, rfl, ⟨l, hl, hstop⟩, hpassed⟩ := hf
    have hnull : l = .null := by
      rcases hstop with ⟨-, h⟩ | h | ⟨h, -⟩
      · cases h
      · exact h
      · rw [ho _ _ rfl hl] at h
        cases h
    obtain ⟨i, hi⟩ := List.mem_iff_getElem?.mp hk
    obtain ⟨d', hd', rfl, hway⟩ := ht.way hi hlive hx hn
    rcases Nat.lt_trichotomy d' d with hlt | rfl | hgt
    · obtain ⟨p, hp, hpass⟩ := hpassed d' hlt
      rw [hi] at hp
      cases hp
      rcases hpass with ⟨rfl, -⟩ | ⟨-, hne⟩
      · cases hlive
      · exact hne hx
    · rw [hi] at hl
      cases hl
      rw [hnull] at hlive
      cases hlive
    · exact hway d hgt (hnull ▸ hl)

theorem Found.free (hf : Found c x false keys hash (some slot)) (habsent : Absent c keys x) :
    ∃ k, keys[slot]? = some k ∧ k.isLive = false ∧ Way keys hash slot := by
  obtain ⟨d, hd, hslot, ⟨k, hk, hstop⟩, hpassed⟩ := hf
  refine ⟨k, hk, ?_, d, hd, hslot, fun e he hnull => ?_⟩
  · rcases hstop with ⟨rfl, -⟩ | rfl | ⟨hlive, hx⟩
    · rfl
    · rfl
    · exact absurd hx (habsent k (List.mem_of_getElem? hk) hlive)
  · obtain ⟨p, hp, hpass⟩ := hpassed e he
    rw [hnull] at hp
    cases hp
    rcases hpass with ⟨-, h⟩ | ⟨h, -⟩
    · cases h
    · cases h

namespace Heap.Stored

variable {h : Heap} {s : Store} {table q : Reference}

theorem hash_eq (hs : h.Stored s) (hx : s.content key = some x) (hn : x.hash? = some hash) :
    h.hash key = .ok (.ok hash) := by
  obtain ⟨d, hd, rfl⟩ := Store.content_eq_some.mp hx
  have hk := hs.kindOf_eq hd
  have hv := hs.value_eq hd
  unfold Heap.hash
  rw [hk]
  cases hdx : d.content <;> rw [hdx] at hv hn <;> cases hn <;>
    simp only [Content.kind, hashAs?, singletonHash, truth, integer, stringBytes, hv, ok_bind,
      Content.value] <;> rfl

theorem hash_eq_ok (hs : h.Stored s) :
    h.hash key = .ok (.ok hash) ↔ ∃ x, s.content key = some x ∧ x.hash? = some hash := by
  constructor
  · intro hh
    have hhash := hh
    unfold Heap.hash at hh
    cases hk : h.kindOf key with
    | error e =>
      rw [hk] at hh
      cases hh
    | ok k =>
      obtain ⟨x, hx, rfl⟩ := hs.kindOf_eq_ok.mp hk
      refine ⟨x, hx, ?_⟩
      cases hn : x.hash? with
      | some n =>
        rw [hs.hash_eq hx hn] at hhash
        cases hhash
        rfl
      | none =>
        rw [hk] at hh
        cases x <;> cases hn <;> cases hh
  · rintro ⟨x, hx, hn⟩
    exact hs.hash_eq hx hn

theorem equal_eq (hs : h.Stored s) (hx : s.content key = some x) (hn : x.hash? = some hash)
    {y : Content} (hy : s.content q = some y) :
    ∃ b, h.equal key q = .ok b ∧ (b = true ↔ y = x) := by
  obtain ⟨d, hd, rfl⟩ := Store.content_eq_some.mp hx
  obtain ⟨e, hq, rfl⟩ := Store.content_eq_some.mp hy
  have hv := hs.value_eq hd
  have hw := hs.value_eq hq
  rw [equal, hs.kindOf_eq hd, hs.kindOf_eq hq, ok_bind, ok_bind]
  by_cases hkind : d.content.kind = e.content.kind
  · rw [if_pos hkind, equalAs, nesting]
    cases hdx : d.content <;> rw [hdx] at hv hn hkind <;> cases hn <;>
      cases hex : e.content <;> rw [hex] at hw hkind <;> cases hkind <;>
      simp only [Content.kind, equalWithin, truth, integer, stringBytes, hv, hw, Content.value,
        ok_bind] <;> refine ⟨_, rfl, ?_⟩
    · exact iff_of_true rfl trivial
    all_goals
      rw [beq_iff_eq, eq_comm]
      simp only [Content.bool.injEq, Content.integer.injEq, Content.string.injEq]
  · rw [if_neg hkind]
    refine ⟨false, rfl, iff_of_false Bool.false_ne_true fun h => hkind ?_⟩
    rw [h]

theorem equal_eq_ok (hs : h.Stored s) (hx : s.content key = some x) (hn : x.hash? = some hash)
    {b : Bool} (he : h.equal key q = .ok b) :
    ∃ y, s.content q = some y ∧ (b = true ↔ y = x) := by
  have hequal := he
  simp only [equal, bind_eq_ok, hs.kindOf_eq_ok] at he
  obtain ⟨-, -, -, ⟨y, hy, -⟩, -⟩ := he
  obtain ⟨b', hb', hiff⟩ := hs.equal_eq hx hn hy
  rw [hequal] at hb'
  cases hb'
  exact ⟨y, hy, hiff⟩

theorem stops_eq_ok (hs : h.Stored s) (hx : s.content key = some x) (hn : x.hash? = some hash)
    {stop : Bool} (hstop : (if q.isTombstone then pure !skip
      else if q.isNull then pure true else h.equal key q : Except Fault Bool) = .ok stop) :
    if stop then Stops s.content x skip q else Passes s.content x skip q := by
  by_cases htomb : q.isTombstone = true
  · rw [if_pos htomb] at hstop
    cases hstop
    have hq : q = .tombstone := beq_iff_eq.mp htomb
    cases skip with
    | true => exact .inl ⟨hq, rfl⟩
    | false => exact .inl ⟨hq, rfl⟩
  · rw [if_neg htomb] at hstop
    by_cases hnull : q.isNull = true
    · rw [if_pos hnull] at hstop
      cases hstop
      exact .inr (.inl (beq_iff_eq.mp hnull))
    · rw [if_neg hnull] at hstop
      obtain ⟨y, hy, hiff⟩ := hs.equal_eq_ok hx hn hstop
      obtain ⟨d, hd, -⟩ := Store.content_eq_some.mp hy
      have hlive := hs.isLive hd
      cases stop with
      | true => exact .inr (.inr ⟨hlive, by rw [hy, hiff.mp rfl]⟩)
      | false =>
        refine .inr ⟨hlive, fun h => ?_⟩
        rw [hy, Option.some_inj] at h
        exact Bool.false_ne_true (hiff.mpr h)

theorem exists_wrap {start i n : Nat} (hstart : start < n) (hi : i < n) :
    ∃ e < n, (start + e) % n = i := by
  by_cases hle : start ≤ i
  · exact ⟨i - start, by omega, by rw [Nat.add_sub_cancel' hle, Nat.mod_eq_of_lt hi]⟩
  · refine ⟨i + n - start, by omega, ?_⟩
    rw [show start + (i + n - start) = i + n by omega, Nat.add_mod_right, Nat.mod_eq_of_lt hi]

theorem probe_eq_ok (hs : h.Stored s) (hx : s.content key = some x) (hn : x.hash? = some hash)
    {d : Cell} (hd : s table = some d) (hkeys : d.content = .array keys) {start index count : Nat}
    (hp : h.probe (h.equal key) ⟨d.addr, keys.length⟩ start skip index count = .ok o) :
    (o = none ∧ ∀ e, index ≤ e → e < index + count →
      ∃ k, keys[(start + e) % keys.length]? = some k ∧ Passes s.content x skip k) ∨
    ∃ d, index ≤ d ∧ d < index + count ∧ o = some ((start + d) % keys.length) ∧
      (∃ k, keys[(start + d) % keys.length]? = some k ∧ Stops s.content x skip k) ∧
        ∀ e, index ≤ e → e < d →
          ∃ k, keys[(start + e) % keys.length]? = some k ∧ Passes s.content x skip k := by
  -- The slots up to `index` were passed, so what is found from there on is the first.
  induction count generalizing index with
  | zero =>
    cases hp
    exact .inl ⟨rfl, fun e hle hlt => by omega⟩
  | succ count ih =>
    simp only [probe, bind_eq_ok, memory_eq, hs.slotsGet_eq hd hkeys] at hp
    obtain ⟨k, hk, hp⟩ := hp
    have hstep : ∃ stop, (if k.isTombstone then pure !skip
        else if k.isNull then pure true else h.equal key k : Except Fault Bool) = .ok stop ∧
          (if stop then pure (some ((start + index) % keys.length))
            else h.probe (h.equal key) ⟨d.addr, keys.length⟩ start skip (index + 1) count) =
              .ok o := by
      refine bind_eq_ok.mp ?_
      rw [← hp]
      split_ifs <;> rfl
    obtain ⟨stop, hstop, hp⟩ := hstep
    split at hk
    case h_2 => cases hk
    case h_1 hget =>
      cases hk
      have hone := hs.stops_eq_ok hx hn hstop
      cases stop with
      | true =>
        cases hp
        exact .inr ⟨index, Nat.le_refl _, by omega, rfl, ⟨_, hget, hone⟩, fun e _ _ => by omega⟩
      | false =>
        have hpass : ∀ e, index ≤ e → e < index + 1 →
            ∃ k, keys[(start + e) % keys.length]? = some k ∧ Passes s.content x skip k := by
          intro e hle hlt
          rw [show e = index by omega]
          exact ⟨_, hget, hone⟩
        rcases ih hp with ⟨ho, hall⟩ | ⟨d, hle, hlt, ho, hstops, hall⟩
        · refine .inl ⟨ho, fun e hle hlt => ?_⟩
          by_cases he : e < index + 1
          · exact hpass e hle he
          · exact hall e (by omega) (by omega)
        · refine .inr ⟨d, by omega, by omega, ho, hstops, fun e hle hlt => ?_⟩
          by_cases he : e < index + 1
          · exact hpass e hle he
          · exact hall e (by omega) hlt

theorem findKey_eq_ok (hs : h.Stored s) (hx : s.content key = some x) {n : UInt64}
    (hn : x.hash? = some n) (hf : h.findKey table hash key skip = .ok o) :
    ∃ keys, s.content table = some (.array keys) ∧ Found s.content x skip keys hash o := by
  simp only [findKey, findKeyBy, bind_eq_ok, hs.slots_eq_ok] at hf
  obtain ⟨_, ⟨d, keys, hd, hkeys, rfl⟩, hf⟩ := hf
  refine ⟨keys, Store.content_eq_some.mpr ⟨d, hd, hkeys⟩, ?_⟩
  dsimp only at hf
  split at hf
  case isTrue hempty =>
    cases hf
    intro k hk
    rw [List.length_eq_zero_iff.mp hempty] at hk
    cases hk
  case isFalse hfull =>
    rcases hs.probe_eq_ok hx hn hd hkeys hf with ⟨rfl, hall⟩ | ⟨d, -, hlt, rfl, hstops, hall⟩
    · intro k hk
      obtain ⟨i, hlt, hi⟩ := List.mem_iff_getElem.mp hk
      obtain ⟨e, he, rfl⟩ := exists_wrap (Nat.mod_lt hash.toNat (by omega)) hlt
      obtain ⟨k', hk', hpass⟩ := hall e (Nat.zero_le _) (by omega)
      rw [List.getElem?_eq_getElem hlt, Option.some_inj] at hk'
      rwa [← hi, hk']
    · exact ⟨d, by omega, rfl, hstops, fun e he => hall e (Nat.zero_le _) he⟩

theorem lookup_eq_ok (hs : h.Stored s) (hx : s.content key = some x) (hn : x.hash? = some hash)
    (hl : h.lookup table hash key = .ok o) : ∃ keys, s.content table = some (.array keys) ∧
      (∀ slot, o = some slot →
        ∃ k, keys[slot]? = some k ∧ k.isLive = true ∧ s.content k = some x) ∧
        (o = none → ∀ values, Hashed s.content keys values → Absent s.content keys x) := by
  simp only [lookup, lookupBy, bind_eq_ok] at hl
  obtain ⟨found, hf, hl⟩ := hl
  obtain ⟨keys, hkeys, hfound⟩ := hs.findKey_eq_ok hx hn hf
  refine ⟨keys, hkeys, ?_⟩
  cases found with
  | none =>
    cases hl
    refine ⟨fun slot h => ?_, fun _ values ht => ht.absent hn hfound fun slot k h => ?_⟩ <;> cases h
  | some slot =>
    simp only [bind_eq_ok, hs.arrayGet_eq_ok] at hl
    obtain ⟨k, ⟨keys', hkeys', hk⟩, hl⟩ := hl
    rw [hkeys] at hkeys'
    cases hkeys'
    split at hl
    case isTrue hlive =>
      cases hl
      refine ⟨fun slot' h => ?_, fun h => ?_⟩
      · cases h
        obtain ⟨-, -, -, ⟨k', hk', hstop⟩, -⟩ := hfound
        rw [hk, Option.some_inj] at hk'
        subst hk'
        rcases hstop with ⟨-, h⟩ | rfl | ⟨-, hx⟩
        · cases h
        · cases hlive
        · exact ⟨k, hk, hlive, hx⟩
      · cases h
    case isFalse hdead =>
      cases hl
      refine ⟨fun slot' h => ?_, fun _ values ht => ht.absent hn hfound fun slot' k' h hk' => ?_⟩
      · cases h
      · cases h
        rw [hk] at hk'
        cases hk'
        rwa [Bool.not_eq_true] at hdead

end Heap.Stored
end CountedHeap
