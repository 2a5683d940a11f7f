import CountedHeap.Proofs.Accounts
import CountedHeap.Proofs.Mapping

/-!
Rebuilding a hash table. The entries move one after the other from the old tables into new ones,
and each leaves an empty slot behind. A reference stands as often in the old and new tables
together as it did at first, and no key is equal to one that has moved.
-/

namespace CountedHeap

open Heap (Entry)

/-- How the tables stand while these entries are left to move. -/
structure Rehash (c : Reference → Option Content) (ks₀ vs₀ : List Reference)
    (entries : List Entry) (ks vs us ws : List Reference) : Prop where
  hashed : Hashed c us ws
  clean : ∀ k ∈ us, k.isLive = true ∨ k = .null
  left : ∀ e ∈ entries, ks[e.slot]? = some e.key ∧ e.key.isLive = true ∧
    (∃ v, vs[e.slot]? = some v ∧ v.isLive = true) ∧
      ∃ x, c e.key = some x ∧ x.hash? = some e.hash ∧ Absent c us x
  apart : entries.Pairwise fun e f => e.slot ≠ f.slot ∧ c e.key ≠ c f.key
  keysLeft : ∀ {i : Nat} {k : Reference}, ks[i]? = some k → k.isLive = true →
    ∃ e ∈ entries, e.slot = i
  valuesLeft : ∀ {i : Nat} {v : Reference}, vs[i]? = some v → v.isLive = true →
    ∃ e ∈ entries, e.slot = i
  keyCount : ∀ q, q.isLive = true → us.count q + ks.count q = ks₀.count q
  valueCount : ∀ q, q.isLive = true → ws.count q + vs.count q = vs₀.count q

def Spread (c : Reference → Option Content) (ks vs us ws : List Reference) (m : Mapping) : Prop :=
  ∀ x e, m x = some e ↔ Mapped c ks vs x e ∨ Mapped c us ws x e

variable {c c' : Reference → Option Content} {ks₀ vs₀ ks vs us ws : List Reference}
  {m : Mapping} {entries rest : List Entry} {e : Entry} {x : Content} {skip : Bool} {hash : UInt64}
  {o : Option Nat} {q v : Reference} {slot : Nat}

theorem Found.congr (hf : Found c x skip us hash o)
    (h : ∀ k ∈ us, k.isLive = true → c' k = c k) : Found c' x skip us hash o := by
  have hpass : ∀ k ∈ us, Passes c x skip k → Passes c' x skip k := fun k hk hp =>
    hp.imp_right fun ⟨hlive, hne⟩ => ⟨hlive, by rwa [h k hk hlive]⟩
  cases o with
  | none => exact fun k hk => hpass k hk (hf k hk)
  | some slot =>
    obtain ⟨d, hd, hslot, ⟨k, hk, hstop⟩, hpassed⟩ := hf
    refine ⟨d, hd, hslot, ⟨k, hk, hstop.imp_right fun hr => hr.imp_right fun ⟨hlive, hx⟩ =>
      ⟨hlive, by rwa [h k (List.mem_of_getElem? hk) hlive]⟩⟩, fun i hi => ?_⟩
    obtain ⟨p, hp, hpp⟩ := hpassed i hi
    exact ⟨p, hp, hpass p (List.mem_of_getElem? hp) hpp⟩

theorem Absent.set (h : Absent c us x) (hq : c q ≠ some x) : Absent c (us.set slot q) x := by
  intro k hk hlive
  rcases List.mem_or_eq_of_mem_set hk with hk | rfl
  · exact h k hk hlive
  · exact hq

theorem spread_dead_iff (hu : Dead us) : Spread c ks vs us ws m ↔ Tables c ks vs m := by
  have hno : ∀ x e, ¬Mapped c us ws x e := by
    rintro x e ⟨i, hi, hlive, -⟩
    rw [hu _ (List.mem_of_getElem? hi)] at hlive
    cases hlive
  simp only [Spread, Tables, hno, or_false]

theorem spread_comm : Spread c ks vs us ws m ↔ Spread c us ws ks vs m := by
  simp only [Spread, or_comm]

namespace Rehash

theorem step (hr : Rehash c ks₀ vs₀ (e :: rest) ks vs us ws) (hx : c e.key = some x)
    (hf : Found c x false us e.hash (some slot)) (hv : vs[e.slot]? = some v) :
    Rehash c ks₀ vs₀ rest (ks.set e.slot .null) (vs.set e.slot .null) (us.set slot e.key)
      (ws.set slot v) := by
  -- The new tables have no equal key, so the search for a slot ended at an empty one.
  obtain ⟨hkey, hlive, ⟨v', hv', hvlive⟩, y, hy, hn, habsent⟩ := hr.left e List.mem_cons_self
  rw [hx] at hy
  cases hy
  rw [hv] at hv'
  cases hv'
  obtain ⟨old, hold, hdead, hway⟩ := hf.free habsent
  have hpaired := hr.hashed.paired
  have hlt := (List.getElem?_eq_some_iff.mp hold).1
  have hvalue : ws[slot]? = some .null := by
    have hget := List.getElem?_eq_getElem (l := ws) (i := slot) (by omega)
    rw [hget]
    rcases hr.hashed.entries hold hget with ⟨h, -⟩ | ⟨-, h⟩
    · rw [hdead] at h
      cases h
    · rw [h]
  obtain ⟨happart, hrest⟩ := List.pairwise_cons.mp hr.apart
  have hgone : ∀ {i : Nat} {xs : List Reference} {p : Reference},
      (xs.set e.slot .null)[i]? = some p → p.isLive = true → i ≠ e.slot ∧ xs[i]? = some p := by
    intro i xs p hp hplive
    rcases getElem?_set_some hp with ⟨-, rfl⟩ | h
    · cases hplive
    · exact h
  have hother : ∀ {i : Nat}, (∃ f ∈ e :: rest, f.slot = i) → i ≠ e.slot →
      ∃ f ∈ rest, f.slot = i := by
    rintro _ ⟨f, hf, rfl⟩ hne
    rcases List.mem_cons.mp hf with rfl | hf
    · exact absurd rfl hne
    · exact ⟨f, hf, rfl⟩
  have hnull : ∀ {p q : Reference}, p.isLive = false → q.isLive = true → [p].count q = 0 := by
    intro p q hp hq
    refine List.count_eq_zero.mpr fun hmem => ?_
    rw [List.mem_singleton.mp hmem, hp] at hq
    cases hq
  refine ⟨hr.hashed.put hx hn hlive hvlive habsent hway, fun k hk => ?_, fun f hfm => ?_, hrest,
    fun hk hklive => ?_, fun hk hklive => ?_, fun q hq => ?_, fun q hq => ?_⟩
  · rcases List.mem_or_eq_of_mem_set hk with hk | rfl
    · exact hr.clean k hk
    · exact .inl hlive
  · obtain ⟨hfkey, hflive, ⟨w, hw, hwlive⟩, y, hy, hm, hfabsent⟩ :=
      hr.left f (List.mem_cons_of_mem _ hfm)
    obtain ⟨hslots, hcontents⟩ := happart f hfm
    refine ⟨?_, hflive, ⟨w, ?_, hwlive⟩, y, hy, hm, hfabsent.set fun h => hcontents ?_⟩
    · rwa [List.getElem?_set_ne hslots]
    · rwa [List.getElem?_set_ne hslots]
    · rw [h, hy]
  · obtain ⟨hne, hk⟩ := hgone hk hklive
    exact hother (hr.keysLeft hk hklive) hne
  · obtain ⟨hne, hk⟩ := hgone hk hklive
    exact hother (hr.valuesLeft hk hklive) hne
  · have hcount := hr.keyCount q hq
    have hin := Store.count_set_slot (v := e.key) (q := q) hold
    have hout := Store.count_set_slot (v := .null) (q := q) hkey
    rw [hnull hdead hq] at hin
    rw [hnull isLive_null hq] at hout
    omega
  · have hcount := hr.valueCount q hq
    have hin := Store.count_set_slot (v := v) (q := q) hvalue
    have hout := Store.count_set_slot (v := .null) (q := q) hv
    rw [hnull isLive_null hq] at hin hout
    omega

theorem step_spread (hr : Rehash c ks₀ vs₀ (e :: rest) ks vs us ws) (hx : c e.key = some x)
    (hf : Found c x false us e.hash (some slot)) (hv : vs[e.slot]? = some v)
    (hm : Spread c ks vs us ws m) :
    Spread c (ks.set e.slot .null) (vs.set e.slot .null) (us.set slot e.key) (ws.set slot v) m := by
  obtain ⟨hkey, hlive, -, y, hy, -, habsent⟩ := hr.left e List.mem_cons_self
  rw [hx, Option.some_inj] at hy
  subst hy
  obtain ⟨old, hold, hdead, -⟩ := hf.free habsent
  have hlt := (List.getElem?_eq_some_iff.mp hold).1
  have hlt' : slot < ws.length := hr.hashed.paired ▸ hlt
  intro y p
  rw [hm y p]
  constructor
  · rintro (⟨i, hk, hklive, hy, hp⟩ | ⟨i, hk, hklive, hy, hp⟩)
    · by_cases hi : i = e.slot
      · rw [hi, hkey, Option.some_inj] at hk
        rw [hi, hv, Option.some_inj] at hp
        exact .inr ⟨slot, by rw [List.getElem?_set_self hlt, hk], hklive, hy,
          by rw [List.getElem?_set_self hlt', hp]⟩
      · have hne := Ne.symm hi
        exact .inl ⟨i, by rwa [List.getElem?_set_ne hne], hklive, hy,
          by rwa [List.getElem?_set_ne hne]⟩
    · have hne : slot ≠ i := fun heq => by
        rw [← heq, hold, Option.some_inj] at hk
        rw [← hk, hdead] at hklive
        cases hklive
      exact .inr ⟨i, by rwa [List.getElem?_set_ne hne], hklive, hy,
        by rwa [List.getElem?_set_ne hne]⟩
  · rintro (⟨i, hk, hklive, hy, hp⟩ | ⟨i, hk, hklive, hy, hp⟩)
    · rcases getElem?_set_some hk with ⟨-, heq⟩ | ⟨hne, hk⟩
      · rw [heq] at hklive
        cases hklive
      · rw [List.getElem?_set_ne (Ne.symm hne)] at hp
        exact .inl ⟨i, hk, hklive, hy, hp⟩
    · rcases getElem?_set_some hk with ⟨rfl, heq⟩ | ⟨hne, hk⟩
      · rw [List.getElem?_set_self hlt', Option.some_inj] at hp
        exact .inl ⟨e.slot, by rw [hkey, heq], hklive, hy, by rw [hv, hp]⟩
      · rw [List.getElem?_set_ne (Ne.symm hne)] at hp
        exact .inr ⟨i, hk, hklive, hy, hp⟩

theorem finish {n m : Nat} (hr : Rehash c ks₀ vs₀ [] ks vs us ws) (ht : Tabled c n m ks₀ vs₀) :
    Dead ks ∧ Dead vs ∧ Tabled c n n us ws ∧
      ∀ q, q.isLive = true → us.count q = ks₀.count q ∧ ws.count q = vs₀.count q := by
  have hdead : ∀ {xs : List Reference}, (∀ {i : Nat} {k : Reference}, xs[i]? = some k →
      k.isLive = true → ∃ e ∈ ([] : List Entry), e.slot = i) → Dead xs := by
    intro xs h q hq
    obtain ⟨i, hi⟩ := List.mem_iff_getElem?.mp hq
    by_contra hlive
    obtain ⟨e, he, -⟩ := h hi (by simpa using hlive)
    exact List.not_mem_nil he
  have hks := hdead hr.keysLeft
  have hvs := hdead hr.valuesLeft
  have hkeys : ∀ q, q.isLive = true → us.count q = ks₀.count q := fun q hq => by
    rw [← hr.keyCount q hq, Store.count_of_dead hq hks, Nat.add_zero]
  have hsize : us.countP (·.isLive) = n := by
    rw [← ht.size_eq, List.countP_eq_length_filter, List.countP_eq_length_filter]
    refine List.Perm.length_eq (List.perm_iff_count.mpr fun q => ?_)
    by_cases hq : q.isLive = true
    · rw [List.count_filter hq, List.count_filter hq, hkeys q hq]
    · rw [List.count_eq_zero.mpr, List.count_eq_zero.mpr] <;>
        exact fun hmem => hq (List.mem_filter.mp hmem).2
  refine ⟨hks, hvs, ⟨hr.hashed, hsize, ?_⟩, fun q hq => ⟨hkeys q hq, ?_⟩⟩
  · rw [← hsize]
    refine List.countP_congr fun k hk => ?_
    rcases hr.clean k hk with hlive | rfl
    · have hnull : k.isNull = false := by
        rw [Reference.isNull, beq_eq_false_iff_ne]
        rintro rfl
        cases hlive
      simp [hlive, hnull]
    · decide
  · rw [← hr.valueCount q hq, Store.count_of_dead hq hvs, Nat.add_zero]

theorem start {n m room : Nat} (ht : Tabled c n m ks vs)
    (hleft : ∀ e ∈ entries, ks[e.slot]? = some e.key ∧ e.key.isLive = true ∧
      ∃ x, c e.key = some x ∧ x.hash? = some e.hash)
    (horder : entries.Pairwise fun e f => e.slot < f.slot)
    (hall : ∀ {i : Nat} {k : Reference}, ks[i]? = some k → k.isLive = true →
      ∃ e ∈ entries, e.slot = i) :
    Rehash c ks vs entries ks vs (.replicate room .null) (.replicate room .null) := by
  have hblank := blank_replicate room
  have hvalue : ∀ {i : Nat} {k : Reference}, ks[i]? = some k → ∃ v, vs[i]? = some v := by
    intro i k hk
    have hlt := (List.getElem?_eq_some_iff.mp hk).1
    have hpaired := ht.paired
    exact ⟨_, List.getElem?_eq_getElem (by omega)⟩
  refine ⟨.of_blank hblank hblank (by simp), fun k hk => .inr (hblank k hk), fun e he => ?_,
    horder.imp_of_mem fun {e f} he hf hlt => ⟨by omega, fun heq => ?_⟩, hall,
    fun {i v} hv hvlive => ?_, fun q hq => ?_, fun q hq => ?_⟩
  · obtain ⟨hk, hlive, x, hx, hn⟩ := hleft e he
    obtain ⟨v, hv⟩ := hvalue hk
    refine ⟨hk, hlive, ⟨v, hv, ?_⟩, x, hx, hn, fun k hmem hklive => ?_⟩
    · rcases ht.entries hk hv with ⟨-, h⟩ | ⟨h | h, -⟩
      · exact h
      · rw [h] at hlive
        cases hlive
      · rw [h] at hlive
        cases hlive
    · rw [hblank.dead k hmem] at hklive
      cases hklive
  · obtain ⟨hke, hle, x, hx, -⟩ := hleft e he
    obtain ⟨hkf, hlf, y, hy, -⟩ := hleft f hf
    rw [hx, hy, Option.some_inj] at heq
    have hslot := ht.distinct hke hkf hle hlf (heq ▸ hx) hy
    omega
  · have hlt := (List.getElem?_eq_some_iff.mp hv).1
    have hpaired := ht.paired
    have hk := List.getElem?_eq_getElem (l := ks) (i := i) (by omega)
    rcases ht.entries hk hv with ⟨h, -⟩ | ⟨-, h⟩
    · exact hall hk h
    · rw [h] at hvlive
      cases hvlive
  · rw [Store.count_of_dead hq hblank.dead, Nat.zero_add]
  · rw [Store.count_of_dead hq hblank.dead, Nat.zero_add]

end Rehash

namespace Heap

variable {h h' : Heap} {s : Store} {f : Reference → Option Content} {n : Reference → Nat}
  {keys : Reference} {parts : DictParts}

theorem Stored.entriesFrom_eq_ok (hs : h.Stored s) (hkeys : s.content keys = some (.array ks))
    {index count : Nat} (hend : index + count = ks.length)
    (hentries : h.entriesFrom keys index count = .ok (.ok entries)) :
    (∀ e ∈ entries, index ≤ e.slot ∧ ks[e.slot]? = some e.key ∧ e.key.isLive = true ∧
      ∃ x, s.content e.key = some x ∧ x.hash? = some e.hash) ∧
    (entries.Pairwise fun e f => e.slot < f.slot) ∧
    ∀ {i : Nat} {k : Reference}, index ≤ i → ks[i]? = some k → k.isLive = true →
      ∃ e ∈ entries, e.slot = i := by
  induction count generalizing index entries with
  | zero =>
    cases hentries
    refine ⟨nofun, .nil, fun {i k} hi hk _ => ?_⟩
    have hlt := (List.getElem?_eq_some_iff.mp hk).1
    omega
  | succ count ih =>
    obtain ⟨key, hkey⟩ : ∃ key, ks[index]? = some key :=
      ⟨_, List.getElem?_eq_getElem (by omega)⟩
    have hget : h.arrayGet keys index = .ok key := hs.arrayGet_eq_ok.mpr ⟨ks, hkeys, hkey⟩
    have hstep : (if key.isLive then do
        let hash ← h.hash key
        return ⟨index, key, hash⟩ :: (← h.entriesFrom keys (index + 1) count)
        else h.entriesFrom keys (index + 1) count : Query Failure (List Entry)) =
          .ok (.ok entries) := by
      rw [← hentries, entriesFrom, hget]
      rfl
    have hpast : ∀ {i : Nat}, index ≤ i → i ≠ index → index + 1 ≤ i := fun hle hne => by omega
    by_cases hlive : key.isLive = true
    · rw [if_pos hlive] at hstep
      obtain ⟨hash, hhash, hrest⟩ := query_eq_ok.mp hstep
      obtain ⟨tail, htail, hcons⟩ := query_eq_ok.mp hrest
      cases hcons
      obtain ⟨hleft, horder, hall⟩ := ih (by omega) htail
      obtain ⟨x, hx, hn⟩ := hs.hash_eq_ok.mp hhash
      refine ⟨fun e he => ?_, .cons (fun e he => (hleft e he).1) horder,
        fun {i k} hi hk hklive => ?_⟩
      · rcases List.mem_cons.mp he with rfl | he
        · exact ⟨Nat.le_refl _, hkey, hlive, x, hx, hn⟩
        · obtain ⟨hle, hrest⟩ := hleft e he
          exact ⟨by omega, hrest⟩
      · by_cases hne : i = index
        · exact ⟨_, List.mem_cons_self, hne.symm⟩
        · obtain ⟨e, he, hslot⟩ := hall (hpast hi hne) hk hklive
          exact ⟨e, List.mem_cons_of_mem _ he, hslot⟩
    · rw [if_neg hlive] at hstep
      obtain ⟨hleft, horder, hall⟩ := ih (by omega) hstep
      refine ⟨fun e he => ?_, horder, fun {i k} hi hk hklive => ?_⟩
      · obtain ⟨hle, hrest⟩ := hleft e he
        exact ⟨by omega, hrest⟩
      · refine hall (hpast hi fun hne => hlive ?_) hk hklive
        rw [hne, hkey, Option.some_inj] at hk
        rwa [hk]

theorem Stored.entriesFrom_answers (hs : h.Stored s) (hkeys : s.content keys = some (.array ks))
    (hhash : ∀ k ∈ ks, k.isLive = true → ∃ x n, s.content k = some x ∧ x.hash? = some n)
    {index count : Nat} (hend : index + count = ks.length) :
    ∃ entries, h.entriesFrom keys index count = .ok (.ok entries) := by
  induction count generalizing index with
  | zero => exact ⟨[], rfl⟩
  | succ count ih =>
    obtain ⟨key, hkey⟩ : ∃ key, ks[index]? = some key :=
      ⟨_, List.getElem?_eq_getElem (by omega)⟩
    have hget : h.arrayGet keys index = .ok key := hs.arrayGet_eq_ok.mpr ⟨ks, hkeys, hkey⟩
    obtain ⟨rest, hrest⟩ : ∃ rest, h.entriesFrom keys (index + 1) count = .ok (.ok rest) :=
      ih (by omega)
    have hstep : h.entriesFrom keys index (count + 1) = (if key.isLive then do
        let hash ← h.hash key
        return ⟨index, key, hash⟩ :: (← h.entriesFrom keys (index + 1) count)
        else h.entriesFrom keys (index + 1) count : Query Failure (List Entry)) := by
      rw [entriesFrom, hget]
      rfl
    rw [hstep]
    by_cases hlive : key.isLive = true
    · obtain ⟨x, n, hx, hn⟩ := hhash key (List.mem_of_getElem? hkey) hlive
      rw [if_pos hlive]
      exact ⟨_, query_eq_ok.mpr ⟨n, hs.hash_eq hx hn, query_eq_ok.mpr ⟨rest, hrest, rfl⟩⟩⟩
    · rw [if_neg hlive]
      exact ⟨rest, hrest⟩

def tables (f : Reference → Option Content) (parts : DictParts) (keys values : Reference)
    (ks vs us ws : List Reference) : Reference → Option Content :=
  overwrite f [(parts.keys, some (.array ks)), (parts.values, some (.array vs)),
    (keys, some (.array us)), (values, some (.array ws))]

section Tables

variable {values : Reference} {xs : List Reference}
  (hnodup : [parts.keys, parts.values, keys, values].Nodup)

include hnodup

theorem tables_apply :
    tables f parts keys values ks vs us ws parts.keys = some (.array ks) ∧
      tables f parts keys values ks vs us ws parts.values = some (.array vs) ∧
        tables f parts keys values ks vs us ws keys = some (.array us) ∧
          tables f parts keys values ks vs us ws values = some (.array ws) := by
  simp only [List.nodup_cons, List.mem_cons, List.not_mem_nil, or_false] at hnodup
  simp only [tables, overwrite, Function.update_apply]
  grind

theorem tables_set :
    Function.update (tables f parts keys values ks vs us ws) parts.keys (some (.array xs)) =
      tables f parts keys values xs vs us ws ∧
    Function.update (tables f parts keys values ks vs us ws) parts.values (some (.array xs)) =
      tables f parts keys values ks xs us ws ∧
    Function.update (tables f parts keys values ks vs us ws) keys (some (.array xs)) =
      tables f parts keys values ks vs xs ws ∧
    Function.update (tables f parts keys values ks vs us ws) values (some (.array xs)) =
      tables f parts keys values ks vs us xs := by
  simp only [List.nodup_cons, List.mem_cons, List.not_mem_nil, or_false] at hnodup
  refine ⟨?_, ?_, ?_, ?_⟩ <;> funext q <;>
    simp only [tables, overwrite, Function.update_apply] <;> grind

section Entries

variable (hf : ∀ q ∈ [parts.keys, parts.values, keys, values], ∃ xs, f q = some (.array xs))
include hf

omit hnodup in
theorem tables_of_hash (hq : f q = some x) (hn : x.hash? = some hash) :
    tables f parts keys values ks vs us ws q = f q := by
  refine overwrite_of_not_mem fun hmem => ?_
  obtain ⟨xs, hxs⟩ := hf q hmem
  rw [hq, Option.some_inj] at hxs
  rw [hxs] at hn
  cases hn

theorem Tells.moveEntry_found (ht : h.Tells (tables f parts keys values ks vs us ws) n)
    (hr : Rehash f ks₀ vs₀ (e :: rest) ks vs us ws) (hx : f e.key = some x)
    (hn : x.hash? = some e.hash) (hfind : h.findKey keys e.hash e.key false = .ok o) :
    Found f x false us e.hash o := by
  obtain ⟨s, hs, hcontent, -⟩ := ht
  have hx' : s.content e.key = some x := by rw [hcontent, tables_of_hash hf hx hn, hx]
  obtain ⟨us', hus', hfound⟩ := hs.findKey_eq_ok hx' hn hfind
  rw [hcontent, (tables_apply hnodup).2.2.1] at hus'
  cases hus'
  refine hfound.congr fun k hk hlive => ?_
  obtain ⟨y, m, hy, hm⟩ := hr.hashed.hashable k hk hlive
  rw [hcontent, tables_of_hash hf hy hm]

theorem Tells.moveEntry (ht : h.Tells (tables f parts keys values ks vs us ws) n)
    (hr : Rehash f ks₀ vs₀ (e :: rest) ks vs us ws)
    (hm : h.moveEntry parts keys values e = .ok h') :
    ∃ ks' vs' slot ws', h'.Tells (tables f parts keys values ks' vs' (us.set slot e.key) ws') n ∧
      Rehash f ks₀ vs₀ rest ks' vs' (us.set slot e.key) ws' ∧
        ∀ m, Spread f ks vs us ws m → Spread f ks' vs' (us.set slot e.key) ws' m := by
  obtain ⟨-, -, -, x, hx, hn, -⟩ := hr.left e List.mem_cons_self
  simp only [Heap.moveEntry, bind_eq_ok] at hm
  obtain ⟨o, hfind, hm⟩ := hm
  have hfound := ht.moveEntry_found hnodup hf hr hx hn hfind
  cases o with
  | none => cases hm
  | some target =>
    simp only [bind_eq_ok] at hm
    obtain ⟨value, hget, h₁, hset, h₂, hset', h₃, hclear, hclear'⟩ := hm
    obtain ⟨vs', hvs', hv⟩ := ht.arrayGet hget
    rw [(tables_apply hnodup).2.1] at hvs'
    cases hvs'
    obtain ⟨us', hus', -, ht₁⟩ := ht.arraySet hset
    rw [(tables_apply hnodup).2.2.1] at hus'
    cases hus'
    rw [(tables_set hnodup).2.2.1] at ht₁
    obtain ⟨ws', hws', -, ht₂⟩ := ht₁.arraySet hset'
    rw [(tables_apply hnodup).2.2.2] at hws'
    cases hws'
    rw [(tables_set hnodup).2.2.2] at ht₂
    obtain ⟨ks', hks', -, ht₃⟩ := ht₂.arraySet hclear
    rw [(tables_apply hnodup).1] at hks'
    cases hks'
    rw [(tables_set hnodup).1] at ht₃
    obtain ⟨vs', hvs', -, ht₄⟩ := ht₃.arraySet hclear'
    rw [(tables_apply hnodup).2.1] at hvs'
    cases hvs'
    rw [(tables_set hnodup).2.1] at ht₄
    exact ⟨_, _, _, _, ht₄, hr.step hx hfound hv, fun m => hr.step_spread hx hfound hv⟩

theorem Tells.moveEntries (ht : h.Tells (tables f parts keys values ks vs us ws) n)
    (hr : Rehash f ks₀ vs₀ entries ks vs us ws)
    (hm : entries.foldlM (Heap.moveEntry · parts keys values ·) h = .ok h') :
    ∃ ks' vs' us' ws', h'.Tells (tables f parts keys values ks' vs' us' ws') n ∧
      Rehash f ks₀ vs₀ [] ks' vs' us' ws' ∧ us'.length = us.length ∧
        ∀ m, Spread f ks vs us ws m → Spread f ks' vs' us' ws' m := by
  induction entries generalizing h ks vs us ws with
  | nil =>
    cases hm
    exact ⟨ks, vs, us, ws, ht, hr, rfl, fun _ => id⟩
  | cons e rest ih =>
    simp only [List.foldlM_cons, bind_eq_ok] at hm
    obtain ⟨h₁, hmove, hrest⟩ := hm
    obtain ⟨ks₁, vs₁, slot, ws₁, ht₁, hr₁, hspread⟩ := ht.moveEntry hnodup hf hr hmove
    obtain ⟨ks₂, vs₂, us₂, ws₂, ht₂, hr₂, hlength, hspread'⟩ := ih ht₁ hr₁ hrest
    exact ⟨ks₂, vs₂, us₂, ws₂, ht₂, hr₂, hlength.trans List.length_set,
      fun m hm => hspread' m (hspread m hm)⟩

end Entries

end Tables

end Heap
end CountedHeap
