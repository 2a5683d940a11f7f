import CountedHeap.Proofs.Ledger
import Mathlib.Data.Finset.Card

/-!
Hash tables as maps. Keys are told apart by their contents alone; a table maps the contents of a key
to the reference that the key was stored with and to the value beside it.
-/

namespace CountedHeap

/-- The key as it was first stored, and the value. -/
abbrev Mapping := Content → Option (Reference × Reference)

namespace Mapping

def empty : Mapping := fun _ => none

/-- A key that is there already is kept. -/
def set (m : Mapping) (x : Content) (key value : Reference) : Mapping :=
  Function.update m x (some (((m x).map Prod.fst).getD key, value))

def erase (m : Mapping) (x : Content) : Mapping := Function.update m x none

def put (c : Reference → Option Content) (m : Mapping) (pair : Reference × Reference) : Mapping :=
  (c pair.1).elim m fun x => m.set x pair.1 pair.2

/-- A later pair gives its value to an earlier key that is equal. -/
def ofPairs (c : Reference → Option Content) (pairs : List (Reference × Reference)) : Mapping :=
  pairs.foldl (put c) empty

def HasSize (m : Mapping) (n : Nat) : Prop :=
  ∃ keys : Finset Content, keys.card = n ∧ ∀ x, x ∈ keys ↔ (m x).isSome = true

variable {m : Mapping} {x y : Content} {key value : Reference} {e : Reference × Reference}

theorem set_eq_some : m.set x key value y = some e ↔
    (y = x ∧ (((m x).map Prod.fst).getD key, value) = e) ∨ (y ≠ x ∧ m y = some e) := by
  by_cases hy : y = x
  · subst hy
    simp [set]
  · simp [set, hy]

theorem erase_eq_some : m.erase x y = some e ↔ y ≠ x ∧ m y = some e := by
  by_cases hy : y = x
  · subst hy
    simp [erase]
  · simp [erase, hy]

theorem HasSize.unique {n n' : Nat} (h : m.HasSize n) (h' : m.HasSize n') : n = n' := by
  obtain ⟨keys, rfl, hkeys⟩ := h
  obtain ⟨keys', rfl, hkeys'⟩ := h'
  exact congrArg Finset.card (Finset.ext fun x => (hkeys x).trans (hkeys' x).symm)

theorem HasSize.set {n : Nat} (h : m.HasSize n) (hx : m x = none) :
    (m.set x key value).HasSize (n + 1) := by
  classical
  obtain ⟨keys, rfl, hkeys⟩ := h
  have hnot : x ∉ keys := fun hmem => by
    rw [hkeys, hx] at hmem
    cases hmem
  refine ⟨insert x keys, Finset.card_insert_of_notMem hnot, fun y => ?_⟩
  rw [Finset.mem_insert, hkeys, Mapping.set, Function.update_apply]
  split_ifs with hy <;> simp [hy]

end Mapping

def Mapped (c : Reference → Option Content) (keys values : List Reference) (x : Content)
    (e : Reference × Reference) : Prop :=
  ∃ i : Nat, keys[i]? = some e.1 ∧ e.1.isLive = true ∧ c e.1 = some x ∧ values[i]? = some e.2

def Tables (c : Reference → Option Content) (keys values : List Reference) (m : Mapping) : Prop :=
  ∀ x e, m x = some e ↔ Mapped c keys values x e

variable {c c' : Reference → Option Content} {keys values : List Reference} {m : Mapping}
  {x y : Content} {e e' : Reference × Reference} {key value old : Reference} {i n occupied : Nat}

theorem Mapped.congr (hc : ∀ k ∈ keys, k.isLive = true → c' k = c k) :
    Mapped c' keys values x e ↔ Mapped c keys values x e := by
  refine exists_congr fun i => and_congr_right fun hk => and_congr_right fun hlive => ?_
  rw [hc _ (List.mem_of_getElem? hk) hlive]

theorem Mapped.unique (ht : Hashed c keys values) (h : Mapped c keys values x e)
    (h' : Mapped c keys values x e') : e = e' := by
  obtain ⟨i, hk, hlive, hx, hv⟩ := h
  obtain ⟨j, hk', hlive', hx', hv'⟩ := h'
  obtain rfl := ht.distinct hk hk' hlive hlive' hx hx'
  rw [hk, Option.some_inj] at hk'
  rw [hv, Option.some_inj] at hv'
  exact Prod.ext hk' hv'

theorem Hashed.exists_mapping (ht : Hashed c keys values) : ∃ m, Tables c keys values m := by
  classical
  refine ⟨fun x => if h : ∃ e, Mapped c keys values x e then some h.choose else none,
    fun x e => ?_⟩
  by_cases hex : ∃ e, Mapped c keys values x e
  · simp only [hex, dif_pos, Option.some_inj]
    exact ⟨fun h => h ▸ hex.choose_spec, fun h => hex.choose_spec.unique ht h⟩
  · simp only [hex, dif_neg, not_false_eq_true, reduceCtorEq, false_iff]
    exact fun h => hex ⟨e, h⟩

namespace Tables

theorem congr (h : Tables c keys values m) (hc : ∀ k ∈ keys, k.isLive = true → c' k = c k) :
    Tables c' keys values m := fun x e => (h x e).trans (Mapped.congr hc).symm

theorem of_dead (hk : Dead keys) : Tables c keys values .empty := by
  refine fun x e => ⟨nofun, ?_⟩
  rintro ⟨i, hi, hlive, -⟩
  rw [hk _ (List.mem_of_getElem? hi)] at hlive
  cases hlive

theorem eq_none (h : Tables c keys values m) (habsent : Absent c keys x) : m x = none := by
  refine Option.eq_none_iff_forall_ne_some.mpr fun e he => ?_
  obtain ⟨i, hi, hlive, hx, -⟩ := (h x e).mp he
  exact habsent _ (List.mem_of_getElem? hi) hlive hx

theorem mapped_set_iff {p q : Reference} (hother : ∀ k, keys[i]? = some k → k.isLive = true →
    c k ≠ some y) (hp : p.isLive = true → c p ≠ some y) :
    Mapped c (keys.set i p) (values.set i q) y e ↔ Mapped c keys values y e := by
  constructor
  · rintro ⟨j, hk, hlive, hy, hv⟩
    rcases getElem?_set_some hk with ⟨rfl, heq⟩ | ⟨hj, hk⟩
    · exact absurd (heq ▸ hy) (hp (heq ▸ hlive))
    · rw [List.getElem?_set_ne (Ne.symm hj)] at hv
      exact ⟨j, hk, hlive, hy, hv⟩
  · rintro ⟨j, hk, hlive, hy, hv⟩
    have hj : i ≠ j := fun heq => hother _ (heq ▸ hk) hlive hy
    exact ⟨j, by rwa [List.getElem?_set_ne hj], hlive, hy, by rwa [List.getElem?_set_ne hj]⟩

theorem put (h : Tables c keys values m) (ht : Hashed c keys values) (hx : c key = some x)
    (hlive : key.isLive = true) (habsent : Absent c keys x) (hi : keys[i]? = some old)
    (hdead : old.isLive = false) :
    Tables c (keys.set i key) (values.set i value) (m.set x key value) := by
  have hlt := (List.getElem?_eq_some_iff.mp hi).1
  have hlt' : i < values.length := ht.paired ▸ hlt
  intro y e
  rw [Mapping.set_eq_some, h.eq_none habsent]
  by_cases hy : y = x
  · subst hy
    simp only [ne_eq, not_true_eq_false, false_and, or_false, true_and, Option.map_none,
      Option.getD_none]
    constructor
    · rintro rfl
      exact ⟨i, List.getElem?_set_self hlt, hlive, hx, List.getElem?_set_self hlt'⟩
    · rintro ⟨j, hk, hklive, hy, hv⟩
      rcases getElem?_set_some hk with ⟨rfl, hkey⟩ | ⟨-, hk⟩
      · rw [List.getElem?_set_self hlt', Option.some_inj] at hv
        exact Prod.ext hkey.symm hv
      · exact absurd hy (habsent _ (List.mem_of_getElem? hk) hklive)
  · simp only [hy, false_and, false_or, ne_eq, not_false_eq_true, true_and]
    rw [h y e, mapped_set_iff]
    · intro k hk hklive
      rw [hi, Option.some_inj] at hk
      rw [← hk, hdead] at hklive
      cases hklive
    · rw [hx, ne_eq, Option.some_inj]
      exact fun _ heq => hy heq.symm

theorem putValue (h : Tables c keys values m) (ht : Hashed c keys values)
    (hk : keys[i]? = some key) (hlive : key.isLive = true) (hx : c key = some x)
    (other : Reference) : Tables c keys (values.set i value) (m.set x other value) := by
  have hlt : i < values.length := ht.paired ▸ (List.getElem?_eq_some_iff.mp hk).1
  have hself : keys.set i key = keys := by
    rw [← (List.getElem?_eq_some_iff.mp hk).2, List.set_getElem_self]
  have hmx : m x = some (key, values[i]) :=
    (h x _).mpr ⟨i, hk, hlive, hx, List.getElem?_eq_getElem hlt⟩
  intro y e
  rw [Mapping.set_eq_some, hmx]
  by_cases hy : y = x
  · subst hy
    simp only [ne_eq, not_true_eq_false, false_and, or_false, true_and, Option.map_some,
      Option.getD_some]
    constructor
    · rintro rfl
      exact ⟨i, hk, hlive, hx, List.getElem?_set_self hlt⟩
    · rintro ⟨j, hkj, hjlive, hy, hv⟩
      obtain rfl := ht.distinct hk hkj hlive hjlive hx hy
      rw [hk, Option.some_inj] at hkj
      rw [List.getElem?_set_self hlt, Option.some_inj] at hv
      exact Prod.ext hkj hv
  · simp only [hy, false_and, false_or, ne_eq, not_false_eq_true, true_and]
    have hne : c key ≠ some y := by
      rw [hx, ne_eq, Option.some_inj]
      exact fun heq => hy heq.symm
    conv_rhs => rw [← hself]
    rw [h y e, mapped_set_iff (fun k hk' _ => ?_) fun _ => hne]
    rw [hk, Option.some_inj] at hk'
    exact hk' ▸ hne

theorem bury (h : Tables c keys values m) (ht : Hashed c keys values) (hk : keys[i]? = some key)
    (hlive : key.isLive = true) (hx : c key = some x) :
    Tables c (keys.set i .tombstone) (values.set i .null) (m.erase x) := by
  intro y e
  rw [Mapping.erase_eq_some]
  by_cases hy : y = x
  · subst hy
    simp only [ne_eq, not_true_eq_false, false_and, false_iff]
    rintro ⟨j, hkj, hjlive, hy, -⟩
    rcases getElem?_set_some hkj with ⟨-, heq⟩ | ⟨hj, hkj⟩
    · rw [heq] at hjlive
      cases hjlive
    · exact hj (ht.distinct hkj hk hjlive hlive hy hx)
  · simp only [hy, ne_eq, not_false_eq_true, true_and]
    rw [h y e, mapped_set_iff]
    · intro k hk' _
      rw [hk, Option.some_inj] at hk'
      rw [← hk', hx, ne_eq, Option.some_inj]
      exact fun heq => hy heq.symm
    · exact fun h => by cases h

theorem size (h : Tables c keys values m) (ht : Tabled c n occupied keys values) :
    m.HasSize n := by
  have hcontent : ∀ k ∈ keys, k.isLive = true → c k = some ((c k).getD .none) := by
    intro k hk hlive
    obtain ⟨x, -, hx, -⟩ := ht.hashable k hk hlive
    rw [hx, Option.getD_some]
  have hnodup : ((keys.filter (·.isLive)).map fun k => (c k).getD .none).Nodup := by
    refine List.pairwise_map.mpr (List.pairwise_filter.mpr ?_)
    refine List.pairwise_iff_getElem.mpr fun i j hi hj hlt hlive hlive' heq => ?_
    have hx := hcontent _ (List.getElem_mem hi) hlive
    have hy := hcontent _ (List.getElem_mem hj) hlive'
    exact Nat.ne_of_lt hlt (ht.distinct (List.getElem?_eq_getElem hi)
      (List.getElem?_eq_getElem hj) hlive hlive' hx (heq ▸ hy))
  refine ⟨List.toFinset _, List.toFinset_card_of_nodup hnodup |>.trans ?_, fun x => ?_⟩
  · rw [List.length_map, ← List.countP_eq_length_filter, ht.size_eq]
  · rw [List.mem_toFinset, List.mem_map, Option.isSome_iff_exists]
    constructor
    · rintro ⟨k, hk, rfl⟩
      obtain ⟨hk, hlive⟩ := List.mem_filter.mp hk
      obtain ⟨i, hi⟩ := List.mem_iff_getElem?.mp hk
      have hlt : i < values.length := ht.paired ▸ (List.getElem?_eq_some_iff.mp hi).1
      exact ⟨(k, values[i]),
        (h _ _).mpr ⟨i, hi, hlive, hcontent k hk hlive, List.getElem?_eq_getElem hlt⟩⟩
    · rintro ⟨e, he⟩
      obtain ⟨i, hi, hlive, hx, -⟩ := (h x e).mp he
      exact ⟨e.1, List.mem_filter.mpr ⟨List.mem_of_getElem? hi, hlive⟩, by rw [hx]; rfl⟩

end Tables

namespace Store

variable {s s' : Store} {arrays owned arrays' owned' : List Reference} {d k v : Reference}
  {o : Nat}

def Maps (s : Store) (d : Reference) (m : Mapping) : Prop :=
  ∃ n o k v ks vs, s.content d = some (.dict n o k v) ∧ s.content k = some (.array ks) ∧
    s.content v = some (.array vs) ∧ Tables s.content ks vs m

theorem Ledger.exists_mapping (hl : s.Ledger arrays owned)
    (hd : s.content d = some (.dict n o k v)) : ∃ m, s.Maps d m := by
  obtain ⟨ks, vs, hk, hv, htabled⟩ := hl.dicts hd
  obtain ⟨m, hm⟩ := htabled.exists_mapping
  exact ⟨m, n, o, k, v, ks, vs, hd, hk, hv, hm⟩

theorem Maps.tables (hm : s.Maps d m) (hd : s.content d = some (.dict n o k v))
    (hk : s.content k = some (.array keys)) (hv : s.content v = some (.array values)) :
    Tables s.content keys values m := by
  obtain ⟨n', o', k', v', ks, vs, hd', hk', hv', ht⟩ := hm
  rw [hd] at hd'
  cases hd'
  rw [hk] at hk'
  cases hk'
  rw [hv] at hv'
  cases hv'
  exact ht

theorem Maps.hashable (hm : s.Maps d m) (hl : s.Ledger arrays owned) (he : m x = some e) :
    ∃ hash, x.hash? = some hash := by
  obtain ⟨n, o, k, v, ks, vs, hd, hk, hv, ht⟩ := hm
  obtain ⟨i, hi, hlive, hkey, -⟩ := (ht x e).mp he
  obtain ⟨y, hash, hy, hn⟩ := (hl.tabled hd hk hv).hashable _ (List.mem_of_getElem? hi) hlive
  rw [hkey, Option.some_inj] at hy
  exact ⟨hash, hy ▸ hn⟩

theorem Maps.size (hm : s.Maps d m) (hl : s.Ledger arrays owned)
    (hd : s.content d = some (.dict n o k v)) : m.HasSize n := by
  obtain ⟨ks, vs, hk, hv, htabled⟩ := hl.dicts hd
  exact (hm.tables hd hk hv).size htabled

theorem Maps.congr (hm : s.Maps d m) (hcontent : s'.content = s.content) : s'.Maps d m := by
  simpa only [Maps, hcontent] using hm

theorem content_of_hash {q : Reference} {hash : UInt64}
    {changes : List (Reference × Option Content)} (hx : s.content q = some x)
    (hn : x.hash? = some hash) (hcontent : s'.content = overwrite s.content changes)
    (hchanges : ∀ p ∈ changes.map Prod.fst, ∃ y, s.content p = some y ∧ y.hash? = none) :
    s'.content q = s.content q := by
  rw [hcontent, overwrite_of_not_mem fun hmem => ?_]
  obtain ⟨y, hy, hnone⟩ := hchanges q hmem
  rw [hx, Option.some_inj] at hy
  rw [← hy, hn] at hnone
  cases hnone

theorem Maps.of_tables {c : Reference → Option Content} (hd : s.content d = some (.dict n o k v))
    (hk : s.content k = some (.array keys)) (hv : s.content v = some (.array values))
    (ht : Tables c keys values m)
    (hkeys : ∀ q ∈ keys, q.isLive = true → s.content q = c q) : s.Maps d m :=
  ⟨n, o, k, v, keys, values, hd, hk, hv, ht.congr hkeys⟩

theorem Ledger.maps_of_slots {n' o' : Nat} {ks vs : List Reference} (hl : s.Ledger arrays owned)
    (hd : s.content d = some (.dict n o k v)) (hk : s.content k = some (.array ks))
    (hv : s.content v = some (.array vs))
    (hcontent : s'.content = overwrite s.content [(d, some (.dict n' o' k v)),
      (k, some (.array keys)), (v, some (.array values))]) (ht : Tables s.content keys values m)
    (hkeys : ∀ q ∈ keys, q.isLive = true →
      ∃ y hash, s.content q = some y ∧ y.hash? = some hash) : s'.Maps d m := by
  have hnodup : [d, k, v].Nodup := by
    simp [ne_of_content hd hk (by simp), ne_of_content hd hv (by simp), hl.keys_ne_values hd hk]
  have hself {p : Reference} {y : Option Content} (hp : (p, y) ∈ [(d, some (.dict n' o' k v)),
      (k, some (.array keys)), (v, some (.array values))]) : s'.content p = y := by
    rw [hcontent]
    exact overwrite_of_mem (by exact hnodup) hp
  have hd' : s'.content d = some (.dict n' o' k v) := hself (by simp)
  refine .of_tables hd' (hself (by simp)) (hself (by simp)) ht fun q hq hlive => ?_
  obtain ⟨y, hash, hy, hn⟩ := hkeys q hq hlive
  exact content_of_hash hy hn hcontent (by simp [hd, hk, hv, Content.hash?])

theorem Maps.carry (hm : s.Maps d m) (hl : s.Ledger arrays owned) (hl' : s'.Ledger arrays' owned')
    (hself : s'.content d = s.content d)
    (htables : ∀ {n o k v}, s.content d = some (.dict n o k v) →
      s'.content k = s.content k ∧ s'.content v = s.content v)
    (hscalars : ∀ {q x y}, s.content q = some x → x.hash? ≠ none → s'.content q = some y →
      x = y) : s'.Maps d m := by
  obtain ⟨n, o, k, v, ks, vs, hd, hk, hv, ht⟩ := hm
  obtain ⟨hk', hv'⟩ := htables hd
  rw [← hself] at hd
  rw [← hk'] at hk
  rw [← hv'] at hv
  refine ⟨n, o, k, v, ks, vs, hd, hk, hv, ht.congr fun q hq hlive => ?_⟩
  obtain ⟨y, -, hy, -⟩ := (hl'.tabled hd hk hv).hashable q hq hlive
  obtain ⟨x, hash, hx, hn⟩ := (hl.tabled (hself ▸ hd) (hk' ▸ hk) (hv' ▸ hv)).hashable q hq hlive
  rw [hx, hy, hscalars hx (by rw [hn]; exact Option.some_ne_none _) hy]

theorem Maps.less (hm : s.Maps d m) (hl : s.Ledger arrays owned) (hl' : s'.Ledger arrays' owned')
    (hless : s.Fewer s') (hd : ∃ x, s'.content d = some x) : s'.Maps d m := by
  obtain ⟨x, hx⟩ := hd
  have hself : s'.content d = s.content d := by rw [hx, hless _ _ hx]
  refine hm.carry hl hl' hself (fun {n o k v} hd => ?_) fun hx _ hy => ?_
  · obtain ⟨ks, vs, hk, hv, -⟩ := hl'.dicts (hself ▸ hd)
    exact ⟨by rw [hk, hless _ _ hk], by rw [hv, hless _ _ hv]⟩
  · rw [hless _ _ hy, Option.some_inj] at hx
    exact hx.symm

/-- What one map becomes, each map becomes that the dict stands for. -/
def Remaps (s s' : Store) (d : Reference) (f : Mapping → Mapping) : Prop :=
  ∀ m, s.Maps d m → s'.Maps d (f m)

theorem Remaps.refl (s : Store) (d : Reference) : s.Remaps s d id := fun _ hm => hm

theorem Remaps.trans {s'' : Store} {f g : Mapping → Mapping} (h : s.Remaps s' d f)
    (h' : s'.Remaps s'' d g) : s.Remaps s'' d fun m => g (f m) := fun m hm => h' _ (h m hm)

end Store

end CountedHeap
