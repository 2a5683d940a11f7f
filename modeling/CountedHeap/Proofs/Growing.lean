import CountedHeap.Proofs.DictAnswering
import CountedHeap.Proofs.Meanings
import Mathlib.Data.Nat.ModEq

/-!
Tables with room to grow. A search looks at each slot of a table once at most, so it comes to an
end in any table, be it without slots or full of keys and tombstones. Where it finds no slot for a
new key the table grows, and after that it has an empty slot: the keys that moved are fewer than
the slots that they moved to. So no entry is without a slot on the way, and none of the limits that
growth may run into is its own.
-/

namespace CountedHeap

def circuit (capacity start : Nat) : List Nat :=
  (List.range capacity).map fun i => (start + i) % capacity

theorem nodup_circuit (capacity start : Nat) : (circuit capacity start).Nodup := by
  refine List.nodup_range.map_on fun i hi j hj hij => ?_
  rw [List.mem_range] at hi hj
  have hmod : i ≡ j [MOD capacity] := Nat.ModEq.add_left_cancel' start hij
  rwa [Nat.ModEq, Nat.mod_eq_of_lt hi, Nat.mod_eq_of_lt hj] at hmod

theorem mem_circuit {capacity start slot : Nat} (hslot : slot < capacity) :
    slot ∈ circuit capacity start := by
  obtain ⟨i, hi, hwrap⟩ := Heap.Stored.exists_wrap (Nat.mod_lt start (by omega)) hslot
  exact List.mem_map.mpr ⟨i, List.mem_range.mpr hi, by rwa [Nat.mod_add_mod] at hwrap⟩

theorem takeWhile_append_find? {α : Type} (p : α → Bool) (l : List α) :
    l.takeWhile (!p ·) ++ (l.find? p).toList <+: l := by
  induction l with
  | nil => exact List.nil_prefix
  | cons a l ih => cases ha : p a <;> simp [ha, ih]

section Tables

variable {c : Reference → Option Content} {ks vs us ws : List Reference} {n : Nat}

theorem Hashed.nodup_pairs (ht : Hashed c ks vs) :
    ((ks.zip vs).filter (·.1.isLive)).Nodup := by
  refine List.pairwise_filter.mpr (List.pairwise_iff_getElem.mpr ?_)
  intro i j hi hj hlt hlive _ heq
  have hik : i < ks.length := by rw [List.length_zip] at hi; omega
  have hjk : j < ks.length := by rw [List.length_zip] at hj; omega
  rw [List.getElem_zip] at hlive
  rw [List.getElem_zip, List.getElem_zip, Prod.mk.injEq] at heq
  obtain ⟨x, m, hx, -⟩ := ht.hashable ks[i] (List.getElem_mem hik) hlive
  have hij := ht.distinct (List.getElem?_eq_getElem hik) (List.getElem?_eq_getElem hjk) hlive
    (heq.1 ▸ hlive) hx (heq.1 ▸ hx)
  omega

theorem Hashed.perm_pairs (ht : Hashed c ks vs) (ht' : Hashed c us ws)
    (htables : ∀ m, Tables c ks vs m → Tables c us ws m) :
    ((us.zip ws).filter (·.1.isLive)).Perm ((ks.zip vs).filter (·.1.isLive)) := by
  obtain ⟨m, hm⟩ := ht.exists_mapping
  have hm' := htables m hm
  refine (List.perm_ext_iff_of_nodup ht'.nodup_pairs ht.nodup_pairs).mpr fun e => ?_
  rw [Heap.mem_pairs, Heap.mem_pairs]
  constructor
  · rintro ⟨i, hk, hlive, hv⟩
    obtain ⟨x, -, hx, -⟩ := ht'.hashable e.1 (List.mem_of_getElem? hk) hlive
    obtain ⟨j, hk', -, -, hv'⟩ := (hm x e).mp ((hm' x e).mpr ⟨i, hk, hlive, hx, hv⟩)
    exact ⟨j, hk', hlive, hv'⟩
  · rintro ⟨i, hk, hlive, hv⟩
    obtain ⟨x, -, hx, -⟩ := ht.hashable e.1 (List.mem_of_getElem? hk) hlive
    obtain ⟨j, hk', -, -, hv'⟩ := (hm' x e).mp ((hm x e).mpr ⟨i, hk, hlive, hx, hv⟩)
    exact ⟨j, hk', hlive, hv'⟩

theorem Tabled.no_tombstone (ht : Tabled c n n ks vs) : .tombstone ∉ ks := by
  intro hmem
  have hall : ∀ q ∈ ks.filter (!·.isNull), q.isLive = true := by
    refine List.countP_eq_length.mp ?_
    have hlive : (fun q : Reference => q.isLive && !q.isNull) = fun q => q.isLive := by
      funext q
      by_cases hnull : q.isNull = true
      · rw [beq_iff_eq.mp hnull]
        rfl
      · simp [hnull]
    rw [List.countP_filter, hlive, ht.size_eq, ← List.countP_eq_length_filter, ht.occupied_eq]
  cases hall .tombstone (List.mem_filter.mpr ⟨hmem, rfl⟩)

end Tables

namespace Heap

def halts (h : Heap) (key : Reference) (skip : Bool) (q : Reference) : Bool :=
  if q.isTombstone then !skip else q.isNull || (h.equal key q).toOption == some true

/-- What a search comes to in a table of these keys: the slots from that of the hash on, up to the
first at which it stops, and that one. -/
def search (h : Heap) (ks : List Reference) (hash : UInt64) (key : Reference) (skip : Bool) :
    List Nat × Option Nat :=
  let slots := circuit ks.length (hash.toNat % ks.length)
  let stops := fun slot => (ks[slot]?).any (h.halts key skip)
  (slots.takeWhile (!stops ·) ++ (slots.find? stops).toList, slots.find? stops)

def probing (h : Heap) (same : Reference → Except Fault Bool) (keys : Slots) (start : Nat)
    (skip : Bool) (index : Nat) : Nat → Except Fault (List Nat × Option Nat)
  | 0 => return ([], none)
  | count + 1 => do
      let slot := (start + index) % keys.capacity
      let key ← keys.get h.memory slot
      let stop ← if key.isTombstone then pure !skip
        else if key.isNull then pure true
        else same key
      if stop then return ([slot], some slot)
      let (seen, o) ← h.probing same keys start skip (index + 1) count
      return (slot :: seen, o)

/-- The same search as `findKey`, with the slots that it has looked at. -/
def finding (h : Heap) (keys : Reference) (hash : UInt64) (key : Reference) (skip : Bool) :
    Except Fault (List Nat × Option Nat) := do
  let slots ← h.slots keys
  if slots.capacity = 0 then return ([], none)
  h.probing (h.equal key) slots (hash.toNat % slots.capacity) skip 0 slots.capacity

theorem probe_eq_probing (h : Heap) (same : Reference → Except Fault Bool) (keys : Slots)
    (start : Nat) (skip : Bool) (index count : Nat) :
    h.probe same keys start skip index count =
      Prod.snd <$> h.probing same keys start skip index count := by
  induction count generalizing index with
  | zero => rfl
  | succ count ih =>
    simp only [probe, probing, ih, map_bind]
    refine bind_congr fun q => ?_
    split_ifs
    all_goals
      rw [map_bind]
      refine bind_congr fun stop => ?_
      cases stop
      · cases h.probing same keys start skip (index + 1) count <;> rfl
      · rfl

theorem findKey_eq_finding (h : Heap) (keys : Reference) (hash : UInt64) (key : Reference)
    (skip : Bool) : h.findKey keys hash key skip = Prod.snd <$> h.finding keys hash key skip := by
  rw [findKey, findKeyBy, finding, map_bind]
  refine bind_congr fun slots => ?_
  rw [probe_eq_probing]
  split_ifs <;> rfl

variable {h : Heap} {s : Store} {table key q : Reference} {ks : List Reference} {x : Content}
  {hash : UInt64} {skip : Bool} {d : Cell}

theorem Stored.stops_eq (hs : h.Stored s) (hx : s.content key = some x) (hn : x.hash? = some hash)
    (hq : Legible s.content q) :
    (if q.isTombstone then pure !skip
      else if q.isNull then pure true else h.equal key q : Except Fault Bool) =
        .ok (h.halts key skip q) := by
  obtain ⟨stop, hstop⟩ : ∃ stop, (if q.isTombstone then pure !skip
      else if q.isNull then pure true else h.equal key q : Except Fault Bool) = .ok stop :=
    hs.stops_answers hx hn hq
  rw [hstop]
  split_ifs at hstop with htomb hnull
  · cases hstop
    rw [halts, if_pos htomb]
  · cases hstop
    rw [halts, if_neg htomb, hnull, Bool.true_or]
  · rw [halts, if_neg htomb, Bool.eq_false_of_not_eq_true hnull, Bool.false_or, hstop]
    cases stop <;> rfl

theorem Stored.probing_eq (hs : h.Stored s) (hx : s.content key = some x)
    (hn : x.hash? = some hash) (hks : ∀ q ∈ ks, Legible s.content q) (hd : s table = some d)
    (harray : d.content = .array ks) (hsome : 0 < ks.length) {start index count : Nat} :
    h.probing (h.equal key) ⟨d.addr, ks.length⟩ start skip index count =
      let slots := (List.range' index count).map fun i => (start + i) % ks.length
      let stops := fun slot => (ks[slot]?).any (h.halts key skip)
      .ok (slots.takeWhile (!stops ·) ++ (slots.find? stops).toList, slots.find? stops) := by
  induction count generalizing index with
  | zero => rfl
  | succ count ih =>
    have hlt : (start + index) % ks.length < ks.length := Nat.mod_lt _ hsome
    have hget : Slots.get ⟨d.addr, ks.length⟩ h.memory ((start + index) % ks.length) =
        .ok ks[(start + index) % ks.length] := by
      rw [memory_eq, hs.slotsGet_eq hd harray, List.getElem?_eq_getElem hlt]
    have hstep : h.probing (h.equal key) ⟨d.addr, ks.length⟩ start skip index (count + 1) =
        (if ks[(start + index) % ks.length].isTombstone then pure !skip
          else if ks[(start + index) % ks.length].isNull then pure true
          else h.equal key ks[(start + index) % ks.length] : Except Fault Bool) >>= fun stop =>
            if stop then pure ([(start + index) % ks.length], some ((start + index) % ks.length))
            else do
              let (seen, o) ←
                h.probing (h.equal key) ⟨d.addr, ks.length⟩ start skip (index + 1) count
              return ((start + index) % ks.length :: seen, o) := by
      rw [probing, hget, ok_bind]
      split_ifs <;> rfl
    rw [hstep, hs.stops_eq hx hn (hks _ (List.getElem_mem hlt)), ok_bind, ih, List.range'_succ,
      List.map_cons]
    have hget? : ks[(start + index) % ks.length]? = some ks[(start + index) % ks.length] :=
      List.getElem?_eq_getElem hlt
    cases hhalts : h.halts key skip ks[(start + index) % ks.length] <;>
      simp [hget?, hhalts]

theorem Stored.finding_eq (hs : h.Stored s) (hx : s.content key = some x) {n : UInt64}
    (hn : x.hash? = some n) (hks : ∀ q ∈ ks, Legible s.content q)
    (htable : s.content table = some (.array ks)) :
    h.finding table hash key skip = .ok (h.search ks hash key skip) := by
  obtain ⟨d, hd, harray⟩ := Store.content_eq_some.mp htable
  have hslots : h.slots table = .ok ⟨d.addr, ks.length⟩ :=
    hs.slots_eq_ok.mpr ⟨d, ks, hd, harray, rfl⟩
  rw [finding, hslots, ok_bind]
  split_ifs with hempty
  · have hnil : circuit ks.length (hash.toNat % ks.length) = [] := by
      rw [circuit, show ks.length = 0 from hempty]
      rfl
    rw [search, hnil]
    rfl
  · rw [hs.probing_eq hx hn hks hd harray (Nat.pos_of_ne_zero hempty), search, circuit,
      List.range_eq_range']

theorem nodup_search : (h.search ks hash key skip).1.Nodup :=
  (nodup_circuit ..).sublist (takeWhile_append_find? ..).sublist

theorem search_of_null (hnull : .null ∈ ks) :
    ∃ slot, (h.search ks hash key false).2 = some slot := by
  obtain ⟨slot, hlt, hslot⟩ := List.mem_iff_getElem.mp hnull
  refine Option.isSome_iff_exists.mp (List.find?_isSome.mpr ⟨slot, mem_circuit hlt, ?_⟩)
  rw [List.getElem?_eq_getElem hlt, hslot]
  rfl

/-- A dict stands on two tables of its own, which have the shape of those of a dict. -/
structure StandsOn (h : Heap) (dict : Reference) (parts : DictParts) (ks vs : List Reference) :
    Prop where
  standing : h.dictParts dict = .ok parts
  ne : parts.keys ≠ parts.values
  keys : h.contents parts.keys = .ok (.array ks)
  oneKeys : h.refcount parts.keys = .ok 1
  values : h.contents parts.values = .ok (.array vs)
  oneValues : h.refcount parts.values = .ok 1
  shape : h.DictShape parts.size parts.occupied ks vs

/-- A dict has moved to tables with so much room. The entries are the same, though not in the same
slots; no slot is taken up by anything else, and the old tables are gone. -/
structure Resized (h h' : Heap) (dict : Reference) (parts : DictParts) (room : Nat) : Prop where
  tables : ∃ keys values us ws,
    h'.StandsOn dict { size := parts.size, occupied := parts.size, keys, values } us ws ∧
      us.length = room ∧ ws.length = room ∧ .tombstone ∉ us
  entries : ∃ es es', h.pairs dict = .ok es ∧ h'.pairs dict = .ok es' ∧ es'.Perm es
  refcount : ∀ q, h.Occupied q → q ≠ parts.keys → q ≠ parts.values → h'.refcount q = h.refcount q
  others : ∀ q, h.Occupied q → q ≠ dict → q ≠ parts.keys → q ≠ parts.values →
    h'.contents q = h.contents q
  gone : ¬h'.Occupied parts.keys ∧ ¬h'.Occupied parts.values

/-- What the search for a key in a dict with these keys comes to, and what becomes of the search for
a slot and of the tables when there is none. -/
structure FindsRoom (h : Heap) (dict : Reference) (parts : DictParts) (ks : List Reference)
    (key : Reference) (hash : UInt64) : Prop where
  looks : ∀ skip, h.finding parts.keys hash key skip = .ok (h.search ks hash key skip)
  once : ∀ skip, (h.search ks hash key skip).1.Nodup
  atOnce : ∀ slot, h.findKey parts.keys hash key false = .ok (some slot) →
    ∀ attempts, (slotFor dict hash key (attempts + 1)).runOn h = .ok (.ok (parts, slot), h)
  full : h.findKey parts.keys hash key false = .ok none → ∀ attempts,
    match (dictGrow dict).runOn h with
    | .ok (.ok (), h') => ∃ parts' slot, h'.dictParts dict = .ok parts' ∧
        h'.findKey parts'.keys hash key false = .ok (some slot) ∧
          (slotFor dict hash key (attempts + 2)).runOn h = .ok (.ok (parts', slot), h')
    | .ok (.error e, h') => (slotFor dict hash key (attempts + 2)).runOn h = .ok (.error e, h')
    | .error f => (slotFor dict hash key (attempts + 2)).runOn h = .error f
  grows : ∀ h', (dictGrow dict).runOn h = .ok (.ok (), h') →
    h.Resized h' dict parts (max (2 * ks.length) h.config.dictMinCapacity)
  succeeds : ∀ keys values h₁ h₂, let room := max (2 * ks.length) h.config.dictMinCapacity
    (makeArray room).runOn h = .ok (.ok keys, h₁) →
      (makeArray room).runOn h₁ = .ok (.ok values, h₂) →
        ∃ h', (dictGrow dict).runOn h = .ok (.ok (), h')
  refuses : ∀ e h', (dictGrow dict).runOn h = .ok (.error e, h') → (∃ m, e = .outOfMemory m) ∧
    ∀ q, h.Occupied q → h'.refcount q = h.refcount q ∧ h'.contents q = h.contents q
  faults : ∀ f, (dictGrow dict).runOn h = .error f → f.IsLimit

variable {s' : Store} {h' : Heap} {dict : Reference} {parts : DictParts} {vs : List Reference}

section Standing

theorem StandsOn.onTables (hon : h.StandsOn dict parts ks vs) (hs : h.Stored s) :
    OnTables s dict parts ks vs := by
  have hk := hs.contents_eq_ok.mp hon.keys
  have hv := hs.contents_eq_ok.mp hon.values
  exact ⟨hs.dictParts_eq_ok.mp hon.standing, hk, hv, hon.ne, hs.tabled_of_dictShape hon.shape,
    Except.ok.inj ((hs.refcount_of_content hk).symm.trans hon.oneKeys),
    Except.ok.inj ((hs.refcount_of_content hv).symm.trans hon.oneValues)⟩

theorem OnTables.standsOn (hd : OnTables s dict parts ks vs) (hs : h.Stored s)
    (hshown : ∀ q ∈ ks ++ vs, q.isLive = true → h.Shows q) : h.StandsOn dict parts ks vs where
  standing := hs.dictParts_eq_ok.mpr hd.dict
  ne := hd.ne
  keys := hs.contents_eq_ok.mpr hd.keys
  oneKeys := by rw [hs.refcount_of_content hd.keys, hd.oneKeys]
  values := hs.contents_eq_ok.mpr hd.values
  oneValues := by rw [hs.refcount_of_content hd.values, hd.oneValues]
  shape := hs.dictShape_of_shown hd.tabled hshown

theorem Shaped.standsOn (hshaped : h.Shaped) (hs : h.Stored s)
    (hparts : h.dictParts dict = .ok parts) : ∃ ks vs, h.StandsOn dict parts ks vs := by
  obtain ⟨hne, ks, vs, hk, hv, hshape⟩ :=
    hshaped.dicts (hs.contents_eq_ok.mpr (hs.dictParts_eq_ok.mp hparts))
  exact ⟨ks, vs, hparts, hne, hk.contents, hk.refcount, hv.contents, hv.refcount, hshape⟩

theorem Regrown.onTables {s₁ : Store} {keys values : Reference} {room : Nat}
    {us ws : List Reference}
    (hr : Regrown s s' dict parts.size parts.keys parts.values keys values ks vs us ws)
    (hd : OnTables s dict parts ks vs) (hnew : NewTables s s₁ room keys values)
    (hcount : s'.count = Function.update (Function.update s₁.count parts.keys 0) parts.values 0) :
    OnTables s' dict { size := parts.size, occupied := parts.size, keys, values } us ws := by
  obtain ⟨hdict, hk, hv⟩ := hr.standing
  obtain ⟨hkk, hkv, -⟩ := hnew.old hd.keys
  obtain ⟨hvk, hvv, -⟩ := hnew.old hd.values
  refine ⟨hdict, hk, hv, hnew.ne, hr.tabled.congr fun q hq hlive => ?_, ?_, ?_⟩
  · obtain ⟨x, m, hx, hm⟩ := hr.tabled.hashable q hq hlive
    rw [hr.others_key hd.dict hd.keys hd.values hx (by simp [hm]), hx]
  · rw [hcount, Function.update_of_ne hvk.symm, Function.update_of_ne hkk.symm, hnew.count,
      Function.update_of_ne hnew.ne, Function.update_self]
  · rw [hcount, Function.update_of_ne hvv.symm, Function.update_of_ne hkv.symm, hnew.count,
      Function.update_self]

theorem Regrown.still {n o : Nat} {k v keys values q : Reference} {us ws : List Reference}
    {y : Content} (hr : Regrown s s' dict n k v keys values ks vs us ws)
    (hd : s.content dict = some (.dict n o k v)) (hq : s.content q = some y) (hk : q ≠ k)
    (hv : q ≠ v) : ∃ y', s'.content q = some y' ∧ y'.kind = y.kind := by
  by_cases hqd : q = dict
  · subst hqd
    cases hd.symm.trans hq
    exact ⟨_, hr.standing.1, rfl⟩
  · exact ⟨y, hr.others hq hqd hk hv, rfl⟩

theorem Regrown.shows {keys values q : Reference} {us ws : List Reference}
    (hr : Regrown s s' dict parts.size parts.keys parts.values keys values ks vs us ws)
    (hd : OnTables s dict parts ks vs) (hs : h.Stored s) (hs' : h'.Stored s')
    (hshows : h.Shows q) : h'.Shows q := by
  obtain ⟨k, hk, hkind⟩ := hshows
  obtain ⟨y, hy, rfl⟩ := hs.kindOf_eq_ok.mp hk
  obtain ⟨y', hy', hsame⟩ := hr.still hd.dict hy (Store.ne_of_content hy hd.keys fun h =>
    hkind (h ▸ rfl)) (Store.ne_of_content hy hd.values fun h => hkind (h ▸ rfl))
  exact ⟨y.kind, hs'.kindOf_eq_ok.mpr ⟨y', hy', hsame⟩, hkind⟩

theorem Regrown.resized {s₁ : Store} {keys values : Reference} {room : Nat}
    {us ws : List Reference} (hs : h.Sound s) (hs' : h'.Sound s')
    (hr : Regrown s s' dict parts.size parts.keys parts.values keys values ks vs us ws)
    (hd : OnTables s dict parts ks vs) (hnew : NewTables s s₁ room keys values)
    (hcount : s'.count = Function.update (Function.update s₁.count parts.keys 0) parts.values 0)
    (hlength : us.length = room) (hshown : ∀ q ∈ ks ++ vs, q.isLive = true → h.Shows q) :
    h.Resized h' dict parts room := by
  have hd' := hr.onTables hd hnew hcount
  have hgone : s'.content parts.keys = none ∧ s'.content parts.values = none := by
    have hnodup : (List.map Prod.fst [(dict,
      some (Content.dict parts.size parts.size keys values)), (parts.keys, none),
      (parts.values, none), (keys, some (.array us)), (values, some (.array ws))]).Nodup := hr.nodup
    rw [hr.content]
    exact ⟨overwrite_of_mem hnodup (e := (parts.keys, _)) (by simp),
      overwrite_of_mem hnodup (e := (parts.values, _)) (by simp)⟩
  refine ⟨⟨keys, values, us, ws, hd'.standsOn hs'.toStored fun q hq hlive => ?_, hlength,
    hd'.tabled.paired.trans hlength, hd'.tabled.no_tombstone⟩, ⟨_, _,
      hs.pairs_eq hd.dict hd.keys hd.values, hs'.pairs_eq hd'.dict hd'.keys hd'.values,
      hd.tabled.toHashed.perm_pairs hr.tabled.toHashed hr.tables⟩, fun q hq hk hv => ?_,
    fun q hq hqd hk hv => ?_, ?_⟩
  · refine hr.shows hd hs.toStored hs'.toStored (hshown q ?_ hlive)
    rw [List.mem_append] at hq ⊢
    exact hq.imp (hr.mem_old hlive).1.mp (hr.mem_old hlive).2.mp
  · obtain ⟨y, hy⟩ := hs.occupied_iff_content.mp hq
    obtain ⟨y', hy', -⟩ := hr.still hd.dict hy hk hv
    have hqk := Store.ne_of_none hy hnew.unused.1
    have hqv := Store.ne_of_none hy hnew.unused.2
    rw [hs.refcount_of_content hy, hs'.refcount_of_content hy',
      hr.count q (by simp [hk, hv, hqk, hqv])]
  · obtain ⟨y, hy⟩ := hs.occupied_iff_content.mp hq
    rw [hs.contents_eq_ok.mpr hy, hs'.contents_eq_ok.mpr (hr.others hy hqd hk hv)]
  · rw [hs'.occupied_iff_content, hs'.occupied_iff_content, hgone.1, hgone.2]
    exact ⟨nofun, nofun⟩

end Standing

section Finding

variable (hs : h.Sound s) (hd : OnTables s dict parts ks vs) (hx : s.content key = some x)
  (hn : x.hash? = some hash)
include hs hd hx hn

theorem OnTables.finding_eq :
    h.finding parts.keys hash key skip = .ok (h.search ks hash key skip) :=
  hs.finding_eq hx hn (fun _ hq => hd.tabled.toHashed.legible hq) hd.keys

theorem OnTables.findKey_eq :
    h.findKey parts.keys hash key skip = .ok (h.search ks hash key skip).2 := by
  rw [findKey_eq_finding, hd.finding_eq hs hx hn]
  rfl

omit hx hn in
theorem OnTables.slotFor_found {slot : Nat}
    (hfind : h.findKey parts.keys hash key false = .ok (some slot)) (attempts : Nat) :
    (slotFor dict hash key (attempts + 1)).runOn h = .ok (.ok (parts, slot), h) := by
  have hparts : h.dictParts dict = .ok parts := hs.dictParts_eq_ok.mpr hd.dict
  rw [slotFor, Action.runOn_bind_ok (Action.runOn_read hparts),
    Action.runOn_bind_ok (Action.runOn_read hfind)]
  rfl

omit hx hn in
theorem OnTables.slotFor_full (hfind : h.findKey parts.keys hash key false = .ok none)
    (attempts : Nat) : (slotFor dict hash key (attempts + 1)).runOn h =
      (dictGrow dict >>= fun _ => slotFor dict hash key attempts).runOn h := by
  have hparts : h.dictParts dict = .ok parts := hs.dictParts_eq_ok.mpr hd.dict
  rw [slotFor, Action.runOn_bind_ok (Action.runOn_read hparts),
    Action.runOn_bind_ok (Action.runOn_read hfind)]

end Finding

/-- In any tables a search comes to an end, and a slot is found after they have grown once. -/
theorem StandsOn.findsRoom (hon : h.StandsOn dict parts ks vs) (hc : h.Consistent)
    (hmin : h.config.dictMinCapacity ≠ 0) (hkey : h.hash key = .ok (.ok hash)) :
    h.FindsRoom dict parts ks key hash := by
  obtain ⟨s, hs⟩ := hc
  obtain ⟨x, hx, hn⟩ := hs.hash_eq_ok.mp hkey
  have hd := hon.onTables hs.toStored
  have hgrows := dictGrow_rebuilds hs hd
  refine ⟨fun skip => hd.finding_eq hs hx hn, fun skip => nodup_search, fun slot hfind =>
    hd.slotFor_found hs hfind, fun hfind attempts => ?_, fun h' hrun => ?_,
    fun keys values h₁ h₂ => ?_, fun e h' hrun => ?_, hd.grow_faults hs (makeTables_faults hs)⟩
  · rw [hd.slotFor_full hs hfind, Action.runOn_bind]
    cases hrun : (dictGrow dict).runOn h with
    | error f => rfl
    | ok r =>
      obtain ⟨e | ⟨⟩, h'⟩ := r
      · rfl
      · obtain ⟨s₁, s', keys, values, us, ws, hs', hnew, hcount, hlength, hr⟩ := hgrows.good hrun
        have hd' := hr.onTables hd hnew hcount
        have hx' := hr.others_key hd.dict hd.keys hd.values hx (by simp [hn])
        obtain ⟨slot, hslot⟩ : ∃ slot, (h'.search us hash key false).2 = some slot :=
          search_of_null (hr.roomy hd.tabled hmin hlength)
        have hfind' := (hd'.findKey_eq hs' hx' hn).trans (congrArg Except.ok hslot)
        exact ⟨_, slot, hs'.dictParts_eq_ok.mpr hd'.dict, hfind', hd'.slotFor_found hs' hfind' _⟩
  · obtain ⟨s₁, s', keys, values, us, ws, hs', hnew, hcount, hlength, hr⟩ := hgrows.good hrun
    rw [Nat.mul_comm]
    exact hr.resized hs hs' hd hnew hcount hlength hon.shape.shown
  · rw [Nat.mul_comm]
    exact hd.grow_answers hs
  · obtain ⟨⟨m, hm, -⟩, hs'⟩ := hgrows.bad hrun
    refine ⟨⟨m, hm⟩, fun q hq => ?_⟩
    obtain ⟨y, hy⟩ := hs.occupied_iff_content.mp hq
    rw [hs.refcount_of_content hy, hs'.refcount_of_content hy, hs.contents_eq_ok.mpr hy,
      hs'.contents_eq_ok.mpr hy]
    exact ⟨rfl, rfl⟩

end Heap

namespace Client

/-- A dict with two slots for which there is no room to grow, so it keeps both keys. One of them is
deleted and given up, which makes room. -/
def stunted : Option Client :=
  session allows { poolSize := 496, poison := false, dictMinCapacity := 1 } [.makeArray 2,
    .makeArray 2, .makeDict (.ofIndex 0) (.ofIndex 1), .makeBool false,
    .makeString (.replicate 71 65), .dictSet (.ofIndex 2) (.ofIndex 4) (.ofIndex 3),
    .dictSet (.ofIndex 2) (.ofIndex 3) (.ofIndex 3), .dictDelete (.ofIndex 2) (.ofIndex 4),
    .release (.ofIndex 4)]

/-- The tables of a dict after it has grown, if it does. -/
def grown (c : Client) (dict : Reference) : Except Fault (Option (Content × Content)) := do
  match ← (Heap.dictGrow dict).runOn c.heap with
  | (.ok (), h) =>
      let parts ← h.dictParts dict
      return some (← h.contents parts.keys, ← h.contents parts.values)
  | (.error _, _) => return none

theorem stunted_findsRoom : ∃ c parts vs, stunted = some c ∧
    c.heap.StandsOn (.ofIndex 2) parts [.tombstone, .ofIndex 3] vs ∧
      c.heap.FindsRoom (.ofIndex 2) parts [.tombstone, .ofIndex 3] (.ofIndex 3) 0 ∧
        c.heap.finding parts.keys 0 (.ofIndex 3) true = .ok ([0, 1], some 1) ∧
          c.grown (.ofIndex 2) = .ok (some (.array [.ofIndex 3, .null, .null, .null],
            .array [.ofIndex 3, .null, .null, .null])) := by
  have hall : (stunted.any fun c => c.heap.config.dictMinCapacity != 0 &&
      (c.heap.hash (.ofIndex 3)).run.toOption == some (.ok 0) &&
        ((c.grown (.ofIndex 2)).toOption ==
            some (some (.array [.ofIndex 3, .null, .null, .null],
              .array [.ofIndex 3, .null, .null, .null])) &&
          (c.heap.dictParts (.ofIndex 2)).toOption.any fun parts =>
            (c.heap.contents parts.keys).toOption == some (.array [.tombstone, .ofIndex 3]) &&
              (c.heap.finding parts.keys 0 (.ofIndex 3) true).toOption ==
                some ([0, 1], some 1))) = true := by
    decide +kernel
  obtain ⟨c, hc, hends⟩ := (Option.any_eq_true ..).mp hall
  simp only [Bool.and_eq_true, bne_iff_ne] at hends
  obtain ⟨⟨hmin, hkey⟩, hgrown, hdict⟩ := hends
  obtain ⟨parts, hparts, htables⟩ := (Option.any_eq_true ..).mp hdict
  obtain ⟨hkeys, hlooks⟩ := Bool.and_eq_true_iff.mp htables
  obtain ⟨s, hs, hl, -⟩ := (Run.session hc).accounted.balanced
  obtain ⟨ks, vs, hon⟩ := (hs.toStored.shaped hl).standsOn hs.toStored (toOption_eq_some.mp hparts)
  cases hon.keys.symm.trans (eq_ok_of_toOption hkeys)
  exact ⟨c, parts, vs, hc, hon, hon.findsRoom ⟨s, hs⟩ hmin (eq_ok_of_toOption hkey),
    eq_ok_of_toOption hlooks, eq_ok_of_toOption hgrown⟩

end Client
end CountedHeap
