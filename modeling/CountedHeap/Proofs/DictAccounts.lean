import CountedHeap.Proofs.Operations
import CountedHeap.Proofs.Rehashing

/-!
The ledger of dicts. A dict may change its tables while it takes a new key, so what is known of
the key and the value has to outlast that. In a dict that is being made up, a replaced value is
given up while the other pairs are still to come; what stood before the dict stands until it is
done.
-/

namespace CountedHeap

namespace Store.Ledger

variable {s s' : Store} {arrays owned : List Reference} {r k v key value old : Reference}
  {n o i : Nat} {ks vs : List Reference} {x : Content} {hash : UInt64}

theorem insertEntry (hl : s.Ledger arrays (value :: key :: owned))
    (hr : s.content r = some (.dict n o k v)) (hk : s.content k = some (.array ks))
    (hv : s.content v = some (.array vs)) (hx : s.content key = some x)
    (hn : x.hash? = some hash) (hlive : value.isLive = true) (habsent : Absent s.content ks x)
    (hway : Way ks hash i) (hi : ks[i]? = some old) (hdead : old.isLive = false)
    (hcontent : s'.content = overwrite s.content
      [(r, some (.dict (n + 1) (o + old.isNull.toNat) k v)), (k, some (.array (ks.set i key))),
        (v, some (.array (vs.set i value)))])
    (hcount : s'.count = s.count) : s'.Ledger arrays owned := by
  have htabled := hl.tabled hr hk hv
  have hlt := (List.getElem?_eq_some_iff.mp hi).1
  have hpaired := htabled.paired
  obtain ⟨w, hw⟩ : ∃ w, vs[i]? = some w := ⟨_, List.getElem?_eq_getElem (by omega)⟩
  have hwdead : w.isLive = false := by
    rcases htabled.entries hi hw with ⟨h, -⟩ | ⟨-, rfl⟩
    · rw [hdead] at h
      cases h
    · rfl
  refine hl.setDict hr hk hv hcontent hcount (fun q hq => ?_) (fun q hq => ?_)
    (htabled.put hx hn (hl.live hx) hlive habsent hway hi hdead)
    (fun q hq => hl.visible q (by simp [hq])) fun q hq => ?_
  · rcases List.mem_or_eq_of_mem_set hq with hq | rfl
    · exact hl.plain hk hq
    · exact hl.visible q (by simp)
  · rcases List.mem_or_eq_of_mem_set hq with hq | rfl
    · exact hl.plain hv hq
    · exact hl.visible q (by simp)
  · have hkeys := count_set_slot (v := key) (q := q) hi
    have hvalues := count_set_slot (v := value) (q := q) hw
    rw [count_singleton_of_dead hq hdead] at hkeys
    rw [count_singleton_of_dead hq hwdead] at hvalues
    rw [count_owner (r := value), count_owner (r := key)]
    omega

theorem replaceValue (hl : s.Ledger arrays (value :: owned))
    (hr : s.content r = some (.dict n o k v)) (hk : s.content k = some (.array ks))
    (hv : s.content v = some (.array vs)) (hkey : ks[i]? = some key) (hkeylive : key.isLive = true)
    (hi : vs[i]? = some old) (hlive : value.isLive = true)
    (hcontent : s'.content = Function.update s.content v (some (.array (vs.set i value))))
    (hcount : s'.count = s.count) : s'.Ledger arrays (old :: owned) := by
  have hself : s'.content = overwrite s.content [(r, some (.dict n o k v)), (k, some (.array ks)),
      (v, some (.array (vs.set i value)))] := by
    have hrk := ne_of_content hr hk (by simp)
    have hrv := ne_of_content hr hv (by simp)
    have hkv := hl.keys_ne_values hr hk
    rw [← hr, overwrite_self (by simp [hrk, hrv]), ← hk, overwrite_self (by simpa using hkv),
      hcontent]
    rfl
  refine hl.setDict hr hk hv hself hcount (fun q hq => hl.plain hk hq) (fun q hq => ?_)
    ((hl.tabled hr hk hv).putValue hkey hkeylive hlive) (fun q hq => ?_) fun q _ => ?_
  · rcases List.mem_or_eq_of_mem_set hq with hq | rfl
    · exact hl.plain hv hq
    · exact hl.visible q List.mem_cons_self
  · rcases List.mem_cons.mp hq with rfl | hq
    · exact hl.plain hv (List.mem_of_getElem? hi)
    · exact hl.visible q (List.mem_cons_of_mem _ hq)
  · have hslot := count_set_slot (v := value) (q := q) hi
    rw [count_owner (r := old), count_owner (r := value)]
    omega

theorem removeEntry (hl : s.Ledger arrays owned) (hr : s.content r = some (.dict (n + 1) o k v))
    (hk : s.content k = some (.array ks)) (hv : s.content v = some (.array vs))
    (hkey : ks[i]? = some key) (hlive : key.isLive = true) (hvalue : vs[i]? = some value)
    (hcontent : s'.content = overwrite s.content [(r, some (.dict n o k v)),
      (k, some (.array (ks.set i .tombstone))), (v, some (.array (vs.set i .null)))])
    (hcount : s'.count = s.count) : s'.Ledger arrays (key :: value :: owned) := by
  refine hl.setDict hr hk hv hcontent hcount (fun q hq => ?_) (fun q hq => ?_)
    ((hl.tabled hr hk hv).bury hkey hlive) (fun q hq => ?_) fun q hq => ?_
  · rcases List.mem_or_eq_of_mem_set hq with hq | rfl
    · exact hl.plain hk hq
    · exact hl.not_isArray rfl
  · rcases List.mem_or_eq_of_mem_set hq with hq | rfl
    · exact hl.plain hv hq
    · exact hl.not_isArray rfl
  · simp only [List.mem_cons] at hq
    rcases hq with rfl | rfl | hq
    · exact hl.plain hk (List.mem_of_getElem? hkey)
    · exact hl.plain hv (List.mem_of_getElem? hvalue)
    · exact hl.visible q hq
  · have hkeys := count_set_slot (v := .tombstone) (q := q) hkey
    have hvalues := count_set_slot (v := .null) (q := q) hvalue
    rw [count_singleton_of_dead hq isLive_tombstone] at hkeys
    rw [count_singleton_of_dead hq isLive_null] at hvalues
    rw [count_owner (r := key), count_owner (r := value)]
    omega

end Store.Ledger

namespace Heap

/-- A dict that may change in a heap that has a ledger: what has to stand is no part of it. -/
structure Editing (h : Heap) (s kept : Store) (arrays owned : List Reference) (dict : Reference) :
    Prop where
  sound : h.Sound s
  ledger : s.Ledger arrays owned
  fewer : s.Fewer kept
  unkept : kept.content dict = none
  tables : ∀ {n o : Nat} {k v : Reference}, s.content dict = some (.dict n o k v) →
    kept.content k = none ∧ kept.content v = none

structure Rebuilt (s s' : Store) (dict : Reference) : Prop where
  others : ∀ {q : Reference} {x : Content}, s.content q = some x → x.kind ≠ .array → q ≠ dict →
    s'.content q = some x
  keys : ∀ {n o : Nat} {k v : Reference} {ks : List Reference},
    s.content dict = some (.dict n o k v) → s.content k = some (.array ks) →
      ∃ o' k' v' us, s'.content dict = some (.dict n o' k' v') ∧ s'.content k' = some (.array us) ∧
        ∀ q ∈ us, q.isLive = true → q ∈ ks

variable {h h' : Heap} {s s' s'' kept : Store} {arrays owned : List Reference}
  {dict key value : Reference}

theorem Rebuilt.refl (s : Store) (dict : Reference) : Rebuilt s s dict :=
  ⟨fun hq _ _ => hq, fun hd hk => ⟨_, _, _, _, hd, hk, fun _ hq _ => hq⟩⟩

theorem Rebuilt.trans (h₁ : Rebuilt s s' dict) (h₂ : Rebuilt s' s'' dict) : Rebuilt s s'' dict := by
  refine ⟨fun hq hkind hne => h₂.others (h₁.others hq hkind hne) hkind hne, fun hd hk => ?_⟩
  obtain ⟨o₁, k₁, v₁, us₁, hd₁, hk₁, hsub₁⟩ := h₁.keys hd hk
  obtain ⟨o₂, k₂, v₂, us₂, hd₂, hk₂, hsub₂⟩ := h₂.keys hd₁ hk₁
  exact ⟨o₂, k₂, v₂, us₂, hd₂, hk₂, fun q hq hlive => hsub₁ q (hsub₂ q hq hlive) hlive⟩

theorem Rebuilt.seen {n o : Nat} {k v : Reference} (hr : Rebuilt s s' dict)
    (hl : s.Ledger arrays owned) (hd : s.content dict = some (.dict n o k v)) {q : Reference}
    (hq : Seen s q) : Seen s' q := by
  obtain ⟨x, hx, hkind⟩ := hq
  by_cases hne : q = dict
  · obtain ⟨ks, vs, hk, -⟩ := hl.dicts hd
    obtain ⟨o', k', v', us, hd', -⟩ := hr.keys hd hk
    exact ⟨.dict n o' k' v', hne ▸ hd', nofun⟩
  · exact ⟨x, hr.others hx hkind hne, hkind⟩

theorem Sound.editing {n o : Nat} {k v : Reference} (hs : h.Sound s) (hl : s.Ledger arrays owned)
    (hk : Anchored s kept owned) (hd : s.content dict = some (.dict n o k v)) :
    Editing h s kept arrays owned dict := by
  refine ⟨hs, hl, hk.fewer, hk.unkept hd rfl, fun hd' => ?_⟩
  obtain ⟨ks, vs, hks, hvs, -⟩ := hl.dicts hd'
  exact ⟨hk.unkept hks rfl, hk.unkept hvs rfl⟩

theorem content_tables {x y : Content} {keys values : Reference} (hne : keys ≠ values)
    (hcontent : s'.content = overwrite s.content [(keys, some x), (values, some y)]) :
    s'.content keys = some x ∧ s'.content values = some y := by
  rw [hcontent, overwrite, overwrite, Function.update_self, Function.update_of_ne hne.symm,
    Function.update_self]
  exact ⟨rfl, rfl⟩

/-- Two arrays with empty slots have come to a store. -/
structure NewTables (s s' : Store) (room : Nat) (keys values : Reference) : Prop where
  unused : s.content keys = none ∧ s.content values = none
  live : keys.isLive = true ∧ values.isLive = true
  ne : keys ≠ values
  content : s'.content = overwrite s.content [(keys, some (.array (.replicate room .null))),
    (values, some (.array (.replicate room .null)))]
  count : s'.count = Function.update (Function.update s.count keys 1) values 1

namespace NewTables

variable {room : Nat} {keys values : Reference} (hnew : NewTables s s' room keys values)
include hnew

theorem old {q : Reference} {x : Content} (hq : s.content q = some x) :
    q ≠ keys ∧ q ≠ values ∧ s'.content q = some x := by
  have hqk := Store.ne_of_none hq hnew.unused.1
  have hqv := Store.ne_of_none hq hnew.unused.2
  refine ⟨hqk, hqv, ?_⟩
  rw [hnew.content, overwrite_of_not_mem (by simp [hqk, hqv]), hq]

theorem count_of_ne {q : Reference} (hk : q ≠ keys) (hv : q ≠ values) :
    s'.count q = s.count q := by
  rw [hnew.count, Function.update_of_ne hv, Function.update_of_ne hk]

theorem ledger (hl : s.Ledger arrays owned) : s'.Ledger (values :: keys :: arrays) owned := by
  have hne := hnew.ne
  have hl₁ : (s.set keys ⟨0, 1, .array (.replicate room .null)⟩).Ledger (keys :: arrays) owned :=
    hl.makeArray hnew.unused.1 hnew.live.1 Store.content_set Store.count_set (blank_replicate _)
  refine hl₁.makeArray ?_ hnew.live.2 ?_ ?_ (blank_replicate room)
  · rw [Store.content_set_of_ne hne.symm, hnew.unused.2]
  · rw [hnew.content, Store.content_set, Function.update_comm hne]
    rfl
  · rw [hnew.count, Store.count_set]

end NewTables

theorem makeTables_lays (hs : h.Sound s) (room : Nat) :
    (makeTables room).Ends h (fun t h' => ∃ s', h'.Sound s' ∧ NewTables s s' room t.1 t.2)
      fun _ h' => h'.Sound s := by
  simp only [makeTables, Action.ends_bind, Action.ends_orUndo, Action.ends_pure]
  refine (hs.makeArray room).imp (fun keys h₁ hm => ?_) fun _ _ he => he ▸ hs
  obtain ⟨hnone, s₁, hs₁, hcontent₁, hcount₁⟩ := hm.tells
  have hkeys : s₁.content keys = some (.array (.replicate room .null)) := by
    rw [hcontent₁, Function.update_self]
  refine (hs₁.makeArray room).imp (fun values h₂ hm₂ => ?_) ?_
  · obtain ⟨hnone₂, s₂, hs₂, hcontent₂, hcount₂⟩ := hm₂.tells
    have hne : keys ≠ values := Store.ne_of_none hkeys hnone₂
    rw [hcontent₁, Function.update_of_ne hne.symm] at hnone₂
    refine ⟨s₂, hs₂, ⟨hnone, hnone₂⟩, ⟨hm.live, hm₂.live⟩, hne, ?_, by rw [hcount₂, hcount₁]⟩
    rw [hcontent₂, hcontent₁, Function.update_comm hne]
    rfl
  · rintro _ _ rfl h₂ hrel
    exact hm.releaseBlank (Store.held_of_dead (blank_replicate _).dead) hrel

theorem makeTables_ends (hs : h.Sound s) (hl : s.Ledger arrays owned) (room : Nat) :
    (makeTables room).Ends h
      (fun t h' => ∃ s', h'.Sound s' ∧ s'.Ledger (t.2 :: t.1 :: arrays) owned ∧
        s.content t.1 = none ∧ s.content t.2 = none ∧ t.1 ≠ t.2 ∧
          s'.content = overwrite s.content [(t.1, some (.array (.replicate room .null))),
            (t.2, some (.array (.replicate room .null)))] ∧
            ∀ q, q ≠ t.1 → q ≠ t.2 → s'.count q = s.count q)
      fun _ h' => h'.Sound s := by
  refine (makeTables_lays hs room).imp ?_ fun _ _ hs' => hs'
  rintro t h' ⟨s', hs', hnew⟩
  exact ⟨s', hs', hnew.ledger hl, hnew.unused.1, hnew.unused.2, hnew.ne, hnew.content,
    fun q => hnew.count_of_ne⟩

section Growing

variable {parts : DictParts} {keys values : Reference} {ks vs : List Reference} {room : Nat}
  {entries : List Entry} {f : Reference → Option Content} {n : Reference → Nat}

structure Rebuildable (f : Reference → Option Content) (n : Reference → Nat) (dict : Reference)
    (parts : DictParts) (keys values : Reference) (ks vs : List Reference) (room : Nat)
    (entries : List Entry) : Prop where
  nodup : [dict, parts.keys, parts.values, keys, values].Nodup
  standing : f dict = some (.dict parts.size parts.occupied parts.keys parts.values)
  oldKeys : f parts.keys = some (.array ks)
  oldValues : f parts.values = some (.array vs)
  newKeys : f keys = some (.array (.replicate room .null))
  newValues : f values = some (.array (.replicate room .null))
  tabled : Tabled f parts.size parts.occupied ks vs
  oneKeys : n parts.keys = 1
  oneValues : n parts.values = 1
  rehash : Rehash f ks vs entries ks vs (.replicate room .null) (.replicate room .null)

namespace Rebuildable

theorem tables_eq (hb : Rebuildable f n dict parts keys values ks vs room entries) :
    tables f parts keys values ks vs (.replicate room .null) (.replicate room .null) = f := by
  have hk := hb.oldKeys
  have hv := hb.oldValues
  have hk' := hb.newKeys
  have hv' := hb.newValues
  funext q
  simp only [tables, overwrite, Function.update_apply]
  split_ifs <;> simp_all

theorem all_arrays (hb : Rebuildable f n dict parts keys values ks vs room entries) :
    ∀ q ∈ [parts.keys, parts.values, keys, values], ∃ xs, f q = some (.array xs) := by
  intro q hq
  simp only [List.mem_cons, List.not_mem_nil, or_false] at hq
  rcases hq with rfl | rfl | rfl | rfl
  exacts [⟨_, hb.oldKeys⟩, ⟨_, hb.oldValues⟩, ⟨_, hb.newKeys⟩, ⟨_, hb.newValues⟩]

theorem dict_eq (hb : Rebuildable f n dict parts keys values ks vs room entries)
    {ks' vs' us ws : List Reference} : tables f parts keys values ks' vs' us ws dict =
      some (.dict parts.size parts.occupied parts.keys parts.values) :=
  (overwrite_of_not_mem (List.nodup_cons.mp hb.nodup).1).trans hb.standing

end Rebuildable

structure OnTables (s : Store) (dict : Reference) (parts : DictParts) (ks vs : List Reference) :
    Prop where
  dict : s.content dict = some (.dict parts.size parts.occupied parts.keys parts.values)
  keys : s.content parts.keys = some (.array ks)
  values : s.content parts.values = some (.array vs)
  ne : parts.keys ≠ parts.values
  tabled : Tabled s.content parts.size parts.occupied ks vs
  oneKeys : s.count parts.keys = 1
  oneValues : s.count parts.values = 1

theorem OnTables.of_ledger (hl : s.Ledger arrays owned)
    (hd : s.content dict = some (.dict parts.size parts.occupied parts.keys parts.values)) :
    ∃ ks vs, OnTables s dict parts ks vs := by
  obtain ⟨ks, vs, hk, hv, htabled⟩ := hl.dicts hd
  exact ⟨ks, vs, hd, hk, hv, hl.keys_ne_values hd hk, htabled, hl.count_eq_one hk,
    hl.count_eq_one hv⟩

theorem OnTables.rebuildable {s₁ : Store} (hd : OnTables s dict parts ks vs) (hs : h.Sound s)
    (hentries : h.entriesFrom parts.keys 0 ks.length = .ok (.ok entries))
    (hnew : NewTables s s₁ room keys values) :
    Rebuildable s₁.content s₁.count dict parts keys values ks vs room entries := by
  obtain ⟨hdk, hdv, hdict₁⟩ := hnew.old hd.dict
  obtain ⟨hkk, hkv, hks₁⟩ := hnew.old hd.keys
  obtain ⟨hvk, hvv, hvs₁⟩ := hnew.old hd.values
  obtain ⟨hleft, horder, hall⟩ := hs.entriesFrom_eq_ok hd.keys (Nat.zero_add _) hentries
  have htabled₁ : Tabled s₁.content parts.size parts.occupied ks vs :=
    hd.tabled.congr fun q hq hlive => by
      obtain ⟨x, -, hx, -⟩ := hd.tabled.hashable q hq hlive
      rw [(hnew.old hx).2.2, hx]
  have hleft₁ : ∀ e ∈ entries, ks[e.slot]? = some e.key ∧ e.key.isLive = true ∧
      ∃ x, s₁.content e.key = some x ∧ x.hash? = some e.hash := by
    intro e he
    obtain ⟨-, hk, hlive, x, hx, hn⟩ := hleft e he
    exact ⟨hk, hlive, x, (hnew.old hx).2.2, hn⟩
  obtain ⟨hus, hws⟩ := content_tables hnew.ne hnew.content
  refine ⟨?_, hdict₁, hks₁, hvs₁, hus, hws, htabled₁, ?_, ?_, .start htabled₁ hleft₁ horder
    fun hk hlive => hall (Nat.zero_le _) hk hlive⟩
  · simp [Store.ne_of_content hd.dict hd.keys (by simp), hdk, hdv, hd.ne, hkk, hkv, hvk, hvv,
      Store.ne_of_content hd.dict hd.values (by simp), hnew.ne]
  · rw [hnew.count_of_ne hkk hkv, hd.oneKeys]
  · rw [hnew.count_of_ne hvk hvv, hd.oneValues]

theorem Tells.rebuild (hb : Rebuildable f n dict parts keys values ks vs room entries)
    (ht : h.Tells f n) (hsize : parts.size < Word.limit) {h₁ h₂ h₃ h₄ h₅ : Heap}
    (hmove : entries.foldlM (Heap.moveEntry · parts keys values ·) h = .ok h₁)
    (hrel : h₁.release parts.keys = .ok h₂) (hrel' : h₂.release parts.values = .ok h₃)
    (hset : h₃.storeReference dict Layout.dictKeysOffset keys = .ok h₄)
    (hset' : h₄.storeReference dict Layout.dictValuesOffset values = .ok h₅)
    (hstore : h₅.storeField dict Layout.dictOccupiedOffset parts.size = .ok h') :
    ∃ us ws, Tabled f parts.size parts.size us ws ∧ us.length = room ∧
      (∀ q, q.isLive = true → us.count q = ks.count q ∧ ws.count q = vs.count q) ∧
        (∀ m, Tables f ks vs m → Tables f us ws m) ∧
          h'.Tells (overwrite f [(dict, some (.dict parts.size parts.size keys values)),
            (parts.keys, none), (parts.values, none), (keys, some (.array us)),
              (values, some (.array ws))])
          (Function.update (Function.update n parts.keys 0) parts.values 0) := by
  have hnodup := hb.nodup
  have hfour := (List.nodup_cons.mp hnodup).2
  rw [← hb.tables_eq] at ht
  obtain ⟨ks', vs', us, ws, ht₁, hr₁, hlength, hspread⟩ :=
    ht.moveEntries hfour hb.all_arrays hb.rehash hmove
  obtain ⟨hkdead, hvdead, htabled', hcount⟩ := hr₁.finish hb.tabled
  have hkget : tables f parts keys values ks' vs' us ws parts.keys = some (.array ks') :=
    (tables_apply hfour).1
  have hvget : tables f parts keys values ks' vs' us ws parts.values = some (.array vs') :=
    (tables_apply hfour).2.1
  simp only [List.nodup_cons, List.mem_cons, List.not_mem_nil, or_false, not_or] at hnodup
  obtain ⟨⟨hdk, hdv, -, -⟩, ⟨hkv, -⟩, -⟩ := hnodup
  have ht₂ := ht₁.releaseBlank hkget hb.oneKeys (Store.held_of_dead hkdead) hrel
  have ht₃ := ht₂.releaseBlank (by rw [Function.update_of_ne (Ne.symm hkv), hvget])
    (by rw [Function.update_of_ne (Ne.symm hkv), hb.oneValues]) (Store.held_of_dead hvdead) hrel'
  have ht₄ := ht₃.storeDictKeys
    (by rw [Function.update_of_ne hdv, Function.update_of_ne hdk, hb.dict_eq]) hset
  have ht₅ := ht₄.storeDictValues (Function.update_self ..) hset'
  have ht₆ := ht₅.storeDictOccupied (Function.update_self ..) hsize hstore
  refine ⟨us, ws, htabled', by rw [hlength, List.length_replicate], hcount, fun m hm => ?_, ?_⟩
  · have hstart : Spread f ks vs (.replicate room .null) (.replicate room .null) m :=
      (spread_dead_iff (blank_replicate room).dead).mpr hm
    exact (spread_dead_iff hkdead).mp (spread_comm.mp (hspread m hstart))
  · rw [Function.update_idem, Function.update_idem] at ht₆
    refine (congrArg (h'.Tells · _) ?_).mp ht₆
    funext q
    simp only [tables, overwrite, Function.update_apply]
    split_ifs <;> simp_all

end Growing

def Starved (s kept : Store) (arrays owned : List Reference) (dict : Reference)
    (f : Mapping → Mapping) (e : Failure) (h' : Heap) : Prop :=
  (∃ m, e = .outOfMemory m) ∧ ∃ s', Editing h' s' kept arrays owned dict ∧
    (s.Remaps s' dict id ∨ s.Remaps s' dict f)

/-- A dict with `n` entries has moved from its tables to new ones, and nothing else has changed. -/
structure Regrown (s s' : Store) (dict : Reference) (n : Nat) (k v keys values : Reference)
    (ks vs us ws : List Reference) : Prop where
  unused : s.content keys = none ∧ s.content values = none
  nodup : [dict, k, v, keys, values].Nodup
  content : s'.content = overwrite s.content [(dict, some (.dict n n keys values)), (k, none),
    (v, none), (keys, some (.array us)), (values, some (.array ws))]
  count : ∀ q, q ∉ [k, v, keys, values] → s'.count q = s.count q
  tabled : Tabled s.content n n us ws
  slots : ∀ q, q.isLive = true → us.count q = ks.count q ∧ ws.count q = vs.count q
  tables : ∀ m, Tables s.content ks vs m → Tables s.content us ws m

theorem dictGrow_rebuilds {parts : DictParts} {ks vs : List Reference} (hs : h.Sound s)
    (hd : OnTables s dict parts ks vs) :
    (dictGrow dict).Ends h
      (fun _ h' => ∃ s₁ s' keys values us ws, h'.Sound s' ∧
        NewTables s s₁ (max (ks.length * 2) h.config.dictMinCapacity) keys values ∧
          s'.count = Function.update (Function.update s₁.count parts.keys 0) parts.values 0 ∧
            us.length = max (ks.length * 2) h.config.dictMinCapacity ∧
              Regrown s s' dict parts.size parts.keys parts.values keys values ks vs us ws)
      fun e h' => (∃ m, e = .outOfMemory m ∧
        (makeTables (max (ks.length * 2) h.config.dictMinCapacity)).runOn h =
          .ok (.error m, h')) ∧ h'.Sound s := by
  simp only [dictGrow, Action.ends_bind, Action.ends_read, Action.ends_getFailure,
    Action.ends_liftFailure, Action.ends_ask, Action.ends_update, Action.ends_ofMemory,
    hs.dictParts_eq_ok, hs.arrayCapacity_eq_ok, Word.mul, Word.fit_eq_ok]
  rintro ⟨n, o, k, v⟩ hparts capacity ⟨ks', hks, rfl⟩ _ ⟨rfl, -⟩
  obtain ⟨n', o', k', v'⟩ := parts
  cases hd.dict.symm.trans hparts
  cases hd.keys.symm.trans hks
  obtain ⟨listed, hlisted⟩ := hs.entriesFrom_answers hks hd.tabled.hashable (Nat.zero_add _)
  refine ⟨fun entries hentries => ?_, fun e he => by rw [hlisted] at he; cases he⟩
  refine ((makeTables_lays hs _).and (Action.ends_runOn _ h)).imp ?_ fun e _ hb =>
    ⟨⟨e, rfl, hb.2⟩, hb.1⟩
  rintro ⟨keys, values⟩ h₁ ⟨⟨s₁, hs₁, hnew⟩, -⟩ h₂ hmove h₃ hrel h₄ hrel' h₅ hkeys h₆ hvalues h₇
    hoccupied
  have hb := hd.rebuildable hs hentries hnew
  obtain ⟨us, ws, htabled', hlength, hcount, htables, s', hs', hcontent', hcount'⟩ :=
    hs₁.tells.rebuild hb (hs.dictSize_lt hparts) hmove hrel hrel' hkeys hvalues hoccupied
  -- Keys are no arrays, so the new tables are not among them.
  have hsame : ∀ q ∈ ks, q.isLive = true → s₁.content q = s.content q := fun q hq hlive => by
    obtain ⟨x, -, hx, -⟩ := hd.tabled.hashable q hq hlive
    rw [(hnew.old hx).2.2, hx]
  have hsame' : ∀ q ∈ us, q.isLive = true → s.content q = s₁.content q := fun q hq hlive => by
    refine (hsame q ?_ hlive).symm
    rwa [← List.count_pos_iff, ← (hcount q hlive).1, List.count_pos_iff]
  refine ⟨s₁, s', keys, values, us, ws, hs', hnew, hcount', hlength, hnew.unused, hb.nodup, ?_,
    fun q hq => ?_, htabled'.congr hsame', hcount, fun m hm => (htables m (hm.congr hsame)).congr
      hsame'⟩
  · rw [hcontent', hnew.content]
    funext q
    simp only [overwrite, Function.update_apply]
    split_ifs <;> rfl
  · simp only [List.mem_cons, List.not_mem_nil, or_false, not_or] at hq
    obtain ⟨hqk, hqv, hqk', hqv'⟩ := hq
    rw [hcount', Function.update_of_ne hqv, Function.update_of_ne hqk,
      hnew.count_of_ne hqk' hqv']

namespace Regrown

variable {n o : Nat} {k v keys values : Reference} {ks vs us ws : List Reference}
  (hr : Regrown s s' dict n k v keys values ks vs us ws)

include hr

theorem standing : s'.content dict = some (.dict n n keys values) ∧
    s'.content keys = some (.array us) ∧ s'.content values = some (.array ws) := by
  have hnodup : (List.map Prod.fst [(dict, some (Content.dict n n keys values)), (k, none),
    (v, none), (keys, some (.array us)), (values, some (.array ws))]).Nodup := hr.nodup
  rw [hr.content]
  exact ⟨overwrite_of_mem hnodup (e := (dict, _)) (by simp),
    overwrite_of_mem hnodup (e := (keys, _)) (by simp),
    overwrite_of_mem hnodup (e := (values, _)) (by simp)⟩

theorem mem_old {q : Reference} (hlive : q.isLive = true) : (q ∈ us ↔ q ∈ ks) ∧
    (q ∈ ws ↔ q ∈ vs) := by
  obtain ⟨hk, hv⟩ := hr.slots q hlive
  rw [← List.count_pos_iff, ← List.count_pos_iff, ← List.count_pos_iff, ← List.count_pos_iff,
    hk, hv]
  exact ⟨.rfl, .rfl⟩

theorem others {q : Reference} {x : Content} (hq : s.content q = some x) (hd : q ≠ dict)
    (hk : q ≠ k) (hv : q ≠ v) : s'.content q = some x := by
  have hqk := Store.ne_of_none hq hr.unused.1
  have hqv := Store.ne_of_none hq hr.unused.2
  rw [hr.content, overwrite_of_not_mem (by simp [hd, hk, hv, hqk, hqv]), hq]

theorem others_key {q : Reference} {x : Content} (hd : s.content dict = some (.dict n o k v))
    (hk : s.content k = some (.array ks)) (hv : s.content v = some (.array vs))
    (hq : s.content q = some x) (hx : x.hash? ≠ none) : s'.content q = some x :=
  hr.others hq (Store.ne_of_content hq hd fun h => hx (h ▸ rfl))
    (Store.ne_of_content hq hk fun h => hx (h ▸ rfl))
    (Store.ne_of_content hq hv fun h => hx (h ▸ rfl))

end Regrown

theorem Regrown.ledger {s₁ : Store} {parts : DictParts} {keys values : Reference} {room : Nat}
    {ks vs us ws : List Reference}
    (hr : Regrown s s' dict parts.size parts.keys parts.values keys values ks vs us ws)
    (hd : OnTables s dict parts ks vs) (hl : s.Ledger arrays owned)
    (hnew : NewTables s s₁ room keys values)
    (hcount : s'.count = Function.update (Function.update s₁.count parts.keys 0) parts.values 0) :
    s'.Ledger arrays owned := by
  have hl₁ := hnew.ledger hl
  have hdict₁ := (hnew.old hd.dict).2.2
  have hks₁ := (hnew.old hd.keys).2.2
  have hvs₁ := (hnew.old hd.values).2.2
  obtain ⟨hus, hws⟩ := content_tables hnew.ne hnew.content
  have hplain : ∀ {xs ys : List Reference} {p : Reference}, s₁.content p = some (.array xs) →
      (∀ q, q.isLive = true → q ∈ ys → q ∈ xs) → ∀ q ∈ ys, ¬s₁.IsArray q := by
    intro xs ys p hp hle q hq hqa
    exact hl₁.plain hp (hle q (hl₁.live hqa.choose_spec) hq) hqa
  have hl' : s'.Ledger (((values :: keys :: arrays).erase keys).erase values) owned := by
    refine hl₁.moveDict hdict₁ hks₁ hvs₁ hus hws (by simp) (by simp) hnew.ne ?_ hcount
      (hplain hks₁ fun q hlive => (hr.mem_old hlive).1.mp)
      (hplain hvs₁ fun q hlive => (hr.mem_old hlive).2.mp)
      (hr.tabled.congr fun q hq hlive => ?_)
      fun q hq => by rw [(hr.slots q hq).1, (hr.slots q hq).2]
    · rw [hr.content, hnew.content]
      funext q
      simp only [overwrite, Function.update_apply]
      split_ifs <;> rfl
    · obtain ⟨x, -, hx, -⟩ := hr.tabled.hashable q hq hlive
      rw [(hnew.old hx).2.2, hx]
  rwa [List.erase_cons_tail (by simpa using hnew.ne.symm), List.erase_cons_head,
    List.erase_cons_head] at hl'

theorem dictGrow_regrows (hs : h.Sound s) (hl : s.Ledger arrays owned) :
    (dictGrow dict).Ends h
      (fun _ h' => ∃ s', h'.Sound s' ∧ s'.Ledger arrays owned ∧
        ∃ n o k v keys values ks vs us ws, s.content dict = some (.dict n o k v) ∧
          s.content k = some (.array ks) ∧ s.content v = some (.array vs) ∧
            us.length = max (ks.length * 2) h.config.dictMinCapacity ∧
              Regrown s s' dict n k v keys values ks vs us ws)
      fun e h' => (∃ m, e = .outOfMemory m) ∧ h'.Sound s := by
  by_cases hdict : ∃ n o k v, s.content dict = some (.dict n o k v)
  · obtain ⟨n, o, k, v, hdict⟩ := hdict
    obtain ⟨ks, vs, hd⟩ : ∃ ks vs, OnTables s dict ⟨n, o, k, v⟩ ks vs :=
      OnTables.of_ledger hl hdict
    refine (dictGrow_rebuilds hs hd).imp ?_ fun _ _ hb => ⟨hb.1.imp fun _ hm => hm.1, hb.2⟩
    rintro _ h' ⟨s₁, s', keys, values, us, ws, hs', hnew, hcount, hlength, hr⟩
    exact ⟨s', hs', hr.ledger hd hl hnew hcount, n, o, k, v, keys, values, ks, vs, us, ws, hdict,
      hd.keys, hd.values, hlength, hr⟩
  · rw [dictGrow, Action.ends_bind, Action.ends_read]
    exact fun parts hparts => absurd ⟨_, _, _, _, hs.dictParts_eq_ok.mp hparts⟩ hdict

theorem dictGrow_ends (he : Editing h s kept arrays owned dict) :
    (dictGrow dict).Ends h
      (fun _ h' => ∃ s', Editing h' s' kept arrays owned dict ∧ Rebuilt s s' dict ∧
        s.Remaps s' dict id)
      (Starved s kept arrays owned dict id) := by
  refine (dictGrow_regrows he.sound he.ledger).imp ?_ fun e h' hb => ⟨hb.1, s, ⟨hb.2, he.ledger,
    he.fewer, he.unkept, he.tables⟩, .inl (.refl s dict)⟩
  rintro _ h' ⟨s', hs', hl', n, o, k, v, keys, values, ks, vs, us, ws, hd, hk, hv, -, hr⟩
  obtain ⟨hself, hus, hws⟩ := hr.standing
  obtain ⟨hkunkept, hvunkept⟩ := he.tables hd
  refine ⟨s', ⟨hs', hl', fun q x hq => ?_, he.unkept, fun hd' => ?_⟩, ⟨fun hq hkind hqd => ?_,
    fun hd' hk' => ?_⟩, fun m hm => ?_⟩
  · exact hr.others (he.fewer q x hq) (Store.ne_of_none hq he.unkept)
      (Store.ne_of_none hq hkunkept) (Store.ne_of_none hq hvunkept)
  · rw [hself] at hd'
    cases hd'
    exact ⟨he.fewer.content_none hr.unused.1, he.fewer.content_none hr.unused.2⟩
  · exact hr.others hq hqd (Store.ne_of_content hq hk fun h => hkind (h ▸ rfl))
      (Store.ne_of_content hq hv fun h => hkind (h ▸ rfl))
  · rw [hd] at hd'
    cases hd'
    rw [hk] at hk'
    cases hk'
    exact ⟨_, _, _, us, hself, hus, fun q hq hlive => (hr.mem_old hlive).1.mp hq⟩
  · refine ⟨_, _, _, _, us, ws, hself, hus, hws, (hr.tables m (hm.tables hd hk hv)).congr ?_⟩
    intro q hq hlive
    obtain ⟨x, hash, hx, hn⟩ := hr.tabled.hashable q hq hlive
    rw [hx, hr.others_key hd hk hv hx (by simp [hn])]

section Entries

variable {x : Content} {hash : UInt64} {n o : Nat} {k v : Reference} {ks : List Reference}

theorem Rebuilt.hashable (hr : Rebuilt s s' dict) (hd : s.content dict = some (.dict n o k v))
    (hx : s.content key = some x) (hn : x.hash? = some hash) : s'.content key = some x := by
  refine hr.others hx ?_ (Store.ne_of_content hx hd ?_)
  all_goals
    rintro h
    cases x <;> cases hn <;> cases h

theorem Rebuilt.absent (hr : Rebuilt s s' dict) (hl : s.Ledger arrays owned)
    (hd : s.content dict = some (.dict n o k v)) (hk : s.content k = some (.array ks))
    (habsent : Absent s.content ks x) {n' o' : Nat} {k' v' : Reference} {us : List Reference}
    (hd' : s'.content dict = some (.dict n' o' k' v')) (hk' : s'.content k' = some (.array us)) :
    Absent s'.content us x := by
  obtain ⟨ks', vs, hks', -, htabled⟩ := hl.dicts hd
  rw [hk] at hks'
  cases hks'
  obtain ⟨o'', k'', v'', us', hd'', hk'', hsub⟩ := hr.keys hd hk
  rw [hd'] at hd''
  cases hd''
  rw [hk'] at hk''
  cases hk''
  intro q hq hlive
  have hmem := hsub q hq hlive
  obtain ⟨y, m, hy, hm⟩ := htabled.hashable q hmem hlive
  rw [hr.hashable hd hy hm, ← hy]
  exact habsent q hmem hlive

theorem Starved.after {e : Failure} (hs : Starved s' kept arrays owned dict id e h')
    (hmaps : s.Remaps s' dict id) : Starved s kept arrays owned dict id e h' := by
  obtain ⟨he, s'', hedit, hor⟩ := hs
  exact ⟨he, s'', hedit, .inl (hmaps.trans (hor.elim id id))⟩

theorem Starved.unchanged {e : Failure} {f : Mapping → Mapping}
    (hs : Starved s kept arrays owned dict id e h') : Starved s kept arrays owned dict f e h' := by
  obtain ⟨he, s', hedit, hor⟩ := hs
  exact ⟨he, s', hedit, .inl (hor.elim id id)⟩

theorem slotFor_steps {good : DictParts × Nat → Heap → Prop} {bad : Failure → Heap → Prop}
    {attempts : Nat} (hs : h.Sound s) (hx : s.content key = some x) (hn : x.hash? = some hash)
    (hd : s.content dict = some (.dict n o k v)) (hk : s.content k = some (.array ks))
    (hfound : ∀ slot, Found s.content x false ks hash (some slot) → good (⟨n, o, k, v⟩, slot) h)
    (hfull : Found s.content x false ks hash none → (dictGrow dict).Ends h
      (fun _ h' => (slotFor dict hash key attempts).Ends h' good bad) bad) :
    (slotFor dict hash key (attempts + 1)).Ends h good bad := by
  simp only [slotFor, Action.ends_bind, Action.ends_read, hs.dictParts_eq_ok]
  intro parts hparts slot hfind
  cases hd.symm.trans hparts
  obtain ⟨us, hus, hsearch⟩ := hs.findKey_eq_ok hx hn hfind
  cases hk.symm.trans hus
  cases slot with
  | some slot => exact Action.ends_pure.mpr (hfound slot hsearch)
  | none => exact Action.ends_bind.mpr (hfull hsearch)

theorem slotFor_ends (he : Editing h s kept arrays owned dict) (hx : s.content key = some x)
    (hn : x.hash? = some hash) (hd : s.content dict = some (.dict n o k v))
    (hk : s.content k = some (.array ks)) (habsent : Absent s.content ks x) (attempts : Nat) :
    (slotFor dict hash key attempts).Ends h
      (fun p h' => ∃ s' us, Editing h' s' kept arrays owned dict ∧ Rebuilt s s' dict ∧
        s.Remaps s' dict id ∧
          s'.content dict = some (.dict p.1.size p.1.occupied p.1.keys p.1.values) ∧
            s'.content p.1.keys = some (.array us) ∧ Absent s'.content us x ∧
              Found s'.content x false us hash (some p.2))
      (Starved s kept arrays owned dict id) := by
  induction attempts generalizing h s n o k v ks with
  | zero => simp only [slotFor, Action.ends_fault]
  | succ attempts ih =>
    refine slotFor_steps he.sound hx hn hd hk (fun slot hfound => ⟨s, ks, he, .refl s dict,
      .refl s dict, hd, hk, habsent, hfound⟩) fun _ => ?_
    refine (dictGrow_ends he).imp ?_ fun _ _ hb => hb
    rintro _ h₁ ⟨s₁, he₁, hr, hmaps⟩
    obtain ⟨o₁, k₁, v₁, us, hd₁, hk₁, -⟩ := hr.keys hd hk
    refine (ih he₁ (hr.hashable hd hx hn) hd₁ hk₁
      (hr.absent he.ledger hd hk habsent hd₁ hk₁)).imp ?_ fun _ _ hb => hb.after hmaps
    rintro p h₂ ⟨s₂, us₂, he₂, hr₂, hmaps₂, hrest⟩
    exact ⟨s₂, us₂, he₂, hr.trans hr₂, hmaps.trans hmaps₂, hrest⟩

theorem seen_of_hash (hx : s.content key = some x) (hn : x.hash? = some hash) : Seen s key := by
  refine ⟨x, hx, fun hkind => ?_⟩
  cases x <;> cases hn <;> cases hkind

theorem Editing.insert (he : Editing h s kept arrays owned dict) (hvalue : Seen s value)
    (hx : s.content key = some x) (hn : x.hash? = some hash)
    (hd : s.content dict = some (.dict n o k v)) (hk : s.content k = some (.array ks))
    (habsent : Absent s.content ks x) {slot : Nat} {old : Reference}
    (hfound : Found s.content x false ks hash (some slot)) (hget : h.arrayGet k slot = .ok old)
    (henter : Enters dict key value ⟨n, o, k, v⟩ slot old h h') :
    ∃ s' vs, Editing h' s' kept arrays owned dict ∧ s.Remaps s' dict (·.set x key value) ∧
      s.content v = some (.array vs) ∧
        s'.content = overwrite s.content [(dict, some (.dict (n + 1) (o + old.isNull.toNat) k v)),
          (k, some (.array (ks.set slot key))), (v, some (.array (vs.set slot value)))] ∧
          ∀ q, s'.count q = s.count q + [key, value].count q := by
  obtain ⟨hsize, hoccupied, h₁, h₂, h₃, h₄, h₅, hret, hret', hset, hset', hstore, hstore'⟩ := henter
  obtain ⟨us, hus, hold⟩ := he.sound.arrayGet_eq_ok.mp hget
  cases hk.symm.trans hus
  -- No key in the table is equal, so the slot that was found is free.
  obtain ⟨old', hold', hdead, hway⟩ := hfound.free habsent
  cases hold.symm.trans hold'
  obtain ⟨ks', vs, hks', hv, -⟩ := he.ledger.dicts hd
  have hvs := hv
  obtain ⟨hkunkept, hvunkept⟩ := he.tables hd
  obtain ⟨s₁, hs₁, hl₁, hcontent₁, hcount₁⟩ :=
    he.sound.retain_balanced he.ledger (seen_of_hash hx hn).not_isArray hret
  obtain ⟨s₂, hs₂, hl₂, hcontent₂, hcount₂⟩ := hs₁.retain_balanced hl₁
    (by rw [Store.IsArray, hcontent₁]; exact hvalue.not_isArray) hret'
  rw [hcontent₁] at hcontent₂
  have hfewer : s₂.Fewer kept := fun q y hq => by rw [hcontent₂]; exact he.fewer q y hq
  rw [← hcontent₂] at hd hk hv hx habsent
  have hdk := Store.ne_of_content hd hk (by simp)
  have hdv := Store.ne_of_content hd hv (by simp)
  have ht := hs₂.tells.setEntry (hl₂.keys_ne_values hd hk) hk hv hset hset'
  have ht₁ := ht.storeDictSize (by rw [overwrite_of_not_mem (by simp [hdk, hdv]), hd]) hsize hstore
  obtain ⟨s', hs', hcontent', hcount'⟩ :=
    ht₁.storeDictOccupied (Function.update_self ..) hoccupied hstore'
  rw [Function.update_idem] at hcontent'
  have hl' := hl₂.insertEntry hd hk hv hx hn (hvalue.isLive he.ledger) habsent hway hold hdead
    hcontent' hcount'
  have hover : s'.content = overwrite s₂.content [(dict, _), (k, _), (v, _)] := hcontent'
  refine ⟨s', vs, ⟨hs', hl', hfewer.overwrite ?_ hover, he.unkept, fun hd' => ?_⟩, fun m hm => ?_,
    hvs, hcontent₂ ▸ hover, fun q => ?_⟩
  · simp [he.unkept, hkunkept, hvunkept]
  · rw [hcontent', Function.update_self] at hd'
    cases hd'
    exact ⟨hkunkept, hvunkept⟩
  · have htabled := hl₂.tabled hd hk hv
    have htables : Tables s₂.content (ks.set slot key) (vs.set slot value) (m.set x key value) :=
      ((hm.congr hcontent₂).tables hd hk hv).put htabled.toHashed hx (hl₂.live hx) habsent hold
        hdead
    refine hl₂.maps_of_slots hd hk hv hover htables fun q hq hlive => ?_
    rcases List.mem_or_eq_of_mem_set hq with hq | rfl
    · exact htabled.hashable q hq hlive
    · exact ⟨x, hash, hx, hn⟩
  · rw [hcount', hcount₂, Store.count_update_succ, hcount₁, Store.count_update_succ, Nat.add_assoc,
      ← List.count_append]
    rfl

theorem dictInsert_ends (he : Editing h s kept arrays owned dict) (hvalue : Seen s value)
    (hx : s.content key = some x) (hn : x.hash? = some hash)
    (hd : s.content dict = some (.dict n o k v)) (hk : s.content k = some (.array ks))
    (habsent : Absent s.content ks x) :
    (dictInsert dict hash key value).Ends h
      (fun _ h' => ∃ s', Editing h' s' kept arrays owned dict ∧
        s.Remaps s' dict (·.set x key value))
      (Starved s kept arrays owned dict (·.set x key value)) := by
  refine dictInsert_steps ((slotFor_ends he hx hn hd hk habsent maxGrowths).imp
    (fun _ _ hg => hg) fun _ _ hb => hb.unchanged) ?_
  rintro parts slot h₁ old h₂ capacity ⟨s₁, us, he₁, hr, hmaps₁, hparts, hus, habsent₁, hfound⟩ hget
    henter -
  obtain ⟨s', -, he', hmaps', -⟩ := he₁.insert (hr.seen he.ledger hd hvalue)
    (hr.hashable hd hx hn) hn hparts hus habsent₁ hfound hget henter
  have hmaps : s.Remaps s' dict (·.set x key value) := hmaps₁.trans hmaps'
  refine ⟨fun _ => (dictGrow_ends he').imp ?_ ?_, fun _ => ⟨s', he', hmaps⟩⟩
  · rintro _ h₈ ⟨s'', he'', -, hmaps''⟩
    exact ⟨s'', he'', hmaps.trans hmaps''⟩
  · rintro e h₈ ⟨hmemory, s'', he'', hor⟩
    exact ⟨hmemory, s'', he'', .inr (hmaps.trans (hor.elim id id))⟩

theorem Editing.balanced (he : Editing h s kept arrays owned dict) :
    h.Balanced kept arrays owned := ⟨s, he.sound, he.ledger, he.fewer⟩

theorem Balanced.fewer (hb : h.Balanced s arrays owned) (hk : s.Fewer kept) :
    h.Balanced kept arrays owned := by
  obtain ⟨s', hs', hl', hk'⟩ := hb
  exact hs'.balanced hl' (hk'.trans hk)

theorem Starved.balanced {f : Mapping → Mapping} {e : Failure}
    (hs : Starved s kept arrays owned dict f e h') : h'.Balanced kept arrays owned := by
  obtain ⟨-, s', he, -⟩ := hs
  exact he.balanced

def Unset (h : Heap) (s kept : Store) (arrays owned : List Reference)
    (dict key value : Reference) (e : Failure) (h' : Heap) : Prop :=
  (h' = h ∧ h.hash key = .ok (.error e)) ∨
    ∃ x hash, s.content key = some x ∧ x.hash? = some hash ∧
      Starved s kept arrays owned dict (·.set x key value) e h'

theorem Editing.balanced_unset {e : Failure} (he : Editing h s kept arrays owned dict)
    (hu : Unset h s kept arrays owned dict key value e h') : h'.Balanced kept arrays owned := by
  rcases hu with ⟨rfl, -⟩ | ⟨_, _, _, _, hstarved⟩
  · exact he.balanced
  · exact hstarved.balanced

theorem Sound.replaceValue {vs : List Reference} {slot : Nat} {p old : Reference}
    (hs : h.Sound s) (hl : s.Ledger arrays owned) (hvalue : Seen s value)
    (hd : s.content dict = some (.dict n o k v)) (hk : s.content k = some (.array ks))
    (hv : s.content v = some (.array vs)) (hkey : ks[slot]? = some p) (hlive : p.isLive = true)
    (hold : vs[slot]? = some old) {h₁ : Heap} (hret : h.retain value = .ok h₁)
    (hset : h₁.arraySet v slot value = .ok h') :
    ∃ s', h'.Sound s' ∧ s'.Ledger arrays (old :: owned) ∧
      s'.content = Function.update s.content v (some (.array (vs.set slot value))) ∧
        ∀ q, s'.count q = s.count q + [value].count q := by
  obtain ⟨s₁, hs₁, hl₁, hcontent₁, hcount₁⟩ := hs.retain_balanced hl hvalue.not_isArray hret
  have hlive' := hvalue.isLive hl
  rw [← hcontent₁] at hd hk hv
  obtain ⟨vs', hvs', -, s', hs', hcontent', hcount'⟩ := hs₁.tells.arraySet hset
  rw [hv] at hvs'
  cases hvs'
  refine ⟨s', hs', hl₁.replaceValue hd hk hv hkey hlive hold hlive' hcontent' hcount',
    hcontent₁ ▸ hcontent', fun q => ?_⟩
  rw [hcount', hcount₁, Store.count_update_succ]

structure Searched (s : Store) (dict key : Reference) (parts : DictParts) (ks vs : List Reference)
    (x : Content) (hash : UInt64) : Prop where
  dict : s.content dict = some (.dict parts.size parts.occupied parts.keys parts.values)
  keys : s.content parts.keys = some (.array ks)
  values : s.content parts.values = some (.array vs)
  key : s.content key = some x
  hash : x.hash? = some hash

section Steps

variable (hs : h.Sound s) (hl : s.Ledger arrays owned) {good : Unit → Heap → Prop}
  {bad : Failure → Heap → Prop}
  (hdeclined : ∀ e, h.hash key = .ok (.error e) → bad e h)
include hs hl hdeclined

theorem dictSet_steps
    (hinserted : ∀ {parts ks vs x hash}, Searched s dict key parts ks vs x hash →
      Absent s.content ks x → (dictInsert dict hash key value).Ends h good bad)
    (hreplaced : ∀ {parts ks vs x hash slot p old h₁ h₂ h'},
      Searched s dict key parts ks vs x hash → ks[slot]? = some p → p.isLive = true →
        s.content p = some x → vs[slot]? = some old → h.retain value = .ok h₁ →
          h₁.arraySet parts.values slot value = .ok h₂ → h₂.release old = .ok h' → good () h') :
    (dictSet dict key value).Ends h good bad := by
  simp only [dictSet, Action.ends_bind, Action.ends_ask, Action.ends_read, hs.dictParts_eq_ok]
  refine ⟨fun hash hhash parts hparts slot hlookup => ?_, hdeclined⟩
  obtain ⟨x, hx, hn⟩ := hs.hash_eq_ok.mp hhash
  obtain ⟨ks, hks, hsome, hnone⟩ := hs.lookup_eq_ok hx hn hlookup
  obtain ⟨ks', vs, hks', hvs, htabled⟩ := hl.dicts hparts
  cases hks.symm.trans hks'
  have hsearched : Searched s dict key parts ks vs x hash := ⟨hparts, hks, hvs, hx, hn⟩
  cases slot with
  | none => exact hinserted hsearched (hnone rfl vs htabled.toHashed)
  | some slot =>
    simp only [Action.ends_bind, Action.ends_read, Action.ends_update, hs.arrayGet_eq_ok]
    rintro old ⟨vs', hvs', hold⟩ h₁ hret h₂ hset h₃ hrel
    cases hvs.symm.trans hvs'
    obtain ⟨p, hp, hlive, hpx⟩ := hsome slot rfl
    exact hreplaced hsearched hp hlive hpx hold hret hset hrel

omit hl in
theorem dictSet_of_not_dict (hd : ¬∃ n o k v, s.content dict = some (.dict n o k v)) :
    (dictSet dict key value).Ends h good bad := by
  simp only [dictSet, Action.ends_bind, Action.ends_ask, Action.ends_read, hs.dictParts_eq_ok]
  exact ⟨fun _ _ parts hparts => absurd ⟨_, _, _, _, hparts⟩ hd, hdeclined⟩

omit hl in
theorem dictDelete_steps (hmissing : bad .missingKeyToDelete h)
    (hdeleted : ∀ {parts ks vs x hash slot p old h₁ h₂ h₃ h₄ h'},
      Searched s dict key parts ks vs x hash → ks[slot]? = some p → p.isLive = true →
        s.content p = some x → vs[slot]? = some old → 1 ≤ parts.size →
          h.arraySet parts.keys slot .tombstone = .ok h₁ →
            h₁.arraySet parts.values slot .null = .ok h₂ →
              h₂.storeField dict Layout.dictSizeOffset (parts.size - 1) = .ok h₃ →
                h₃.release p = .ok h₄ → h₄.release old = .ok h' → good () h') :
    (dictDelete dict key).Ends h good bad := by
  simp only [dictDelete, Action.ends_bind, Action.ends_ask, Action.ends_read, hs.dictParts_eq_ok]
  refine ⟨fun hash hhash parts hparts slot hlookup => ?_, hdeclined⟩
  obtain ⟨x, hx, hn⟩ := hs.hash_eq_ok.mp hhash
  obtain ⟨ks, hks, hsome, -⟩ := hs.lookup_eq_ok hx hn hlookup
  cases slot with
  | none => exact Action.ends_throw.mpr hmissing
  | some slot =>
    simp only [Action.ends_bind, Action.ends_read, Action.ends_update, Action.ends_liftFailure,
      hs.arrayGet_eq_ok]
    rintro oldKey ⟨ks', hks', hkey⟩ oldValue ⟨vs, hvs, hvalue⟩ h₁ hset h₂ hset' m hm h₃ hstore h₄
      hrel h₅ hrel'
    cases hks.symm.trans hks'
    obtain ⟨p, hp, hlive, hpx⟩ := hsome slot rfl
    cases hkey.symm.trans hp
    obtain ⟨hone, rfl⟩ := Word.sub_eq_ok.mp hm
    exact hdeleted ⟨hparts, hks, hvs, hx, hn⟩ hkey hlive hpx hvalue hone hset hset' hstore hrel
      hrel'

end Steps

theorem dictSet_ends (he : Editing h s kept arrays owned dict)
    (hstands : Standing kept (arrays ++ owned)) (hvalue : Seen s value) :
    (dictSet dict key value).Ends h
      (fun _ h' => ∃ s', Editing h' s' kept arrays owned dict ∧
        ∃ x hash, s.content key = some x ∧ x.hash? = some hash ∧
          ((∃ y, s'.content dict = some y) → s.Remaps s' dict (·.set x key value)))
      (Unset h s kept arrays owned dict key value) := by
  have hs := he.sound
  have hl := he.ledger
  refine dictSet_steps hs hl (fun e hhash => .inl ⟨rfl, hhash⟩) ?_ ?_
  · rintro parts ks vs x hash ⟨hparts, hks, -, hx, hn⟩ habsent
    refine (dictInsert_ends he hvalue hx hn hparts hks habsent).imp ?_
      fun _ _ hb => .inr ⟨x, hash, hx, hn, hb⟩
    rintro _ h' ⟨s', he', hmaps⟩
    exact ⟨s', he', x, hash, hx, hn, fun _ => hmaps⟩
  · rintro parts ks vs x hash slot p old h₁ h₂ h₃ ⟨hparts, hks, hvs, hx, hn⟩ hp hplive hpx hold hret
      hset hrel
    have htabled := hl.tabled hparts hks hvs
    obtain ⟨hkunkept, hvunkept⟩ := he.tables hparts
    obtain ⟨s₂, hs₂, hl₂, hcontent₂, -⟩ :=
      hs.replaceValue hl hvalue hparts hks hvs hp hplive hold hret hset
    obtain ⟨s', hs', hl', hk', hless⟩ :=
      hs₂.release_ledger hl₂ (he.fewer.update hvunkept hcontent₂) hstands hrel
    have hdv := Store.ne_of_content hparts hvs (by simp)
    have hdict₂ : s₂.content dict = s.content dict := by
      rw [hcontent₂, Function.update_of_ne hdv]
    refine ⟨s', ⟨hs', hl', hk', he.unkept, fun hd => ?_⟩, x, hash, hx, hn, fun hd m hm => ?_⟩
    · have hd₂ := hless _ _ hd
      rw [hdict₂, hparts] at hd₂
      cases hd₂
      exact ⟨hkunkept, hvunkept⟩
    · have htables : Tables s.content ks (vs.set slot value) (m.set x key value) :=
        (hm.tables hparts hks hvs).putValue htabled.toHashed hp hplive hpx key
      have hover : s₂.content = overwrite s.content [(parts.values, _)] := hcontent₂
      have hm₂ : s₂.Maps dict (m.set x key value) := by
        refine .of_tables (hdict₂.trans hparts) ?_ (hcontent₂ ▸ Function.update_self ..) htables
          fun q hq hlive => ?_
        · rw [hcontent₂, Function.update_of_ne (hl.keys_ne_values hparts hks), hks]
        · obtain ⟨y, n, hy, hn⟩ := htabled.hashable q hq hlive
          exact Store.content_of_hash hy hn hover (by simp [hvs, Content.hash?])
      exact hm₂.less hl₂ hl' hless hd

theorem dictSet_balanced (hs : h.Sound s) (hl : s.Ledger arrays owned)
    (hk : Anchored s kept owned) (hvalue : Seen s value) :
    (dictSet dict key value).Ends h (fun _ h' => h'.Balanced kept arrays owned)
      fun _ h' => h'.Balanced kept arrays owned := by
  by_cases hd : ∃ n o k v, s.content dict = some (.dict n o k v)
  · obtain ⟨n, o, k, v, hd⟩ := hd
    have he := hs.editing hl hk hd
    refine (dictSet_ends he hk.standing hvalue).imp ?_ fun _ _ hu => he.balanced_unset hu
    rintro _ _ ⟨_, he', -⟩
    exact he'.balanced
  · exact dictSet_of_not_dict hs (fun _ _ => hs.balanced hl hk.fewer) hd

theorem dictGet_balanced (hs : h.Sound s) (hl : s.Ledger arrays owned) (hk : s.Fewer kept) :
    (dictGet dict key).Ends h (fun r h' => h'.Balanced kept arrays (r :: owned))
      fun _ h' => h'.Balanced kept arrays owned := by
  simp only [dictGet, Action.ends_bind, Action.ends_ask, Action.ends_read]
  refine ⟨fun hash _ parts _ slot _ => ?_, fun _ _ => hs.balanced hl hk⟩
  cases slot with
  | none =>
    rw [Action.ends_throw]
    exact hs.balanced hl hk
  | some slot =>
    simp only [Action.ends_bind, Action.ends_read, Action.ends_update, Action.ends_pure,
      hs.arrayGet_eq_ok]
    rintro value ⟨vs, hvs, hi⟩ h' hret
    exact hs.retained hl hk (hl.plain hvs (List.mem_of_getElem? hi)) hret

theorem Sound.removeEntry {vs : List Reference} {slot : Nat} {oldKey oldValue : Reference}
    (hs : h.Sound s) (hl : s.Ledger arrays owned)
    (hd : s.content dict = some (.dict (n + 1) o k v)) (hks : s.content k = some (.array ks))
    (hvs : s.content v = some (.array vs)) (hkey : ks[slot]? = some oldKey)
    (hlive : oldKey.isLive = true) (hvalue : vs[slot]? = some oldValue) {h₁ h₂ h₃ : Heap}
    (hset : h.arraySet k slot .tombstone = .ok h₁) (hset' : h₁.arraySet v slot .null = .ok h₂)
    (hstore : h₂.storeField dict Layout.dictSizeOffset n = .ok h₃) :
    ∃ s', h₃.Sound s' ∧ s'.Ledger arrays (oldKey :: oldValue :: owned) ∧
      s'.content = overwrite s.content [(dict, some (.dict n o k v)),
        (k, some (.array (ks.set slot .tombstone))), (v, some (.array (vs.set slot .null)))] := by
  have hsize := hs.dictSize_lt hd
  have ht := hs.tells.setEntry (hl.keys_ne_values hd hks) hks hvs hset hset'
  obtain ⟨s', hs', hcontent, hcount⟩ := ht.storeDictSize (by
    rw [overwrite_of_not_mem (by simp [Store.ne_of_content hd hks (by simp),
      Store.ne_of_content hd hvs (by simp)]), hd]) (by omega) hstore
  exact ⟨s', hs', hl.removeEntry hd hks hvs hkey hlive hvalue hcontent hcount, hcontent⟩

theorem dictDelete_ends (hs : h.Sound s) (hl : s.Ledger arrays owned)
    (hk : Anchored s kept owned) :
    (dictDelete dict key).Ends h
      (fun _ h' => ∃ s', h'.Sound s' ∧ s'.Ledger arrays owned ∧ s'.Fewer kept ∧
        ∃ x hash, s.content key = some x ∧ x.hash? = some hash ∧
          ((∃ y, s'.content dict = some y) → s.Remaps s' dict (·.erase x)))
      fun _ h' => h' = h := by
  refine dictDelete_steps hs (fun _ _ => rfl) rfl ?_
  rintro parts ks vs x hash slot p old h₁ h₂ h₃ h₄ h₅ ⟨hparts, hks, hvs, hx, hn⟩ hkey hlive hpx
    hvalue hone hset hset' hstore hrel hrel'
  have hdunkept := hk.unkept hparts rfl
  rw [← Nat.sub_add_cancel hone] at hparts
  obtain ⟨s₃, hs₃, hl₃, hover⟩ :=
    hs.removeEntry hl hparts hks hvs hkey hlive hvalue hset hset' hstore
  have hk₃ : Anchored s₃ kept owned := hk.of_fewer (hk.fewer.overwrite (by
    simp [hdunkept, hk.unkept hks rfl, hk.unkept hvs rfl]) hover)
  obtain ⟨s₄, hs₄, hl₄, hk₄, hless₄⟩ := hs₃.release_ledger hl₃ hk₃.fewer
    (hk₃.mono (List.subset_cons_self _ _)).standing hrel
  obtain ⟨s₅, hs₅, hl₅, hk₅, hless₅⟩ := hs₄.release_ledger hl₄ hk₄
    (hk₃.of_fewer hk₄).standing hrel'
  refine ⟨s₅, hs₅, hl₅, hk₅, x, hash, hx, hn, fun hd m hm => ?_⟩
  have htabled := hl.tabled hparts hks hvs
  have htables := (hm.tables hparts hks hvs).bury htabled.toHashed hkey hlive hpx
  refine (hl.maps_of_slots hparts hks hvs hover htables fun q hq hqlive => ?_).less hl₃ hl₅
    (hless₄.trans hless₅) hd
  rcases List.mem_or_eq_of_mem_set hq with hq | rfl
  · exact htabled.hashable q hq hqlive
  · cases hqlive

theorem dictDelete_balanced (hs : h.Sound s) (hl : s.Ledger arrays owned)
    (hk : Anchored s kept owned) :
    (dictDelete dict key).Ends h (fun _ h' => h'.Balanced kept arrays owned)
      fun _ h' => h'.Balanced kept arrays owned := by
  refine (dictDelete_ends hs hl hk).imp ?_ ?_
  · rintro _ _ ⟨s', hs', hl', hk', -⟩
    exact hs'.balanced hl' hk'
  · rintro _ _ rfl
    exact hs.balanced hl hk.fewer

end Entries

theorem setPairs_ends {pairs : List (Reference × Reference)}
    (he : Editing h s kept arrays (dict :: owned) dict) (hlive : dict.isLive = true)
    (hstands : Standing kept (arrays ++ owned)) (hseen : ∀ p ∈ pairs, Seen kept p.2) :
    (pairs.forM fun p => (dictSet dict p.1 p.2).orUndo (·.release dict)).Ends h
      (fun _ h' => ∃ s', Editing h' s' kept arrays (dict :: owned) dict ∧
        ((∀ p ∈ pairs, Seen kept p.1) →
          s.Remaps s' dict fun m => pairs.foldl (Mapping.put kept.content) m))
      fun _ h' => h'.Balanced kept arrays owned := by
  have hstands' : Standing kept (arrays ++ dict :: owned) := hstands.mono fun q => by
    rw [List.count_append, List.count_append, Store.count_owner]
    omega
  induction pairs generalizing h s with
  | nil => exact Action.ends_pure.mpr ⟨s, he, fun _ => .refl s dict⟩
  | cons pair rest ih =>
    refine Action.ends_bind.mpr (Action.ends_orUndo.mpr ?_)
    refine (dictSet_ends he hstands' ((hseen pair List.mem_cons_self).mono he.fewer)).imp ?_ ?_
    · rintro _ h₁ ⟨s₁, he₁, x, hash, hx, hn, hmaps⟩
      refine (ih he₁ fun p hp => hseen p (List.mem_cons_of_mem _ hp)).imp ?_ fun _ _ hb => hb
      rintro _ h₂ ⟨s₂, he₂, hmaps₂⟩
      refine ⟨s₂, he₂, fun hkeys => ?_⟩
      have hthere := he₁.ledger.exact.occupied hlive (by simp)
      obtain ⟨y, hy, -⟩ := hkeys pair List.mem_cons_self
      obtain rfl : y = x := Option.some_inj.mp ((he.fewer _ _ hy).symm.trans hx)
      have hput : s.Remaps s₁ dict (Mapping.put kept.content · pair) := fun m hm => by
        simpa only [Mapping.put, hy, Option.elim_some] using hmaps hthere m hm
      exact hput.trans (hmaps₂ fun p hp => hkeys p (List.mem_cons_of_mem _ hp))
    · intro e h₁ hu h₂ hrel
      obtain ⟨s₁, hs₁, hl₁, hk₁⟩ := he.balanced_unset hu
      exact hs₁.release_balanced hl₁ hk₁ hstands hrel

theorem overTables_ends {h₁ : Heap} {s₁ : Store} {keys values : Reference} {room : Nat}
    (hs₁ : h₁.Sound s₁) (hl₁ : s₁.Ledger (values :: keys :: arrays) owned)
    (hknone : s.content keys = none) (hvnone : s.content values = none) (hne : keys ≠ values)
    (hcontent₁ : s₁.content = overwrite s.content [(keys, some (.array (.replicate room .null))),
      (values, some (.array (.replicate room .null)))]) :
    ((makeDict keys values).orUndo fun h => do (← h.release keys).release values).Ends h₁
      (fun dict h₂ => ∃ s₂, Editing h₂ s₂ s arrays (dict :: owned) dict ∧ s₁.content dict = none ∧
        dict.isLive = true ∧ s₂.Maps dict .empty ∧
          s₂.content = Function.update s₁.content dict (some (.dict 0 0 keys values)))
      fun _ h' => ∃ s', h'.Sound s' ∧ s'.Ledger arrays owned ∧ s'.content = s.content := by
  obtain ⟨hkeys, hvalues⟩ := content_tables hne hcontent₁
  have hkept : s₁.Fewer s := Store.Fewer.overwrite (fun _ _ hx => hx) (by simp [hknone, hvnone])
    hcontent₁
  have htail : (values :: keys :: arrays).erase keys = values :: arrays := by
    rw [List.erase_cons_tail (by simpa using hne.symm), List.erase_cons_head]
  refine Action.ends_orUndo.mpr ((hs₁.makeDict keys values).imp ?_ ?_)
  · rintro dict h₂ ⟨-, hm⟩
    obtain ⟨hnone, s₂, hs₂, hcontent₂, hcount₂⟩ := hm.tells
    have hl₂ := hl₁.makeDict hnone hm.live hcontent₂ hcount₂ (by simp) (by simp [htail]) hkeys
      hvalues rfl
    rw [htail, List.erase_cons_head] at hl₂
    have hunkept := hkept.content_none hnone
    refine ⟨s₂, ⟨hs₂, hl₂, hkept.update hunkept hcontent₂, hunkept, fun hd => ?_⟩, hnone, hm.live,
      ?_, hcontent₂⟩
    · rw [hcontent₂, Function.update_self] at hd
      cases hd
      exact ⟨hknone, hvnone⟩
    · have hself {q : Reference} {y : Content} (hq : s₁.content q = some y) :
          s₂.content q = some y := by
        rw [hcontent₂, Function.update_of_ne (Store.ne_of_none hq hnone), hq]
      exact ⟨_, _, _, _, _, _, hcontent₂ ▸ Function.update_self .., hself hkeys, hself hvalues,
        .of_dead (blank_replicate room).dead⟩
  · rintro _ _ rfl h₂ hrel
    simp only [bind_eq_ok] at hrel
    obtain ⟨h₃, hrel, hrel'⟩ := hrel
    obtain ⟨s₂, hs₂, hl₂, hcontent₂⟩ := hs₁.releaseFree hl₁ hkeys (by simp) hrel
    rw [htail] at hl₂
    obtain ⟨s₃, hs₃, hl₃, hcontent₃⟩ := hs₂.releaseFree hl₂
      (by rw [hcontent₂, Function.update_of_ne hne.symm, hvalues]) List.mem_cons_self hrel'
    rw [List.erase_cons_head] at hl₃
    refine ⟨s₃, hs₃, hl₃, ?_⟩
    rw [hcontent₃, hcontent₂, hcontent₁]
    funext q
    simp only [overwrite, Function.update_apply]
    split_ifs <;> simp_all

theorem newDict_ends {pairs : List (Reference × Reference)} (hs : h.Sound s)
    (hl : s.Ledger arrays owned) (hseen : ∀ p ∈ pairs, Seen s p.2) :
    (newDict pairs).Ends h
      (fun r h' => ∃ s', Editing h' s' s arrays (r :: owned) r ∧
        ((∀ p ∈ pairs, Seen s p.1) → s'.Maps r (.ofPairs s.content pairs)))
      fun _ h' => h'.Balanced s arrays owned := by
  simp only [newDict, Action.ends_bind, Action.ends_getFailure, Action.ends_liftFailure,
    Action.ends_ofMemory, Action.ends_pure]
  intro room _
  refine (makeTables_ends hs hl _).imp ?_ ?_
  · rintro ⟨keys, values⟩ h₁ ⟨s₁, hs₁, hl₁, hknone, hvnone, hne, hcontent₁, -⟩
    refine (overTables_ends hs₁ hl₁ hknone hvnone hne hcontent₁).imp ?_ ?_
    · rintro dict h₂ ⟨s₂, he, -, hlive, hempty, -⟩
      refine (setPairs_ends he hlive (standing_of_ledger hl) hseen).imp ?_ fun _ _ hb => hb
      rintro _ h₃ ⟨s₃, he₃, hmaps⟩
      exact ⟨s₃, he₃, fun hkeys => hmaps hkeys _ hempty⟩
    · rintro _ _ ⟨s', hs', hl', hcontent'⟩
      exact hs'.balanced hl' fun q x hx => hcontent' ▸ hx
  · exact fun _ _ hs' => hs'.balanced hl (Store.Fewer.refl s)

theorem newDict_balanced {pairs : List (Reference × Reference)} (hs : h.Sound s)
    (hl : s.Ledger arrays owned) (hk : s.Fewer kept) (hseen : ∀ p ∈ pairs, Seen s p.2) :
    (newDict pairs).Ends h (fun r h' => h'.Balanced kept arrays (r :: owned))
      fun _ h' => h'.Balanced kept arrays owned := by
  refine (newDict_ends hs hl hseen).imp ?_ fun _ _ hb => hb.fewer hk
  rintro r h' ⟨s', he, -⟩
  exact he.balanced.fewer hk

end Heap
end CountedHeap
