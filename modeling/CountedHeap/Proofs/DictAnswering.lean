import CountedHeap.Proofs.Answering
import CountedHeap.Proofs.Dictionaries
import CountedHeap.Proofs.Restoring

/-!
Dicts that answer. A table that is rebuilt has room for all of its entries, and after that it has a
slot for one key more, so the search for one ends after a single growth.
-/

namespace CountedHeap

variable {c : Reference → Option Content} {ks₀ vs₀ ks vs us ws : List Reference}
  {rest : List Heap.Entry} {e : Heap.Entry} {x : Content} {hash : UInt64} {o : Option Nat}

theorem Found.exists_slot (hf : Found c x false us hash o) (hnull : .null ∈ us) :
    ∃ slot, o = some slot ∧ slot < us.length := by
  cases o with
  | some slot =>
    obtain ⟨d, -, -, ⟨k, hk, -⟩, -⟩ := hf
    exact ⟨slot, rfl, (List.getElem?_eq_some_iff.mp hk).1⟩
  | none =>
    rcases hf _ hnull with ⟨-, hskip⟩ | ⟨hlive, -⟩
    · cases hskip
    · cases hlive

namespace Heap

variable {h : Heap} {s kept : Store} {f : Reference → Option Content} {n : Reference → Nat}
  {keys values r dict key value : Reference} {parts : DictParts} {arrays owned : List Reference}

section Moving

variable (hnodup : [parts.keys, parts.values, keys, values].Nodup)
  (hf : ∀ q ∈ [parts.keys, parts.values, keys, values], ∃ xs, f q = some (.array xs))
include hnodup hf

theorem Tells.moveEntry_answers (ht : h.Tells (tables f parts keys values ks vs us ws) n)
    (hr : Rehash f ks₀ vs₀ (e :: rest) ks vs us ws) (hroom : 0 < us.countP (·.isNull)) :
    ∃ h', h.moveEntry parts keys values e = .ok h' := by
  obtain ⟨hkey, -, ⟨v, hv, -⟩, x, hx, hn, -⟩ := hr.left e List.mem_cons_self
  obtain ⟨o, hfind⟩ : ∃ o, h.findKey keys e.hash e.key false = .ok o := by
    obtain ⟨s, hs, hcontent, -⟩ := ht
    have hsame {q : Reference} {y : Content} {m : UInt64} (hy : f q = some y)
        (hm : y.hash? = some m) : s.content q = some y := by
      rw [hcontent, tables_of_hash hf hy hm, hy]
    refine hs.findKey_answers (hsame hx hn) hn
      (by rw [hcontent]; exact (tables_apply hnodup).2.2.1) fun k hk => ?_
    rcases hr.clean k hk with hlive | hnull
    · obtain ⟨y, m, hy, hm⟩ := hr.hashed.hashable k hk hlive
      exact .inl ⟨y, hsame hy hm⟩
    · exact .inr (.inl hnull)
  have hnull : .null ∈ us := by
    obtain ⟨k, hk, hnull⟩ := List.countP_pos_iff.mp hroom
    exact (show k = .null by simpa [Reference.isNull] using hnull) ▸ hk
  obtain ⟨slot, rfl, hslot⟩ := (ht.moveEntry_found hnodup hf hr hx hn hfind).exists_slot hnull
  have hget := ht.arrayGet_answers (tables_apply hnodup).2.1 hv
  obtain ⟨h₁, hset, ht₁⟩ := ht.arraySet_tells (tables_apply hnodup).2.2.1 hslot e.key
  rw [(tables_set hnodup).2.2.1] at ht₁
  have hpaired : slot < ws.length := hr.hashed.paired ▸ hslot
  obtain ⟨h₂, hset', ht₂⟩ := ht₁.arraySet_tells (tables_apply hnodup).2.2.2 hpaired v
  rw [(tables_set hnodup).2.2.2] at ht₂
  obtain ⟨h₃, hclear, ht₃⟩ := ht₂.arraySet_tells (tables_apply hnodup).1
    (List.getElem?_eq_some_iff.mp hkey).1 .null
  rw [(tables_set hnodup).1] at ht₃
  obtain ⟨h', hclear'⟩ := ht₃.arraySet_answers (tables_apply hnodup).2.1
    (List.getElem?_eq_some_iff.mp hv).1 .null
  exact ⟨h', by simp only [Heap.moveEntry, hfind, hget, hset, hset', hclear, hclear', ok_bind]⟩

theorem Tells.moveEntries_answers {entries : List Entry}
    (ht : h.Tells (tables f parts keys values ks vs us ws) n)
    (hr : Rehash f ks₀ vs₀ entries ks vs us ws) (hroom : entries.length ≤ us.countP (·.isNull)) :
    ∃ h', entries.foldlM (Heap.moveEntry · parts keys values ·) h = .ok h' := by
  induction entries generalizing h ks vs us ws with
  | nil => exact ⟨h, rfl⟩
  | cons e rest ih =>
    rw [List.length_cons] at hroom
    obtain ⟨h₁, hmove⟩ := ht.moveEntry_answers hnodup hf hr (by omega)
    obtain ⟨ks₁, vs₁, slot, ws₁, ht₁, hr₁, -⟩ := ht.moveEntry hnodup hf hr hmove
    have hone : us.countP (·.isNull) ≤ (us.set slot e.key).countP (·.isNull) + 1 := by
      by_cases hslot : slot < us.length
      · have hcount := countP_set_slot (p := (·.isNull)) (v := e.key)
          (List.getElem?_eq_getElem hslot)
        have hle := Bool.toNat_le (us[slot].isNull)
        omega
      · rw [List.set_eq_of_length_le (Nat.not_lt.mp hslot)]
        omega
    obtain ⟨h', hrest⟩ := ih ht₁ hr₁ (by omega)
    exact ⟨h', by rw [List.foldlM_cons, hmove, ok_bind, hrest]⟩

end Moving

section Growing

variable {entries : List Entry} {room : Nat}

theorem Tells.rebuild_answers (hb : Rebuildable f n dict parts keys values ks vs room entries)
    (ht : h.Tells f n) (hroom : entries.length ≤ room) :
    ∃ h₁ h₂ h₃ h₄ h₅ h', entries.foldlM (Heap.moveEntry · parts keys values ·) h = .ok h₁ ∧
      h₁.release parts.keys = .ok h₂ ∧ h₂.release parts.values = .ok h₃ ∧
        h₃.storeReference dict Layout.dictKeysOffset keys = .ok h₄ ∧
          h₄.storeReference dict Layout.dictValuesOffset values = .ok h₅ ∧
            h₅.storeField dict Layout.dictOccupiedOffset parts.size = .ok h' := by
  have hnodup := hb.nodup
  have hfour := (List.nodup_cons.mp hnodup).2
  rw [← hb.tables_eq] at ht
  obtain ⟨h₁, hmove⟩ := ht.moveEntries_answers hfour hb.all_arrays hb.rehash (by
    rw [List.countP_replicate]
    simpa [Reference.isNull] using hroom)
  obtain ⟨ks', vs', us, ws, ht₁, hr₁, -⟩ := ht.moveEntries hfour hb.all_arrays hb.rehash hmove
  obtain ⟨hkdead, hvdead, -⟩ := hr₁.finish hb.tabled
  have hkget : tables f parts keys values ks' vs' us ws parts.keys = some (.array ks') :=
    (tables_apply hfour).1
  have hvget : tables f parts keys values ks' vs' us ws parts.values = some (.array vs') :=
    (tables_apply hfour).2.1
  simp only [List.nodup_cons, List.mem_cons, List.not_mem_nil, or_false, not_or] at hnodup
  obtain ⟨⟨hdk, hdv, -, -⟩, ⟨hkv, -⟩, -⟩ := hnodup
  obtain ⟨h₂, hrel⟩ := ht₁.releaseBlank_answers hkget hb.oneKeys (Store.held_of_dead hkdead)
  have ht₂ := ht₁.releaseBlank hkget hb.oneKeys (Store.held_of_dead hkdead) hrel
  have hvget₂ := (Function.update_of_ne (Ne.symm hkv) none _).trans hvget
  have hone₂ := (Function.update_of_ne (Ne.symm hkv) 0 n).trans hb.oneValues
  obtain ⟨h₃, hrel'⟩ := ht₂.releaseBlank_answers hvget₂ hone₂ (Store.held_of_dead hvdead)
  have ht₃ := ht₂.releaseBlank hvget₂ hone₂ (Store.held_of_dead hvdead) hrel'
  have hdict₃ : Function.update (Function.update (tables f parts keys values ks' vs' us ws)
      parts.keys none) parts.values none dict =
        some (.dict parts.size parts.occupied parts.keys parts.values) := by
    rw [Function.update_of_ne hdv, Function.update_of_ne hdk, hb.dict_eq]
  obtain ⟨h₄, hset⟩ := ht₃.storeReference_answers hdict₃ (by change 40 + 4 ≤ 48; decide) keys
  have ht₄ := ht₃.storeDictKeys hdict₃ hset
  obtain ⟨h₅, hset'⟩ :=
    ht₄.storeReference_answers (Function.update_self ..) (by change 44 + 4 ≤ 48; decide) values
  have ht₅ := ht₄.storeDictValues (Function.update_self ..) hset'
  obtain ⟨h', hstore⟩ :=
    ht₅.storeField_answers (Function.update_self ..) (by change 32 + 8 ≤ 48; decide) parts.size
  exact ⟨h₁, h₂, h₃, h₄, h₅, h', hmove, hrel, hrel', hset, hset', hstore⟩

theorem length_entries_le {size : Nat} (horder : entries.Pairwise fun e f => e.slot < f.slot)
    (hin : ∀ e ∈ entries, e.slot < size) : entries.length ≤ size := by
  have hnodup : (entries.map Entry.slot).Nodup :=
    List.pairwise_map.mpr (horder.imp fun hlt => Nat.ne_of_lt hlt)
  have hsub : entries.map Entry.slot ⊆ List.range size := fun i hi => by
    obtain ⟨e, he, rfl⟩ := List.mem_map.mp hi
    exact List.mem_range.mpr (hin e he)
  have hlength := (hnodup.subperm hsub).length_le
  rwa [List.length_map, List.length_range] at hlength

theorem makeTables_faults (hs : h.Sound s) : (makeTables room).Faults h Fault.IsLimit := by
  refine Action.faults_bind (hs.makeArray_faults room)
    ((hs.makeArray room).imp ?_ fun _ _ _ => trivial)
  intro keys h₁ hmade
  obtain ⟨hnone, s₁, hs₁, hcontent₁, hcount₁⟩ := hmade.tells
  have hmade₁ := hs₁.makeArray room
  refine Action.faults_bind (Action.faults_orUndo (hs₁.makeArray_faults room)
    (hmade₁.imp (fun _ _ _ => trivial) ?_)) (Action.ends_orUndo.mpr
      (hmade₁.imp (fun _ _ _ => Action.completes_pure.faults) fun _ _ _ _ _ => trivial))
  rintro _ _ rfl
  exact hs₁.tells.releaseBlank_answers (by rw [hcontent₁, Function.update_self])
    (by rw [hcount₁, Function.update_self]) (Store.held_of_dead (blank_replicate room).dead)

theorem OnTables.grow_faults {P : Fault → Prop} (hd : OnTables s dict parts ks vs) (hs : h.Sound s)
    (hmake : (makeTables (max (ks.length * 2) h.config.dictMinCapacity)).Faults h P) :
    (dictGrow dict).Faults h P := by
  have hparts : h.dictParts dict = .ok parts := hs.dictParts_eq_ok.mpr hd.dict
  have hlength : h.arrayCapacity parts.keys = .ok ks.length :=
    hs.arrayCapacity_eq_ok.mpr ⟨ks, hd.keys, rfl⟩
  have hmul : Word.mul ks.length 2 = .ok (ks.length * 2) :=
    Word.fit_of_lt (hs.double_length_lt hd.keys)
  obtain ⟨entries, hentries⟩ :=
    hs.entriesFrom_answers hd.keys hd.tabled.hashable (Nat.zero_add _)
  have hget : (get : Action Failure Heap).runOn h = .ok (.ok h, h) := rfl
  intro f hf
  rw [dictGrow, Action.runOn_bind_ok (Action.runOn_read hparts),
    Action.runOn_bind_ok (Action.runOn_read hlength), Action.runOn_bind_ok hget,
    Action.runOn_bind_ok (Action.runOn_liftFailure hmul),
    Action.runOn_bind_ok (Action.runOn_ask hentries)] at hf
  refine Action.faults_bind (Action.faults_ofMemory hmake) ?_ f hf
  rw [Action.ends_ofMemory]
  refine (makeTables_lays hs _).imp ?_ fun _ _ _ => trivial
  rintro ⟨keys, values⟩ h₁ ⟨s₁, hs₁, hnew⟩
  obtain ⟨hleft, horder, -⟩ := hs.entriesFrom_eq_ok hd.keys (Nat.zero_add _) hentries
  have hfew := length_entries_le horder fun e he =>
    (List.getElem?_eq_some_iff.mp (hleft e he).2.1).1
  obtain ⟨h₂, h₃, h₄, h₅, h₆, h₇, hmove, hrel, hrel', hset, hset', hstore⟩ :=
    hs₁.tells.rebuild_answers (hd.rebuildable hs hentries hnew) (by omega)
  refine Action.Completes.faults ?_
  simp only [Action.completes_bind, Action.completes_update, Action.ends_update, hmove, hrel,
    hrel', hset, hset', hstore, Except.ok.injEq, exists_eq', forall_eq', true_and]

theorem makeTables_answers {h₁ h₂ : Heap} (hkeys : (makeArray room).runOn h = .ok (.ok keys, h₁))
    (hvalues : (makeArray room).runOn h₁ = .ok (.ok values, h₂)) :
    (makeTables room).runOn h = .ok (.ok (keys, values), h₂) := by
  have hundo : ((makeArray room).orUndo (·.release keys)).runOn h₁ = .ok (.ok values, h₂) := by
    rw [Action.runOn_orUndo, hvalues]
    rfl
  rw [makeTables, Action.runOn_bind_ok hkeys, Action.runOn_bind_ok hundo]
  rfl

/-- A dict grows if both of its new arrays can be made. -/
theorem OnTables.grow_answers {h₁ h₂ : Heap} (hd : OnTables s dict parts ks vs) (hs : h.Sound s)
    (hkeys : (makeArray (max (ks.length * 2) h.config.dictMinCapacity)).runOn h =
      .ok (.ok keys, h₁))
    (hvalues : (makeArray (max (ks.length * 2) h.config.dictMinCapacity)).runOn h₁ =
      .ok (.ok values, h₂)) : ∃ h', (dictGrow dict).runOn h = .ok (.ok (), h') := by
  have hmade := makeTables_answers hkeys hvalues
  have hnever : (dictGrow dict).Faults h fun _ => False :=
    hd.grow_faults hs fun f hf => nomatch hmade.symm.trans hf
  cases hrun : (dictGrow dict).runOn h with
  | error f => exact (hnever f hrun).elim
  | ok r =>
    obtain ⟨e | ⟨⟩, h'⟩ := r
    · obtain ⟨⟨m, -, hrefused⟩, -⟩ := (dictGrow_rebuilds hs hd).bad hrun
      exact nomatch hmade.symm.trans hrefused
    · exact ⟨h', rfl⟩

variable {k v : Reference} {size occupied : Nat} (hs : h.Sound s) (hl : s.Ledger arrays owned)
  (hm : h.Moderate)
include hs hl hm

theorem makeTables_completes (hroom : Layout.elementOffset room + 8 < Word.limit) :
    (makeTables room).Completes h := by
  simp only [makeTables, Action.completes_bind, Action.completes_orUndo, Action.ends_orUndo,
    Action.completes_pure]
  refine ⟨hs.makeArray_completes hm hroom, ?_⟩
  have hmoderate := (.array room : Creates True _).moderate hs hm
  refine ((hs.makeArray room).and hmoderate).imp ?_ fun _ _ _ => trivial
  rintro keys h₁ ⟨hmade, hm₁⟩
  obtain ⟨hnone, s₁, hs₁, hcontent₁, hcount₁⟩ := hmade.tells
  have hl₁ := hl.makeArray hnone hmade.live hcontent₁ hcount₁ (blank_replicate _)
  have hmade₂ := hs₁.makeArray room
  refine ⟨⟨hs₁.makeArray_completes hm₁ hroom, hmade₂.imp (fun _ _ _ => trivial) ?_⟩,
    hmade₂.imp (fun _ _ _ => trivial) fun _ _ _ _ _ => trivial⟩
  rintro _ _ rfl
  exact hs₁.owned_release_answers hl₁ List.mem_cons_self hmade.live

theorem dictGrow_completes (hd : s.content dict = some (.dict size occupied k v)) :
    (dictGrow dict).Completes h := by
  obtain ⟨ks, vs, hon⟩ : ∃ ks vs, OnTables s dict ⟨size, occupied, k, v⟩ ks vs :=
    OnTables.of_ledger hl hd
  have hcapacity := hs.length_le hm hon.keys
  have hminimum := hm.config.tables
  simp only [Layout.elementOffset, Layout.elementsOffset, Word.limit] at hminimum
  refine Action.completes_iff_faults.mpr
    (hon.grow_faults hs (makeTables_completes hs hl hm ?_).faults)
  simp only [Layout.elementOffset, Layout.elementsOffset, Word.limit]
  omega

end Growing

section Inserting

variable {k v : Reference} {size occupied : Nat} (hx : s.content key = some x)
  (hn : x.hash? = some hash) (hd : s.content dict = some (.dict size occupied k v))
  (hk : s.content k = some (.array ks)) (hs : h.Sound s) (hl : s.Ledger arrays owned)
include hx hn hd hk hs hl

theorem findKey_table_answers : ∃ o, h.findKey k hash key false = .ok o ∧
    Found s.content x false ks hash o := by
  obtain ⟨ks', vs, hk', -, htabled⟩ := hl.dicts hd
  cases hk.symm.trans hk'
  obtain ⟨o, hfind⟩ : ∃ o, h.findKey k hash key false = .ok o :=
    hs.findKey_answers hx hn hk fun q hq => htabled.toHashed.legible hq
  obtain ⟨us, hus, hfound⟩ := hs.findKey_eq_ok hx hn hfind
  cases hk.symm.trans hus
  exact ⟨o, hfind, hfound⟩

theorem slotFor_free_completes (hnull : .null ∈ ks) (attempts : Nat) :
    (slotFor dict hash key (attempts + 1)).Completes h := by
  have hparts : h.dictParts dict = .ok ⟨size, occupied, k, v⟩ := hs.dictParts_eq_ok.mpr hd
  obtain ⟨o, hfind, hfound⟩ := findKey_table_answers hx hn hd hk hs hl
  obtain ⟨slot, rfl, -⟩ := hfound.exists_slot hnull
  simp only [slotFor, Action.completes_bind, Action.completes_read, Action.ends_read, hparts,
    hfind, Except.ok.injEq, exists_eq', forall_eq', true_and, Action.completes_pure]

theorem slotFor_completes (hm : h.Moderate) (attempts : Nat) :
    (slotFor dict hash key (attempts + 2)).Completes h := by
  have hparts : h.dictParts dict = .ok ⟨size, occupied, k, v⟩ := hs.dictParts_eq_ok.mpr hd
  obtain ⟨o, hfind, -⟩ := findKey_table_answers hx hn hd hk hs hl
  rw [slotFor]
  simp only [Action.completes_bind, Action.completes_read, Action.ends_read, hparts, hfind,
    Except.ok.injEq, exists_eq', forall_eq', true_and]
  cases o with
  | some slot => exact Action.completes_pure
  | none =>
    refine Action.completes_bind.mpr ⟨dictGrow_completes hs hl hm hd, ?_⟩
    refine (dictGrow_regrows hs hl).imp ?_ fun _ _ _ => trivial
    rintro _ h₁ ⟨s₁, hs₁, hl₁, n, o, k', v', keys, values, ks', vs, us, ws, hd', hk', hv, hlength,
      hr⟩
    cases hd.symm.trans hd'
    cases hk.symm.trans hk'
    obtain ⟨hself, hus, -⟩ := hr.standing
    exact slotFor_free_completes (hr.others_key hd hk hv hx (by simp [hn])) hn hself hus hs₁ hl₁
      (hr.roomy (hl.tabled hd hk hv) hm.dicts hlength) attempts

end Inserting

theorem Stored.hash_refuses (hs : h.Stored s) (hx : s.content key = some x)
    (hkind : x.kind ≠ .array)
    (hn : x.hash? = none) : ∃ e, h.hash key = .ok (.error e) := by
  refine ⟨_, hs.hash_unhashable hx ?_⟩
  cases x with
  | list size values => exact .inl rfl
  | dict size occupied keys values => exact .inr rfl
  | array xs => exact absurd rfl hkind
  | _ => cases hn

theorem Stored.hash_answers (hs : h.Stored s) (hx : s.content key = some x)
    (hkind : x.kind ≠ .array) : ∃ a, h.hash key = .ok a := by
  cases hn : x.hash? with
  | none =>
    obtain ⟨e, hhash⟩ := hs.hash_refuses hx hkind hn
    exact ⟨_, hhash⟩
  | some hash => exact ⟨_, hs.hash_eq hx hn⟩

theorem Sound.entries_lt (hs : h.Sound s) (hl : s.Ledger arrays owned) (hm : h.Moderate)
    {size occupied : Nat} {k v : Reference} (hd : s.content dict = some (.dict size occupied k v)) :
    size + 1 < Word.limit ∧ occupied < 2 ^ 34 := by
  obtain ⟨ks, vs, hk, -, htabled⟩ := hl.dicts hd
  have hlength := hs.length_le hm hk
  have hsize := htabled.size_eq
  have hoccupied := htabled.occupied_eq
  have hle := List.countP_le_length (p := (·.isLive)) (l := ks)
  have hle' := List.countP_le_length (p := (!·.isNull)) (l := ks)
  simp only [Word.limit]
  omega

section Setting

variable {k v : Reference} {size occupied : Nat}
  (he : Editing h s kept arrays owned dict) (hm : h.Moderate) (hrare : Rare (arrays ++ owned))
  (hvalue : Seen s value)
include he hm hrare hvalue

section New

variable (hx : s.content key = some x) (hn : x.hash? = some hash)
  (hd : s.content dict = some (.dict size occupied k v)) (hk : s.content k = some (.array ks))
  (habsent : Absent s.content ks x)
include hx hd hk

theorem Editing.insert_answers {slot : Nat} {old : Reference} (hold : ks[slot]? = some old) :
    ∃ h', Enters dict key value ⟨size, occupied, k, v⟩ slot old h h' := by
  have hs := he.sound
  have hl := he.ledger
  obtain ⟨ks', vs, hk', hv, htabled⟩ := hl.dicts hd
  cases hk.symm.trans hk'
  have hkv := hl.keys_ne_values hd hk
  have hdk := Store.ne_of_content hd hk (by simp)
  have hdv := Store.ne_of_content hd hv (by simp)
  have hslot := (List.getElem?_eq_some_iff.mp hold).1
  obtain ⟨y, hy, -⟩ := hvalue
  obtain ⟨h₁, hret⟩ := hs.rare_retain_answers hl hm hrare hx
  have ht₁ := (hs.tells.retain hret).2
  have hcount : Function.update s.count key (s.count key + 1) value + 1 < Word.limit := by
    have hle := hs.count_le hl hm hrare value
    have hone := List.count_le_length (a := value) (l := [key])
    rw [Store.count_update_succ]
    simp only [List.length_singleton] at hone
    simp only [Word.limit]
    omega
  obtain ⟨h₂, hret'⟩ := ht₁.retain_answers hy hcount
  have ht₂ := (ht₁.retain hret').2
  obtain ⟨h₃, hset, ht₃⟩ := ht₂.arraySet_tells hk hslot key
  have hv₃ := (Function.update_of_ne hkv.symm (some (.array (ks.set slot key))) _).trans hv
  obtain ⟨h₄, hset', ht₄⟩ := ht₃.arraySet_tells hv₃ (htabled.paired ▸ hslot) value
  have hd₄ := (Function.update_of_ne hdv (some (.array (vs.set slot value))) _).trans
    ((Function.update_of_ne hdk (some (.array (ks.set slot key))) _).trans hd)
  obtain ⟨h₅, hstore⟩ :=
    ht₄.storeField_answers hd₄ (by change 24 + 8 ≤ 48; decide) (size + 1)
  obtain ⟨hsize, hoccupied⟩ := hs.entries_lt hl hm hd
  have hone := Bool.toNat_le old.isNull
  have ht₅ := ht₄.storeDictSize hd₄ hsize hstore
  obtain ⟨h', hstore'⟩ := ht₅.storeField_answers (Function.update_self ..)
    (by change 32 + 8 ≤ 48; decide) (occupied + old.isNull.toNat)
  exact ⟨h', hsize, by simp only [Word.limit]; omega, h₁, h₂, h₃, h₄, h₅, hret, hret', hset, hset',
    hstore, hstore'⟩

include hn habsent

theorem dictInsert_completes : (dictInsert dict hash key value).Completes h := by
  have hs := he.sound
  have hl := he.ledger
  have htraced : Traced .any (slotFor dict hash key maxGrowths) h :=
    slotFor_traced id (fun _ => False.elim) he hx hn hd hk habsent maxGrowths
  rw [dictInsert, Action.completes_bind]
  refine ⟨slotFor_completes hx hn hd hk hs hl hm 64, ?_⟩
  refine ((slotFor_ends he hx hn hd hk habsent maxGrowths).and htraced).imp ?_ fun _ _ _ => trivial
  rintro ⟨parts, slot⟩ h₁ ⟨⟨s₁, us, he₁, hr, -, hparts, hus, habsent₁, hfound⟩, hp₁⟩
  dsimp only at hparts hus hfound
  have hs₁ := he₁.sound
  have hm₁ := hp₁.moderate hs.consistent hm
  have hx₁ := hr.hashable hd hx hn
  have hvalue₁ := hr.seen hl hd hvalue
  obtain ⟨old, hold, -⟩ := hfound.free habsent₁
  have hget : h₁.arrayGet parts.keys slot = .ok old := hs₁.arrayGet_answers hus hold
  obtain ⟨h₇, henter⟩ := he₁.insert_answers hm₁ hrare hvalue₁ hx₁ hparts hus hold
  obtain ⟨-, hoccupied⟩ := hs₁.entries_lt he₁.ledger hm₁ hparts
  have hone := Bool.toNat_le old.isNull
  have htwice : (parts.occupied + old.isNull.toNat) * 2 < Word.limit := by
    simp only [Word.limit]
    omega
  obtain ⟨s₂, vs, he₂, -, hvs, hcontent₂, -⟩ :=
    he₁.insert hvalue₁ hx₁ hn hparts hus habsent₁ hfound hget henter
  have hdone : Trail .any h₁ s₁ h₇ :=
    (Trail.start hs₁).enter id (kind_of_content hparts) id id henter
  have hm₂ := hdone.path.moderate hs₁.consistent hm₁
  have hdict₂ : s₂.content dict = some (.dict (parts.size + 1) (parts.occupied + old.isNull.toNat)
      parts.keys parts.values) := by
    rw [hcontent₂, overwrite, Function.update_self]
  have hkeys₂ : ∃ capacity, h₇.arrayCapacity parts.keys = .ok capacity := by
    obtain ⟨us', -, hus', -⟩ := he₂.ledger.dicts hdict₂
    exact ⟨_, he₂.sound.arrayCapacity_eq_ok.mpr ⟨us', hus', rfl⟩⟩
  obtain ⟨capacity, hcapacity⟩ := hkeys₂
  obtain ⟨hsize, hlimit, h₂, h₃, h₄, h₅, h₆, hret, hret', hset, hset', hstore, hstore'⟩ := henter
  simp only [Action.completes_bind, Action.completes_read, Action.ends_read,
    Action.completes_update, Action.ends_update, Action.completes_liftFailure,
    Action.ends_liftFailure, Action.completes_ite, Action.completes_pure, Word.add, Word.mul, hget,
    hret, hret', hset, hset', Word.fit_of_lt hsize, hstore, Word.fit_of_lt hlimit, hstore',
    hcapacity, Word.fit_of_lt htwice, Except.ok.injEq, exists_eq', forall_eq', true_and,
    implies_true, and_true]
  exact fun _ => dictGrow_completes he₂.sound he₂.ledger hm₂ hdict₂

end New

theorem dictSet_completes (hkey : Seen s key)
    (hd : s.content dict = some (.dict size occupied k v)) :
    (dictSet dict key value).Completes h := by
  have hs := he.sound
  have hl := he.ledger
  obtain ⟨x, hx, hkind⟩ := hkey
  obtain ⟨ks, vs, hk, hv, htabled⟩ := hl.dicts hd
  have hparts : h.dictParts dict = .ok ⟨size, occupied, k, v⟩ := hs.dictParts_eq_ok.mpr hd
  rw [dictSet, Action.completes_bind, Action.completes_ask, Action.ends_ask]
  refine ⟨hs.hash_answers hx hkind, fun hash hhash => ?_, fun _ _ => trivial⟩
  obtain ⟨x', hx', hn⟩ := hs.hash_eq_ok.mp hhash
  cases hx.symm.trans hx'
  obtain ⟨o, hlookup⟩ := hs.lookup_answers hx hn hk fun q hq => htabled.toHashed.legible hq
  obtain ⟨ks', hk', hsome, hnone⟩ := hs.lookup_eq_ok hx hn hlookup
  cases hk.symm.trans hk'
  simp only [Action.completes_bind, Action.completes_read, Action.ends_read, hparts, hlookup,
    Except.ok.injEq, exists_eq', forall_eq', true_and]
  cases o with
  | none =>
    exact dictInsert_completes he hm hrare hvalue hx hn hd hk (hnone rfl vs htabled.toHashed)
  | some slot =>
    obtain ⟨p, hp, hplive, -⟩ := hsome slot rfl
    have hslot : slot < vs.length := htabled.paired ▸ (List.getElem?_eq_some_iff.mp hp).1
    have hold : vs[slot]? = some vs[slot] := List.getElem?_eq_getElem hslot
    obtain ⟨y, hy, hykind⟩ := hvalue
    obtain ⟨h₁, hret⟩ := hs.rare_retain_answers hl hm hrare hy
    obtain ⟨h₂, hset⟩ := (hs.tells.retain hret).2.arraySet_answers hv hslot value
    obtain ⟨s₂, hs₂, hl₂, -⟩ :=
      hs.replaceValue hl ⟨y, hy, hykind⟩ hd hk hv hp hplive hold hret hset
    simp only [Action.completes_bind, Action.completes_read, Action.ends_read,
      Action.completes_update, Action.ends_update, hs.arrayGet_answers hv hold, hret, hset,
      Except.ok.injEq, exists_eq', forall_eq', true_and]
    exact hs₂.release_answers hl₂ (htabled.value_live hp hplive hold)

end Setting

section Asking

variable {k v : Reference} {size occupied : Nat} (hs : h.Sound s) (hl : s.Ledger arrays owned)
  (hkey : Seen s key) (hd : s.content dict = some (.dict size occupied k v))
include hs hl hkey hd

theorem dictGet_completes (hm : h.Moderate) (hrare : Rare (arrays ++ owned)) :
    (dictGet dict key).Completes h := by
  obtain ⟨m, hmaps⟩ := hl.exists_mapping hd
  obtain ⟨x, hx, hkind⟩ := hkey
  cases hn : x.hash? with
  | none =>
    obtain ⟨e, hhash⟩ := hs.hash_refuses hx hkind hn
    exact ⟨_, _, Action.runOn_bind_error (Action.runOn_ask hhash)⟩
  | some hash =>
    cases he : m x with
    | none => exact ⟨_, _, hs.dictGet_unmapped hl hmaps hx hn he⟩
    | some e =>
      obtain ⟨-, n, o, k', v', ks, vs, slot, -, -, hd', hk', hv', -, hslot, hlive, hvalue⟩ :=
        hs.lookup_mapped hl hmaps hx he
      have hheld : e.2 ∈ s.held v' := by
        rw [Store.held_of_content hv']
        exact List.mem_filter.mpr ⟨List.mem_of_getElem? hvalue,
          (hl.tabled hd' hk' hv').value_live hslot hlive hvalue⟩
      obtain ⟨y, hy⟩ := hl.occupied_of_held hheld
      obtain ⟨h', hret⟩ := hs.rare_retain_answers hl hm hrare hy
      exact ⟨_, _, by rw [hs.dictGet_mapped hl hmaps hx he, hret]; rfl⟩

theorem dictDelete_completes : (dictDelete dict key).Completes h := by
  obtain ⟨m, hmaps⟩ := hl.exists_mapping hd
  obtain ⟨x, hx, hkind⟩ := hkey
  cases hn : x.hash? with
  | none =>
    obtain ⟨e, hhash⟩ := hs.hash_refuses hx hkind hn
    exact ⟨_, _, Action.runOn_bind_error (Action.runOn_ask hhash)⟩
  | some hash =>
    cases he : m x with
    | none => exact ⟨_, _, hs.dictDelete_unmapped hl hmaps hx hn he⟩
    | some e =>
      obtain ⟨h', hrun⟩ := hs.dictDelete_mapped hl hmaps hx he
      exact ⟨_, _, hrun⟩

end Asking

section Making

theorem setPairs_completes {pairs : List (Reference × Reference)} {m : Mapping}
    (he : Editing h s kept arrays (dict :: owned) dict) (hlive : dict.isLive = true)
    (hstands : Standing kept (arrays ++ dict :: owned)) (hm : h.Moderate)
    (hrare : Rare (arrays ++ dict :: owned)) (hmaps : s.Maps dict m)
    (hseen : ∀ p ∈ pairs, Seen kept p.1 ∧ Seen kept p.2) :
    (pairs.forM fun p => (dictSet dict p.1 p.2).orUndo (·.release dict)).Completes h := by
  induction pairs generalizing h s m with
  | nil => exact Action.completes_pure
  | cons pair rest ih =>
    obtain ⟨hkey, hvalue⟩ := hseen pair List.mem_cons_self
    obtain ⟨n, o, k, v, -, -, hd, -⟩ := id hmaps
    have hvalue' := hvalue.mono he.fewer
    have htraced : Traced .any (dictSet dict pair.1 pair.2) h :=
      dictSet_traced id (fun _ => False.elim) he hvalue'
    have hends : (dictSet dict pair.1 pair.2).Ends h _ _ := dictSet_ends he hstands hvalue'
    refine Action.completes_bind.mpr ⟨Action.completes_orUndo.mpr
      ⟨dictSet_completes he hm hrare hvalue' (hkey.mono he.fewer) hd, ?_⟩, ?_⟩
    · refine hends.imp (fun _ _ _ => trivial) fun e h₁ hu => ?_
      obtain ⟨s₁, hs₁, hl₁, -⟩ := he.balanced_unset hu
      exact hs₁.release_answers hl₁ hlive
    · refine Action.ends_orUndo.mpr ((hends.and htraced).imp ?_ fun _ _ _ _ _ => trivial)
      rintro _ h₁ ⟨⟨s₁, he₁, x, hash, -, -, hremaps⟩, hp⟩
      have hthere := he₁.ledger.exact.occupied hlive (by simp)
      exact ih he₁ (hp.moderate he.sound.consistent hm) (hremaps hthere m hmaps)
        fun p hp => hseen p (List.mem_cons_of_mem _ hp)

theorem overTables_completes {xs : List Reference} (hs : h.Sound s)
    (hl : s.Ledger (values :: keys :: arrays) owned) (hm : h.Moderate) (hne : keys ≠ values)
    (hkeys : s.content keys = some (.array xs)) (hvalues : s.content values = some (.array xs)) :
    ((makeDict keys values).orUndo fun h => do (← h.release keys).release values).Completes h := by
  refine Action.completes_orUndo.mpr ⟨hs.makeDict_completes hm hkeys hvalues rfl,
    (hs.makeDict keys values).imp (fun _ _ _ => trivial) ?_⟩
  rintro _ _ rfl
  obtain ⟨h₁, hrel⟩ := hs.owned_release_answers hl (r := keys) (by simp) (hl.live hkeys)
  obtain ⟨s₁, hs₁, hl₁, hcontent₁⟩ := hs.releaseFree hl hkeys (by simp) hrel
  have hvalues₁ : s₁.content values = some (.array xs) := by
    rw [hcontent₁, Function.update_of_ne hne.symm, hvalues]
  obtain ⟨h₂, hrel'⟩ := hs₁.owned_release_answers hl₁ (r := values)
    (by simp [List.erase_cons_tail, hne.symm]) (hl₁.live hvalues₁)
  exact ⟨h₂, bind_eq_ok.mpr ⟨h₁, hrel, hrel'⟩⟩

theorem newDict_completes {pairs : List (Reference × Reference)} (hs : h.Sound s)
    (hl : s.Ledger arrays owned) (hm : h.Moderate) (hrare : Rare (arrays ++ owned))
    (hseen : ∀ p ∈ pairs, Seen s p.1 ∧ Seen s p.2)
    (hlength : Layout.elementOffset (pairs.length * 2) + 8 < Word.limit) :
    (newDict pairs).Completes h := by
  have hminimum := hm.config.tables
  simp only [Layout.elementOffset, Layout.elementsOffset, Word.limit] at hlength hminimum
  have hmul : Word.mul pairs.length 2 = .ok (pairs.length * 2) :=
    Word.fit_of_lt (by simp only [Word.limit]; omega)
  have hroom : Layout.elementOffset (max (pairs.length * 2) h.config.dictMinCapacity) + 8 <
      Word.limit := by
    simp only [Layout.elementOffset, Layout.elementsOffset, Word.limit]
    omega
  have htraced := @makeTables_traced .any _ _ hs (fun _ => False.elim)
    (max (pairs.length * 2) h.config.dictMinCapacity)
  simp only [newDict, Action.completes_bind, Action.completes_getFailure, Action.ends_getFailure,
    Action.completes_liftFailure, Action.ends_liftFailure, Action.completes_ofMemory,
    Action.ends_ofMemory, hmul, Except.ok.injEq, exists_eq', forall_eq', true_and,
    Action.completes_pure]
  refine ⟨makeTables_completes hs hl hm hroom,
    ((makeTables_ends hs hl _).and htraced).imp ?_ fun _ _ _ => trivial⟩
  rintro ⟨keys, values⟩ h₁ ⟨⟨s₁, hs₁, hl₁, hknone, hvnone, hne, hcontent₁, -⟩, hp, -⟩
  dsimp only at hl₁ hknone hvnone hne hcontent₁ ⊢
  have hm₁ := hp.moderate hs.consistent hm
  obtain ⟨hkeys, hvalues⟩ := content_tables hne hcontent₁
  refine ⟨overTables_completes hs₁ hl₁ hm₁ hne hkeys hvalues, ?_⟩
  have hmoderate : ((makeDict keys values).orUndo fun h => do
      (← h.release keys).release values).Ends h₁ (fun _ h' => h'.Moderate) fun _ _ => True :=
    Action.ends_orUndo.mpr (((.dict keys values : Creates True _).moderate hs₁ hm₁).imp
      (fun _ _ hm => hm) fun _ _ _ _ _ => trivial)
  refine ((overTables_ends hs₁ hl₁ hknone hvnone hne hcontent₁).and hmoderate).imp ?_
    fun _ _ _ => trivial
  rintro dict h₂ ⟨⟨s₂, he, -, hlive, hempty, -⟩, hm₂⟩
  have hstands : Standing s (arrays ++ dict :: owned) := (standing_of_ledger hl).mono fun q => by
    rw [List.count_append, List.count_append, Store.count_owner]
    omega
  have hrare₂ : Rare (arrays ++ dict :: owned) :=
    (hl.rare_cons hrare he.unkept hlive).perm List.perm_middle.symm
  exact ⟨setPairs_completes he hlive hstands hm₂ hrare₂ hempty hseen, Action.ends_true⟩

end Making

end Heap
end CountedHeap
