import CountedHeap.Proofs.DictAccounts
import CountedHeap.Proofs.Paths

/-!
What operations leave alone. Each operation is a path on which it writes to the value that it is
asked to change, to the storage behind that value and to what it makes itself.
-/

namespace CountedHeap

namespace Heap

/-- A path to the heap of a store that is later than the one that is named. -/
structure Trail (sc : Scope) (h₀ : Heap) (s : Store) (h : Heap) : Prop where
  path : Path sc h₀ h
  after : h.After s

variable {sc : Scope} {h₀ h h' : Heap} {s s' kept : Store}
  {r v dict key value : Reference} {arrays owned : List Reference}

theorem After.kindOf {k : Kind} (ha : h.After s) (hx : ∀ x, s.content r = some x → x.kind = k)
    (hlive : ∃ addr, h.deref r = .ok addr) : h.kindOf r = .ok k := by
  obtain ⟨s', hs', hl⟩ := ha
  obtain ⟨addr, hd⟩ := hlive
  obtain ⟨c, hc, -⟩ := hs'.deref_eq_ok.mp hd
  obtain ⟨x, hr, hk⟩ := hl r c.content (Store.content_of hc)
  rw [hs'.kindOf_eq hc, ← hk, hx x hr]

theorem release_path (hc : h.Consistent) (hrel : h.release r = .ok h') :
    Path sc h h' := by
  -- The values whose blocks are still to be freed have no count left, and none is listed twice.
  have hinv : TaskInvariant fun tasks h₁ => Path sc h h₁ ∧ ∃ s₁, h₁.Sound s₁ ∧
      (discarded tasks).Nodup ∧ ∀ q ∈ discarded tasks, s₁.count q = 0 := by
    refine ⟨?_, ?_, ?_⟩
    · rintro q rest h₁ h₂ ⟨hp, s₁, hs₁, hnodup, hzero⟩ hdiscard
      obtain ⟨c, hq, hs₂⟩ := hs₁.discard hdiscard
      obtain ⟨hnot, hnodup⟩ := List.nodup_cons.mp hnodup
      have hcount := hzero q List.mem_cons_self
      rw [Store.count_eq hq] at hcount
      refine ⟨hp.tail (.discard (by rw [hs₁.refcount_eq hq, hcount]) hdiscard), _, hs₂, hnodup,
        fun p hpm => ?_⟩
      rw [Store.count_erase, Function.update_of_ne (fun heq : p = q => hnot (heq ▸ hpm))]
      exact hzero p (List.mem_cons_of_mem _ hpm)
    · rintro q rest h₁ h₂ ⟨hp, s₁, hs₁, hnodup, hzero⟩ hgive
      obtain ⟨c, hq, hs₂, -⟩ := hs₁.giveUp hgive
      refine ⟨hp.tail (.giveUp hgive), _, hs₂, hnodup, fun p hpm => ?_⟩
      have hcount := hzero p hpm
      rw [Store.count_set]
      by_cases hpq : p = q
      · subst hpq
        rw [Store.count_eq hq] at hcount
        rw [Function.update_self, hcount]
      · rwa [Function.update_of_ne hpq]
    · rintro q rest h₁ h₂ held ⟨hp, s₁, hs₁, hnodup, hzero⟩ hgive
      obtain ⟨c, hq, hs₂, ho⟩ := hs₁.giveUp hgive
      have hone : c.count = 1 := by
        by_contra hne
        rw [if_neg hne] at ho
        cases ho
      have hnot : q ∉ discarded rest := fun hmem => by
        have hcount := hzero q hmem
        rw [Store.count_eq hq] at hcount
        omega
      refine ⟨hp.tail (.giveUp hgive), _, hs₂, ?_, fun p hpm => ?_⟩
      · rw [discarded_dead]
        exact List.nodup_cons.mpr ⟨hnot, hnodup⟩
      · rw [Store.count_set]
        by_cases hpq : p = q
        · rw [hpq, Function.update_self, hone]
        · rw [discarded_dead] at hpm
          rw [Function.update_of_ne hpq]
          exact hzero p ((List.mem_cons.mp hpm).resolve_left hpq)
  obtain ⟨s, hs⟩ := hc
  exact (hinv.releaseAll ⟨.refl, s, hs, by simp [discarded], by simp [discarded]⟩ hrel).1

theorem Creates.path {x : Action OutOfMemory Reference} (hx : Creates sc.consts x) (hs : h.Sound s)
    (hfixed : ∀ q, sc.fixed q → h.Occupied q) :
    x.Ends h
      (fun r h' => Path sc h h' ∧ ¬sc.fixed r ∧ ∀ q, h.Occupied q → h'.Occupied q)
      fun _ h' => h' = h := by
  intro a h' hrun
  cases a with
  | error e => exact (hx.made hs).bad hrun
  | ok r =>
    obtain ⟨y, hm, -⟩ := (hx.made hs).good hrun
    obtain ⟨addr, hs'⟩ := hm.sound
    exact ⟨.single (.create hx hfixed hrun), fun hr => hm.not_occupied hs.toStored (hfixed r hr),
      fun q hq => hs'.occupied_set hs hq⟩

namespace Trail

theorem start (hs : h.Sound s) : Trail sc h s h := ⟨.refl, hs.after⟩

theorem retain (ht : Trail sc h₀ s h) (hret : h.retain r = .ok h') :
    Trail sc h₀ s h' := ⟨ht.path.tail (.retain hret), ht.after.retain hret⟩

theorem release (ht : Trail sc h₀ s h) (hrel : h.release r = .ok h') :
    Trail sc h₀ s h' :=
  ⟨ht.path.trans (release_path ht.after.consistent hrel), ht.after.release hrel⟩

theorem arraySet (ht : Trail sc h₀ s h) (hr : sc.fixed r → sc.edited r) {i : Nat}
    (hset : h.arraySet r i v = .ok h') : Trail sc h₀ s h' :=
  ⟨ht.path.tail (.arraySet hr hset), ht.after.arraySet hset⟩

section Fields

variable {n : Nat}

theorem storeListSize (ht : Trail sc h₀ s h) (hr : sc.fixed r → sc.edited r)
    (hx : ∀ x, s.content r = some x → x.kind = .list) (hn : n < Word.limit)
    (hset : h.storeField r Layout.listSizeOffset n = .ok h') : Trail sc h₀ s h' :=
  ⟨ht.path.tail (.storeField hr (ht.after.kindOf hx (deref_of_storeField hset)) (by decide) hn
    hset),
    ht.after.storeListSize hx hn hset⟩

theorem storeListValues (ht : Trail sc h₀ s h) (hr : sc.fixed r → sc.edited r)
    (hx : ∀ x, s.content r = some x → x.kind = .list)
    (hset : h.storeReference r Layout.listValuesOffset v = .ok h') : Trail sc h₀ s h' :=
  ⟨ht.path.tail (.storeReference hr (ht.after.kindOf hx (deref_of_storeReference hset))
    (by decide) hset), ht.after.storeListValues hx hset⟩

theorem storeDictSize (ht : Trail sc h₀ s h) (hr : sc.fixed r → sc.edited r)
    (hx : ∀ x, s.content r = some x → x.kind = .dict) (hn : n < Word.limit)
    (hset : h.storeField r Layout.dictSizeOffset n = .ok h') : Trail sc h₀ s h' :=
  ⟨ht.path.tail (.storeField hr (ht.after.kindOf hx (deref_of_storeField hset)) (by decide) hn
    hset),
    ht.after.storeDictSize hx hn hset⟩

theorem storeDictOccupied (ht : Trail sc h₀ s h) (hr : sc.fixed r → sc.edited r)
    (hx : ∀ x, s.content r = some x → x.kind = .dict) (hn : n < Word.limit)
    (hset : h.storeField r Layout.dictOccupiedOffset n = .ok h') : Trail sc h₀ s h' :=
  ⟨ht.path.tail (.storeField hr (ht.after.kindOf hx (deref_of_storeField hset)) (by decide) hn
    hset),
    ht.after.storeDictOccupied hx hn hset⟩

theorem storeDictKeys (ht : Trail sc h₀ s h) (hr : sc.fixed r → sc.edited r)
    (hx : ∀ x, s.content r = some x → x.kind = .dict)
    (hset : h.storeReference r Layout.dictKeysOffset v = .ok h') : Trail sc h₀ s h' :=
  ⟨ht.path.tail (.storeReference hr (ht.after.kindOf hx (deref_of_storeReference hset))
    (by decide) hset), ht.after.storeDictKeys hx hset⟩

theorem storeDictValues (ht : Trail sc h₀ s h) (hr : sc.fixed r → sc.edited r)
    (hx : ∀ x, s.content r = some x → x.kind = .dict)
    (hset : h.storeReference r Layout.dictValuesOffset v = .ok h') : Trail sc h₀ s h' :=
  ⟨ht.path.tail (.storeReference hr (ht.after.kindOf hx (deref_of_storeReference hset))
    (by decide) hset), ht.after.storeDictValues hx hset⟩

end Fields

theorem enter {parts : DictParts} {slot : Nat} {old : Reference} (ht : Trail sc h₀ s h)
    (hdict : sc.fixed dict → sc.edited dict) (hx : ∀ x, s.content dict = some x → x.kind = .dict)
    (hkeys : ¬sc.fixed parts.keys) (hvalues : ¬sc.fixed parts.values)
    (henter : Enters dict key value parts slot old h h') : Trail sc h₀ s h' := by
  obtain ⟨hsize, hoccupied, h₁, h₂, h₃, h₄, h₅, hret, hret', hset, hset', hstore, hstore'⟩ := henter
  have hplaced := (((ht.retain hret).retain hret').arraySet (fun hf => absurd hf hkeys)
    hset).arraySet (fun hf => absurd hf hvalues) hset'
  exact (hplaced.storeDictSize hdict hx hsize hstore).storeDictOccupied hdict hx hoccupied hstore'

section Moves

variable {source dest values : Reference} {index count : Nat} {elements : List Reference}

theorem placeFrom (ht : Trail sc h₀ s h) (hr : sc.fixed values → sc.edited values)
    (hplace : h.placeFrom values index elements = .ok h') : Trail sc h₀ s h' := by
  induction elements generalizing h index with
  | nil =>
    cases hplace
    exact ht
  | cons q rest ih =>
    simp only [Heap.placeFrom, bind_eq_ok] at hplace
    obtain ⟨h₁, hret, h₂, hset, hrest⟩ := hplace
    exact ih ((ht.retain hret).arraySet hr hset) hrest

theorem moveFrom (ht : Trail sc h₀ s h) (hsource : sc.fixed source → sc.edited source)
    (hdest : sc.fixed dest → sc.edited dest) (hmove : h.moveFrom source dest index count = .ok h') :
    Trail sc h₀ s h' := by
  induction count generalizing h index with
  | zero =>
    cases hmove
    exact ht
  | succ count ih =>
    simp only [Heap.moveFrom, bind_eq_ok] at hmove
    obtain ⟨q, -, h₁, hset, h₂, hclear, hrest⟩ := hmove
    exact ih ((ht.arraySet hdest hset).arraySet hsource hclear) hrest

theorem shiftFrom (ht : Trail sc h₀ s h) (hr : sc.fixed values → sc.edited values)
    (hshift : h.shiftFrom values index count = .ok h') : Trail sc h₀ s h' := by
  induction count generalizing h index with
  | zero =>
    cases hshift
    exact ht
  | succ count ih =>
    simp only [Heap.shiftFrom, bind_eq_ok] at hshift
    obtain ⟨q, -, h₁, hset, hrest⟩ := hshift
    exact ih (ht.arraySet hr hset) hrest

theorem moveEntries {parts : DictParts} {keys : Reference} {entries : List Entry}
    (ht : Trail sc h₀ s h)
    (htables : ∀ q ∈ [parts.keys, parts.values, keys, values], ¬sc.fixed q)
    (hmove : entries.foldlM (Heap.moveEntry · parts keys values ·) h = .ok h') :
    Trail sc h₀ s h' := by
  have hfree : ∀ q ∈ [parts.keys, parts.values, keys, values], sc.fixed q → sc.edited q :=
    fun q hq hfixed => absurd hfixed (htables q hq)
  induction entries generalizing h with
  | nil =>
    cases hmove
    exact ht
  | cons e rest ih =>
    simp only [List.foldlM_cons, bind_eq_ok] at hmove
    obtain ⟨h₁, hentry, hrest⟩ := hmove
    refine ih ?_ hrest
    simp only [Heap.moveEntry, bind_eq_ok] at hentry
    obtain ⟨o, -, hentry⟩ := hentry
    cases o with
    | none => cases hentry
    | some target =>
      simp only [bind_eq_ok] at hentry
      obtain ⟨q, -, h₂, hkey, h₃, hvalue, h₄, hclear, hclear'⟩ := hentry
      exact (((ht.arraySet (hfree _ (by simp)) hkey).arraySet (hfree _ (by simp)) hvalue).arraySet
        (hfree _ (by simp)) hclear).arraySet (hfree _ (by simp)) hclear'

end Moves

end Trail

def Traced {ε α : Type} (sc : Scope) (x : Action ε α) (h : Heap) : Prop :=
  x.Ends h (fun _ h' => Path sc h h') fun _ h' => Path sc h h'

def Born {ε : Type} (sc : Scope) (x : Action ε Reference) (h : Heap) : Prop :=
  x.Ends h (fun r h' => Path sc h h' ∧ ¬sc.fixed r) fun _ h' => Path sc h h'

theorem Creates.born {x : Action OutOfMemory Reference} (hx : Creates sc.consts x) (hs : h.Sound s)
    (hfixed : ∀ q, sc.fixed q → h.Occupied q) : Born sc x h :=
  (hx.path hs hfixed).imp (fun _ _ ⟨hp, hr, _⟩ => ⟨hp, hr⟩) fun _ _ he => he ▸ .refl

section Lists

theorem Trail.create {x : Action OutOfMemory Reference} (ht : Trail sc h₀ s h)
    (hx : Creates sc.consts x) (hs : h.Sound s) (hfixed : ∀ q, sc.fixed q → h.Occupied q) :
    x.Ends h
      (fun r h' => ¬sc.fixed r ∧ (∀ q, h.Occupied q → h'.Occupied q) ∧ Path sc h₀ h')
      fun _ h' => h' = h :=
  (hx.path hs hfixed).imp (fun _ _ ⟨hp, hr, hkeep⟩ => ⟨hr, hkeep, ht.path.trans hp⟩)
    fun _ _ he => he

theorem newList_born (elements : List Reference) (hs : h.Sound s)
    (hfixed : ∀ q, sc.fixed q → h.Occupied q) : Born sc (newList elements) h := by
  simp only [Born, newList, Action.ends_bind, Action.ends_orUndo, Action.ends_update,
    Action.ends_pure]
  have ht₀ : Trail sc h s h := .start hs
  refine ((hs.makeArray elements.length).and (ht₀.create (.array _) hs hfixed)).imp ?_
    fun _ _ he => he.1 ▸ .refl
  rintro values h₁ ⟨hm, hvalues, hkeep, hp⟩
  obtain ⟨addr, hs₁⟩ := hm.sound
  have ht : Trail sc h _ h₁ := ⟨hp, hs₁.after⟩
  refine ((hs₁.makeList values).and
    (ht.create (.list _) hs₁ fun q hq => hkeep q (hfixed q hq))).imp ?_ ?_
  · rintro list h₂ ⟨⟨-, hm₂⟩, hlist, -, hp₂⟩ h₃ hplace h₄ hstore
    obtain ⟨s₂, ha, hcontent, -⟩ := hm₂.after
    have hlt := hs₁.arrayLength_lt Store.content_set_self
    rw [List.length_replicate] at hlt
    have ht₂ : Trail sc h s₂ h₂ := ⟨hp₂, ha⟩
    exact ⟨((ht₂.placeFrom (fun hf => absurd hf hvalues) hplace).storeListSize
      (fun hf => absurd hf hlist) (kind_of_content hcontent) hlt hstore).path, hlist⟩
  · rintro _ _ ⟨rfl, -⟩ h₃ hrel
    exact (ht.release hrel).path

theorem Trail.push {list values item : Reference} {h₁ h₂ : Heap} {i : Nat}
    (ht : Trail sc h₀ s h) (hlist : sc.fixed list → sc.edited list)
    (hvalues : sc.fixed values → sc.edited values)
    (hx : ∀ x, s.content list = some x → x.kind = .list) (hret : h.retain item = .ok h₁)
    (hset : h₁.arraySet values i item = .ok h₂)
    (hstore : h₂.storeField list Layout.listSizeOffset (i + 1) = .ok h') :
    Path sc h₀ h' := by
  have ht₁ := ht.retain hret
  exact ((ht₁.arraySet hvalues hset).storeListSize hlist hx (ht₁.after.index_lt hset) hstore).path

variable {list : Reference} (hs : h.Sound s) (hlist : sc.fixed list → sc.edited list)
  (hstorage : ∀ n v, s.content list = some (.list n v) → ¬sc.fixed v)
include hs hlist hstorage

theorem listPush_traced (item : Reference) (hfixed : ∀ q, sc.fixed q → h.Occupied q) :
    Traced sc (listPush list item) h := by
  simp only [Traced, listPush, roomFor, Action.ends_bind, Action.ends_read, Action.ends_ite,
    Action.ends_liftM, Action.ends_update, Action.ends_pure, hs.listParts_eq_ok,
    hs.arrayCapacity_eq_ok]
  rintro parts hparts capacity ⟨xs, hxs, rfl⟩
  have hvalues := hstorage _ _ hparts
  have ht : Trail sc h s h := .start hs
  refine ⟨fun _ room _ => ?_, fun _ h₁ hret h₂ hset h₃ hstore => ?_⟩
  · refine ((hs.makeArray _).and (ht.create (.array _) hs hfixed)).imp ?_
      fun _ _ he => he.1 ▸ .refl
    rintro grown h₁ ⟨hm, hgrown, -, hp⟩ h₂ hmove h₃ hrel h₄ hstore h₅ hret h₆ hset h₇ hstore'
    obtain ⟨s₁, ha, -, hold⟩ := hm.after
    have hx := kind_of_content (hold _ _ hparts)
    have ht₁ : Trail sc h s₁ h₁ := ⟨hp, ha⟩
    have ht₂ := ((ht₁.moveFrom (fun hf => absurd hf hvalues) (fun hf => absurd hf hgrown)
      hmove).release hrel).storeListValues hlist hx hstore
    exact ht₂.push hlist (fun hf => absurd hf hgrown) hx hret hset hstore'
  · exact ht.push hlist (fun hf => absurd hf hvalues) (kind_of_content hparts) hret hset hstore

omit hlist in
theorem listAssign_traced (index item : Reference) :
    Traced sc (listAssign list index item) h := by
  simp only [Traced, listAssign, Action.ends_bind, Action.ends_ask, Action.ends_read,
    Action.ends_update, hs.listParts_eq_ok]
  refine ⟨fun i _ parts hparts replaced _ h₁ hret h₂ hset h₃ hrel => ?_, fun _ _ => .refl⟩
  have hvalues := hstorage _ _ hparts
  exact (((Trail.start hs).retain hret).arraySet (fun hf => absurd hf hvalues) hset).release
    hrel |>.path

theorem listDelete_traced (index : Reference) :
    Traced sc (listDelete list index) h := by
  simp only [Traced, listDelete, Action.ends_bind, Action.ends_ask, Action.ends_read,
    Action.ends_update, hs.listParts_eq_ok]
  refine ⟨?_, fun _ _ => .refl⟩
  rintro i _ parts hparts removed _ h₁ hshift h₂ hset h₃ hstore h₄ hrel
  have hvalues := hstorage _ _ hparts
  have hlt := hs.listSize_lt hparts
  exact ((((Trail.start hs).shiftFrom (fun hf => absurd hf hvalues) hshift).arraySet
    (fun hf => absurd hf hvalues) hset).storeListSize hlist (kind_of_content hparts) (by omega)
      hstore).release hrel |>.path

end Lists

theorem listSubscript_traced (list index : Reference) :
    Traced sc (listSubscript list index) h := by
  simp only [Traced, listSubscript, Action.ends_bind, Action.ends_ask, Action.ends_read,
    Action.ends_update, Action.ends_pure]
  exact ⟨fun i _ element _ h' hret => .single (.retain hret), fun _ _ => .refl⟩

section Dicts

theorem makeTables_traced (hs : h.Sound s) (hfixed : ∀ q, sc.fixed q → h.Occupied q) (room : Nat) :
    (makeTables room).Ends h
      (fun t h' => Path sc h h' ∧ (∀ q, sc.fixed q → h'.Occupied q) ∧ ¬sc.fixed t.1 ∧ ¬sc.fixed t.2)
      fun _ h' => Path sc h h' := by
  simp only [Heap.makeTables, Action.ends_bind, Action.ends_orUndo, Action.ends_pure]
  have ht : Trail sc h s h := .start hs
  refine ((hs.makeArray _).and (ht.create (.array _) hs hfixed)).imp ?_ fun _ _ he => he.1 ▸ .refl
  rintro keys h₁ ⟨hm, hkeys, hkeep, hp⟩
  obtain ⟨addr, hs₁⟩ := hm.sound
  have ht₁ : Trail sc h _ h₁ := ⟨hp, hs₁.after⟩
  refine (ht₁.create (.array _) hs₁ fun q hq => hkeep q (hfixed q hq)).imp ?_ ?_
  · rintro values h₂ ⟨hvalues, hkeep₂, hp₂⟩
    exact ⟨hp₂, fun q hq => hkeep₂ q (hkeep q (hfixed q hq)), hkeys, hvalues⟩
  · rintro _ _ rfl h₃ hrel
    exact (ht₁.release hrel).path

theorem Editing.fixed_occupied (he : Editing h s kept arrays owned dict)
    (hkept : ∀ q, sc.fixed q → q = dict ∨ kept.content q ≠ none) (hdict : h.Occupied dict)
    (q : Reference) (hq : sc.fixed q) : h.Occupied q := by
  rcases hkept q hq with rfl | hne
  · exact hdict
  · obtain ⟨x, hx⟩ := Option.ne_none_iff_exists'.mp hne
    obtain ⟨c, hc, -⟩ := Store.content_eq_some.mp (he.fewer q x hx)
    exact he.sound.occupied_iff.mpr ⟨c, hc⟩

theorem Sound.occupied_of_content (hs : h.Sound s) {x : Content} (hr : s.content r = some x) :
    h.Occupied r := by
  obtain ⟨c, hc, -⟩ := Store.content_eq_some.mp hr
  exact hs.occupied_iff.mpr ⟨c, hc⟩

theorem Editing.tables_free (he : Editing h s kept arrays owned dict)
    (hkept : ∀ q, sc.fixed q → q = dict ∨ kept.content q ≠ none) {n o : Nat} {k v : Reference}
    (hd : s.content dict = some (.dict n o k v)) : ¬sc.fixed k ∧ ¬sc.fixed v := by
  obtain ⟨hk, hv⟩ := he.tables hd
  obtain ⟨ks, vs, hks, hvs, -⟩ := he.ledger.dicts hd
  exact ⟨fun hf => (hkept k hf).elim (Store.ne_of_content hks hd nofun) (absurd hk),
    fun hf => (hkept v hf).elim (Store.ne_of_content hvs hd nofun) (absurd hv)⟩

variable (hdict : sc.fixed dict → sc.edited dict)
  (hkept : ∀ q, sc.fixed q → q = dict ∨ kept.content q ≠ none)
include hdict hkept

theorem dictGrow_traced (he : Editing h s kept arrays owned dict) :
    Traced sc (dictGrow dict) h := by
  have hs := he.sound
  simp only [Traced, dictGrow, Action.ends_bind, Action.ends_read, Action.ends_getFailure,
    Action.ends_liftFailure, Action.ends_ask, Action.ends_update, Action.ends_ofMemory,
    hs.dictParts_eq_ok]
  rintro parts hparts capacity _ room _
  have hfixed := he.fixed_occupied hkept (hs.occupied_of_content hparts)
  obtain ⟨hpk, hpv⟩ := he.tables_free hkept hparts
  refine ⟨fun entries _ => ?_, fun _ _ => .refl⟩
  refine ((hs.makeTables _).and (makeTables_traced hs hfixed _)).imp ?_ fun _ _ hp => hp.2
  rintro ⟨keys, values⟩ h₁ ⟨⟨addr, hunused, hlive, hm⟩, hp, -, hkeys, hvalues⟩ h₂ hmove h₃ hrel h₄
    hrel' h₅ hset h₆ hset' h₇ hstore
  obtain ⟨s₁, ha, -, hold⟩ := hm.after
  have hx := kind_of_content (hold _ _ (content_set_of_unused hunused hparts))
  have ht : Trail sc h s₁ h₁ := ⟨hp, ha⟩
  have hmoved := ((ht.moveEntries (by simp [hpk, hpv, hkeys, hvalues]) hmove).release
    hrel).release hrel'
  exact (((hmoved.storeDictKeys hdict hx hset).storeDictValues hdict hx hset').storeDictOccupied
    hdict hx (hs.dictSize_lt hparts) hstore).path

variable {n o : Nat} {k : Reference} {ks : List Reference} {x : Content} {hash : UInt64}

theorem slotFor_traced (he : Editing h s kept arrays owned dict) (hx : s.content key = some x)
    (hn : x.hash? = some hash) (hd : s.content dict = some (.dict n o k v))
    (hk : s.content k = some (.array ks)) (habsent : Absent s.content ks x) (attempts : Nat) :
    Traced sc (slotFor dict hash key attempts) h := by
  induction attempts generalizing h s n o k v ks with
  | zero => simp only [Traced, slotFor, Action.ends_fault]
  | succ attempts ih =>
    refine slotFor_steps he.sound hx hn hd hk (fun _ _ => .refl) fun _ => ?_
    refine ((dictGrow_ends he).and (dictGrow_traced hdict hkept he)).imp ?_ fun _ _ hp => hp.2
    rintro _ h₁ ⟨⟨s₁, he₁, hr, -⟩, hp⟩
    obtain ⟨o₁, k₁, v₁, us, hd₁, hk₁, -⟩ := hr.keys hd hk
    exact (ih he₁ (hr.hashable hd hx hn) hd₁ hk₁
      (hr.absent he.ledger hd hk habsent hd₁ hk₁)).imp (fun _ _ hp' => hp.trans hp')
        fun _ _ hp' => hp.trans hp'

theorem dictInsert_traced (he : Editing h s kept arrays owned dict) (hvalue : Seen s value)
    (hx : s.content key = some x) (hn : x.hash? = some hash)
    (hd : s.content dict = some (.dict n o k v)) (hk : s.content k = some (.array ks))
    (habsent : Absent s.content ks x) :
    Traced sc (dictInsert dict hash key value) h := by
  refine dictInsert_steps (((slotFor_ends he hx hn hd hk habsent maxGrowths).and
    (slotFor_traced hdict hkept he hx hn hd hk habsent maxGrowths)).imp (fun _ _ hp => hp)
      fun _ _ hp => hp.2) ?_
  rintro parts slot h₁ old h₂ capacity ⟨⟨s₁, us, he₁, hr, -, hparts, hus, habsent₁, hfound⟩, hp⟩
    hget henter -
  obtain ⟨hpk, hpv⟩ := he₁.tables_free hkept hparts
  have ht : Trail sc h s₁ h₁ := ⟨hp, he₁.sound.after⟩
  have hdone := ht.enter hdict (kind_of_content hparts) hpk hpv henter
  obtain ⟨s', -, he', -⟩ := he₁.insert (hr.seen he.ledger hd hvalue) (hr.hashable hd hx hn) hn
    hparts hus habsent₁ hfound hget henter
  refine ⟨fun _ => (dictGrow_traced hdict hkept he').imp (fun _ _ hp' => hdone.path.trans hp')
    fun _ _ hp' => hdone.path.trans hp', fun _ => hdone.path⟩

theorem dictSet_traced (he : Editing h s kept arrays owned dict) (hvalue : Seen s value) :
    Traced sc (dictSet dict key value) h := by
  refine dictSet_steps he.sound he.ledger (fun _ _ => .refl) ?_ ?_
  · rintro parts ks vs x hash ⟨hparts, hks, -, hx, hn⟩ habsent
    exact dictInsert_traced hdict hkept he hvalue hx hn hparts hks habsent
  · rintro parts ks vs x hash slot p old h₁ h₂ h₃ ⟨hparts, -⟩ - - - - hret hset hrel
    have hpv := (he.tables_free hkept hparts).2
    exact (((Trail.start he.sound).retain hret).arraySet (fun hf => absurd hf hpv) hset).release
      hrel |>.path

end Dicts

theorem Sound.dictSet_traced (hs : h.Sound s) (hl : s.Ledger arrays owned)
    (hfixed : ∀ q, sc.fixed q → h.Occupied q) (hdict : sc.fixed dict → sc.edited dict)
    (hstorage : ∀ n o k v, s.content dict = some (.dict n o k v) → ¬sc.fixed k ∧ ¬sc.fixed v)
    (hvalue : Seen s value) : Traced sc (dictSet dict key value) h := by
  by_cases hd : ∃ n o k v, s.content dict = some (.dict n o k v)
  · obtain ⟨n, o, k, v, hd⟩ := hd
    obtain ⟨hpk, hpv⟩ := hstorage n o k v hd
    let kept : Store := fun q => if q = dict ∨ q = k ∨ q = v then none else s q
    have hkept : ∀ q, sc.fixed q → q = dict ∨ kept.content q ≠ none := by
      intro q hq
      by_cases hqd : q = dict
      · exact .inl hqd
      have hqk : q ≠ k := fun heq => hpk (heq ▸ hq)
      have hqv : q ≠ v := fun heq => hpv (heq ▸ hq)
      obtain ⟨c, hc⟩ := hs.occupied_iff.mp (hfixed q hq)
      simp [kept, Store.content, hqd, hqk, hqv, hc]
    have he : Editing h s kept arrays owned dict := by
      refine ⟨hs, hl, fun q x hq => ?_, by simp [kept, Store.content], fun hd' => ?_⟩
      · simp only [kept, Store.content] at hq
        split at hq
        · cases hq
        · exact hq
      · rw [hd] at hd'
        cases hd'
        simp [kept, Store.content]
    exact Heap.dictSet_traced hdict hkept he hvalue
  · exact dictSet_of_not_dict hs (fun _ _ => .refl) hd

theorem dictGet_traced (dict key : Reference) : Traced sc (dictGet dict key) h := by
  simp only [Traced, dictGet, Action.ends_bind, Action.ends_ask, Action.ends_read]
  refine ⟨fun hash _ parts _ slot _ => ?_, fun _ _ => .refl⟩
  cases slot with
  | none => simpa only [Action.ends_throw] using .refl
  | some slot =>
    simp only [Action.ends_bind, Action.ends_read, Action.ends_update, Action.ends_pure]
    exact fun value _ h₁ hret => .single (.retain hret)

theorem dictDelete_traced (hs : h.Sound s) (hdict : sc.fixed dict → sc.edited dict)
    (hstorage : ∀ n o k v, s.content dict = some (.dict n o k v) → ¬sc.fixed k ∧ ¬sc.fixed v)
    (key : Reference) : Traced sc (dictDelete dict key) h := by
  refine dictDelete_steps hs (fun _ _ => .refl) .refl ?_
  rintro parts ks vs x hash slot p old h₁ h₂ h₃ h₄ h₅ ⟨hparts, -⟩ - - - - - hset hset' hstore hrel
    hrel'
  obtain ⟨hpk, hpv⟩ := hstorage _ _ _ _ hparts
  have hlt := hs.dictSize_lt hparts
  have ht : Trail sc h s h := .start hs
  have hcleared := (ht.arraySet (fun hf => absurd hf hpk) hset).arraySet
    (fun hf => absurd hf hpv) hset'
  have hless := hcleared.storeDictSize hdict (kind_of_content hparts) (by omega) hstore
  exact ((hless.release hrel).release hrel').path

theorem setPairs_traced {pairs : List (Reference × Reference)}
    (he : Editing h s kept arrays (dict :: owned) dict) (hstands : Standing kept (arrays ++ owned))
    (hseen : ∀ p ∈ pairs, Seen kept p.2) (hdict : ¬sc.fixed dict)
    (hkept : ∀ q, sc.fixed q → kept.content q ≠ none) :
    Traced sc
      (pairs.forM fun p => (dictSet dict p.1 p.2).orUndo (·.release dict)) h := by
  have hstands' : Standing kept (arrays ++ dict :: owned) := hstands.mono fun q => by
    rw [List.count_append, List.count_append, Store.count_owner]
    omega
  induction pairs generalizing h s with
  | nil => exact Action.ends_pure.mpr .refl
  | cons pair rest ih =>
    refine Action.ends_bind.mpr (Action.ends_orUndo.mpr ?_)
    have hvalue := (hseen pair List.mem_cons_self).mono he.fewer
    have htraced : Traced sc (dictSet dict pair.1 pair.2) h :=
      dictSet_traced (fun hf => absurd hf hdict) (fun q hq => .inr (hkept q hq)) he hvalue
    refine ((dictSet_ends he hstands' hvalue).and htraced).imp ?_ ?_
    · rintro _ h₁ ⟨⟨s₁, he₁, -⟩, hp⟩
      exact (ih he₁ fun p hpm => hseen p (List.mem_cons_of_mem _ hpm)).imp
        (fun _ _ hp' => hp.trans hp') fun _ _ hp' => hp.trans hp'
    · rintro _ h₁ ⟨hu, hp⟩ h₂ hrel
      obtain ⟨s₁, hs₁, -⟩ := he.balanced_unset hu
      exact hp.trans (release_path hs₁.consistent hrel)

theorem newDict_born {pairs : List (Reference × Reference)} (hs : h.Sound s)
    (hl : s.Ledger arrays owned) (hseen : ∀ p ∈ pairs, Seen s p.2)
    (hfixed : ∀ q, sc.fixed q → h.Occupied q) : Born sc (newDict pairs) h := by
  have hkept : ∀ q, sc.fixed q → s.content q ≠ none := fun q hq => by
    obtain ⟨c, hc⟩ := hs.occupied_iff.mp (hfixed q hq)
    rw [Store.content_of hc]
    exact nofun
  have ht : Trail sc h s h := .start hs
  simp only [Born, newDict, Action.ends_bind, Action.ends_getFailure, Action.ends_liftFailure,
    Action.ends_ofMemory, Action.ends_pure]
  intro room _
  refine ((makeTables_ends hs hl _).and (makeTables_traced hs hfixed _)).imp ?_ fun _ _ hp => hp.2
  rintro ⟨keys, values⟩ h₁ ⟨⟨s₁, hs₁, hl₁, hknone, hvnone, hne, hcontent₁, -⟩, hp₁, hoccupied, -⟩
  have ht₁ : Trail sc h s₁ h₁ := ⟨hp₁, hs₁.after⟩
  have hmake := Action.ends_orUndo.mp (overTables_ends hs₁ hl₁ hknone hvnone hne hcontent₁)
  refine Action.ends_orUndo.mpr ?_
  refine (hmake.and (ht₁.create (.dict _ _) hs₁ hoccupied)).imp ?_ ?_
  · rintro dict h₂ ⟨⟨s₂, he, -⟩, hdict, -, hp₂⟩
    have htraced : Traced sc
        (pairs.forM fun p => (dictSet dict p.1 p.2).orUndo (·.release dict)) h₂ :=
      setPairs_traced he (standing_of_ledger hl) hseen hdict hkept
    exact htraced.imp (fun _ _ hp => ⟨hp₂.trans hp, hdict⟩) fun _ _ hp => hp₂.trans hp
  · rintro _ _ ⟨-, rfl⟩ h₂ hrel
    simp only [bind_eq_ok] at hrel
    obtain ⟨h₃, hrel, hrel'⟩ := hrel
    exact ((ht₁.release hrel).release hrel').path

section Operators

theorem Born.ofMemory {x : Action OutOfMemory Reference} (hx : Born sc x h) :
    Born sc (liftM x : Action Failure Reference) h := Action.ends_ofMemory.mpr hx

theorem throw_traced {ε α : Type} (e : ε) : Traced sc (throw e : Action ε α) h :=
  Action.ends_throw.mpr .refl

theorem unary_born (op : UnaryOperator) (r : Reference) (hs : h.Sound s)
    (hfixed : ∀ q, sc.fixed q → h.Occupied q) : Born sc (unary op r) h :=
  unary_ends (fun _ _ => .refl) fun n => ((Creates.integer n).born hs hfixed).ofMemory

theorem binary_born (op : BinaryOperator) (left right : Reference) (hs : h.Sound s)
    (hfixed : ∀ q, sc.fixed q → h.Occupied q) : Born sc (binary op left right) h :=
  binary_ends (fun _ _ _ _ => .refl) (fun _ _ _ _ => .refl)
    (fun n => ((Creates.integer n).born hs hfixed).ofMemory)
    ((Creates.concatenation left right).born hs hfixed).ofMemory

theorem subscript_traced (r index : Reference) : Traced sc (subscript r index) h :=
  subscript_ends (fun _ _ => .refl) (fun _ => listSubscript_traced r index)
    fun _ => dictGet_traced r index

variable (hs : h.Sound s) (hr : sc.fixed r → sc.edited r)
  (hlist : ∀ n v, s.content r = some (.list n v) → ¬sc.fixed v)
  (hdict : ∀ n o k v, s.content r = some (.dict n o k v) → ¬sc.fixed k ∧ ¬sc.fixed v)
include hs hr hlist hdict

theorem assignItem_traced (index item : Reference) (hl : s.Ledger arrays owned)
    (hfixed : ∀ q, sc.fixed q → h.Occupied q) (hitem : Seen s item) :
    Traced sc (assignItem r index item) h :=
  assignItem_ends (fun _ _ => .refl) (fun _ => listAssign_traced hs hlist index item)
    fun _ => hs.dictSet_traced hl hfixed hr hdict hitem

theorem deleteItem_traced (index : Reference) : Traced sc (deleteItem r index) h :=
  deleteItem_ends (fun _ _ => .refl) (fun _ => listDelete_traced hs hr hlist index)
    fun _ => dictDelete_traced hs hr hdict index

end Operators

theorem releases_path {refs : List Reference} (hc : h.Consistent)
    (hrel : refs.foldlM (·.release ·) h = .ok h') : Path sc h h' := by
  induction refs generalizing h with
  | nil =>
    cases hrel
    exact .refl
  | cons q rest ih =>
    simp only [List.foldlM_cons, bind_eq_ok] at hrel
    obtain ⟨h₁, hrel, hrest⟩ := hrel
    have hp : Path sc h h₁ := release_path hc hrel
    exact hp.trans (ih (hp.consistent hc) hrest)

end Heap

end CountedHeap
