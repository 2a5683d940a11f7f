import CountedHeap.Heap.Operate
import CountedHeap.Globals
import CountedHeap.Proofs.Making
import CountedHeap.Proofs.Releasing

/-!
Every operation on a sound heap leaves a sound heap, whether it succeeds or not and whatever it is
asked of. A field is only written after the kind of its value was looked at; between the two no
step makes that reference one to a value of another kind.
-/

namespace CountedHeap

def Store.Later (s s' : Store) : Prop :=
  ∀ q x', s'.content q = some x' → ∃ x, s.content q = some x ∧ x.kind = x'.kind

namespace Store.Later

variable {s s' s'' : Store} {r : Reference} {c c' : Cell}

theorem refl (s : Store) : s.Later s := fun _ x' hx => ⟨x', hx, rfl⟩

theorem trans (h₁ : s.Later s') (h₂ : s'.Later s'') : s.Later s'' := by
  intro q x'' hx''
  obtain ⟨x', hx', hk'⟩ := h₂ q x'' hx''
  obtain ⟨x, hx, hk⟩ := h₁ q x' hx'
  exact ⟨x, hx, hk.trans hk'⟩

theorem set (hr : s r = some c) (hk : c.content.kind = c'.content.kind) :
    s.Later (s.set r c') := by
  intro q x' hx'
  by_cases hq : q = r
  · subst hq
    rw [Store.content_set_self] at hx'
    cases hx'
    exact ⟨c.content, by rw [Store.content, hr]; rfl, hk⟩
  · rw [Store.content_set_of_ne hq] at hx'
    exact ⟨x', hx', rfl⟩

theorem erase (s : Store) (r : Reference) : s.Later (s.erase r) := by
  intro q x' hx'
  obtain ⟨c, hc, hx⟩ := Store.content_eq_some.mp hx'
  exact ⟨x', Store.content_eq_some.mpr ⟨c, (Store.erase_eq_some.mp hc).2, hx⟩, rfl⟩

end Store.Later

namespace Content

variable {x : Content}

theorem list_of_kind (hk : x.kind = .list) : ∃ size values, x = .list size values := by
  cases x with
  | list size values => exact ⟨size, values, rfl⟩
  | _ => cases hk

theorem dict_of_kind (hk : x.kind = .dict) :
    ∃ size occupied keys values, x = .dict size occupied keys values := by
  cases x with
  | dict size occupied keys values => exact ⟨size, occupied, keys, values, rfl⟩
  | _ => cases hk

end Content

namespace Heap

variable {h h' : Heap} {s : Store} {r : Reference}

def Consistent (h : Heap) : Prop := ∃ s, h.Sound s

def After (s : Store) (h : Heap) : Prop := ∃ s', h.Sound s' ∧ s.Later s'

theorem Sound.consistent (hs : h.Sound s) : h.Consistent := ⟨s, hs⟩

theorem After.consistent (ha : h.After s) : h.Consistent := ⟨_, ha.choose_spec.1⟩

theorem Sound.after (hs : h.Sound s) : h.After s := ⟨s, hs, .refl s⟩

theorem Made.consistent {x : Content} (hm : h.Made s r x) : h.Consistent :=
  ⟨_, hm.sound.choose_spec⟩

theorem After.then (ha : h.After s) (hstep : ∀ s', h.Sound s' → h'.After s') : h'.After s := by
  obtain ⟨s', hs', hl⟩ := ha
  obtain ⟨s'', hs'', hl'⟩ := hstep s' hs'
  exact ⟨s'', hs'', hl.trans hl'⟩

theorem After.retain (ha : h.After s) (hr : h.retain r = .ok h') : h'.After s :=
  ha.then fun s' hs' => by
    obtain ⟨c, hc, hs''⟩ := hs'.retain hr
    exact ⟨_, hs'', .set hc rfl⟩

theorem After.arraySet (ha : h.After s) {i : Nat} {v : Reference}
    (hset : h.arraySet r i v = .ok h') : h'.After s :=
  ha.then fun s' hs' => by
    obtain ⟨c, xs, hc, hx, -, hs''⟩ := hs'.arraySet hset
    exact ⟨_, hs'', .set hc (by rw [hx]; rfl)⟩

theorem After.giveUp (ha : h.After s) {o : Option (List Reference)}
    (hg : h.giveUp r = .ok (h', o)) : h'.After s :=
  ha.then fun s' hs' => by
    obtain ⟨c, hc, hs'', -⟩ := hs'.giveUp hg
    exact ⟨_, hs'', .set hc rfl⟩

theorem After.discard (ha : h.After s) (hd : h.discard r = .ok h') : h'.After s :=
  ha.then fun s' hs' => by
    obtain ⟨c, hc, hs''⟩ := hs'.discard hd
    exact ⟨_, hs'', .erase s' r⟩

theorem After.release (ha : h.After s) (hr : h.release r = .ok h') : h'.After s := by
  have hinv : TaskInvariant fun _ h => h.After s :=
    ⟨fun ha hd => ha.discard hd, fun ha hg => ha.giveUp hg, fun ha hg => ha.giveUp hg⟩
  exact hinv.releaseAll ha hr

theorem After.placeFrom {values : Reference} {index : Nat} {elements : List Reference}
    (ha : h.After s) (hp : h.placeFrom values index elements = .ok h') : h'.After s := by
  induction elements generalizing h index with
  | nil =>
    cases hp
    exact ha
  | cons r rest ih =>
    simp only [Heap.placeFrom, bind_eq_ok] at hp
    obtain ⟨h₁, hr, h₂, hset, hrest⟩ := hp
    exact ih ((ha.retain hr).arraySet hset) hrest

theorem After.moveFrom {source dest : Reference} {index count : Nat}
    (ha : h.After s) (hm : h.moveFrom source dest index count = .ok h') : h'.After s := by
  induction count generalizing h index with
  | zero =>
    cases hm
    exact ha
  | succ count ih =>
    simp only [Heap.moveFrom, bind_eq_ok] at hm
    obtain ⟨_, -, h₁, hset, h₂, hclear, hrest⟩ := hm
    exact ih ((ha.arraySet hset).arraySet hclear) hrest

theorem After.shiftFrom {values : Reference} {index count : Nat}
    (ha : h.After s) (hm : h.shiftFrom values index count = .ok h') : h'.After s := by
  induction count generalizing h index with
  | zero =>
    cases hm
    exact ha
  | succ count ih =>
    simp only [Heap.shiftFrom, bind_eq_ok] at hm
    obtain ⟨_, -, h₁, hset, hrest⟩ := hm
    exact ih (ha.arraySet hset) hrest

theorem After.moveEntry {parts : DictParts} {keys values : Reference} {e : Entry}
    (ha : h.After s) (hm : h.moveEntry parts keys values e = .ok h') : h'.After s := by
  simp only [Heap.moveEntry, bind_eq_ok] at hm
  obtain ⟨o, -, hm⟩ := hm
  cases o with
  | none => cases hm
  | some target =>
    simp only [bind_eq_ok] at hm
    obtain ⟨value, -, h₁, hkey, h₂, hvalue, h₃, hclear, hclear'⟩ := hm
    exact (((ha.arraySet hkey).arraySet hvalue).arraySet hclear).arraySet hclear'

theorem After.moveEntries {parts : DictParts} {keys values : Reference} {entries : List Entry}
    (ha : h.After s) (hm : entries.foldlM (Heap.moveEntry · parts keys values ·) h = .ok h') :
    h'.After s := by
  induction entries generalizing h with
  | nil =>
    cases hm
    exact ha
  | cons e rest ih =>
    simp only [List.foldlM_cons, bind_eq_ok] at hm
    obtain ⟨h₁, he, hrest⟩ := hm
    exact ih (ha.moveEntry he) hrest

/-- A value keeps its kind while others are made up or given up, so its fields may be written
when that kind was seen before. -/
theorem After.store {k : Kind} (ha : h.After s) (hx : ∀ x, s.content r = some x → x.kind = k)
    (hlive : ∃ addr, h.deref r = .ok addr)
    (hset : ∀ s' c, h.Sound s' → s' r = some c → c.content.kind = k →
      ∃ x, x.kind = k ∧ h'.Sound (s'.set r { c with content := x })) : h'.After s := by
  obtain ⟨s', hs', hl⟩ := ha
  obtain ⟨addr, hd⟩ := hlive
  obtain ⟨c, hc, -⟩ := hs'.deref_eq_ok.mp hd
  obtain ⟨x, hr, hk⟩ := hl r c.content (Store.content_eq_some.mpr ⟨c, hc, rfl⟩)
  have hck := hk.symm.trans (hx x hr)
  obtain ⟨x', hk', hs''⟩ := hset s' c hs' hc hck
  exact ⟨_, hs'', hl.trans (.set hc (hck.trans hk'.symm))⟩

theorem deref_of_storeField {offset n : Nat} (hset : h.storeField r offset n = .ok h') :
    ∃ addr, h.deref r = .ok addr := by
  simp only [storeField, bind_eq_ok] at hset
  exact ⟨_, hset.choose_spec.1⟩

theorem deref_of_storeReference {offset : Nat} {v : Reference}
    (hset : h.storeReference r offset v = .ok h') : ∃ addr, h.deref r = .ok addr := by
  simp only [storeReference, bind_eq_ok] at hset
  exact ⟨_, hset.choose_spec.1⟩

section Fields

variable {n : Nat} {v : Reference}

theorem After.storeListSize (ha : h.After s) (hx : ∀ x, s.content r = some x → x.kind = .list)
    (hn : n < Word.limit) (hset : h.storeField r Layout.listSizeOffset n = .ok h') :
    h'.After s :=
  ha.store hx (deref_of_storeField hset) fun s' c hs' hc hk => by
    obtain ⟨size, values, hlist⟩ := Content.list_of_kind hk
    exact ⟨_, rfl, hs'.storeListSize hc hlist hn hset⟩

theorem After.storeListValues (ha : h.After s) (hx : ∀ x, s.content r = some x → x.kind = .list)
    (hset : h.storeReference r Layout.listValuesOffset v = .ok h') : h'.After s :=
  ha.store hx (deref_of_storeReference hset) fun s' c hs' hc hk => by
    obtain ⟨size, values, hlist⟩ := Content.list_of_kind hk
    exact ⟨_, rfl, hs'.storeListValues hc hlist hset⟩

theorem After.storeDictSize (ha : h.After s) (hx : ∀ x, s.content r = some x → x.kind = .dict)
    (hn : n < Word.limit) (hset : h.storeField r Layout.dictSizeOffset n = .ok h') :
    h'.After s :=
  ha.store hx (deref_of_storeField hset) fun s' c hs' hc hk => by
    obtain ⟨size, occupied, keys, values, hdict⟩ := Content.dict_of_kind hk
    exact ⟨_, rfl, hs'.storeDictSize hc hdict hn hset⟩

theorem After.storeDictOccupied (ha : h.After s)
    (hx : ∀ x, s.content r = some x → x.kind = .dict) (hn : n < Word.limit)
    (hset : h.storeField r Layout.dictOccupiedOffset n = .ok h') : h'.After s :=
  ha.store hx (deref_of_storeField hset) fun s' c hs' hc hk => by
    obtain ⟨size, occupied, keys, values, hdict⟩ := Content.dict_of_kind hk
    exact ⟨_, rfl, hs'.storeDictOccupied hc hdict hn hset⟩

theorem After.storeDictKeys (ha : h.After s) (hx : ∀ x, s.content r = some x → x.kind = .dict)
    (hset : h.storeReference r Layout.dictKeysOffset v = .ok h') : h'.After s :=
  ha.store hx (deref_of_storeReference hset) fun s' c hs' hc hk => by
    obtain ⟨size, occupied, keys, values, hdict⟩ := Content.dict_of_kind hk
    exact ⟨_, rfl, hs'.storeDictKeys hc hdict hset⟩

theorem After.storeDictValues (ha : h.After s) (hx : ∀ x, s.content r = some x → x.kind = .dict)
    (hset : h.storeReference r Layout.dictValuesOffset v = .ok h') : h'.After s :=
  ha.store hx (deref_of_storeReference hset) fun s' c hs' hc hk => by
    obtain ⟨size, occupied, keys, values, hdict⟩ := Content.dict_of_kind hk
    exact ⟨_, rfl, hs'.storeDictValues hc hdict hset⟩

end Fields

theorem content_set_of_unused {x : Content} {q : Reference} {c : Cell} (hr : s r = none)
    (hq : s.content q = some x) : (s.set r c).content q = some x := by
  rw [Store.content_set_of_ne, hq]
  rintro rfl
  rw [Store.content, hr] at hq
  cases hq

theorem Made.after {x : Content} (hm : h.Made s r x) :
    ∃ s', h.After s' ∧ s'.content r = some x ∧
      ∀ q y, s.content q = some y → s'.content q = some y := by
  obtain ⟨addr, hs⟩ := hm.sound
  exact ⟨_, hs.after, Store.content_set_self, fun _ _ => content_set_of_unused hm.unused⟩

theorem Sound.listSize_lt (hs : h.Sound s) {size : Nat} {values : Reference}
    (hx : s.content r = some (.list size values)) : size < Word.limit := by
  obtain ⟨c, hc, hx⟩ := Store.content_eq_some.mp hx
  rw [← (hs.holds_of hc hx).fields.1]
  exact Memory.number_lt ..

theorem Sound.dictSize_lt (hs : h.Sound s) {size occupied : Nat} {keys values : Reference}
    (hx : s.content r = some (.dict size occupied keys values)) : size < Word.limit := by
  obtain ⟨c, hc, hx⟩ := Store.content_eq_some.mp hx
  rw [← (hs.holds_of hc hx).fields.1]
  exact Memory.number_lt ..

theorem Sound.arrayLength_lt (hs : h.Sound s) {xs : List Reference}
    (hx : s.content r = some (.array xs)) : xs.length < Word.limit := by
  obtain ⟨c, hc, hx⟩ := Store.content_eq_some.mp hx
  rw [← (hs.holds_of hc hx).fields.1]
  exact Memory.number_lt ..

theorem Sound.double_length_lt (hs : h.Sound s) {xs : List Reference}
    (hx : s.content r = some (.array xs)) : xs.length * 2 < Word.limit := by
  obtain ⟨free, hl⟩ := hs.laid
  obtain ⟨c, hc, hx⟩ := Store.content_eq_some.mp hx
  have hroom := (hs.holds_of hc hx).room
  have hsize := hl.sizeAt_lt
    (List.mem_append_right free (Table.mem_addresses_of_get? (hs.get?_eq hc)))
  simp only [Content.room, Layout.elementOffset, Memory.maxSize, Word.limit] at *
  omega

def Safe {ε α : Type} (x : Action ε α) : Prop :=
  ∀ h s, h.Sound s → x.Ends h (fun _ h' => h'.Consistent) fun _ h' => h'.Consistent

theorem kind_of_content {x : Content} (hx : s.content r = some x) :
    ∀ y, s.content r = some y → y.kind = x.kind := by
  intro y hy
  rw [hx] at hy
  cases hy
  rfl

section Lists

theorem newList_safe (elements : List Reference) : Safe (newList elements) := by
  intro h s hs
  simp only [newList, Action.ends_bind, Action.ends_orUndo, Action.ends_update, Action.ends_pure]
  refine (hs.makeArray elements.length).imp (fun values h₁ hm => ?_)
    fun _ _ he => he ▸ hs.consistent
  obtain ⟨addr, hs₁⟩ := hm.sound
  refine (hs₁.makeList values).imp ?_ ?_
  · rintro list h₂ ⟨-, hm₂⟩ h₃ hplace h₄ hstore
    obtain ⟨s₂, ha, hlist, -⟩ := hm₂.after
    have hlt := hs₁.arrayLength_lt Store.content_set_self
    rw [List.length_replicate] at hlt
    exact ((ha.placeFrom hplace).storeListSize (kind_of_content hlist) hlt hstore).consistent
  · rintro _ _ rfl h₃ hrel
    exact (hs₁.after.release hrel).consistent

theorem After.index_lt (ha : h.After s) {i : Nat} {v : Reference}
    (hset : h.arraySet r i v = .ok h') : i + 1 < Word.limit := by
  obtain ⟨s', hs', -⟩ := ha
  obtain ⟨c, xs, hc, hx, hi, -⟩ := hs'.arraySet hset
  have hlt := hs'.arrayLength_lt (Store.content_eq_some.mpr ⟨c, hc, hx⟩)
  omega

theorem After.push {list values item : Reference} {h₁ h₂ : Heap} {i : Nat} (ha : h.After s)
    (hx : ∀ x, s.content list = some x → x.kind = .list) (hret : h.retain item = .ok h₁)
    (hset : h₁.arraySet values i item = .ok h₂)
    (hstore : h₂.storeField list Layout.listSizeOffset (i + 1) = .ok h') : h'.Consistent := by
  have ha₁ := ha.retain hret
  exact ((ha₁.arraySet hset).storeListSize hx (ha₁.index_lt hset) hstore).consistent

theorem listPush_safe (list item : Reference) : Safe (listPush list item) := by
  intro h s hs
  simp only [listPush, roomFor, Action.ends_bind, Action.ends_read, Action.ends_ite,
    Action.ends_liftM, Action.ends_update, Action.ends_pure, hs.listParts_eq_ok,
    hs.arrayCapacity_eq_ok]
  rintro parts hparts capacity ⟨xs, hxs, rfl⟩
  refine ⟨fun hfull room _ => ?_, fun _ h₁ hret h₂ hset h₃ hstore => ?_⟩
  · refine (hs.makeArray _).imp (fun grown h₁ hm => ?_) fun _ _ he => he ▸ hs.consistent
    rintro h₂ hmove h₃ hrel h₄ hvalues h₅ hret h₆ hset h₇ hstore
    obtain ⟨s₁, ha, -, hold⟩ := hm.after
    have hx := kind_of_content (hold _ _ hparts)
    exact (((ha.moveFrom hmove).release hrel).storeListValues hx hvalues).push hx hret hset hstore
  · exact hs.after.push (kind_of_content hparts) hret hset hstore

theorem listSubscript_safe (list subscript : Reference) : Safe (listSubscript list subscript) := by
  intro h s hs
  simp only [listSubscript, Action.ends_bind, Action.ends_ask, Action.ends_read,
    Action.ends_update, Action.ends_pure]
  refine ⟨fun index _ element _ h' hret => ?_, fun _ _ => hs.consistent⟩
  exact (hs.after.retain hret).consistent

theorem listAssign_safe (list subscript item : Reference) :
    Safe (listAssign list subscript item) := by
  intro h s hs
  simp only [listAssign, Action.ends_bind, Action.ends_ask, Action.ends_read, Action.ends_update]
  refine ⟨fun index _ parts _ replaced _ h₁ hret h₂ hset h₃ hrel => ?_, fun _ _ => hs.consistent⟩
  exact (((hs.after.retain hret).arraySet hset).release hrel).consistent

theorem listDelete_safe (list subscript : Reference) : Safe (listDelete list subscript) := by
  intro h s hs
  simp only [listDelete, Action.ends_bind, Action.ends_ask, Action.ends_read, Action.ends_update,
    hs.listParts_eq_ok]
  refine ⟨?_, fun _ _ => hs.consistent⟩
  rintro index _ parts hparts removed _ h₁ hshift h₂ hset h₃ hstore h₄ hrel
  have hlt := hs.listSize_lt hparts
  exact ((((hs.after.shiftFrom hshift).arraySet hset).storeListSize (kind_of_content hparts)
    (by omega) hstore).release hrel).consistent

end Lists

section Dicts

theorem Sound.makeTables (hs : h.Sound s) (room : Nat) :
    (makeTables room).Ends h
      (fun t h' => ∃ addr, s t.1 = none ∧ t.1.isLive = true ∧
        h'.Made (s.set t.1 ⟨addr, 1, .array (.replicate room .null)⟩) t.2
          (.array (.replicate room .null)))
      fun _ h' => h' = h ∨ ∃ (keys : Reference) (h₁ : Heap),
        h₁.Made s keys (.array (.replicate room .null)) ∧ h₁.release keys = .ok h' := by
  simp only [Heap.makeTables, Action.ends_bind, Action.ends_orUndo, Action.ends_pure]
  refine (hs.makeArray room).imp (fun keys h₁ hm => ?_) fun _ _ he => .inl he
  obtain ⟨addr, hs₁⟩ := hm.sound
  refine (hs₁.makeArray room).imp (fun values h₂ hm₂ => ?_) ?_
  · exact ⟨addr, hm.unused, hm.live, hm₂⟩
  · rintro _ _ rfl h₂ hrel
    exact .inr ⟨keys, _, hm, hrel⟩

theorem Made.consistent_release {x : Content} {h₁ : Heap} (hm : h₁.Made s r x)
    (hr : h₁.release r = .ok h') : h'.Consistent := by
  obtain ⟨addr, hs⟩ := hm.sound
  exact (hs.after.release hr).consistent

theorem dictGrow_safe (dict : Reference) : Safe (dictGrow dict) := by
  intro h s hs
  simp only [dictGrow, Action.ends_bind, Action.ends_read, Action.ends_getFailure,
    Action.ends_liftFailure, Action.ends_ask, Action.ends_update, Action.ends_ofMemory,
    hs.dictParts_eq_ok]
  rintro parts hparts capacity _ room _
  refine ⟨fun entries _ => ?_, fun _ _ => hs.consistent⟩
  refine (hs.makeTables _).imp ?_ ?_
  · rintro ⟨keys, values⟩ h₁ ⟨addr, hunused, hlive, hm⟩ h₂ hmove h₃ hrel h₄ hrel' h₅ hkeys h₆
      hvalues h₇ hoccupied
    obtain ⟨s₁, ha, -, hold⟩ := hm.after
    have hx := kind_of_content (hold _ _ (content_set_of_unused hunused hparts))
    have hreleased := ((ha.moveEntries hmove).release hrel).release hrel'
    exact (((hreleased.storeDictKeys hx hkeys).storeDictValues hx hvalues).storeDictOccupied hx
      (hs.dictSize_lt hparts) hoccupied).consistent
  · rintro _ _ (rfl | ⟨keys, h₁, hm, hrel⟩)
    · exact hs.consistent
    · exact hm.consistent_release hrel

theorem slotFor_safe (dict : Reference) (hash : UInt64) (key : Reference) (attempts : Nat)
    (hs : h.Sound s) :
    (slotFor dict hash key attempts).Ends h
      (fun p h' => ∃ s', h'.Sound s' ∧
        s'.content dict = some (.dict p.1.size p.1.occupied p.1.keys p.1.values))
      fun _ h' => h'.Consistent := by
  induction attempts generalizing h s with
  | zero => simp only [slotFor, Action.ends_fault]
  | succ attempts ih =>
    simp only [slotFor, Action.ends_bind, Action.ends_read, hs.dictParts_eq_ok]
    intro parts hparts slot _
    cases slot with
    | some slot =>
      simp only [Action.ends_pure]
      exact ⟨s, hs, hparts⟩
    | none =>
      simp only [Action.ends_bind]
      refine (dictGrow_safe dict h s hs).imp ?_ fun _ _ hc => hc
      rintro _ h₁ ⟨s₁, hs₁⟩
      exact ih hs₁

structure Enters (dict key value : Reference) (parts : DictParts) (slot : Nat) (old : Reference)
    (h h' : Heap) : Prop where
  sizeFits : parts.size + 1 < Word.limit
  occupiedFits : parts.occupied + old.isNull.toNat < Word.limit
  steps : ∃ h₁ h₂ h₃ h₄ h₅, h.retain key = .ok h₁ ∧ h₁.retain value = .ok h₂ ∧
    h₂.arraySet parts.keys slot key = .ok h₃ ∧ h₃.arraySet parts.values slot value = .ok h₄ ∧
      h₄.storeField dict Layout.dictSizeOffset (parts.size + 1) = .ok h₅ ∧
        h₅.storeField dict Layout.dictOccupiedOffset (parts.occupied + old.isNull.toNat) = .ok h'

section Entering

variable {dict key value old : Reference} {hash : UInt64} {parts : DictParts} {slot : Nat}

theorem After.enter (ha : h.After s) (hx : ∀ x, s.content dict = some x → x.kind = .dict)
    (henter : Enters dict key value parts slot old h h') : h'.After s := by
  obtain ⟨hsize, hoccupied, h₁, h₂, h₃, h₄, h₅, hkey, hvalue, hset, hset', hstore, hstore'⟩ :=
    henter
  have hplaced := (((ha.retain hkey).retain hvalue).arraySet hset).arraySet hset'
  exact (hplaced.storeDictSize hx hsize hstore).storeDictOccupied hx hoccupied hstore'

theorem dictInsert_steps {P : DictParts × Nat → Heap → Prop} {good : Unit → Heap → Prop}
    {bad : Failure → Heap → Prop} (hslot : (slotFor dict hash key maxGrowths).Ends h P bad)
    (hentered : ∀ {parts slot h₁ old h₂ capacity}, P (parts, slot) h₁ →
      h₁.arrayGet parts.keys slot = .ok old → Enters dict key value parts slot old h₁ h₂ →
        h₂.arrayCapacity parts.keys = .ok capacity →
          (capacity ≤ (parts.occupied + old.isNull.toNat) * 2 →
            (dictGrow dict).Ends h₂ good bad) ∧
          (¬capacity ≤ (parts.occupied + old.isNull.toNat) * 2 → good () h₂)) :
    (dictInsert dict hash key value).Ends h good bad := by
  simp only [dictInsert, Action.ends_bind]
  refine hslot.imp ?_ fun _ _ hb => hb
  rintro ⟨parts, slot⟩ h₁ hp
  simp only [Action.ends_read, Action.ends_update, Action.ends_liftFailure, Action.ends_ite,
    Action.ends_pure, Word.add, Word.mul, Word.fit_eq_ok]
  rintro old hold h₂ hkey h₃ hvalue h₄ hset h₅ hset' _ ⟨rfl, hsize⟩ h₆ hstore _ ⟨rfl, hoccupied⟩
    h₇ hstore' capacity hcapacity _ ⟨rfl, -⟩
  exact hentered hp hold ⟨hsize, hoccupied, h₂, h₃, h₄, h₅, h₆, hkey, hvalue, hset, hset', hstore,
    hstore'⟩ hcapacity

end Entering

theorem dictInsert_safe (dict : Reference) (hash : UInt64) (key value : Reference) :
    Safe (dictInsert dict hash key value) := by
  intro h s hs
  refine dictInsert_steps (slotFor_safe dict hash key maxGrowths hs) ?_
  rintro parts slot h₁ old h₂ capacity ⟨s₁, hs₁, hparts⟩ - henter -
  have ha := hs₁.after.enter (kind_of_content hparts) henter
  obtain ⟨s₂, hs₂⟩ := ha.consistent
  exact ⟨fun _ => dictGrow_safe dict h₂ s₂ hs₂, fun _ => ha.consistent⟩

theorem dictSet_safe (dict key value : Reference) : Safe (dictSet dict key value) := by
  intro h s hs
  simp only [dictSet, Action.ends_bind, Action.ends_ask, Action.ends_read]
  refine ⟨fun hash _ parts _ slot _ => ?_, fun _ _ => hs.consistent⟩
  cases slot with
  | none => exact dictInsert_safe dict hash key value h s hs
  | some slot =>
    simp only [Action.ends_bind, Action.ends_read, Action.ends_update]
    intro replaced _ h₁ hret h₂ hset h₃ hrel
    exact (((hs.after.retain hret).arraySet hset).release hrel).consistent

theorem dictGet_safe (dict key : Reference) : Safe (dictGet dict key) := by
  intro h s hs
  simp only [dictGet, Action.ends_bind, Action.ends_ask, Action.ends_read]
  refine ⟨fun hash _ parts _ slot _ => ?_, fun _ _ => hs.consistent⟩
  cases slot with
  | none => simpa only [Action.ends_throw] using hs.consistent
  | some slot =>
    simp only [Action.ends_bind, Action.ends_read, Action.ends_update, Action.ends_pure]
    intro value _ h₁ hret
    exact (hs.after.retain hret).consistent

theorem dictDelete_safe (dict key : Reference) : Safe (dictDelete dict key) := by
  intro h s hs
  simp only [dictDelete, Action.ends_bind, Action.ends_ask, Action.ends_read, hs.dictParts_eq_ok]
  refine ⟨fun hash _ parts hparts slot _ => ?_, fun _ _ => hs.consistent⟩
  cases slot with
  | none => simpa only [Action.ends_throw] using hs.consistent
  | some slot =>
    simp only [Action.ends_bind, Action.ends_read, Action.ends_update, Action.ends_liftFailure]
    intro oldKey _ oldValue _ h₁ hset h₂ hset' size hsize h₃ hstore h₄ hrel h₅ hrel'
    have hlt := hs.dictSize_lt hparts
    obtain ⟨-, rfl⟩ := Word.sub_eq_ok.mp hsize
    have hcleared := (hs.after.arraySet hset).arraySet hset'
    have hless := hcleared.storeDictSize (kind_of_content hparts) (by omega) hstore
    exact ((hless.release hrel).release hrel').consistent

theorem setPairs_safe (dict : Reference) (pairs : List (Reference × Reference)) :
    Safe (pairs.forM fun p => (dictSet dict p.1 p.2).orUndo (·.release dict)) := by
  induction pairs with
  | nil =>
    intro h s hs
    exact Action.ends_pure.mpr hs.consistent
  | cons pair rest ih =>
    intro h s hs
    refine Action.ends_bind.mpr (Action.ends_orUndo.mpr ?_)
    refine (dictSet_safe dict pair.1 pair.2 h s hs).imp ?_ ?_
    · rintro _ h₁ ⟨s₁, hs₁⟩
      exact ih h₁ s₁ hs₁
    · rintro _ h₁ ⟨s₁, hs₁⟩ h₂ hrel
      exact (hs₁.after.release hrel).consistent

theorem newDict_safe (pairs : List (Reference × Reference)) : Safe (newDict pairs) := by
  intro h s hs
  simp only [newDict, Action.ends_bind, Action.ends_getFailure, Action.ends_liftFailure,
    Action.ends_ofMemory, Action.ends_orUndo, Action.ends_pure]
  intro room _
  refine (hs.makeTables _).imp ?_ ?_
  · rintro ⟨keys, values⟩ h₁ ⟨addr, hunused, hlive, hm⟩
    obtain ⟨addr', hs₁⟩ := hm.sound
    refine (hs₁.makeDict keys values).imp ?_ ?_
    · rintro dict h₂ ⟨-, hm₂⟩
      obtain ⟨s₂, hs₂⟩ := hm₂.consistent
      exact setPairs_safe dict pairs h₂ s₂ hs₂
    · rintro _ _ rfl h₂ hrel
      simp only [bind_eq_ok] at hrel
      obtain ⟨h₃, hrel, hrel'⟩ := hrel
      exact ((hs₁.after.release hrel).release hrel').consistent
  · rintro _ _ (rfl | ⟨keys, h₁, hm, hrel⟩)
    · exact hs.consistent
    · exact hm.consistent_release hrel

end Dicts

section Dispatch

variable {h : Heap} {good : Reference → Heap → Prop} {bad : Failure → Heap → Prop}
  {left right r index item : Reference}

theorem unary_ends {op : UnaryOperator}
    (hdeclined : ∀ k, h.kindOf r = .ok k → bad (.badUnary op k) h)
    (hinteger : ∀ n, (liftM (makeInteger n) : Action Failure Reference).Ends h good bad) :
    (unary op r).Ends h good bad := by
  simp only [unary, Action.ends_bind, Action.ends_read]
  intro k hk
  cases k with
  | integer =>
    simp only [unaryAs?, Action.ends_bind, Action.ends_read]
    exact fun n _ => hinteger _
  | array | free => simp only [unaryAs?, noOperations, Action.ends_fault]
  | _ => exact Action.ends_throw.mpr (hdeclined _ hk)

theorem binary_ends {op : BinaryOperator}
    (hdeclined : ∀ k k', h.kindOf left = .ok k → h.kindOf right = .ok k' →
      bad (.badBinary op k k') h)
    (hfailed : ∀ l r e, op.onIntegers l r = .error e → bad e h)
    (hinteger : ∀ n, (liftM (makeInteger n) : Action Failure Reference).Ends h good bad)
    (hstring : (liftM (makeConcatenation left right) : Action Failure Reference).Ends h good bad) :
    (binary op left right).Ends h good bad := by
  simp only [binary, Action.ends_bind, Action.ends_read]
  intro k hk k' hk'
  have hthrow : (throw (.badBinary op k k') : Action Failure Reference).Ends h good bad :=
    Action.ends_throw.mpr (hdeclined k k' hk hk')
  by_cases hkinds : k = k'
  case neg =>
    rw [if_neg hkinds]
    exact hthrow
  rw [if_pos hkinds]
  subst hkinds
  cases k with
  | integer =>
    simp only [binaryAs?, binaryIntegers, Action.ends_bind, Action.ends_read]
    intro l _ r _
    cases hop : op.onIntegers l r with
    | ok n => exact hinteger n
    | error e => exact Action.ends_throw.mpr (hfailed l r e hop)
  | string =>
    cases op with
    | add => exact hstring
    | _ => exact hthrow
  | array | free => simp only [binaryAs?, noOperations, Action.ends_fault]
  | _ => exact hthrow

theorem subscript_ends (hdeclined : ∀ k, h.kindOf r = .ok k → bad (.notSubscriptable k) h)
    (hlist : h.kindOf r = .ok .list → (listSubscript r index).Ends h good bad)
    (hdict : h.kindOf r = .ok .dict → (dictGet r index).Ends h good bad) :
    (subscript r index).Ends h good bad := by
  simp only [subscript, Action.ends_bind, Action.ends_read]
  intro k hk
  cases k with
  | list => exact hlist hk
  | dict => exact hdict hk
  | array | free => simp only [subscriptAs?, noOperations, Action.ends_fault]
  | _ => exact Action.ends_throw.mpr (hdeclined _ hk)

variable {good : Unit → Heap → Prop}

theorem assignItem_ends (hdeclined : ∀ k, h.kindOf r = .ok k → bad (.noItemAssignment k) h)
    (hlist : h.kindOf r = .ok .list → (listAssign r index item).Ends h good bad)
    (hdict : h.kindOf r = .ok .dict → (dictSet r index item).Ends h good bad) :
    (assignItem r index item).Ends h good bad := by
  simp only [assignItem, Action.ends_bind, Action.ends_read]
  intro k hk
  cases k with
  | list => exact hlist hk
  | dict => exact hdict hk
  | array | free => simp only [assignAs?, noOperations, Action.ends_fault]
  | _ => exact Action.ends_throw.mpr (hdeclined _ hk)

theorem deleteItem_ends (hdeclined : ∀ k, h.kindOf r = .ok k → bad (.noItemDeletion k) h)
    (hlist : h.kindOf r = .ok .list → (listDelete r index).Ends h good bad)
    (hdict : h.kindOf r = .ok .dict → (dictDelete r index).Ends h good bad) :
    (deleteItem r index).Ends h good bad := by
  simp only [deleteItem, Action.ends_bind, Action.ends_read]
  intro k hk
  cases k with
  | list => exact hlist hk
  | dict => exact hdict hk
  | array | free => simp only [deleteAs?, noOperations, Action.ends_fault]
  | _ => exact Action.ends_throw.mpr (hdeclined _ hk)

end Dispatch

section Operators

theorem makeNone_safe : Safe makeNone := fun _ _ hs =>
  hs.makeNone.imp (fun _ _ hm => hm.consistent) fun _ _ he => he ▸ hs.consistent

theorem makeBool_safe (b : Bool) : Safe (makeBool b) := fun _ _ hs =>
  (hs.makeBool b).imp (fun _ _ hm => hm.consistent) fun _ _ he => he ▸ hs.consistent

theorem makeInteger_safe (n : Int64) : Safe (makeInteger n) := fun _ _ hs =>
  (hs.makeInteger n).imp (fun _ _ hm => hm.consistent) fun _ _ he => he ▸ hs.consistent

theorem makeString_safe (bytes : List UInt8) : Safe (makeString bytes) := fun _ _ hs =>
  (hs.makeString bytes).imp (fun _ _ hm => hm.consistent) fun _ _ he => he ▸ hs.consistent

theorem makeConcatenation_safe (left right : Reference) :
    Safe (makeConcatenation left right) := fun _ _ hs =>
  (hs.makeConcatenation left right).imp (fun _ _ ⟨_, _, _, _, hm⟩ => hm.consistent)
    fun _ _ he => he ▸ hs.consistent

theorem makeArray_safe (capacity : Nat) : Safe (makeArray capacity) := fun _ _ hs =>
  (hs.makeArray capacity).imp (fun _ _ hm => hm.consistent) fun _ _ he => he ▸ hs.consistent

theorem makeList_safe (values : Reference) : Safe (makeList values) := fun _ _ hs =>
  (hs.makeList values).imp (fun _ _ ⟨_, hm⟩ => hm.consistent) fun _ _ he => he ▸ hs.consistent

theorem makeDict_safe (keys values : Reference) : Safe (makeDict keys values) := fun _ _ hs =>
  (hs.makeDict keys values).imp (fun _ _ ⟨_, hm⟩ => hm.consistent)
    fun _ _ he => he ▸ hs.consistent

theorem Safe.ofMemory {α : Type} {x : Action OutOfMemory α} (hx : Safe x) :
    Safe (liftM x : Action Failure α) := fun h s hs => Action.ends_ofMemory.mpr (hx h s hs)

theorem unary_safe (op : UnaryOperator) (r : Reference) : Safe (unary op r) := fun h s hs =>
  unary_ends (fun _ _ => hs.consistent) fun n => (makeInteger_safe n).ofMemory h s hs

theorem binary_safe (op : BinaryOperator) (left right : Reference) :
    Safe (binary op left right) := fun h s hs =>
  binary_ends (fun _ _ _ _ => hs.consistent) (fun _ _ _ _ => hs.consistent)
    (fun n => (makeInteger_safe n).ofMemory h s hs)
    ((makeConcatenation_safe left right).ofMemory h s hs)

theorem subscript_safe (r index : Reference) : Safe (subscript r index) := fun h s hs =>
  subscript_ends (fun _ _ => hs.consistent) (fun _ => listSubscript_safe r index h s hs)
    fun _ => dictGet_safe r index h s hs

theorem assignItem_safe (r index item : Reference) : Safe (assignItem r index item) :=
  fun h s hs => assignItem_ends (fun _ _ => hs.consistent)
    (fun _ => listAssign_safe r index item h s hs) fun _ => dictSet_safe r index item h s hs

theorem deleteItem_safe (r index : Reference) : Safe (deleteItem r index) := fun h s hs =>
  deleteItem_ends (fun _ _ => hs.consistent) (fun _ => listDelete_safe r index h s hs)
    fun _ => dictDelete_safe r index h s hs

end Operators

end Heap
end CountedHeap
