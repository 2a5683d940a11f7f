import CountedHeap.Proofs.Dictionaries
import CountedHeap.Proofs.Exhaustion
import CountedHeap.Proofs.Restoring

/-!
Failures leave the heap as it was. A call that is refused has given back all that it made and all
that it retained. The only trace that a failure leaves is an entry of a dict whose tables took it
and then found no memory to grow.
-/

namespace CountedHeap

namespace Heap

/-- The same references are occupied, and the addresses, counts and values are the same. -/
structure Unchanged (h h' : Heap) : Prop where
  occupied : ∀ r, h'.Occupied r ↔ h.Occupied r
  intact : ∀ r, h.Occupied r → Intact h h' r
  refcount : ∀ r, h.Occupied r → h'.refcount r = h.refcount r
  used : h'.used = h.used

/-- The dict has an entry more, and other values are as they were. The key and the value are counted
once more; the dict may stand on other arrays, in which its other entries are. -/
structure EntryAdded (h h' : Heap) (dict key value : Reference) : Prop where
  occupied : ∀ r, h'.Occupied r ↔
    r ∈ h'.storage dict ∨ (h.Occupied r ∧ r ∉ h.storage dict)
  placed : Placed h h' dict
  intact : ∀ r, h.Occupied r → r ≠ dict → r ∉ h.storage dict → Intact h h' r
  refcount : ∀ r n, h.refcount r = .ok n → r ∉ h.storage dict →
    h'.refcount r = .ok (n + [key, value].count r)
  parts : ∃ p p' ks, h.dictParts dict = .ok p ∧ h'.dictParts dict = .ok p' ∧
    p'.size = p.size + 1 ∧ h'.contents p'.keys = .ok (.array ks) ∧
      p'.occupied = ks.countP (!·.isNull)
  entries : ∃ x m, h.contents key = .ok x ∧ h.Agrees dict m ∧ m x = none ∧
    h'.Agrees dict (m.set x key value)

variable {h h' : Heap} {s s' : Store} {arrays owned : List Reference} {dict key value r : Reference}
  {x : Content} {m : Mapping}

theorem Unchanged.refl (h : Heap) : Unchanged h h :=
  ⟨fun _ => .rfl, fun _ _ => ⟨⟨rfl, rfl, rfl⟩, rfl, fun _ => rfl⟩, fun _ _ => rfl, rfl⟩

theorem Sound.bytes_eq (hs : h.Sound s) (hs' : h'.Sound s')
    (htable : h'.table.get? = h.table.get?)
    (hsizes : ∀ q c, s q = some c →
      h'.pool.memory.sizeAt c.addr = h.pool.memory.sizeAt c.addr) : h'.bytes = h.bytes := by
  have hentries : h'.table.entries.Perm h.table.entries :=
    (List.perm_ext_iff_of_nodup hs'.nodup_entries.of_map hs.nodup_entries.of_map).mpr fun e => by
      rw [Table.mem_entries hs'.small, Table.mem_entries hs.small, htable]
  have haddresses := hentries.map Prod.snd
  rw [Table.map_entries, Table.map_entries] at haddresses
  rw [bytes, (haddresses.map _).sum_eq, hs.bytes_congr hsizes]

theorem Path.unchanged {sc : Scope} (hp : Path sc h h') (hs : h.Sound s) (hs' : h'.Sound s')
    (hcontent : s'.content = s.content) (hcount : s'.count = s.count)
    (hfixed : ∀ q, h.Occupied q → sc.fixed q) (hedited : ∀ q, ¬sc.edited q) : Unchanged h h' := by
  obtain ⟨s'', hk⟩ := Path.steady hp hs
  obtain rfl := hs'.unique hk.sound.toStored
  have hoccupied (r : Reference) : h'.Occupied r ↔ h.Occupied r := by
    rw [hs'.occupied_iff_content, hs.occupied_iff_content, hcontent]
  have hcell {q : Reference} {c : Cell} (hq : s q = some c) : ∃ d, s'' q = some d ∧
      d.addr = c.addr ∧ h'.pool.memory.sizeAt c.addr = h.pool.memory.sizeAt c.addr := by
    have hr := hs.occupied_iff.mpr ⟨c, hq⟩
    obtain ⟨d, hd⟩ := hs'.occupied_iff.mp ((hoccupied q).mpr hr)
    obtain ⟨c', hc', haddr, hsize, -⟩ := hk.addr (hfixed q hr) hd
    rw [hq] at hc'
    cases hc'
    exact ⟨d, hd, haddr, haddr ▸ hsize⟩
  have htable : h'.table.get? = h.table.get? := by
    funext r
    by_cases hr : h.Occupied r
    · obtain ⟨c, hc⟩ := hs.occupied_iff.mp hr
      obtain ⟨d, hd, haddr, -⟩ := hcell hc
      rw [hs.get?_eq hc, hs'.get?_eq hd, haddr]
    · rw [not_not.mp hr, not_not.mp (mt (hoccupied r).mp hr)]
  refine ⟨hoccupied, fun r hr => hk.intact hs (hfixed r hr) (hedited r) ((hoccupied r).mpr hr),
    fun r hr => ?_, ?_⟩
  · obtain ⟨c, hc⟩ := hs.occupied_iff.mp hr
    obtain ⟨d, hd, -⟩ := hcell hc
    rw [hs'.refcount_eq hd, hs.refcount_eq hc, ← Store.count_eq hd, ← Store.count_eq hc, hcount]
  · rw [hs'.used_eq, hs.used_eq, hs.bytes_eq hs' htable fun q c hq => (hcell hq).choose_spec.2.2]

theorem Restored.unchanged (hr : Restored h s h') (hs : h.Sound s) : Unchanged h h' :=
  hr.2.unchanged hs hr.1 rfl rfl (fun _ => id) fun _ => id

theorem Sound.entryAdded (hs : h.Sound s) (hl : s.Ledger arrays owned) (hs' : h'.Sound s')
    (hl' : s'.Ledger arrays owned) (hx : s.content key = some x) (hm : s.Maps dict m)
    (hnone : m x = none) (hm' : s'.Maps dict (m.set x key value))
    (ha : s.Around s' dict [key, value])
    (hp : Path ⟨h.Beyond (some dict), (· ∈ some dict), True⟩ h h') :
    EntryAdded h h' dict key value := by
  have ⟨n, o, k, v, ks, vs, hd, hk, hv, _⟩ := hm
  have ⟨n', o', k', v', us, ws, hd', hk', hv', _⟩ := hm'
  have hstorage (r : Reference) : r ∈ h.storage dict ↔ r ∈ s.held dict := by
    rw [hs.mem_storage, Store.held_dict hd, hd]
    simp only [Option.some_inj, reduceCtorEq, exists_false, false_or, Content.dict.injEq,
      List.mem_cons, List.not_mem_nil, or_false]
    grind
  have hstorage' (r : Reference) : r ∈ h'.storage dict ↔ r ∈ s'.held dict := by
    rw [hs'.mem_storage, Store.held_dict hd', hd']
    simp only [Option.some_inj, reduceCtorEq, exists_false, false_or, Content.dict.injEq,
      List.mem_cons, List.not_mem_nil, or_false]
    grind
  have hkept {q : Reference} (hq : h.Occupied q) (hne : q ≠ dict) (hold : q ∉ h.storage dict) :
      s'.content q = s.content q := by
    obtain ⟨y, hy⟩ := hs.occupied_iff_content.mp hq
    exact ha.elsewhere (hy ▸ nofun) hne (mt (hstorage q).mpr hold)
  have hdict : h.Occupied dict := hs.occupied_iff_content.mpr ⟨_, hd⟩
  have hdict' : h'.Occupied dict := hs'.occupied_iff_content.mpr ⟨_, hd'⟩
  have hsame {q : Reference} (hq : h.Occupied q) (hold : q ∉ h.storage dict) : h'.Occupied q := by
    by_cases hne : q = dict
    · exact hne ▸ hdict'
    · rw [hs'.occupied_iff_content, hkept hq hne hold]
      exact hs.occupied_iff_content.mp hq
  obtain ⟨hothers, htarget, -⟩ := hp.isolates hs hl
  refine ⟨fun r => ⟨fun hr => ?_, ?_⟩, htarget dict rfl hdict hdict', fun r hr hne hold => ?_,
    fun r i hr hold => ?_, ?_, ?_⟩
  · by_cases hnew : r ∈ h'.storage dict
    · exact .inl hnew
    obtain ⟨y, hy⟩ := hs'.occupied_iff_content.mp hr
    have hold : r ∉ h.storage dict := fun hold => by
      have hgone := (ha.gone r ((hstorage r).mp hold)).resolve_left (mt (hstorage' r).mpr hnew)
      rw [hy] at hgone
      cases hgone
    refine .inr ⟨?_, hold⟩
    by_cases hne : r = dict
    · exact hne ▸ hdict
    · rw [ha.others r hne (mt (hstorage r).mpr hold) (mt (hstorage' r).mpr hnew)] at hy
      exact hs.occupied_iff_content.mpr ⟨y, hy⟩
  · rintro (hnew | ⟨hr, hold⟩)
    · obtain ⟨⟨xs, hxs⟩, -⟩ := hs'.storage_held hl' hnew
      exact hs'.occupied_iff_content.mpr ⟨_, hxs⟩
    · exact hsame hr hold
  · refine hothers r hr (hsame hr hold) (fun hmem => hne (Option.some.inj hmem).symm) fun t ht => ?_
    exact Option.some.inj ht ▸ hold
  · obtain ⟨c, hc⟩ : ∃ c, s r = some c := by
      simp only [refcount, bind_eq_ok, hs.deref_eq_ok] at hr
      obtain ⟨_, ⟨c, hc, -⟩, -⟩ := hr
      exact ⟨c, hc⟩
    rw [hs.refcount_eq hc, Except.ok.injEq, ← Store.count_eq hc] at hr
    obtain ⟨d, hd⟩ := hs'.occupied_iff.mp (hsame (hs.occupied_iff.mpr ⟨c, hc⟩) hold)
    rw [hs'.refcount_eq hd, ← Store.count_eq hd, ← hr,
      ha.count r (Store.content_of hc ▸ nofun) (mt (hstorage r).mpr hold)]
  · refine ⟨⟨n, o, k, v⟩, ⟨n', o', k', v'⟩, us, hs.dictParts_eq_ok.mpr hd,
      hs'.dictParts_eq_ok.mpr hd', ?_, hs'.contents_eq_ok.mpr hk',
        (hl'.tabled hd' hk' hv').occupied_eq.symm⟩
    exact (hm'.size hl' hd').unique ((hm.size hl hd).set hnone)
  · exact ⟨x, m, hs.contents_eq_ok.mpr hx, hs.agrees hl hm, hnone, hs'.agrees hl' hm'⟩

def Declines {ε α : Type} (x : Action ε α) (h : Heap) : Prop :=
  x.Ends h (fun _ _ => True) fun _ h' => Unchanged h h'

section Declining

variable {ε α : Type}

theorem Declines.of_same {x : Action ε α} (hx : x.Ends h (fun _ _ => True) fun _ h' => h' = h) :
    Declines x h := hx.imp (fun _ _ h => h) fun _ _ h => h ▸ .refl _

theorem throw_declines (e : ε) : Declines (throw e : Action ε α) h :=
  Action.ends_throw.mpr (.refl h)

theorem Declines.ofMemory {x : Action OutOfMemory α} (hx : Declines x h) :
    Declines (liftM x : Action Failure α) h := Action.ends_ofMemory.mpr hx

theorem ask_declines (f : Heap → Query ε α) : Declines (Action.ask f) h :=
  Action.ends_ask.mpr ⟨fun _ _ => trivial, fun _ _ => .refl h⟩

theorem update_declines (f : Heap → Except Fault Heap) :
    Declines (Action.update f : Action ε Unit) h := Action.ends_update.mpr fun _ _ => trivial

theorem Declines.unanswered {x : Action Failure α} (hx : Declines x h) :
    Declines (do let _ ← x) h :=
  Action.ends_bind.mpr (hx.imp (fun _ _ _ => Action.ends_pure.mpr trivial) fun _ _ h => h)

theorem listSubscript_declines (list index : Reference) :
    Declines (listSubscript list index) h := by
  refine .of_same ?_
  simp only [listSubscript, Action.ends_bind, Action.ends_ask, Action.ends_read, Action.ends_update,
    Action.ends_pure]
  exact ⟨fun _ _ _ _ _ _ => trivial, fun _ _ => trivial⟩

theorem listAssign_declines (list index item : Reference) :
    Declines (listAssign list index item) h := by
  refine .of_same ?_
  simp only [listAssign, Action.ends_bind, Action.ends_ask, Action.ends_read, Action.ends_update]
  exact ⟨fun _ _ _ _ _ _ _ _ _ _ _ _ => trivial, fun _ _ => trivial⟩

theorem listDelete_declines (list index : Reference) : Declines (listDelete list index) h := by
  refine .of_same ?_
  simp only [listDelete, Action.ends_bind, Action.ends_ask, Action.ends_read, Action.ends_update]
  exact ⟨fun _ _ _ _ _ _ _ _ _ _ _ _ _ _ => trivial, fun _ _ => trivial⟩

theorem dictGet_declines (dict key : Reference) : Declines (dictGet dict key) h := by
  refine .of_same ?_
  simp only [dictGet, Action.ends_bind, Action.ends_ask, Action.ends_read]
  refine ⟨fun hash _ parts _ slot _ => ?_, fun _ _ => trivial⟩
  cases slot with
  | none => exact Action.ends_throw.mpr rfl
  | some slot =>
    simp only [Action.ends_bind, Action.ends_read, Action.ends_update, Action.ends_pure]
    exact fun _ _ _ _ => trivial

theorem dictDelete_declines (dict key : Reference) : Declines (dictDelete dict key) h := by
  refine .of_same ?_
  simp only [dictDelete, Action.ends_bind, Action.ends_ask, Action.ends_read]
  refine ⟨fun hash _ parts _ slot _ => ?_, fun _ _ => trivial⟩
  cases slot with
  | none => exact Action.ends_throw.mpr rfl
  | some slot =>
    simp only [Action.ends_bind, Action.ends_read, Action.ends_update, Action.ends_liftFailure]
    exact fun _ _ _ _ _ _ _ _ _ _ _ _ _ _ _ _ => trivial

theorem subscript_declines (r index : Reference) : Declines (subscript r index) h :=
  subscript_ends (fun _ _ => .refl h) (fun _ => listSubscript_declines r index)
    fun _ => dictGet_declines r index

theorem deleteItem_declines (r index : Reference) : Declines (deleteItem r index) h :=
  deleteItem_ends (fun _ _ => .refl h) (fun _ => listDelete_declines r index)
    fun _ => dictDelete_declines r index

theorem get_declines (g : Globals) (name : String) : Declines (g.get name) h := by
  unfold Globals.get
  split
  · exact throw_declines _
  · simp only [Declines, Action.ends_bind, Action.ends_update, Action.ends_pure]
    exact fun _ _ => trivial

theorem delete_declines (g : Globals) (name : String) : Declines (g.delete name) h := by
  unfold Globals.delete
  split
  · exact throw_declines _
  · simp only [Declines, Action.ends_bind, Action.ends_update, Action.ends_pure]
    exact fun _ _ => trivial

variable (hs : h.Sound s)

include hs

theorem Creates.declines {x : Action OutOfMemory Reference} (hx : Creates True x) :
    Declines x h :=
  have hx' : Creates (Scope.consts ⟨fun _ => False, fun _ => False, True⟩) x := hx
  .of_same ((hx'.made hs).imp (fun _ _ _ => trivial) fun _ _ h => h)

theorem unary_declines (op : UnaryOperator) (r : Reference) : Declines (unary op r) h :=
  unary_ends (fun _ _ => .refl h) fun n => ((Creates.integer n).declines hs).ofMemory

theorem binary_declines (op : BinaryOperator) (left right : Reference) :
    Declines (binary op left right) h :=
  binary_ends (fun _ _ _ _ => .refl h) (fun _ _ _ _ => .refl h)
    (fun n => ((Creates.integer n).declines hs).ofMemory)
    ((Creates.concatenation left right).declines hs).ofMemory

theorem listPush_declines (list item : Reference) : Declines (listPush list item) h := by
  refine .of_same ?_
  simp only [listPush, roomFor, Action.ends_bind, Action.ends_read, Action.ends_ite,
    Action.ends_pure, Action.ends_update, Action.ends_liftM]
  refine fun parts _ capacity _ => ⟨fun _ room _ => ?_, fun _ _ _ _ _ _ _ => trivial⟩
  exact (hs.makeArray _).imp (fun _ _ _ _ _ _ _ _ _ _ _ _ _ _ _ => trivial) fun _ _ h => h

theorem newList_declines (elements : List Reference) : Declines (newList elements) h := by
  let sc : Scope := ⟨h.Occupied, fun _ => False, True⟩
  have hborn : Born sc (newList elements) h := newList_born elements hs fun _ hq => hq
  refine ((newList_restored hs elements).and hborn).imp (fun _ _ _ => trivial) ?_
  rintro _ h' ⟨hs', hp⟩
  exact hp.unchanged hs hs' rfl rfl (fun _ hq => hq) fun _ hf => hf

variable (hl : s.Ledger arrays owned) (hmin : h.config.dictMinCapacity ≠ 0)

include hl hmin

theorem newDict_declines {pairs : List (Reference × Reference)} (hseen : ∀ p ∈ pairs, Seen s p.2) :
    Declines (newDict pairs) h := by
  let sc : Scope := ⟨h.Occupied, fun _ => False, True⟩
  have hborn : Born sc (newDict pairs) h := newDict_born hs hl hseen fun _ hq => hq
  have hends := (newDict_restored hs hl hseen hmin).and
    (newDict_balanced hs hl (Store.Fewer.refl s) hseen)
  refine (hends.and hborn).imp (fun _ _ _ => trivial) ?_
  rintro _ h' ⟨⟨⟨s', hs', hcontent⟩, s'', hs'', hl'', -⟩, hp⟩
  obtain rfl := hs'.unique hs''.toStored
  exact hp.unchanged hs hs' hcontent (hl.count_congr hl'' hcontent) (fun _ hq => hq) fun _ hf => hf

theorem dictSet_declines (dict key : Reference) (hvalue : Seen s value) :
    (dictSet dict key value).Ends h (fun _ _ => True) fun e h' => Unchanged h h' ∨
      (∃ m, e = .outOfMemory m) ∧ EntryAdded h h' dict key value := by
  by_cases hd : ∃ n o k v, s.content dict = some (.dict n o k v)
  · obtain ⟨n, o, k, v, hd⟩ := hd
    have he := hs.editing hl .nothing hd
    let sc : Scope := ⟨h.Beyond (some dict), (· ∈ some dict), True⟩
    have htraced : Traced sc (dictSet dict key value) h :=
      hs.dictSet_traced hl (fun _ hq => hq.1) (fun _ => rfl)
        (fun _ _ _ _ hx => hs.not_beyond_dict hx) hvalue
    refine ((dictSet_around he hvalue hmin).and htraced).imp (fun _ _ _ => trivial) ?_
    rintro e h' ⟨hr | ⟨hmemory, x, s', hx, hnone, he', hmaps, ha⟩, hp⟩
    · exact .inl (hr.unchanged hs)
    · obtain ⟨m, hm⟩ := hl.exists_mapping hd
      exact .inr ⟨hmemory, hs.entryAdded hl he'.sound he'.ledger hx hm (hnone m hm) (hmaps m hm) ha
        hp⟩
  · exact dictSet_of_not_dict hs (fun _ _ => .inl (.refl h)) hd

theorem assignItem_declines (r index : Reference) {item : Reference} (hitem : Seen s item) :
    (assignItem r index item).Ends h (fun _ _ => True) fun e h' => Unchanged h h' ∨
      (∃ m, e = .outOfMemory m) ∧ EntryAdded h h' r index item := by
  refine assignItem_ends (fun _ _ => .inl (.refl h)) (fun _ => ?_)
    fun _ => dictSet_declines hs hl hmin r index hitem
  exact (listAssign_declines r index item).imp (fun _ _ h => h) fun _ _ h => .inl h

end Declining

theorem ofConfig_dictMinCapacity {config : Config} (hnew : ofConfig config = .ok (.ok h)) :
    config.dictMinCapacity ≠ 0 := by
  unfold ofConfig at hnew
  split at hnew
  · cases hnew
  · rename_i hvalid
    intro hzero
    simp only [Config.validate] at hvalid
    split at hvalid <;> cases hvalid

end Heap

namespace Action

variable {α : Type} {h h' : Heap} {e : Failure}

theorem error_of_unanswered {x : Action Failure α}
    (hx : (do let _ ← x : Action Failure Unit).runOn h = .ok (.error e, h')) :
    x.runOn h = .ok (.error e, h') := by
  rw [runOn_bind] at hx
  obtain ⟨⟨a, heap⟩, ha, hx⟩ := bind_eq_ok.mp hx
  cases a with
  | ok a => cases hx
  | error e =>
    cases hx
    exact ha

theorem error_of_ofMemory {x : Action OutOfMemory α}
    (hx : (liftM x : Action Failure α).runOn h = .ok (.error e, h')) :
    ∃ m, e = .outOfMemory m ∧ x.runOn h = .ok (.error m, h') := by
  replace hx : (mapError .outOfMemory x).runOn h = .ok (.error e, h') := hx
  rw [runOn_mapError] at hx
  obtain ⟨⟨a, heap⟩, ha, hx⟩ := bind_eq_ok.mp hx
  cases a with
  | ok a => cases hx
  | error m =>
    cases hx
    exact ⟨m, rfl, ha⟩

end Action

/-- What a client calls: a request, or a question to the heap. -/
inductive Call
  | request (q : Request)
  | length (r : Reference)
  | hash (r : Reference)
  | compare (op : Comparison) (left right : Reference)

def Call.entry? : Call → Option (Reference × Reference × Reference)
  | .request (.dictSet dict key value) | .request (.assignItem dict key value) =>
      some (dict, key, value)
  | _ => none

namespace Client

open Heap

variable {c : Client} {call : Call} {q : Request} {e : Failure} {h' : Heap}

def attempt (c : Client) : Call → Action Failure Unit
  | .request .makeNone => do let _ ← makeNone
  | .request (.makeBool b) => do let _ ← makeBool b
  | .request (.makeInteger n) => do let _ ← makeInteger n
  | .request (.makeString bytes) => do let _ ← makeString bytes
  | .request (.makeConcatenation left right) => do let _ ← makeConcatenation left right
  | .request (.makeArray capacity) => do let _ ← makeArray capacity
  | .request (.makeList values) => do let _ ← makeList values
  | .request (.makeDict keys values) => do let _ ← makeDict keys values
  | .request (.newList elements) => do let _ ← newList elements
  | .request (.newDict pairs) => do let _ ← newDict pairs
  | .request (.listPush list item) => listPush list item
  | .request (.dictGet dict key) => do let _ ← dictGet dict key
  | .request (.dictSet dict key value) => dictSet dict key value
  | .request (.dictDelete dict key) => dictDelete dict key
  | .request (.unary op r) => do let _ ← unary op r
  | .request (.binary op left right) => do let _ ← binary op left right
  | .request (.subscript r index) => do let _ ← subscript r index
  | .request (.assignItem r index item) => assignItem r index item
  | .request (.deleteItem r index) => deleteItem r index
  | .request (.retain r) => Action.update (·.retain r)
  | .request (.release r) => Action.update (·.release r)
  | .request (.bind name value) =>
      Action.update fun h => do return (← c.globals.bind h name value).2
  | .request (.lookup name) => do let _ ← c.globals.get name
  | .request (.unbind name) => do let _ ← c.globals.delete name
  | .request .clear => Action.update c.globals.clear
  | .request (.collect roots) => do
      let _ ← (Heap.collect (c.roots roots)).mapError .collection
  | .length r => do let _ ← Action.ask (·.length r)
  | .hash r => do let _ ← Action.ask (·.hash r)
  | .compare op left right => do let _ ← Action.ask (·.compareBy op left right)

def permits (c : Client) : Call → Bool
  | .request (.collect _) => false
  | .request q => c.allows q
  | .length r | .hash r => c.sees r
  | .compare _ left right => c.sees left && c.sees right

theorem serve_of_attempt (hcollect : ∀ roots, q ≠ .collect roots)
    (hrun : (c.attempt (.request q)).runOn c.heap = .ok (.error e, h')) :
    c.serve q = .ok (some { c with heap := h' }) := by
  have hplain {ε α : Type} {x : Action ε α} {answer : Client → α → Client} {e : ε}
      (hx : x.runOn c.heap = .ok (.error e, h')) :
      some <$> c.after x answer = .ok (some { c with heap := h' }) := by
    simp only [after, hx]
    rfl
  have hanswer {α : Type} {x : Action Failure α} {answer : Client → α → Client}
      (hx : (do let _ ← x : Action Failure Unit).runOn c.heap = .ok (.error e, h')) :
      some <$> c.after x answer = .ok (some { c with heap := h' }) :=
    hplain (Action.error_of_unanswered hx)
  have hmemory {α : Type} {x : Action OutOfMemory α} {answer : Client → α → Client}
      (hx : (liftM x : Action Failure α).runOn c.heap = .ok (.error e, h')) :
      some <$> c.after x answer = .ok (some { c with heap := h' }) := by
    obtain ⟨m, -, hx⟩ := Action.error_of_ofMemory hx
    exact hplain hx
  have hmake {x : Action OutOfMemory Reference} {answer : Client → Reference → Client}
      (hx : (do let _ ← x : Action Failure Unit).runOn c.heap = .ok (.error e, h')) :
      some <$> c.after x answer = .ok (some { c with heap := h' }) :=
    hmemory (Action.error_of_unanswered hx)
  have hupdate {f : Heap → Except Fault Heap}
      (hx : (Action.update f : Action Failure Unit).runOn c.heap = .ok (.error e, h')) : False :=
    (Action.ends_update.mpr fun _ _ => trivial :
      (Action.update f : Action Failure Unit).Ends c.heap (fun _ _ => True) fun _ _ => False).bad hx
  cases q with
  | makeNone | makeBool | makeInteger | makeString | makeConcatenation | makeArray | makeList
  | makeDict | newList => exact hmake hrun
  | listPush => exact hmemory hrun
  | newDict | dictGet | unary | binary | subscript | lookup | unbind => exact hanswer hrun
  | dictSet | dictDelete | assignItem | deleteItem => exact hplain hrun
  | retain | release | bind | clear => exact (hupdate hrun).elim
  | collect roots => exact absurd rfl (hcollect roots)

theorem Accounted.config_eq {c' : Client} (hc : c.Accounted) (hq : c.allows q = true)
    (hserve : c.serve q = .ok (some c')) : c'.heap.config = c.heap.config := by
  obtain ⟨s, hs, -⟩ := hc.balanced
  rcases hc.collected_or_moved hq hserve with ⟨given, col, -, hrun⟩ | ⟨-, hmoved⟩
  · obtain ⟨s', hcollected⟩ := (hs.collect _).good hrun
    exact hcollected.config
  · exact hmoved.path.config ⟨s, hs⟩

theorem Run.dictMinCapacity_ne_zero (hrun : Run allows c) :
    c.heap.config.dictMinCapacity ≠ 0 := by
  induction hrun with
  | start hnew => exact (ofConfig_sound hnew).2.1 ▸ ofConfig_dictMinCapacity hnew
  | @step c c' q hrun hq hserve ih => rwa [hrun.accounted.config_eq hq hserve]

/-- A call that is refused changes nothing, save that a dict may keep an entry that it took before
it ran out of memory. -/
theorem Run.refused (hrun : Run allows c) (hcall : c.permits call = true)
    (hrefused : (c.attempt call).runOn c.heap = .ok (.error e, h')) :
    Unchanged c.heap h' ∨ (∃ m, e = .outOfMemory m) ∧ ∃ dict key value,
      call.entry? = some (dict, key, value) ∧ EntryAdded c.heap h' dict key value := by
  obtain ⟨s, hs, hl, -⟩ := hrun.accounted.balanced
  have hmin := hrun.dictMinCapacity_ne_zero
  have hseen {r : Reference} (hr : c.sees r = true) : Seen s r := seen_of_sees hs hr
  have hdeclines (hx : Declines (c.attempt call) c.heap) : Unchanged c.heap h' := hx.bad hrefused
  have hcreates {x : Action OutOfMemory Reference} (hx : Creates True x) :
      Declines (do let _ ← x : Action Failure Unit) c.heap := (hx.declines hs).ofMemory.unanswered
  cases call with
  | length r => exact .inl (hdeclines (ask_declines _).unanswered)
  | hash r => exact .inl (hdeclines (ask_declines _).unanswered)
  | compare op left right => exact .inl (hdeclines (ask_declines _).unanswered)
  | request q =>
    cases q with
    | makeNone => exact .inl (hdeclines (hcreates (.none trivial)))
    | makeBool b => exact .inl (hdeclines (hcreates (.bool trivial b)))
    | makeInteger n => exact .inl (hdeclines (hcreates (.integer n)))
    | makeString bytes => exact .inl (hdeclines (hcreates (.string bytes)))
    | makeConcatenation left right => exact .inl (hdeclines (hcreates (.concatenation left right)))
    | makeArray capacity => exact .inl (hdeclines (hcreates (.array capacity)))
    | makeList values => exact .inl (hdeclines (hcreates (.list values)))
    | makeDict keys values => exact .inl (hdeclines (hcreates (.dict keys values)))
    | newList elements => exact .inl (hdeclines (newList_declines hs elements).ofMemory.unanswered)
    | newDict pairs =>
      have hall := List.all_eq_true.mp hcall
      refine .inl (hdeclines (newDict_declines hs hl hmin fun p hp => ?_).unanswered)
      exact hseen ((Bool.and_eq_true ..).mp (hall p hp)).2
    | listPush list item => exact .inl (hdeclines (listPush_declines hs list item).ofMemory)
    | dictGet dict key => exact .inl (hdeclines (dictGet_declines dict key).unanswered)
    | dictSet dict key value =>
      have hends := dictSet_declines hs hl hmin dict key (hseen ((Bool.and_eq_true ..).mp hcall).2)
      exact (hends.bad hrefused).imp_right fun ⟨hm, hadded⟩ => ⟨hm, dict, key, value, rfl, hadded⟩
    | dictDelete dict key => exact .inl (hdeclines (dictDelete_declines dict key))
    | unary op r => exact .inl (hdeclines (unary_declines hs op r).unanswered)
    | binary op left right => exact .inl (hdeclines (binary_declines hs op left right).unanswered)
    | subscript r index => exact .inl (hdeclines (subscript_declines r index).unanswered)
    | assignItem r index item =>
      have hends := assignItem_declines hs hl hmin r index
        (hseen ((Bool.and_eq_true ..).mp hcall).2)
      exact (hends.bad hrefused).imp_right fun ⟨hm, hadded⟩ => ⟨hm, r, index, item, rfl, hadded⟩
    | deleteItem r index => exact .inl (hdeclines (deleteItem_declines r index))
    | retain r => exact .inl (hdeclines (update_declines _))
    | release r => exact .inl (hdeclines (update_declines _))
    | bind name value => exact .inl (hdeclines (update_declines _))
    | lookup name => exact .inl (hdeclines (get_declines c.globals name).unanswered)
    | unbind name => exact .inl (hdeclines (delete_declines c.globals name).unanswered)
    | clear => exact .inl (hdeclines (update_declines _))
    | collect roots => cases hcall

def crowded : Option Client :=
  session allows { poolSize := 320, poison := false, dictMinCapacity := 2 }
    [.makeInteger 1, .newDict []]

def crowdedSet : Call := .request (.dictSet (.ofIndex 3) (.ofIndex 0) (.ofIndex 0))

theorem crowded_refused : ∃ c e h', crowded = some c ∧ c.permits crowdedSet = true ∧
    (c.attempt crowdedSet).runOn c.heap = .ok (.error e, h') ∧
      (Unchanged c.heap h' ∨ (∃ m, e = .outOfMemory m) ∧ ∃ dict key value,
        crowdedSet.entry? = some (dict, key, value) ∧ EntryAdded c.heap h' dict key value) := by
  have hall : (crowded.any fun c => c.permits crowdedSet &&
      (c.attempt crowdedSet).fails c.heap) = true := by decide +kernel
  obtain ⟨c, hc, hrefuses⟩ := (Option.any_eq_true ..).mp hall
  obtain ⟨hcall, hfails⟩ := (Bool.and_eq_true ..).mp hrefuses
  obtain ⟨e, h', hrun⟩ := Action.exists_of_fails hfails
  exact ⟨c, e, h', hc, hcall, hrun, (Run.session hc).refused hcall hrun⟩

end Client

end CountedHeap
