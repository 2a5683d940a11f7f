import CountedHeap.Proofs.Exhaustion
import CountedHeap.Proofs.Isolation
import CountedHeap.Proofs.Lookups
import CountedHeap.Proofs.Progress
import CountedHeap.Proofs.Restoring

/-!
Dicts are finite maps. A dict answers whatever its map says, and each request changes the map as it
would have to be changed if it were the dict.
-/

namespace CountedHeap

namespace Heap

/-- A dict answers as a map. Keys with the same contents are one key. -/
structure Agrees (h : Heap) (d : Reference) (m : Mapping) : Prop where
  equal : ∀ {k l x y}, h.contents k = .ok x → x.hash? ≠ none → h.contents l = .ok y →
    ∃ b, h.equal k l = .ok b ∧ (b = true ↔ y = x)
  hashable : ∀ {x e}, m x = some e → x.hash? ≠ none
  entries : ∃ p, h.dictParts d = .ok p ∧ ∀ x e, m x = some e ↔
    ∃ i, h.arrayGet p.keys i = .ok e.1 ∧ e.1.isLive = true ∧ h.contents e.1 = .ok x ∧
      h.arrayGet p.values i = .ok e.2
  length : ∃ n, h.length d = .ok (.ok n) ∧ m.HasSize n
  get : ∀ {key x e}, h.contents key = .ok x → m x = some e →
    (dictGet d key).runOn h = (fun h' => (.ok e.2, h')) <$> h.retain e.2
  counted : ∀ {x e}, m x = some e → ∃ n, h.refcount e.2 = .ok n ∧
    (n + 1 < Word.limit → ∃ h', h.retain e.2 = .ok h' ∧ h'.refcount e.2 = .ok (n + 1))
  getMissing : ∀ {key x}, h.contents key = .ok x → x.hash? ≠ none → m x = none →
    (dictGet d key).runOn h = .ok (.error .missingKey, h)
  delete : ∀ {key x e}, h.contents key = .ok x → m x = some e →
    ∃ h', (dictDelete d key).runOn h = .ok (.ok (), h')
  deleteMissing : ∀ {key x}, h.contents key = .ok x → x.hash? ≠ none → m x = none →
    (dictDelete d key).runOn h = .ok (.error .missingKeyToDelete, h)
  unhashable : ∀ {key x}, h.contents key = .ok x → x.kind = .list ∨ x.kind = .dict →
    (dictGet d key).runOn h = .ok (.error (.unhashable x.kind), h) ∧
      (dictDelete d key).runOn h = .ok (.error (.unhashable x.kind), h) ∧
        ∀ value, (dictSet d key value).runOn h = .ok (.error (.unhashable x.kind), h)

/-- How setting a key ends, and what becomes of the map. -/
def Sets (h : Heap) (d key value : Reference) (m m' : Mapping) : Prop :=
  ∃ a h', (dictSet d key value).runOn h = .ok (a, h') ∧ ∃ x, h.contents key = .ok x ∧
    match a with
    | .ok _ => x.hash? ≠ none ∧ m' = m.set x key value
    | .error (.outOfMemory _) => x.hash? ≠ none ∧ (m' = m ∨ m' = m.set x key value)
    | .error e => e = .unhashable x.kind ∧ x.hash? = none ∧ h' = h ∧ m' = m

/-- How deleting a key ends, and what becomes of the map. -/
def Deletes (h : Heap) (d key : Reference) (m m' : Mapping) : Prop :=
  ∃ a h', (dictDelete d key).runOn h = .ok (a, h') ∧
    match a with
    | .ok _ => ∃ x e, h.contents key = .ok x ∧ m x = some e ∧ m' = m.erase x
    | .error _ => h' = h ∧ m' = m

variable {h h' : Heap} {s : Store} {d key value : Reference} {m : Mapping} {x : Content}
  {hash : UInt64} {e : Reference × Reference} {arrays owned : List Reference}

namespace Stored

variable (hs : h.Stored s)

include hs

theorem hash_unhashable (hx : s.content key = some x) (hkind : x.kind = .list ∨ x.kind = .dict) :
    h.hash key = .ok (.error (.unhashable x.kind)) := by
  obtain ⟨c, hc, rfl⟩ := Store.content_eq_some.mp hx
  unfold Heap.hash
  rw [hs.kindOf_eq hc]
  rcases hkind with hkind | hkind <;> rw [hkind] <;> rfl

theorem hash_eq_error (hx : s.content key = some x) (hkind : x.kind ≠ .array) {f : Failure}
    (hhash : h.hash key = .ok (.error f)) : x.hash? = none ∧ f = .unhashable x.kind := by
  cases hn : x.hash? with
  | some n =>
    rw [hs.hash_eq hx hn] at hhash
    cases hhash
  | none =>
    have hunhashable : x.kind = .list ∨ x.kind = .dict := by
      cases x <;> simp_all [Content.kind, Content.hash?]
    rw [hs.hash_unhashable hx hunhashable] at hhash
    cases hhash
    exact ⟨rfl, rfl⟩

theorem dict_length {n o : Nat} {k v : Reference} (hd : s.content d = some (.dict n o k v)) :
    h.length d = .ok (.ok n) := by
  obtain ⟨c, hc, hcontent⟩ := Store.content_eq_some.mp hd
  have hparts : h.dictParts d = .ok ⟨n, o, k, v⟩ := hs.dictParts_eq_ok.mpr hd
  unfold Heap.length
  rw [hs.kindOf_eq hc, hcontent]
  simp only [Content.kind, lengthAs?, hparts, ok_bind]
  rfl

end Stored

section Answers

variable (hs : h.Sound s) (hl : s.Ledger arrays owned) (hm : s.Maps d m)

include hs hl hm

theorem Sound.lookup_mapped (hx : s.content key = some x) (he : m x = some e) :
    ∃ hash n o k v ks vs slot, h.hash key = .ok (.ok hash) ∧ h.dictParts d = .ok ⟨n, o, k, v⟩ ∧
      s.content d = some (.dict n o k v) ∧ s.content k = some (.array ks) ∧
        s.content v = some (.array vs) ∧ h.lookup k hash key = .ok (some slot) ∧
          ks[slot]? = some e.1 ∧ e.1.isLive = true ∧ vs[slot]? = some e.2 := by
  obtain ⟨hash, hn⟩ := hm.hashable hl he
  obtain ⟨n, o, k, v, ks, vs, hd, hk, hv, ht⟩ := hm
  obtain ⟨slot, hlookup, hslot, hlive, hvalue⟩ :=
    hs.lookup_of_mapped hx hn hk (hl.tabled hd hk hv).toHashed ht he
  exact ⟨hash, n, o, k, v, ks, vs, slot, hs.hash_eq hx hn, hs.dictParts_eq_ok.mpr hd, hd, hk, hv,
    hlookup, hslot, hlive, hvalue⟩

theorem Sound.lookup_unmapped (hx : s.content key = some x) (hn : x.hash? = some hash)
    (he : m x = none) : ∃ p, h.dictParts d = .ok p ∧ h.lookup p.keys hash key = .ok none := by
  obtain ⟨n, o, k, v, ks, vs, hd, hk, hv, ht⟩ := hm
  exact ⟨⟨n, o, k, v⟩, hs.dictParts_eq_ok.mpr hd,
    hs.lookup_of_unmapped hx hn hk (hl.tabled hd hk hv).toHashed ht he⟩

theorem Sound.dictGet_mapped (hx : s.content key = some x) (he : m x = some e) :
    (dictGet d key).runOn h = (fun h' => (.ok e.2, h')) <$> h.retain e.2 := by
  obtain ⟨hash, n, o, k, v, ks, vs, slot, hhash, hparts, -, -, hv, hlookup, -, -, hvalue⟩ :=
    hs.lookup_mapped hl hm hx he
  have hget : h.arrayGet v slot = .ok e.2 := hs.arrayGet_eq_ok.mpr ⟨vs, hv, hvalue⟩
  rw [dictGet, Action.runOn_bind_ok (Action.runOn_ask hhash),
    Action.runOn_bind_ok (Action.runOn_read hparts),
    Action.runOn_bind_ok (Action.runOn_read hlookup)]
  dsimp only
  rw [Action.runOn_bind_ok (Action.runOn_read hget)]
  cases hret : h.retain e.2 with
  | ok h' =>
    rw [Action.runOn_bind_ok (Action.runOn_update hret)]
    rfl
  | error f =>
    show (h.retain e.2 >>= _) >>= _ = _
    rw [hret]
    rfl

theorem Sound.dictGet_unmapped (hx : s.content key = some x) (hn : x.hash? = some hash)
    (he : m x = none) : (dictGet d key).runOn h = .ok (.error .missingKey, h) := by
  obtain ⟨p, hparts, hlookup⟩ := hs.lookup_unmapped hl hm hx hn he
  rw [dictGet, Action.runOn_bind_ok (Action.runOn_ask (hs.hash_eq hx hn)),
    Action.runOn_bind_ok (Action.runOn_read hparts),
    Action.runOn_bind_ok (Action.runOn_read hlookup)]
  rfl

theorem Sound.dictDelete_unmapped (hx : s.content key = some x) (hn : x.hash? = some hash)
    (he : m x = none) :
    (dictDelete d key).runOn h = .ok (.error .missingKeyToDelete, h) := by
  obtain ⟨p, hparts, hlookup⟩ := hs.lookup_unmapped hl hm hx hn he
  rw [dictDelete, Action.runOn_bind_ok (Action.runOn_ask (hs.hash_eq hx hn)),
    Action.runOn_bind_ok (Action.runOn_read hparts),
    Action.runOn_bind_ok (Action.runOn_read hlookup)]
  rfl

theorem Sound.dictDelete_mapped (hx : s.content key = some x) (he : m x = some e) :
    ∃ h', (dictDelete d key).runOn h = .ok (.ok (), h') := by
  obtain ⟨hash, n, o, k, v, ks, vs, slot, hhash, hparts, hd, hk, hv, hlookup, hslot, hlive,
    hvalue⟩ := hs.lookup_mapped hl hm hx he
  have htabled := hl.tabled hd hk hv
  have hget : h.arrayGet k slot = .ok e.1 := hs.arrayGet_eq_ok.mpr ⟨ks, hk, hslot⟩
  have hget' : h.arrayGet v slot = .ok e.2 := hs.arrayGet_eq_ok.mpr ⟨vs, hv, hvalue⟩
  have hsize : 1 ≤ n := by
    rw [← htabled.size_eq]
    exact List.countP_pos_iff.mpr ⟨e.1, List.mem_of_getElem? hslot, hlive⟩
  have hne := hl.keys_ne_values hd hk
  obtain ⟨h₁, hset⟩ :=
    hs.arraySet_answers hk (List.getElem?_eq_some_iff.mp hslot).1 .tombstone
  obtain ⟨ks', hk', -, s₁, hs₁, hcontent₁, -⟩ := hs.tells.arraySet hset
  have hv₁ : s₁.content v = some (.array vs) := by
    rw [hcontent₁, Function.update_of_ne hne.symm, hv]
  obtain ⟨h₂, hset'⟩ :=
    hs₁.arraySet_answers hv₁ (List.getElem?_eq_some_iff.mp hvalue).1 .null
  obtain ⟨vs', hv', -, s₂, hs₂, hcontent₂, -⟩ := hs₁.tells.arraySet hset'
  have hd₂ : s₂.content d = some (.dict n o k v) := by
    rw [hcontent₂, Function.update_of_ne (Store.ne_of_content hd hv (by simp)), hcontent₁,
      Function.update_of_ne (Store.ne_of_content hd hk (by simp)), hd]
  obtain ⟨h₃, hstore⟩ : ∃ h₃, h₂.storeField d Layout.dictSizeOffset (n - 1) = .ok h₃ :=
    hs₂.storeField_answers hd₂ (by simp only [Content.room]; decide) _
  have hd' := hd
  rw [← Nat.sub_add_cancel hsize] at hd'
  obtain ⟨s₃, hs₃, hl₃, -⟩ := hs.removeEntry hl hd' hk hv hslot hlive hvalue hset hset' hstore
  obtain ⟨h₄, hrel⟩ := hs₃.release_answers hl₃ hlive
  have hnothing : Anchored s₃ (fun _ => none) (e.2 :: owned) := .nothing
  obtain ⟨s₄, hs₄, hl₄, -⟩ := hs₃.release_ledger hl₃ hnothing.fewer hnothing.standing hrel
  obtain ⟨h₅, hrel'⟩ := hs₄.release_answers hl₄ (htabled.value_live hslot hlive hvalue)
  refine ⟨h₅, ?_⟩
  rw [dictDelete, Action.runOn_bind_ok (Action.runOn_ask hhash),
    Action.runOn_bind_ok (Action.runOn_read hparts),
    Action.runOn_bind_ok (Action.runOn_read hlookup)]
  dsimp only
  rw [Action.runOn_bind_ok (Action.runOn_read hget), Action.runOn_bind_ok (Action.runOn_read hget'),
    Action.runOn_bind_ok (Action.runOn_update hset),
    Action.runOn_bind_ok (Action.runOn_update hset'),
    Action.runOn_bind_ok (Action.runOn_liftFailure (Word.sub_eq_ok.mpr ⟨hsize, rfl⟩)),
    Action.runOn_bind_ok (Action.runOn_update hstore),
    Action.runOn_bind_ok (Action.runOn_update (g := (·.release e.1)) hrel),
    Action.runOn_update (g := (·.release e.2)) hrel']

theorem Sound.agrees : h.Agrees d m where
  equal hx hn hy := by
    obtain ⟨hash, hn⟩ := Option.ne_none_iff_exists'.mp hn
    exact hs.equal_eq (hs.contents_eq_ok.mp hx) hn (hs.contents_eq_ok.mp hy)
  hashable he := by
    obtain ⟨hash, hn⟩ := hm.hashable hl he
    exact hn ▸ Option.some_ne_none hash
  entries := by
    obtain ⟨n, o, k, v, ks, vs, hd, hk, hv, ht⟩ := hm
    refine ⟨⟨n, o, k, v⟩, hs.dictParts_eq_ok.mpr hd, fun x e => (ht x e).trans ?_⟩
    simp only [Mapped, hs.arrayGet_eq_ok, hs.contents_eq_ok, hk, hv, Option.some_inj,
      Content.array.injEq, exists_eq_left']
  length := by
    obtain ⟨n, o, k, v, ks, vs, hd, -⟩ := id hm
    exact ⟨n, hs.dict_length hd, hm.size hl hd⟩
  get hx he := hs.dictGet_mapped hl hm (hs.contents_eq_ok.mp hx) he
  counted {x e} he := by
    obtain ⟨n, o, k, v, ks, vs, hd, hk, hv, ht⟩ := hm
    obtain ⟨i, hi, hlive, -, hvalue⟩ := (ht _ _).mp he
    have hvlive := (hl.tabled hd hk hv).value_live hi hlive hvalue
    have hheld : e.2 ∈ s.held v := by
      rw [Store.held_of_content hv]
      exact List.mem_filter.mpr ⟨List.mem_of_getElem? hvalue, hvlive⟩
    obtain ⟨y, hy⟩ := hl.occupied_of_held hheld
    obtain ⟨c, hc, -⟩ := Store.content_eq_some.mp hy
    refine ⟨c.count, hs.refcount_eq hc, fun hlt => ?_⟩
    obtain ⟨h', hret⟩ := hs.retain_answers hc hlt
    obtain ⟨c', hc', hs'⟩ := hs.retain hret
    rw [hc, Option.some_inj] at hc'
    subst hc'
    exact ⟨h', hret, hs'.refcount_eq Store.set_self⟩
  getMissing hx hn he := by
    obtain ⟨hash, hn⟩ := Option.ne_none_iff_exists'.mp hn
    exact hs.dictGet_unmapped hl hm (hs.contents_eq_ok.mp hx) hn he
  delete hx he := hs.dictDelete_mapped hl hm (hs.contents_eq_ok.mp hx) he
  deleteMissing hx hn he := by
    obtain ⟨hash, hn⟩ := Option.ne_none_iff_exists'.mp hn
    exact hs.dictDelete_unmapped hl hm (hs.contents_eq_ok.mp hx) hn he
  unhashable hx hkind := by
    have hhash := hs.hash_unhashable (hs.contents_eq_ok.mp hx) hkind
    exact ⟨Action.runOn_bind_error (Action.runOn_ask hhash),
      Action.runOn_bind_error (Action.runOn_ask hhash),
      fun _ => Action.runOn_bind_error (Action.runOn_ask hhash)⟩

end Answers

def Maps (h : Heap) (d : Reference) (m : Mapping) : Prop := ∃ s, h.Sound s ∧ s.Maps d m

theorem Stored.content_unique {s' : Store} (hs : h.Stored s) (hs' : h.Stored s') :
    s'.content = s.content := by
  funext q
  refine Option.ext fun x => ?_
  rw [← hs.contents_eq_ok, ← hs'.contents_eq_ok]

theorem Maps.store (hm : h.Maps d m) (hs : h.Sound s) : s.Maps d m := by
  obtain ⟨s', hs', hm⟩ := hm
  exact hm.congr (hs'.content_unique hs.toStored)

theorem Stored.contents_toOption (hs : h.Stored s) :
    (fun r => (h.contents r).toOption) = s.content := by
  funext q
  refine Option.ext fun x => ?_
  rw [← hs.contents_eq_ok]
  cases h.contents q <;> simp [Except.toOption]

section Editing

variable (hs : h.Sound s) (hl : s.Ledger arrays owned) (hm : s.Maps d m)

include hs hl hm

theorem Sound.dictSet_maps {a : Except Failure Unit} (hkey : Seen s key) (hvalue : Seen s value)
    (hrun : (dictSet d key value).runOn h = .ok (a, h')) (hthere : h'.Occupied d) :
    ∃ m', h.Sets d key value m m' ∧ h'.Maps d m' := by
  obtain ⟨n, o, k, v, ks, vs, hd, -⟩ := id hm
  obtain ⟨y, hy, hyarray⟩ := hkey
  have hcontents := hs.contents_eq_ok.mpr hy
  have hnothing : Anchored s (fun _ => none) owned := .nothing
  have hends := dictSet_ends (hs.editing hl hnothing hd) hnothing.standing hvalue a h' hrun
  cases a with
  | ok _ =>
    obtain ⟨s', he, x, hash, hx, hn, hmaps⟩ := hends
    rw [hx, Option.some_inj] at hy
    subst hy
    obtain ⟨c, hc⟩ := he.sound.occupied_iff.mp hthere
    exact ⟨_, ⟨_, h', hrun, x, hcontents, hn ▸ Option.some_ne_none _, rfl⟩, s', he.sound,
      hmaps ⟨_, Store.content_of hc⟩ m hm⟩
  | error f =>
    rcases hends with ⟨rfl, hhash⟩ | ⟨x, hash, hx, hn, ⟨e, rfl⟩, s', he, hmaps⟩
    · obtain ⟨hnone, rfl⟩ := hs.hash_eq_error hy hyarray hhash
      exact ⟨m, ⟨_, h', hrun, y, hcontents, rfl, hnone, rfl, rfl⟩, s, hs, hm⟩
    · rw [hx, Option.some_inj] at hy
      subst hy
      have hhash : x.hash? ≠ none := hn ▸ Option.some_ne_none _
      rcases hmaps with hmaps | hmaps
      · exact ⟨m, ⟨_, h', hrun, x, hcontents, hhash, .inl rfl⟩, s', he.sound, hmaps m hm⟩
      · exact ⟨_, ⟨_, h', hrun, x, hcontents, hhash, .inr rfl⟩, s', he.sound, hmaps m hm⟩

theorem Sound.dictDelete_maps {a : Except Failure Unit}
    (hrun : (dictDelete d key).runOn h = .ok (a, h')) (hthere : h'.Occupied d) :
    ∃ m', h.Deletes d key m m' ∧ h'.Maps d m' := by
  have hends := dictDelete_ends hs hl .nothing a h' hrun
  cases a with
  | ok _ =>
    obtain ⟨s', hs', -, -, x, hash, hx, hn, hmaps⟩ := hends
    obtain ⟨c, hc⟩ := hs'.occupied_iff.mp hthere
    refine ⟨m.erase x, ⟨_, h', hrun, ?_⟩, s', hs', hmaps ⟨_, Store.content_of hc⟩ m hm⟩
    cases he : m x with
    | some e => exact ⟨x, e, hs.contents_eq_ok.mpr hx, he, rfl⟩
    | none =>
      rw [hs.dictDelete_unmapped hl hm hx hn he] at hrun
      cases hrun
  | error f =>
    obtain rfl := hends
    exact ⟨m, ⟨_, h', hrun, rfl, rfl⟩, s, hs, hm⟩

end Editing

theorem Sound.not_mem_storage {p t : Reference} (hs : h.Sound s) (hl : s.Ledger arrays owned)
    (hx : s.content p = some x) (hkind : x.kind ≠ .array) : p ∉ h.storage t := fun hmem => by
  obtain ⟨⟨xs, hxs⟩, -⟩ := hs.storage_held hl hmem
  rw [hxs] at hx
  cases hx
  exact hkind rfl

theorem Stored.assignItem_dict (hs : h.Stored s) {n o : Nat} {k v : Reference}
    (hd : s.content d = some (.dict n o k v)) :
    (assignItem d key value).runOn h = (dictSet d key value).runOn h := by
  have hkind : h.kindOf d = .ok .dict := hs.kindOf_eq_ok.mpr ⟨_, hd, rfl⟩
  rw [assignItem, Action.runOn_bind_ok (Action.runOn_read hkind)]
  rfl

theorem Stored.not_listPush_dict (hs : h.Stored s) {n o : Nat} {k v item : Reference}
    (hd : s.content d = some (.dict n o k v)) {a : Except OutOfMemory Unit} :
    (listPush d item).runOn h ≠ .ok (a, h') := by
  have hends : (listPush d item).Ends h (fun _ _ => False) fun _ _ => False := by
    simp only [listPush, Action.ends_bind, Action.ends_read, hs.listParts_eq_ok]
    intro parts hparts
    rw [hd] at hparts
    cases hparts
  intro hrun
  have hno := hends a h' hrun
  cases a <;> exact hno

theorem Stored.deleteItem_dict (hs : h.Stored s) {n o : Nat} {k v : Reference}
    (hd : s.content d = some (.dict n o k v)) :
    (deleteItem d key).runOn h = (dictDelete d key).runOn h := by
  have hkind : h.kindOf d = .ok .dict := hs.kindOf_eq_ok.mpr ⟨_, hd, rfl⟩
  rw [deleteItem, Action.runOn_bind_ok (Action.runOn_read hkind)]
  rfl

end Heap

section Requests

variable (q : Request) (d : Reference) (m m' : Mapping)

/-- A new dict, and the map that it stands for at first. -/
def Request.Builds (c c' : Client) : Prop :=
  c'.held = d :: c.held ∧ match q with
    | .makeDict _ _ => m = .empty
    | .newDict pairs => m = .ofPairs (fun r => (c.heap.contents r).toOption) pairs
    | _ => False

/-- What a request to a heap makes of the map that a dict stands for. -/
def Request.Remaps (h : Heap) : Prop :=
  match q with
  | .dictSet r key value | .assignItem r key value =>
      if r = d then h.Sets d key value m m' else m' = m
  | .dictDelete r key | .deleteItem r key => if r = d then h.Deletes d key m m' else m' = m
  | _ => m' = m

end Requests

namespace Client

open Heap

variable {c c' : Client} {q : Request} {d : Reference} {m : Mapping} {s s' : Store}

/-- Requests that are allowed to a client that sees a value. -/
def holds (d : Reference) (c : Client) (q : Request) : Bool := c.sees d && c.allows q

/-- Before and after each of the requests the dict answers as a map, which the request remaps. -/
def Mirrored (d : Reference) : Client → Mapping → List Request → Prop
  | c, m, [] => c.heap.Agrees d m
  | c, m, q :: rest => c.heap.Agrees d m ∧ ∃ c' m', c.serve q = .ok (some c') ∧
      q.Remaps d m m' c.heap ∧ Mirrored d c' m' rest

theorem sees_target (hq : c.allows q = true) : ∀ t ∈ q.target, c.sees t = true := by
  intro t ht
  cases q <;> cases ht <;> simp only [allows, Bool.and_eq_true] at hq
  exacts [hq.1, hq.1.1, hq.1, hq.1.1, hq.1]

theorem Accounted.ledger (hc : c.Accounted) (hs : c.heap.Sound s) :
    s.Ledger c.arrays (c.held ++ c.globals.references) := by
  obtain ⟨t, hs', hl, -⟩ := hc.balanced
  exact hs.toStored.unique hs'.toStored ▸ hl

section Elsewhere

variable (hc : c.Accounted) (hs : c.heap.Sound s) (hs' : c'.heap.Sound s') (hq : c.allows q = true)
  (hcollect : ∀ roots, q ≠ .collect roots) (hserve : c.serve q = .ok (some c'))

include hc hs hs' hq hcollect hserve

theorem Accounted.content_kept {p : Reference} {x y : Content} (hx : s.content p = some x)
    (hy : s'.content p = some y) (hstorage : ∀ t ∈ q.target, p ∉ c.heap.storage t)
    (hor : p ∉ q.target ∨ x.hash? ≠ none) : y = x := by
  obtain ⟨t, hk⟩ := Path.steady (hc.moved hq hcollect hserve).path hs
  obtain ⟨a, ha, rfl⟩ := Store.content_eq_some.mp hx
  rw [hk.sound.content_unique hs'.toStored] at hy
  obtain ⟨b, hb, rfl⟩ := Store.content_eq_some.mp hy
  obtain ⟨a', ha', -, -, -, heq⟩ := hk.addr ⟨hs.occupied_iff.mpr ⟨a, ha⟩, hstorage⟩ hb
  rw [ha, Option.some_inj] at ha'
  exact ha' ▸ heq (ha' ▸ hor)

theorem Accounted.key_unchanged {p : Reference} {x y : Content} (hx : s.content p = some x)
    (hhash : x.hash? ≠ none) (hy : s'.content p = some y) : y = x := by
  refine hc.content_kept hs hs' hq hcollect hserve hx hy (fun t _ => ?_) (.inr hhash)
  exact hs.not_mem_storage (hc.ledger hs) hx fun hkind => by
    cases x <;> cases hkind
    exact hhash rfl

theorem Accounted.dict_elsewhere {n o : Nat} {k v : Reference}
    (hdict : s.content d = some (.dict n o k v)) (hsees : c'.sees d = true) (hd : d ∉ q.target) :
    s'.content d = s.content d ∧ s'.content k = s.content k ∧ s'.content v = s.content v := by
  have hl := hc.ledger hs
  have hl' := (hc.serve hq hserve).ledger hs'
  have htable {p : Reference} {xs us : List Reference} (hp : s.content p = some (.array xs))
      (hheld : p ∈ s.held d) (hy : s'.content p = some (.array us)) :
      s'.content p = s.content p := by
    rw [hy, hp]
    refine congrArg some (hc.content_kept hs hs' hq hcollect hserve hp hy (fun t ht hmem => ?_)
      (.inl fun htarget => ?_))
    · rw [(hl.sole ⟨xs, hp⟩ hheld).2.2.2 t (hs.storage_held hl hmem).2] at ht
      exact hd ht
    · obtain ⟨z, hz, hzkind⟩ := seen_of_sees hs (sees_target hq p htarget)
      rw [hp] at hz
      cases hz
      exact hzkind rfl
  obtain ⟨y, hy, -⟩ := seen_of_sees hs' hsees
  obtain rfl := hc.content_kept hs hs' hq hcollect hserve hdict hy
    (fun t _ => hs.not_mem_storage hl hdict nofun) (.inl hd)
  obtain ⟨ks, vs, hks, hvs, -⟩ := hl.dicts hdict
  obtain ⟨us, ws, hus, hws, -⟩ := hl'.dicts hy
  have hheld := Store.held_of_content hdict
  exact ⟨hy.trans hdict.symm, htable hks (by simp [hheld, Content.held]) hus,
    htable hvs (by simp [hheld, Content.held]) hws⟩

end Elsewhere

theorem Accounted.maps_elsewhere (hc : c.Accounted) (hm : c.heap.Maps d m)
    (hq : c.allows q = true) (hcollect : ∀ roots, q ≠ .collect roots)
    (hserve : c.serve q = .ok (some c')) (hsees : c'.sees d = true) (hd : d ∉ q.target) :
    c'.heap.Maps d m := by
  obtain ⟨s, hs, hl, -⟩ := hc.balanced
  obtain ⟨s', hs', hl', -⟩ := (hc.serve hq hserve).balanced
  have hmaps := hm.store hs
  obtain ⟨n, o, k, v, ks, vs, hdict, -⟩ := id hmaps
  obtain ⟨hself, hk, hv⟩ := hc.dict_elsewhere hs hs' hq hcollect hserve hdict hsees hd
  refine ⟨s', hs', hmaps.carry hl hl' hself (fun {n' o' k' v'} hdict' => ?_) fun hx hhash hy =>
    (hc.key_unchanged hs hs' hq hcollect hserve hx hhash hy).symm⟩
  rw [hdict] at hdict'
  cases hdict'
  exact ⟨hk, hv⟩

theorem runOn_of_after {ε α : Type} {x : Action ε α}
    (h : some <$> c.after x (fun c _ => c) = .ok (some c')) :
    ∃ a, x.runOn c.heap = .ok (a, c'.heap) := by
  simp only [after, map_eq_ok, bind_eq_ok, Prod.exists] at h
  obtain ⟨_, ⟨a, heap, hrun, h⟩, hc⟩ := h
  cases hc
  cases a <;> cases h <;> exact ⟨_, hrun⟩

inductive Edits (d : Reference) (c c' : Client) : Request → Prop
  | set {q : Request} {key value : Reference} {a : Except Failure Unit}
      (hq : q = .dictSet d key value ∨ q = .assignItem d key value)
      (hkey : c.sees key = true) (hvalue : c.sees value = true)
      (hrun : (dictSet d key value).runOn c.heap = .ok (a, c'.heap)) : Edits d c c' q
  | delete {q : Request} {key : Reference} {a : Except Failure Unit}
      (hq : q = .dictDelete d key ∨ q = .deleteItem d key)
      (hrun : (dictDelete d key).runOn c.heap = .ok (a, c'.heap)) : Edits d c c' q
  | collect {given : List Reference} {col : Collection}
      (hrun : (Heap.collect (c.roots given)).runOn c.heap = .ok (.ok col, c'.heap)) :
      Edits d c c' (.collect given)
  | elsewhere {q : Request} (hcollect : ∀ given, q ≠ .collect given) (hd : d ∉ q.target) :
      Edits d c c' q

theorem edits_of_serve (hs : c.heap.Stored s) {n o : Nat} {k v : Reference}
    (hdict : s.content d = some (.dict n o k v)) (hq : c.allows q = true)
    (hserve : c.serve q = .ok (some c')) : Edits d c c' q := by
  have hne {r : Reference} (h : ¬r = d) : d ∉ some r := fun heq => h (Option.some_inj.mp heq)
  cases q with
  | listPush r item =>
    refine .elsewhere (by rintro _ ⟨⟩) (hne ?_)
    rintro rfl
    obtain ⟨a, hrun⟩ := runOn_of_after hserve
    exact hs.not_listPush_dict hdict hrun
  | dictSet r key value =>
    simp only [allows, Bool.and_eq_true] at hq
    by_cases hr : r = d
    · subst hr
      obtain ⟨a, hrun⟩ := runOn_of_after hserve
      exact .set (.inl rfl) hq.1.2 hq.2 hrun
    · exact .elsewhere (by rintro _ ⟨⟩) (hne hr)
  | assignItem r key value =>
    simp only [allows, Bool.and_eq_true] at hq
    by_cases hr : r = d
    · subst hr
      obtain ⟨a, hrun⟩ := runOn_of_after hserve
      exact .set (.inr rfl) hq.1.2 hq.2 ((hs.assignItem_dict hdict).symm.trans hrun)
    · exact .elsewhere (by rintro _ ⟨⟩) (hne hr)
  | dictDelete r key =>
    by_cases hr : r = d
    · subst hr
      obtain ⟨a, hrun⟩ := runOn_of_after hserve
      exact .delete (.inl rfl) hrun
    · exact .elsewhere (by rintro _ ⟨⟩) (hne hr)
  | deleteItem r key =>
    by_cases hr : r = d
    · subst hr
      obtain ⟨a, hrun⟩ := runOn_of_after hserve
      exact .delete (.inr rfl) ((hs.deleteItem_dict hdict).symm.trans hrun)
    · exact .elsewhere (by rintro _ ⟨⟩) (hne hr)
  | collect given =>
    obtain ⟨col, heap, hrun, rfl⟩ := collect_eq_some.mp hserve
    exact .collect hrun
  | _ => exact .elsewhere (by rintro _ ⟨⟩) (by rintro ⟨⟩)

theorem remaps_of_not_target {h : Heap} (hd : d ∉ q.target) : q.Remaps d m m h := by
  have hne {r : Reference} (h : d ∉ some r) : r ≠ d := fun heq => h (congrArg some heq)
  cases q with
  | dictSet | assignItem | dictDelete | deleteItem => exact (if_neg (hne hd)).mpr rfl
  | _ => rfl

theorem Accounted.remaps (hc : c.Accounted) (hm : c.heap.Maps d m)
    (hq : c.allows q = true) (hserve : c.serve q = .ok (some c')) (hsees : c'.sees d = true) :
    ∃ m', q.Remaps d m m' c.heap ∧ c'.heap.Maps d m' := by
  obtain ⟨s, hs, hl, -⟩ := hc.balanced
  obtain ⟨s', hs', hl', -⟩ := (hc.serve hq hserve).balanced
  have hmaps := hm.store hs
  obtain ⟨n, o, k, v, ks, vs, hdict, -⟩ := id hmaps
  obtain ⟨y, hy, -⟩ := seen_of_sees hs' hsees
  obtain ⟨a, ha, -⟩ := Store.content_eq_some.mp hy
  have hthere : c'.heap.Occupied d := hs'.occupied_iff.mpr ⟨a, ha⟩
  cases edits_of_serve hs.toStored hdict hq hserve with
  | set hset hkey hvalue hrun =>
    obtain ⟨m', hsets, hm'⟩ := hs.dictSet_maps hl hmaps (seen_of_sees hs hkey)
      (seen_of_sees hs hvalue) hrun hthere
    refine ⟨m', ?_, hm'⟩
    rcases hset with rfl | rfl <;> exact (if_pos rfl).mpr hsets
  | delete hdelete hrun =>
    obtain ⟨m', hdeletes, hm'⟩ := hs.dictDelete_maps hl hmaps hrun hthere
    refine ⟨m', ?_, hm'⟩
    rcases hdelete with rfl | rfl <;> exact (if_pos rfl).mpr hdeletes
  | collect hrun =>
    obtain ⟨t, hcollected⟩ := (hs.collect _).good hrun
    obtain rfl := hs'.toStored.unique hcollected.sound.toStored
    exact ⟨m, rfl, t, hs', hmaps.less hl hl' hcollected.fewer ⟨y, hy⟩⟩
  | elsewhere hcollect hd =>
    exact ⟨m, remaps_of_not_target hd, hc.maps_elsewhere hm hq hcollect hserve hsees hd⟩

theorem Accounted.builds (hc : c.Accounted) (hq : c.allows q = true)
    (hserve : c.serve q = .ok (some c')) (hbuilds : q.Builds d m c c') : c'.heap.Maps d m := by
  obtain ⟨s, hs, hl, -⟩ := hc.balanced
  obtain ⟨hheld, hmap⟩ := hbuilds
  cases q <;> try exact hmap.elim
  case makeDict keys values =>
    subst hmap
    simp only [allows, Bool.and_eq_true, List.contains_iff_mem] at hq
    simp only [Client.serve, map_eq_ok, Option.some_inj, exists_eq_right] at hserve
    refine after_ends (P := fun c' => c'.held = d :: c.held → c'.heap.Maps d .empty) ?_ hserve hheld
    refine (hs.makeDict keys values).imp ?_ ?_
    · rintro r h' ⟨⟨ks, vs, hks, hvs, -⟩, hmade⟩ hheld
      obtain rfl := (List.cons_eq_cons.mp hheld).1
      obtain ⟨hnone, s', hs', hcontent, -⟩ := hmade.tells
      have hself {p : Reference} {x : Content} (hp : s.content p = some x) :
          s'.content p = some x := by
        rw [hcontent, Function.update_of_ne (Store.ne_of_none hp hnone), hp]
      exact ⟨s', hs', _, _, _, _, _, _, hcontent ▸ Function.update_self .., hself hks, hself hvs,
        .of_dead (hl.blank hq.1 hks).dead⟩
    · exact fun _ h' _ hheld => absurd hheld.symm (List.cons_ne_self d c.held)
  case newDict pairs =>
    subst hmap
    have hboth (p : Reference × Reference) (hp : p ∈ pairs) : Seen s p.1 ∧ Seen s p.2 := by
      have hsees := List.all_eq_true.mp hq p hp
      rw [Bool.and_eq_true] at hsees
      exact ⟨seen_of_sees hs hsees.1, seen_of_sees hs hsees.2⟩
    simp only [Client.serve, map_eq_ok, Option.some_inj, exists_eq_right] at hserve
    refine after_ends (P := fun c' => c'.held = d :: c.held → c'.heap.Maps d _) ?_ hserve hheld
    refine (newDict_ends hs hl fun p hp => (hboth p hp).2).imp ?_ ?_
    · rintro r h' ⟨s', he, hmaps⟩ hheld
      obtain rfl := (List.cons_eq_cons.mp hheld).1
      rw [hs.contents_toOption]
      exact ⟨s', he.sound, hmaps fun p hp => (hboth p hp).1⟩
    · exact fun _ h' _ hheld => absurd hheld.symm (List.cons_ne_self d c.held)

theorem Accounted.agrees (hc : c.Accounted) (hm : c.heap.Maps d m) : c.heap.Agrees d m := by
  obtain ⟨s, hs, hl, -⟩ := hc.balanced
  exact hs.agrees hl (hm.store hs)

section Playing

variable {c₀ : Client} {qs : List Request} (hplay : c.play (holds d) qs = some c')
  (hsees : c'.sees d = true)

include hplay hsees

theorem sees_of_play : c.sees d = true := by
  cases qs with
  | nil =>
    cases hplay
    exact hsees
  | cons q rest =>
    exact (Bool.and_eq_true_iff.mp (play_cons hplay).1).1

theorem Accounted.mirrored (hc : c.Accounted) (hm : c.heap.Maps d m) : Mirrored d c m qs := by
  induction qs generalizing c m with
  | nil => exact hc.agrees hm
  | cons q rest ih =>
    obtain ⟨hq, c₁, hserve, hrest⟩ := play_cons hplay
    have hallowed := (Bool.and_eq_true_iff.mp hq).2
    obtain ⟨m', hremaps, hm'⟩ := hc.remaps hm hallowed hserve (sees_of_play hrest hsees)
    exact ⟨hc.agrees hm, c₁, m', hserve, hremaps, ih hrest (hc.serve hallowed hserve) hm'⟩

end Playing

/-- A dict is a finite map from when it is made for as long as the client keeps it, whatever else
is asked for in between. -/
theorem Run.dict_mirrored {qs : List Request} {c₀ : Client} (hrun : Run allows c)
    (hq : c.allows q = true) (hserve : c.serve q = .ok (some c₀)) (hbuilds : q.Builds d m c c₀)
    (hplay : c₀.play (holds d) qs = some c') (hsees : c'.sees d = true) :
    Mirrored d c₀ m qs :=
  (hrun.accounted.serve hq hserve).mirrored hplay hsees
    (hrun.accounted.builds hq hserve hbuilds)

def slotless : Option Client :=
  session allows { poolSize := 432, poison := false, dictMinCapacity := 1 } [.makeNone,
    .makeArray 0, .makeArray 0]

/-- The dict has no slots, so it grows when the key is set. The key is looked up and deleted, and
set once more where it has left a tombstone. -/
def slotlessEdits : List Request := [.dictSet (.ofIndex 3) (.ofIndex 0) (.ofIndex 0),
  .dictGet (.ofIndex 3) (.ofIndex 0), .dictDelete (.ofIndex 3) (.ofIndex 0),
  .dictSet (.ofIndex 3) (.ofIndex 0) (.ofIndex 0)]

def dictRoom (c : Client) (dict : Reference) : Except Fault Nat := do
  c.heap.arrayCapacity (← c.heap.dictParts dict).keys

theorem slotless_plays : (slotless.any fun c =>
    (c.play allows [.makeDict (.ofIndex 1) (.ofIndex 2)]).any fun c₀ =>
      c₀.held == .ofIndex 3 :: c.held && (c₀.dictRoom (.ofIndex 3)).toOption == some 0 &&
        (c₀.play (holds (.ofIndex 3)) slotlessEdits).any fun c₁ =>
          c₁.globals.isEmpty && c₁.sees (.ofIndex 3) &&
            (c₁.dictRoom (.ofIndex 3)).toOption == some 1 &&
              c₁.heap.used.toOption.any (· != c₁.heap.config.halfSize) &&
                decide (c₁.heap.stats.Roomy c₁.heap.config.halfSize)) = true := by
  decide +kernel

theorem slotless_mirrored : ∃ c c₀ c₁ c', slotless = some c ∧
    c.serve (.makeDict (.ofIndex 1) (.ofIndex 2)) = .ok (some c₀) ∧
      c₀.dictRoom (.ofIndex 3) = .ok 0 ∧ c₀.play (holds (.ofIndex 3)) slotlessEdits = some c₁ ∧
        c₁.dictRoom (.ofIndex 3) = .ok 1 ∧ c₁.serve (.collect [.ofIndex 3]) = .ok (some c') ∧
          Mirrored (.ofIndex 3) c₀ .empty (slotlessEdits ++ [.collect [.ofIndex 3]]) := by
  obtain ⟨c, hc, hserves⟩ := (Option.any_eq_true ..).mp slotless_plays
  obtain ⟨c₀, hplay₀, hserves⟩ := (Option.any_eq_true ..).mp hserves
  obtain ⟨hq, _, hserve, hdone⟩ := play_cons hplay₀
  cases hdone
  simp only [Bool.and_eq_true, beq_iff_eq] at hserves
  obtain ⟨⟨hheld, hroom⟩, hplays⟩ := hserves
  obtain ⟨c₁, hplay, hends⟩ := (Option.any_eq_true ..).mp hplays
  simp only [Bool.and_eq_true, decide_eq_true_eq] at hends
  obtain ⟨⟨⟨⟨hempty, hsees⟩, hroom₁⟩, hused⟩, hroomy⟩ := hends
  obtain ⟨n, hn, hless⟩ := (Option.any_eq_true ..).mp hused
  have hrun : Run allows c₁ := (Run.step (Run.session hc) hq hserve).play
    (play_of_imp (fun _ _ h => (Bool.and_eq_true_iff.mp h).2) hplay)
  have hfree : c₁.heap.used ≠ .ok c₁.heap.config.halfSize := by
    rw [toOption_eq_some.mp hn]
    exact fun heq => bne_iff_ne.mp hless (Except.ok.inj heq)
  have hroots : ∀ r ∈ [Reference.ofIndex 3], c₁.sees r = true := by simpa using hsees
  obtain ⟨c', hcollect, hkept⟩ :=
    hrun.accounted.collect_served hempty hroots (by decide) hfree hroomy
  have hcollects : holds (.ofIndex 3) c₁ (.collect [.ofIndex 3]) = true := by
    simp [holds, allows, hsees]
  exact ⟨c, c₀, c₁, c', hc, hserve, eq_ok_of_toOption (beq_iff_eq.mpr hroom), hplay,
    eq_ok_of_toOption hroom₁, hcollect, (Run.session hc).dict_mirrored hq hserve ⟨hheld, rfl⟩
      (play_append hplay hcollects hcollect) (hkept _ List.mem_cons_self)⟩

end Client

end CountedHeap
