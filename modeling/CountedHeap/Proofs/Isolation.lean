import CountedHeap.Proofs.Frames
import CountedHeap.Proofs.Refcounts

/-!
Requests leave other values alone. Whatever a client is answered, each value but the one that it
asked to change lies where it was, in the same block and with the same contents, and a value is
gone only if it was taken away with a count of zero.
-/

namespace CountedHeap

namespace Heap

def storage (h : Heap) (r : Reference) : List Reference :=
  match h.value r with
  | .ok (.list _ values) => [values]
  | .ok (.dict _ _ keys values) => [keys, values]
  | _ => []

abbrev Leads : Heap → Heap → Prop := Path ⟨fun _ => False, fun _ => False, True⟩

/-- What stands in both heaps stands there unchanged, unless it is the target or an array behind
it, and what is gone had a count of zero when it went. -/
structure Undisturbed (h h' : Heap) (target : Option Reference) : Prop where
  others : ∀ r, h.Occupied r → h'.Occupied r → r ∉ target → (∀ t ∈ target, r ∉ h.storage t) →
    Intact h h' r
  target : ∀ t ∈ target, h.Occupied t → h'.Occupied t → Placed h h' t
  gone : ∀ r, h.Occupied r → ¬h'.Occupied r → ∃ h₁ h₂, Leads h h₁ ∧ h₁.refcount r = .ok 0 ∧
    h₁.discard r = .ok h₂ ∧ Leads h₂ h'

variable {h h' : Heap} {s : Store} {r : Reference} {target : Option Reference}
  {sc : Scope}

theorem Path.leads (hp : Path sc h h') : Leads h h' :=
  Relation.ReflTransGen.mono
    (fun _ _ hstep => hstep.rescope (fun _ => id) nofun fun _ => trivial) _ _ hp

def Beyond (h : Heap) (target : Option Reference) (r : Reference) : Prop :=
  h.Occupied r ∧ ∀ t ∈ target, r ∉ h.storage t

theorem Stored.mem_storage (hs : h.Stored s) {t : Reference} :
    r ∈ h.storage t ↔ (∃ n, s.content t = some (.list n r)) ∨
      ∃ n o k v, s.content t = some (.dict n o k v) ∧ (r = k ∨ r = v) := by
  simp only [Store.content_eq_some]
  cases ht : s t with
  | none =>
    have hnone : ∀ v, h.value t ≠ .ok v := fun v hv => by
      obtain ⟨c, hc, -⟩ := hs.value_eq_ok.mp hv
      rw [ht] at hc
      cases hc
    have hstorage : h.storage t = [] := by
      unfold storage
      split
      · rename_i hv
        exact absurd hv (hnone _)
      · rename_i hv
        exact absurd hv (hnone _)
      · rfl
    simp [hstorage]
  | some c => cases hx : c.content <;> simp [storage, hs.value_eq ht, hx, Content.value, eq_comm]

section Storage

variable {arrays owned : List Reference}

theorem Sound.storage_held (hs : h.Sound s) (hl : s.Ledger arrays owned) {t : Reference}
    (hr : r ∈ h.storage t) : s.IsArray r ∧ r ∈ s.held t := by
  rcases hs.mem_storage.mp hr with ⟨n, hx⟩ | ⟨n, o, k, v, hx, hkv⟩
  · obtain ⟨xs, hxs, -⟩ := hl.lists hx
    exact ⟨⟨xs, hxs⟩, by simp [Store.held_of_content hx, Content.held]⟩
  · obtain ⟨ks, vs, hks, hvs, -⟩ := hl.dicts hx
    rw [Store.held_of_content hx]
    rcases hkv with rfl | rfl
    · exact ⟨⟨ks, hks⟩, by simp [Content.held]⟩
    · exact ⟨⟨vs, hvs⟩, by simp [Content.held]⟩

theorem Sound.beyond_target (hs : h.Sound s) (hl : s.Ledger arrays owned) {t : Reference}
    (ht : t ∈ target) (hoccupied : h.Occupied t) : h.Beyond target t := by
  refine ⟨hoccupied, fun u hu hmem => ?_⟩
  obtain rfl : t = u := Option.mem_unique ht hu
  obtain ⟨⟨xs, hxs⟩, -⟩ := hs.storage_held hl hmem
  rcases hs.mem_storage.mp hmem with ⟨n, hx⟩ | ⟨n, o, k, v, hx, -⟩ <;> rw [hx] at hxs <;> cases hxs

theorem Path.isolates (hp : Path ⟨h.Beyond target, (· ∈ target), True⟩ h h') (hs : h.Sound s)
    (hl : s.Ledger arrays owned) : Undisturbed h h' target := by
  obtain ⟨s', hk⟩ := Path.steady hp hs
  refine ⟨fun r hr hr' hne hstorage => hk.intact hs ⟨hr, hstorage⟩ hne hr',
    fun t ht hr hr' => hk.placed hs (hs.beyond_target hl ht hr) hr', fun r hr hgone => ?_⟩
  obtain ⟨h₁, h₂, hp₁, hzero, hdiscard, hp₂⟩ := Path.discarded hp hs.consistent hr hgone
  exact ⟨h₁, h₂, Path.leads hp₁, hzero, hdiscard, Path.leads hp₂⟩

variable (hs : h.Sound s)
include hs

theorem Sound.not_beyond_list {n : Nat} {v : Reference} (hx : s.content r = some (.list n v)) :
    ¬h.Beyond (some r) v := fun hb => hb.2 r rfl (hs.mem_storage.mpr (.inl ⟨n, hx⟩))

theorem Sound.not_beyond_dict {n o : Nat} {k v : Reference}
    (hx : s.content r = some (.dict n o k v)) : ¬h.Beyond (some r) k ∧ ¬h.Beyond (some r) v :=
  ⟨fun hb => hb.2 r rfl (hs.mem_storage.mpr (.inr ⟨n, o, k, v, hx, .inl rfl⟩)),
    fun hb => hb.2 r rfl (hs.mem_storage.mpr (.inr ⟨n, o, k, v, hx, .inr rfl⟩))⟩

end Storage

end Heap

/-- The value that a request asks to change. -/
def Request.target : Request → Option Reference
  | .listPush r _ | .dictSet r _ _ | .dictDelete r _ | .assignItem r _ _ | .deleteItem r _ => some r
  | _ => none

def Request.makes : Request → Bool
  | .makeNone | .makeBool _ | .makeInteger _ | .makeString _ | .makeConcatenation _ _
  | .makeArray _ | .makeList _ | .makeDict _ _ | .newList _ | .newDict _ | .unary _ _
  | .binary _ _ _ => true
  | _ => false

theorem Request.target_of_makes {q : Request} (hq : q.makes = true) : q.target = none := by
  cases q <;> first | rfl | cases hq

namespace Client

open Heap

variable {c c' : Client} {q : Request} {r : Reference}

def scope (c : Client) (q : Request) : Scope := ⟨c.heap.Beyond q.target, (· ∈ q.target), True⟩

structure Moved (c c' : Client) (q : Request) : Prop where
  path : Path (c.scope q) c.heap c'.heap
  fresh : q.makes = true → ∀ r, c'.held = r :: c.held ∨ c'.arrays = r :: c.arrays →
    ¬c.heap.Beyond q.target r

theorem Moved.of_path (hq : q.makes = false)
    (hp : Path (c.scope q) c.heap c'.heap) : Moved c c' q :=
  ⟨hp, fun h => by rw [hq] at h; cases h⟩

theorem Moved.of_traced {ε α : Type} {x : Action ε α} {answer : Client → α → Client}
    (hx : Traced (c.scope q) x c.heap)
    (h : some <$> c.after x answer = .ok (some c')) (hq : q.makes = false)
    (hanswer : ∀ c a, (answer c a).heap = c.heap) : Moved c c' q := by
  simp only [map_eq_ok, Option.some_inj, exists_eq_right] at h
  refine after_ends (P := fun c' => Moved c c' q) (hx.imp (fun a heap hp => ?_)
    fun _ _ hp => .of_path hq hp) h
  exact .of_path hq (by rw [hanswer]; exact hp)

theorem Moved.of_born {ε : Type} {x : Action ε Reference} {answer : Client → Reference → Client}
    (hx : Born (c.scope q) x c.heap)
    (h : some <$> c.after x answer = .ok (some c'))
    (hanswer : ∀ c a, (answer c a).heap = c.heap)
    (howns : ∀ (heap : Heap) a r, (answer { c with heap } a).held = r :: c.held ∨
      (answer { c with heap } a).arrays = r :: c.arrays → r = a) : Moved c c' q := by
  simp only [map_eq_ok, Option.some_inj, exists_eq_right] at h
  refine after_ends (P := fun c' => Moved c c' q) (hx.imp (fun a heap hp => ?_)
    fun _ heap hp => ⟨hp, fun _ r hr => ?_⟩) h
  · refine ⟨by rw [hanswer]; exact hp.1, fun _ r hr => ?_⟩
    rw [howns heap a r hr]
    exact hp.2
  · rcases hr with hr | hr
    · exact absurd hr.symm (List.cons_ne_self r c.held)
    · exact absurd hr.symm (List.cons_ne_self r c.arrays)

theorem Accounted.moved (hc : c.Accounted) (hq : c.allows q = true)
    (hcollect : ∀ roots, q ≠ .collect roots) (h : c.serve q = .ok (some c')) : Moved c c' q := by
  obtain ⟨s, hs, hl, -⟩ := hc.balanced
  have hoccupied : ∀ p, c.heap.Beyond q.target p → c.heap.Occupied p := fun p hp => hp.1
  have hown : ∀ (spent : List Reference) (heap : Heap) (a r : Reference),
      (Client.own spent { c with heap } a).held = r :: c.held ∨
        (Client.own spent { c with heap } a).arrays = r :: c.arrays → r = a := by
    rintro spent heap a r (hr | hr)
    · exact (List.cons_eq_cons.mp hr).1.symm
    · have hle := (List.diff_sublist c.arrays spent).length_le
      have hlen := congrArg List.length hr
      simp only [Client.own, List.length_cons] at hlen
      omega
  have hcreate {x : Action OutOfMemory Reference} {spent : List Reference} (hx : Creates True x)
      (h : some <$> c.after x (Client.own spent) = .ok (some c')) : Moved c c' q :=
    .of_born (hx.born hs hoccupied) h (fun _ _ => rfl) (hown spent)
  cases q with
  | makeNone => exact hcreate (.none trivial) h
  | makeBool b => exact hcreate (.bool trivial b) h
  | makeInteger n => exact hcreate (.integer n) h
  | makeString bytes => exact hcreate (.string bytes) h
  | makeConcatenation left right => exact hcreate (.concatenation left right) h
  | makeArray capacity =>
    refine .of_born ((Creates.array capacity).born hs hoccupied) h (fun _ _ => rfl) ?_
    rintro heap a r (hr | hr)
    · exact absurd hr.symm (List.cons_ne_self r c.held)
    · exact (List.cons_eq_cons.mp hr).1.symm
  | makeList values => exact hcreate (.list values) h
  | makeDict keys values => exact hcreate (.dict keys values) h
  | newList elements =>
    exact .of_born (newList_born elements hs hoccupied) h (fun _ _ => rfl) (hown [])
  | newDict pairs =>
    refine .of_born (newDict_born hs hl (fun p hp => seen_of_sees hs ?_) hoccupied) h
      (fun _ _ => rfl) (hown [])
    have hboth := List.all_eq_true.mp hq p hp
    rw [Bool.and_eq_true] at hboth
    exact hboth.2
  | listPush list item =>
    refine .of_traced ?_ h rfl fun _ _ => rfl
    exact listPush_traced hs (by exact fun _ => rfl) (fun _ _ => hs.not_beyond_list) item hoccupied
  | dictGet dict key => exact .of_traced (dictGet_traced dict key) h rfl fun _ _ => rfl
  | dictSet dict key value =>
    simp only [allows, Bool.and_eq_true] at hq
    refine .of_traced ?_ h rfl fun _ _ => rfl
    exact hs.dictSet_traced hl hoccupied (fun _ => rfl) (fun _ _ _ _ => hs.not_beyond_dict)
      (seen_of_sees hs hq.2)
  | dictDelete dict key =>
    refine .of_traced ?_ h rfl fun _ _ => rfl
    exact dictDelete_traced hs (by exact fun _ => rfl) (fun _ _ _ _ => hs.not_beyond_dict) key
  | unary op r => exact .of_born (unary_born op r hs hoccupied) h (fun _ _ => rfl) (hown [])
  | binary op left right =>
    exact .of_born (binary_born op left right hs hoccupied) h (fun _ _ => rfl) (hown [])
  | subscript r index => exact .of_traced (subscript_traced r index) h rfl fun _ _ => rfl
  | assignItem r index item =>
    simp only [allows, Bool.and_eq_true] at hq
    refine .of_traced ?_ h rfl fun _ _ => rfl
    exact assignItem_traced hs (by exact fun _ => rfl) (fun _ _ => hs.not_beyond_list)
      (fun _ _ _ _ => hs.not_beyond_dict) index item hl hoccupied (seen_of_sees hs hq.2)
  | deleteItem r index =>
    refine .of_traced ?_ h rfl fun _ _ => rfl
    exact deleteItem_traced hs (by exact fun _ => rfl) (fun _ _ => hs.not_beyond_list)
      (fun _ _ _ _ => hs.not_beyond_dict) index
  | retain r =>
    simp only [Client.serve, bind_eq_ok, pure_eq_ok, Option.some_inj] at h
    obtain ⟨h', hret, rfl⟩ := h
    exact .of_path rfl (.single (.retain hret))
  | release r =>
    simp only [Client.serve, bind_eq_ok, pure_eq_ok, Option.some_inj] at h
    obtain ⟨h', hrel, rfl⟩ := h
    exact .of_path rfl (release_path hs.consistent hrel)
  | bind name value =>
    simp only [Client.serve, Globals.bind, bind_eq_ok, pure_eq_ok, Option.some_inj,
      Prod.exists] at h
    obtain ⟨g, h', ⟨h₁, hret, hrel⟩, rfl⟩ := h
    -- The new value is retained before the one that was bound is released.
    have ht : Trail (c.scope (.bind name value)) c.heap s h₁ := (Trail.start hs).retain hret
    split at hrel
    · simp only [bind_eq_ok, pure_eq_ok, Prod.mk.injEq] at hrel
      obtain ⟨h₂, hrel, -, rfl⟩ := hrel
      exact .of_path rfl (ht.release hrel).path
    · cases hrel
      exact .of_path rfl ht.path
  | lookup name =>
    refine .of_traced ?_ h rfl fun _ _ => rfl
    unfold Globals.get
    split
    · exact throw_traced _
    · simp only [Traced, Action.ends_bind, Action.ends_update, Action.ends_pure]
      exact fun h' hret => .single (.retain hret)
  | unbind name =>
    refine .of_traced ?_ h rfl fun _ _ => rfl
    unfold Globals.delete
    split
    · exact throw_traced _
    · simp only [Traced, Action.ends_bind, Action.ends_update, Action.ends_pure]
      exact fun h' hrel => release_path hs.consistent hrel
  | clear =>
    simp only [Client.serve, bind_eq_ok, pure_eq_ok, Option.some_inj, Globals.clear] at h
    obtain ⟨h', hclear, rfl⟩ := h
    exact .of_path rfl (releases_path hs.consistent hclear)
  | collect roots => exact absurd rfl (hcollect roots)

theorem Accounted.collected_or_moved (hc : c.Accounted) (hq : c.allows q = true)
    (hserve : c.serve q = .ok (some c')) :
    (∃ given col, q = .collect given ∧
      (Heap.collect (c.roots given)).runOn c.heap = .ok (.ok col, c'.heap)) ∨
      (∀ given, q ≠ .collect given) ∧ Moved c c' q := by
  by_cases hcollect : ∃ given, q = .collect given
  · obtain ⟨given, rfl⟩ := hcollect
    obtain ⟨col, heap, hrun, rfl⟩ := collect_eq_some.mp hserve
    exact .inl ⟨given, col, rfl, hrun⟩
  · push Not at hcollect
    exact .inr ⟨hcollect, hc.moved hq hcollect hserve⟩

/-- A request other than a collection disturbs nothing but its target, whether it is answered or
not; and a new value takes a reference that had none. -/
theorem Run.undisturbed (hrun : Run allows c) (hq : c.allows q = true)
    (hcollect : ∀ roots, q ≠ .collect roots) (hserve : c.serve q = .ok (some c')) :
    Undisturbed c.heap c'.heap q.target ∧
      (q.makes = true → ∀ r, c'.held = r :: c.held ∨ c'.arrays = r :: c.arrays →
        ¬c.heap.Occupied r) := by
  obtain ⟨s, hs, hl, -⟩ := hrun.accounted.balanced
  have hmoved := hrun.accounted.moved hq hcollect hserve
  refine ⟨Path.isolates hmoved.path hs hl, fun hmakes r hr hoccupied => ?_⟩
  refine hmoved.fresh hmakes r hr ⟨hoccupied, fun t ht => ?_⟩
  rw [Request.target_of_makes hmakes] at ht
  cases ht

def householdEdit : Request := .dictSet (.ofIndex 5) (.ofIndex 0) (.ofIndex 0)

theorem household_undisturbed : ∃ c c', household = some c ∧
    c.serve householdEdit = .ok (some c') ∧
      Undisturbed c.heap c'.heap (some (.ofIndex 5)) := by
  have hall : (household.any fun c => (c.play allows [householdEdit]).isSome) = true := by
    decide +kernel
  obtain ⟨c, hc, hserves⟩ := (Option.any_eq_true ..).mp hall
  obtain ⟨_, hplay⟩ := Option.isSome_iff_exists.mp hserves
  obtain ⟨hq, c', hserve, -⟩ := play_cons hplay
  exact ⟨c, c', hc, hserve, ((Run.session hc).undisturbed hq (by rintro _ ⟨⟩) hserve).1⟩

end Client

end CountedHeap
