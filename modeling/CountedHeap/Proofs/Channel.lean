import CountedHeap.Proofs.Acquiring
import CountedHeap.Proofs.Sequences

/-!
The channel of exceptions. Who runs a command learns from what it answers, and from the pending
exception, whether it was done: a reference is owned by who asked for it, and the null reference
comes with a failure that takes the place of what was pending before. A command that answers nothing
raises its failure where it has no effect.
-/

namespace CountedHeap

namespace Heap

variable {h h' h₁ : Heap} {s s₁ : Store} {r q list values index item dict key value : Reference}
  {xs arrays owned : List Reference} {size j : Nat}

/-- An item was assigned. It stands at the place in a list that the subscript means, or it is the
value of the key in a dict, unless what gave way for it took the list or the dict with it. -/
inductive ItemAssigned (h h' : Heap) (r index item : Reference) : Prop
  | list {elements : List Reference} {i : Int64} {j : Nat} (hitems : h.items r = .ok elements)
      (hindex : h.contents index = .ok (.integer i)) (hj : position? elements.length i = some j)
      (hset : h'.Occupied r → h'.items r = .ok (elements.set j item))
  | dict {m : Mapping} {x : Content} (hm : h.Agrees r m) (hkey : h.contents index = .ok x)
      (hset : h'.Occupied r → h'.Agrees r (m.set x index item))

/-- An item was deleted, of a list or of a dict that had it. -/
inductive ItemDeleted (h h' : Heap) (r index : Reference) : Prop
  | list {elements : List Reference} {i : Int64} {j : Nat} (hitems : h.items r = .ok elements)
      (hindex : h.contents index = .ok (.integer i)) (hj : position? elements.length i = some j)
      (herase : h'.Occupied r → h'.items r = .ok (elements.eraseIdx j))
  | dict {m : Mapping} {x : Content} {e : Reference × Reference} (hm : h.Agrees r m)
      (hkey : h.contents index = .ok x) (he : m x = some e)
      (herase : h'.Occupied r → h'.Agrees r (m.erase x))

section Lists

theorem Sound.position_of_listIndex (hs : h.Sound s)
    (hlist : s.content list = some (.list size values))
    (hxs : s.content values = some (.array xs)) (hfits : size ≤ xs.length) (hsub : Seen s index)
    (hindex : h.listIndex list index = .ok (.ok j)) :
    ∃ i, h.contents index = .ok (.integer i) ∧ position? (xs.take size).length i = some j := by
  obtain ⟨x, hx, -⟩ := hsub
  by_cases hkind : x.kind = .integer
  · cases x <;> cases hkind
    rename_i i
    have hsize : size < 2 ^ 63 := by
      have hlt := hs.double_length_lt hxs
      simp only [Word.limit] at hlt
      omega
    rw [hs.listIndex_integer hlist hx hsize] at hindex
    refine ⟨i, hs.contents_eq_ok.mpr hx, ?_⟩
    rw [List.length_take_of_le hfits]
    cases hj : position? size i <;> rw [hj] at hindex <;> cases hindex
    rfl
  · rw [hs.listIndex_kind hx hkind] at hindex
    cases hindex

theorem Sound.items_released (hs : h.Sound s) (hl : s.Ledger arrays (q :: owned))
    (hlive : q.isLive = true) (hrel : h.release q = .ok h')
    (hlist : s.content list = some (.list size values))
    (hxs : s.content values = some (.array xs)) (hthere : h'.Occupied list) :
    h'.items list = .ok (xs.take size) := by
  obtain ⟨s', hs', hl', hfewer, -⟩ := hs.release_loses hl hlive hrel
  obtain ⟨x, hx⟩ := hs'.occupied_iff_content.mp hthere
  cases hlist.symm.trans (hfewer _ _ hx)
  obtain ⟨ys, hys, -⟩ := hl'.lists hx
  cases hxs.symm.trans (hfewer _ _ hys)
  exact hs'.items_eq hx hys

variable (hs : h.Sound s) (hl : s.Ledger arrays owned)
  (hlist : s.content list = some (.list size values)) (hsub : Seen s index)
include hs hl hlist hsub

theorem listAssign_assigns (hitem : Seen s item) : (listAssign list index item).Ends h
    (fun _ h' => ItemAssigned h h' list index item) fun e _ => IndexFailure e := by
  simp only [listAssign, Action.ends_bind, Action.ends_ask, Action.ends_read, Action.ends_update,
    hs.listParts_eq_ok]
  refine ⟨fun j hindex parts hparts q hget h₁ hret h₂ hset h' hrel => ?_,
    fun _ he => listIndex_fails he⟩
  cases hlist.symm.trans hparts
  obtain ⟨xs, hxs, hi⟩ := hs.arrayGet_eq_ok.mp hget
  have hin := hs.listIndex_lt hlist hindex
  have hfilled := hl.filled hlist hxs
  obtain ⟨i, hi', hj⟩ := hs.position_of_listIndex hlist hxs hfilled.fits hsub hindex
  have hne := Store.ne_of_content hlist hxs (by simp)
  obtain ⟨s₂, hs₂, hl₂, hcontent₂, -⟩ := hs.replaceElement hl hitem hlist hxs hin hi hret hset
  refine .list (hs.items_eq hlist hxs) hi' hj fun hthere => ?_
  rw [← List.take_set]
  exact hs₂.items_released hl₂ (hl.element_live hlist hxs hin hi) hrel
    (by rw [hcontent₂, Function.update_of_ne hne, hlist])
    (by rw [hcontent₂, Function.update_self]) hthere

theorem listDelete_deletes : (listDelete list index).Ends h
    (fun _ h' => ItemDeleted h h' list index) fun e _ => IndexFailure e := by
  simp only [listDelete, Action.ends_bind, Action.ends_ask, Action.ends_read, Action.ends_update,
    hs.listParts_eq_ok]
  refine ⟨fun j hindex parts hparts q hget h₁ hshift h₂ hset h₃ hstore h' hrel => ?_,
    fun _ he => listIndex_fails he⟩
  cases hlist.symm.trans hparts
  obtain ⟨xs, hxs, hi⟩ := hs.arrayGet_eq_ok.mp hget
  have hin := hs.listIndex_lt hlist hindex
  have hfilled := hl.filled hlist hxs
  obtain ⟨i, hi', hj⟩ := hs.position_of_listIndex hlist hxs hfilled.fits hsub hindex
  have hne := Store.ne_of_content hlist hxs (by simp)
  obtain ⟨s₃, ys, hs₃, hl₃, hcontent₃, -, hys⟩ :=
    hs.removeElement hl hlist hxs hin hi hshift hset hstore
  have hlist₃ : s₃.content list = some (.list (parts.size - 1) parts.values) := by
    rw [hcontent₃]
    exact Function.update_self ..
  have hys₃ : s₃.content parts.values = some (.array ys) := by
    rw [hcontent₃, overwrite, Function.update_of_ne hne.symm]
    exact Function.update_self ..
  refine .list (hs.items_eq hlist hxs) hi' hj fun hthere => ?_
  rw [← hys]
  exact hs₃.items_released hl₃ (hl.element_live hlist hxs hin hi) hrel hlist₃ hys₃ hthere

end Lists

section Dicts

theorem dictDelete_fails (dict key : Reference) (h : Heap) : (dictDelete dict key).Errs h fun e =>
    e = .missingKeyToDelete ∨ ∃ k, h.kindOf key = .ok k ∧ e = .unhashable k := by
  simp only [Action.Errs, dictDelete, Action.ends_bind, Action.ends_ask, Action.ends_read]
  refine ⟨fun hash _ parts _ slot _ => ?_, fun _ he => .inr (hash_fails he)⟩
  cases slot with
  | none => exact Action.ends_throw.mpr (.inl rfl)
  | some slot =>
    simp only [Action.ends_bind, Action.ends_read, Action.ends_update, Action.ends_liftFailure,
      implies_true]

variable {n o : Nat} {k v : Reference} (hs : h.Sound s) (hl : s.Ledger arrays owned)
  (hd : s.content dict = some (.dict n o k v))
include hs hl hd

theorem dictSet_assigns (hvalue : Seen s value) : (dictSet dict key value).Ends h
    (fun _ h' => ItemAssigned h h' dict key value)
      fun e _ => (∃ m, e = .outOfMemory m) ∨ ∃ k, h.kindOf key = .ok k ∧ e = .unhashable k := by
  obtain ⟨m, hm⟩ := hl.exists_mapping hd
  refine (dictSet_ends (hs.editing hl .nothing hd) (Anchored.nothing (s := s)).standing hvalue).imp
    ?_ ?_
  · rintro _ h' ⟨s', he, x, hash, hx, -, hmaps⟩
    exact .dict (hs.agrees hl hm) (hs.contents_eq_ok.mpr hx) fun hthere =>
      he.sound.agrees he.ledger (hmaps (he.sound.occupied_iff_content.mp hthere) m hm)
  · rintro e h' (⟨-, hhash⟩ | ⟨-, -, -, -, hmemory, -⟩)
    · exact .inr (hash_fails hhash)
    · exact .inl hmemory

theorem dictDelete_deletes : (dictDelete dict key).Ends h
    (fun _ h' => ItemDeleted h h' dict key) fun e _ =>
      e = .missingKeyToDelete ∨ ∃ k, h.kindOf key = .ok k ∧ e = .unhashable k := by
  obtain ⟨m, hm⟩ := hl.exists_mapping hd
  intro a h' hrun
  have hends := dictDelete_ends hs hl .nothing a h' hrun
  cases a with
  | error e => exact (dictDelete_fails dict key h).bad hrun
  | ok a =>
    obtain ⟨s', hs', hl', -, x, hash, hx, hn, hmaps⟩ := hends
    cases he : m x with
    | none =>
      rw [hs.dictDelete_unmapped hl hm hx hn he] at hrun
      cases hrun
    | some e =>
      exact .dict (hs.agrees hl hm) (hs.contents_eq_ok.mpr hx) he fun hthere =>
        hs'.agrees hl' (hmaps (hs'.occupied_iff_content.mp hthere) m hm)

end Dicts

section Items

variable (hs : h.Sound s) (hl : s.Ledger arrays owned) (hsub : Seen s index)
include hs hl hsub

theorem assignItem_assigns (g : Globals) (r : Reference) (hitem : Seen s item) :
    (assignItem r index item).Ends h (fun _ h' => ItemAssigned h h' r index item)
      fun e _ => (Command.assignItem r index item).MayRaise h g e := by
  simp only [assignItem, Action.ends_bind, Action.ends_read]
  intro k hk
  obtain ⟨x, hx, rfl⟩ := hs.kindOf_eq_ok.mp hk
  cases x with
  | list =>
    refine (listAssign_assigns hs hl hx hsub hitem).imp (fun _ _ h => h) ?_
    rintro e - (rfl | rfl) <;> exact hk
  | dict =>
    refine (dictSet_assigns hs hl hx hitem).imp (fun _ _ h => h) ?_
    rintro e - (⟨m, rfl⟩ | ⟨k, hkey, rfl⟩)
    · exact hk
    · exact ⟨hk, hkey⟩
  | array => exact Action.ends_fault.mpr trivial
  | _ => exact Action.ends_throw.mpr hk

theorem deleteItem_deletes (g : Globals) (r : Reference) : (deleteItem r index).Ends h
    (fun _ h' => ItemDeleted h h' r index)
      fun e _ => (Command.deleteItem r index).MayRaise h g e := by
  simp only [deleteItem, Action.ends_bind, Action.ends_read]
  intro k hk
  obtain ⟨x, hx, rfl⟩ := hs.kindOf_eq_ok.mp hk
  cases x with
  | list =>
    refine (listDelete_deletes hs hl hx hsub).imp (fun _ _ h => h) ?_
    rintro e - (rfl | rfl) <;> exact hk
  | dict =>
    refine (dictDelete_deletes hs hl hx).imp (fun _ _ h => h) ?_
    rintro e - (rfl | ⟨k, hkey, rfl⟩)
    · exact hk
    · exact ⟨hk, hkey⟩
  | array => exact Action.ends_fault.mpr trivial
  | _ => exact Action.ends_throw.mpr hk

end Items

end Heap

open Heap Session

def Command.answers : Command → Option (Turn Reference)
  | .none => some noneRetained
  | .bool b => some (boolRetained b)
  | .integer n => some (Session.integer n)
  | .string bytes => some (Session.string bytes)
  | .list elements => some (Session.list elements)
  | .dict pairs => some (Session.dict pairs)
  | .lookup name => some (Session.lookup name)
  | .unary op r => some (Session.unary op r)
  | .binary op left right => some (Session.binary op left right)
  | .compare op left right => some (compareBy op left right)
  | .subscript r index => some (Session.subscript r index)
  | .call name args room => some (Prod.fst <$> Session.call name args room)
  | _ => Option.none

def Command.acts : Command → Option (Turn Unit)
  | .assign name value => some (Session.assign name value)
  | .unbind name => some (Session.unbind name)
  | .assignItem r index item => some (Session.assignItem r index item)
  | .deleteItem r index => some (Session.deleteItem r index)
  | _ => Option.none

def Command.Settles (q : Command) (s : Session) (h : Heap) : Prop :=
  if q.callsCollector then ∃ col, Session.collect s = .ok (.ok col, { s with heap := h })
  else h = s.heap

/-- A reference that is owned, and nothing is raised, or the null reference and a failure. -/
inductive Answered (q : Command) (s : Session) (h : Heap) : Reference → Session → Prop
  | owned {r : Reference} {h' : Heap} (howned : NewlyOwned h h' r) :
      Answered q s h r { s with heap := h' }
  | refused {f : Failure} {h' : Heap} (hf : q.MayRaise s.heap s.globals f)
      (hsame : Unchanged h h') :
      Answered q s h .null { s with heap := h', pending := some f.exception }

/-- What a command that changes something comes to when it is done. -/
def Command.TakesEffect (s s' : Session) : Command → Prop
  | .assign name value => singletons.contains name = false ∧
      s'.globals = s.globals.put name value ∧ s'.heap.Occupied value
  | .unbind name => singletons.contains name = false ∧
      s.globals.contains name = true ∧ s'.globals = s.globals.remove name
  | .assignItem r index item =>
      ItemAssigned s.heap s'.heap r index item ∧ s'.globals = s.globals
  | .deleteItem r index => ItemDeleted s.heap s'.heap r index ∧ s'.globals = s.globals
  | _ => False

/-- What is left of a heap after a failure. A value that was to be bound is given up, and an entry
may be in a dict that has no memory to grow. -/
def Command.Spares (h h' : Heap) (f : Failure) : Command → Prop
  | .assign _ value => h.release value = .ok h'
  | .assignItem r index item =>
      Unchanged h h' ∨ (∃ m, f = .outOfMemory m) ∧ EntryAdded h h' r index item
  | _ => Unchanged h h'

/-- An effect, and nothing is raised, or a failure and no effect. -/
inductive Acted (q : Command) (s : Session) : Session → Prop
  | done {s' : Session} (heffect : q.TakesEffect s s') (hpending : s'.pending = s.pending) :
      Acted q s s'
  | refused {f : Failure} {h' : Heap} (hf : q.MayRaise s.heap s.globals f)
      (hspared : q.Spares s.heap h' f) :
      Acted q s { s with heap := h', pending := some f.exception }

namespace Session

variable {s : Session} {st : Store} {q : Command} {name : String} {args : List Reference}
  {r index item value : Reference} {owned : List Reference}

theorem attempt_answered {x : Action Failure Reference}
    (hx : Acquires x s.heap (q.MayRaise s.heap s.globals)) :
    (attemptRef (onHeap x)).Ends s (Answered q s s.heap) := by
  simp only [Turn.ends_attemptRef, Turn.ends_onHeap]
  exact hx.imp (fun _ _ howned => .owned howned) fun _ _ hb => .refused hb.1 hb.2

section Answering

variable (hs : s.heap.Sound st)
include hs

theorem retained_answered (r : Reference) : (retained r).Ends s (Answered q s s.heap) := by
  simp only [retained, Turn.ends_bind, Turn.ends_updateHeap, Turn.ends_pure]
  exact fun h' hret => .owned (hs.retain_newlyOwned hret)

theorem noneRetained_answered : noneRetained.Ends s (Answered q s s.heap) := by
  simp only [noneRetained, Turn.ends_bind, Turn.ends_get]
  exact retained_answered hs s.noneRef

theorem boolRetained_answered (b : Bool) : (boolRetained b).Ends s (Answered q s s.heap) := by
  simp only [boolRetained, Turn.ends_bind, Turn.ends_get]
  exact retained_answered hs _

theorem compareBy_answered (op : Comparison) (left right : Reference) :
    (compareBy op left right).Ends s (Answered (.compare op left right) s s.heap) := by
  simp only [compareBy, Turn.ends_bind, Turn.ends_attempt, Turn.ends_onHeap, Action.ends_ask,
    Turn.ends_pure]
  refine ⟨fun b _ => boolRetained_answered hs b, fun e he => ?_⟩
  obtain ⟨hop, k, k', rfl⟩ := compareBy_fails he
  exact .refused hop (.refl _)

theorem lookup_answered (name : String) :
    (lookup name).Ends s (Answered (.lookup name) s s.heap) := by
  simp only [lookup, Turn.ends_bind, Turn.ends_get]
  exact attempt_answered (get_acquires hs s.globals name)

theorem answerNone_answered (out : Printed) {room : Option Nat} :
    (answerNone out).Ends s fun a s' =>
      (attemptRef (pure a.result)).Ends s' (Answered (.call name args room) s s.heap) := by
  simp only [answerNone, Turn.ends_ite, Turn.ends_bind, Turn.ends_pure, Turn.ends_attemptRef]
  exact ⟨fun _ => noneRetained_answered hs, fun _ => .refused trivial (.refl _)⟩

theorem builtin_answered (b : Builtin) (name : String) (args : List Reference) (room : Option Nat)
    (hb : ¬(b = .gc ∧ args = [])) :
    (callBuiltin b name args room).Ends s fun a s' =>
      (attemptRef (pure a.result)).Ends s' (Answered (.call name args room) s s.heap) := by
  unfold callBuiltin
  split
  case h_1 =>
    simp only [Turn.ends_bind, Turn.ends_readHeap]
    exact fun out _ => answerNone_answered hs out
  case h_2 => exact absurd ⟨rfl, rfl⟩ hb
  case h_3 r =>
    simp only [Turn.ends_bind, Turn.ends_onHeap, Action.ends_ask, Turn.ends_pure,
      Turn.ends_attemptRef]
    refine ⟨fun n _ => ?_, fun e he => ?_⟩
    · have hmade : Acquires (liftM (Heap.makeInteger (Int64.ofNat n))) s.heap
          ((Command.call name [r] room).MayRaise s.heap s.globals) :=
        (Creates.integer _).acquires hs fun _ => trivial
      exact hmade.imp (fun _ _ howned => .owned howned) fun _ _ hb => .refused hb.1 hb.2
    · obtain ⟨k, hk, rfl⟩ := length_fails he
      exact .refused ⟨r, List.mem_singleton_self r, hk⟩ (.refl _)
  case h_4 r =>
    simp only [Turn.ends_bind, truthy, Turn.ends_readHeap, Turn.ends_pure, Turn.ends_attemptRef]
    exact fun b _ => boolRetained_answered hs b
  case h_5 =>
    simp only [Turn.ends_bind, Turn.ends_readHeap]
    exact fun out _ => answerNone_answered hs out
  all_goals
    simp only [Turn.ends_pure, Turn.ends_attemptRef]
    exact .refused ⟨rfl, rfl⟩ (.refl _)

theorem call_answered (room : Option Nat)
    (hcalls : (Command.call name args room).callsCollector = false) :
    (Prod.fst <$> call name args room : Turn Reference).Ends s
      (Answered (.call name args room) s s.heap) := by
  rw [Turn.ends_map, call]
  split
  case h_1 b hname =>
    simp only [Turn.ends_bind, Turn.ends_pure]
    refine builtin_answered hs b name args room ?_
    rintro ⟨rfl, rfl⟩
    rw [Command.callsCollector, hname] at hcalls
    cases hcalls
  case h_2 hname =>
    simp only [Turn.ends_bind, Turn.ends_pure, Turn.ends_attemptRef]
    exact .refused ⟨rfl, hname⟩ (.refl _)

end Answering

section Acting

variable (hs : s.heap.Sound st)
include hs

theorem assign_acted (hl : st.Ledger [] (value :: (owned ++ s.globals.references)))
    (hg : s.globals.Proper) :
    (assign name value).Ends s fun _ => Acted (.assign name value) s := by
  unfold assign
  split
  case isTrue hname =>
    simp only [Turn.ends_bind, Turn.ends_updateHeap, Turn.ends_raise]
    exact fun h' hrel => .refused ⟨rfl, hname⟩ hrel
  case isFalse hname =>
    rw [Bool.not_eq_true] at hname
    intro _ s' hrun
    simp only [bind_eq_ok, pure_eq_ok] at hrun
    obtain ⟨s'', hover, hs'⟩ := hrun
    cases hs'
    have hcarries : s.Carries (fun _ => none) owned ((name, value) :: s.globals.remove name) s' :=
      handOver_carries hs hl .nothing hg hover
    simp only [handOver, bind_eq_ok, pure_eq_ok, Prod.exists] at hover
    obtain ⟨g, h₁, hbind, h₂, hrel, rfl⟩ := hover
    obtain ⟨st', hs', hl', -⟩ := hcarries.balanced
    have hb := hcarries.subset List.mem_cons_self
    obtain ⟨x, hx, -⟩ := hl'.owner_seen
      (List.mem_append_right owned (Globals.mem_references hb)) (hcarries.proper.live _ hb)
    exact .done ⟨hname, Globals.bind_eq_put hbind, hs'.occupied_iff_content.mpr ⟨x, hx⟩⟩ rfl

omit hs in
theorem unbind_acted (name : String) : (unbind name).Ends s fun _ => Acted (.unbind name) s := by
  unfold unbind
  split
  case isTrue hname =>
    rw [Turn.ends_raise]
    exact .refused ⟨rfl, hname⟩ (.refl _)
  case isFalse hname =>
    rw [Bool.not_eq_true] at hname
    simp only [Turn.ends_bind, Turn.ends_get, Turn.ends_attempt, Turn.ends_onHeap]
    unfold Globals.delete
    cases hf : s.globals.find? name with
    | none =>
      rw [Action.ends_throw, Turn.ends_pure]
      exact .refused ⟨rfl, by rw [Globals.contains, hf]; rfl⟩ (.refl _)
    | some v =>
      simp only [Action.ends_bind, Action.ends_update, Action.ends_pure, Turn.ends_modify]
      refine fun h' _ => .done ⟨hname, ?_, rfl⟩ rfl
      rw [Globals.contains, hf]
      rfl

variable (hl : st.Ledger [] owned) (hindex : Seen st index)
include hl hindex

theorem assignItem_acted (hmin : s.heap.config.dictMinCapacity ≠ 0) (r : Reference)
    (hitem : Seen st item) :
    (assignItem r index item).Ends s fun _ => Acted (.assignItem r index item) s := by
  simp only [assignItem, Turn.ends_bind, Turn.ends_attempt, Turn.ends_onHeap, Turn.ends_pure]
  refine ((assignItem_assigns hs hl hindex s.globals r hitem).and
    (assignItem_declines hs hl hmin r index hitem)).imp ?_ ?_
  · rintro _ h' ⟨hassigned, -⟩
    exact .done ⟨hassigned, rfl⟩ rfl
  · rintro f h' ⟨hf, hspared⟩
    exact .refused hf hspared

theorem deleteItem_acted (r : Reference) :
    (deleteItem r index).Ends s fun _ => Acted (.deleteItem r index) s := by
  simp only [deleteItem, Turn.ends_bind, Turn.ends_attempt, Turn.ends_onHeap, Turn.ends_pure]
  refine ((deleteItem_deletes hs hl hindex s.globals r).and (deleteItem_declines r index)).imp ?_ ?_
  · rintro _ h' ⟨hdeleted, -⟩
    exact .done ⟨hdeleted, rfl⟩ rfl
  · rintro f h' ⟨hf, hsame⟩
    exact .refused hf hsame

end Acting

/-- A session tells of a command whether it was done, if the command comes to an end, as it does
within bounds. -/
structure Reports (s : Session) (q : Command) (bounds : Prop) : Prop where
  answered : ∀ x, q.answers = some x →
    x.Ends s fun r s' => ∃ h, q.Settles s h ∧ Answered q s h r s'
  acted : ∀ x, q.acts = some x → x.Ends s fun _ => Acted q s
  answers : bounds → ∀ x, q.answers = some x → x.Completes s
  acts : bounds → ∀ x, q.acts = some x → x.Completes s

end Session

namespace Program

variable {p p' : Program} {q : Command} {st : Store}

theorem completes_of_ask {x : Turn Reference} (h : p.ask x = .ok (some p')) :
    x.Completes p.session := by
  obtain ⟨⟨r, s'⟩, hrun, -⟩ := bind_eq_ok.mp h
  exact ⟨r, s', hrun⟩

theorem completes_of_act {α : Type} {x : Turn α} (h : p.act x = .ok (some p')) :
    x.Completes p.session := by
  obtain ⟨⟨a, s'⟩, hrun, -⟩ := bind_eq_ok.mp h
  exact ⟨a, s', hrun⟩

theorem answers_completes {x : Turn Reference} (hx : q.answers = some x)
    (h : p.serve q = .ok (some p')) : x.Completes p.session := by
  cases q with
  | call name args room =>
    cases hx
    simp only [Program.serve] at h
    split at h
    · obtain ⟨⟨a, s'⟩, hrun, -⟩ := bind_eq_ok.mp h
      exact Turn.completes_map.mpr ⟨a, s', hrun⟩
    · exact completes_of_ask h
  | release | assign | unbind | truthy | assignItem | deleteItem | collect => cases hx
  | _ =>
    cases hx
    exact completes_of_ask h

theorem acts_completes {x : Turn Unit} (hx : q.acts = some x) (h : p.serve q = .ok (some p')) :
    x.Completes p.session := by
  cases q with
  | assign name value =>
    cases hx
    exact session_spend p value ▸ completes_of_act h
  | unbind | assignItem | deleteItem =>
    cases hx
    exact completes_of_act h
  | _ => cases hx

theorem Run.dictMinCapacity (hrun : Run prudent p) :
    p.session.heap.config.dictMinCapacity ≠ 0 := by
  induction hrun with
  | start hnew =>
    obtain ⟨h, _, _, _, _, hheap, -⟩ := ofConfig_walks hnew
    exact ofConfig_config hnew ▸ ofConfig_dictMinCapacity hheap
  | step hrun hq hserve ih =>
    obtain ⟨st, hp, hr⟩ := hrun.reserved
    rwa [hp.serve_config hr hq hserve]

namespace InOrder

variable (hp : p.InOrder st) (hq : p.prudent q = true)
include hp

theorem collector_answered {name : String} {args : List Reference} {room : Option Nat}
    (hr : p.session.Reserved)
    (hcalls : (Command.call name args room).callsCollector = true) :
    (Prod.fst <$> call name args room : Turn Reference).Ends p.session fun r s' =>
      ∃ h, (Command.call name args room).Settles p.session h ∧
        Answered (.call name args room) p.session h r s' := by
  refine Turn.ends_map.mpr fun a s' hrun => ?_
  rcases hp.collect_reserved hr with ⟨col, h, hcollect, hreaped⟩ | ⟨-, hoverflow⟩
  · obtain ⟨st', hcol⟩ := hreaped.collected
    simp only [call_collector hcalls hcollect, bind_eq_ok, pure_eq_ok] at hrun
    obtain ⟨h', hret, hs'⟩ := hrun
    cases hs'
    refine ⟨h, ?_, .owned (hcol.sound.retain_newlyOwned hret)⟩
    rw [Command.Settles, if_pos hcalls]
    exact ⟨col, hcollect⟩
  · rw [call_collector_fault hcalls hoverflow] at hrun
    cases hrun

include hq

theorem answered (hr : p.session.Reserved) (hmin : p.session.heap.config.dictMinCapacity ≠ 0)
    {x : Turn Reference} (hx : q.answers = some x) :
    x.Ends p.session fun r s' => ∃ h, q.Settles p.session h ∧ Answered q p.session h r s' := by
  have hs := hp.sound
  have hl := hp.ledger
  have hhere (hcalls : q.callsCollector = false)
      (h : x.Ends p.session (Answered q p.session p.session.heap)) :
      x.Ends p.session fun r s' => ∃ h, q.Settles p.session h ∧ Answered q p.session h r s' := by
    intro r s' hrun
    refine ⟨p.session.heap, ?_, h r s' hrun⟩
    rw [Command.Settles, hcalls]
    exact (if_neg Bool.false_ne_true).mpr rfl
  cases q with
  | call name args room =>
    cases hx
    cases hcalls : (Command.call name args room).callsCollector with
    | true => exact hp.collector_answered hr hcalls
    | false => exact hhere hcalls (call_answered hs room hcalls)
  | none =>
    cases hx
    exact hhere rfl (noneRetained_answered hs)
  | bool b =>
    cases hx
    exact hhere rfl (boolRetained_answered hs b)
  | integer n =>
    cases hx
    exact hhere rfl (attempt_answered ((Creates.integer n).acquires hs fun _ => trivial))
  | string bytes =>
    cases hx
    exact hhere rfl (attempt_answered ((Creates.string bytes).acquires hs fun _ => trivial))
  | list elements =>
    cases hx
    have hall := fun r hr => hp.seen (List.all_eq_true.mp hq r hr)
    exact hhere rfl (attempt_answered (newList_acquires hs hall))
  | dict pairs =>
    cases hx
    refine hhere rfl (attempt_answered (newDict_acquires hs hl hmin fun e he => ?_))
    obtain ⟨hkey, hvalue⟩ := Bool.and_eq_true_iff.mp (List.all_eq_true.mp hq e he)
    exact ⟨hp.seen hkey, hp.seen hvalue⟩
  | lookup name =>
    cases hx
    exact hhere rfl (lookup_answered hs name)
  | unary op r =>
    cases hx
    exact hhere rfl (attempt_answered (unary_acquires hs op r))
  | binary op left right =>
    cases hx
    exact hhere rfl (attempt_answered (binary_acquires hs op left right))
  | compare op left right =>
    cases hx
    exact hhere rfl (compareBy_answered hs op left right)
  | subscript r index =>
    cases hx
    exact hhere rfl (attempt_answered (subscript_acquires hs r index))
  | _ => cases hx

theorem acted (hmin : p.session.heap.config.dictMinCapacity ≠ 0) {x : Turn Unit}
    (hx : q.acts = some x) : x.Ends p.session fun _ => Acted q p.session := by
  have hs := hp.sound
  have hl := hp.ledger
  cases q with
  | assign name value =>
    cases hx
    obtain ⟨howned, -⟩ := Bool.and_eq_true_iff.mp hq
    have hperm := (List.perm_cons_erase (List.contains_iff_mem.mp howned)).append_right
      p.session.globals.references
    exact assign_acted hs (hl.perm hperm) hp.proper
  | unbind name =>
    cases hx
    exact unbind_acted name
  | assignItem r index item =>
    cases hx
    obtain ⟨hboth, hitem⟩ := Bool.and_eq_true_iff.mp hq
    obtain ⟨-, hindex⟩ := Bool.and_eq_true_iff.mp hboth
    exact assignItem_acted hs hl (hp.seen hindex) hmin r (hp.seen hitem)
  | deleteItem r index =>
    cases hx
    obtain ⟨-, hindex⟩ := Bool.and_eq_true_iff.mp hq
    exact deleteItem_acted hs hl (hp.seen hindex) r
  | _ => cases hx

end InOrder

/-- Whatever a program asks for, the answer and the pending exception tell it whether that was
done. -/
theorem Run.reports (hrun : Run prudent p) (hq : p.prudent q = true) :
    p.session.Reports q
      (p.session.heap.config.Bounded ∧ q.Decent p.session.heap ∧ ¬p.Crowded ∧
        (q.collects = true → p.session.heap.stats.Roomy p.session.heap.config.halfSize)) := by
  obtain ⟨st, hp, hr⟩ := hrun.reserved
  have hserves : (p.session.heap.config.Bounded ∧ q.Decent p.session.heap ∧ ¬p.Crowded ∧
      (q.collects = true → p.session.heap.stats.Roomy p.session.heap.config.halfSize)) →
      ∃ p', p.serve q = .ok (some p') := by
    rintro ⟨hc, hdecent, hfew, hroomy⟩
    exact hp.serve_answers hr (hrun.moderate hc) hroomy (not_crowded hfew) hq hdecent
  refine ⟨fun x hx => hp.answered hq hr hrun.dictMinCapacity hx,
    fun x hx => hp.acted hq hrun.dictMinCapacity hx, fun hbounds x hx => ?_, fun hbounds x hx => ?_⟩
  · obtain ⟨p', hserve⟩ := hserves hbounds
    exact answers_completes hx hserve
  · obtain ⟨p', hserve⟩ := hserves hbounds
    exact acts_completes hx hserve

def brief : Option Program :=
  run prudent { poolSize := 384, poison := false } [.integer 1, .list [.ofIndex 3]]

theorem brief_reports : ∃ p r s', brief = some p ∧
    Session.subscript (.ofIndex 5) (.ofIndex 3) p.session = .ok (r, s') ∧
      Answered (.subscript (.ofIndex 5) (.ofIndex 3)) p.session p.session.heap r s' ∧
        r = .null ∧ s'.pending = some Failure.listIndexRange.exception := by
  have hall : (brief.any fun p => p.prudent (.subscript (.ofIndex 5) (.ofIndex 3)) &&
      decide (p.session.heap.config.halfSize ≤ 256 ∧ p.session.heap.config.initialRefs ≤ 8 ∧
        p.session.heap.config.dictMinCapacity ≤ 16 ∧
          (p.fresh ++ p.session.globals.references).length ≤ 9) &&
      (Session.subscript (.ofIndex 5) (.ofIndex 3) p.session).toOption.any fun a =>
        a.1 == .null && a.2.pending == some Failure.listIndexRange.exception) = true := by
    decide +kernel
  obtain ⟨p, hp, hends⟩ := (Option.any_eq_true ..).mp hall
  simp only [Bool.and_eq_true] at hends
  obtain ⟨⟨hq, hsmall⟩, htold⟩ := hends
  obtain ⟨hhalf, hrefs, hdicts, howned⟩ := of_decide_eq_true hsmall
  have hreports := (Run.of_run hp).reports hq
  have hbounded : p.session.heap.config.Bounded :=
    ⟨⟨Nat.lt_of_le_of_lt hhalf (by decide), Nat.le_trans hrefs (by decide)⟩, by
      simp only [Layout.elementOffset, Layout.elementsOffset, Word.limit]
      omega⟩
  have hfew : ¬p.Crowded := by
    intro hcrowded
    have hlength := hcrowded.lt_length
    omega
  obtain ⟨r, s', hrun⟩ :=
    hreports.answers ⟨hbounded, trivial, hfew, fun h => absurd h Bool.false_ne_true⟩ _ rfl
  obtain ⟨h, rfl, hanswered⟩ := hreports.answered _ rfl r s' hrun
  rw [hrun] at htold
  simp only [Except.toOption, Option.any_some, Bool.and_eq_true, beq_iff_eq] at htold
  exact ⟨p, r, s', hp, hrun, hanswered, htold.1, htold.2⟩

/-- A text with a NUL byte in it is taken by no session, so that there is no answer. -/
theorem nul_not_answered : ¬∀ p, Run prudent p → ∀ bytes, p.prudent (.string bytes) = true →
    (Session.string bytes).Completes p.session := by
  intro hall
  have hfaults : ((run prudent meagreConfig []).any fun p =>
      match Session.string [0x61, 0, 0x62] p.session with
      | .error f => f == .nulInString
      | .ok _ => false) = true := by decide +kernel
  obtain ⟨p, hp, hfault⟩ := (Option.any_eq_true ..).mp hfaults
  obtain ⟨r, s', hstring⟩ := hall p (Run.of_run hp) [0x61, 0, 0x62] rfl
  rw [hstring] at hfault
  cases hfault

end Program
end CountedHeap
