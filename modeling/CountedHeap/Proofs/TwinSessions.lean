import CountedHeap.Proofs.Histories
import CountedHeap.Proofs.TwinCollections

/-!
Sessions whose heaps hold the same, and which agree in all else. Every operation has the same
answer in both, so their histories are the same, whatever the bytes that nobody owns: up to a
collection that runs out of room, which leaves values in a half that is handed out again.
-/

namespace CountedHeap

open Heap

namespace Session

structure Twinned (s s' : Session) : Prop where
  heaps : s.heap.Twinned s'.heap
  frame : s' = { s with heap := s'.heap }

def Mirrors {α : Type} (x : Turn α) (s s' : Session) (good : α → Session → Session → Prop) : Prop :=
  Mirrored (fun p p' => p.1 = p'.1 ∧ good p.1 p.2 p'.2) (x s) (x s')

def Blind {α : Type} (x : Turn α) : Prop :=
  ∀ {s s'}, Twinned s s' → Mirrors x s s' fun _ t t' => Twinned t t'

variable {α β : Type} {s s' : Session} {good : α → Session → Session → Prop} {x : Turn α}

section Turns

theorem Twinned.with_heap (ht : Twinned s s') {h h' : Heap} (hh : h.Twinned h') :
    Twinned { s with heap := h } { s' with heap := h' } := by
  refine ⟨hh, ?_⟩
  rw [ht.frame]

theorem Mirrors.imp {good' : α → Session → Session → Prop} (hx : Mirrors x s s' good)
    (h : ∀ a t t', good a t t' → good' a t t') : Mirrors x s s' good' :=
  Mirrored.imp hx fun _ _ _ _ hend => ⟨hend.1, h _ _ _ hend.2⟩

theorem mirrors_pure {a : α} (hg : good a s s') : Mirrors (pure a : Turn α) s s' good := ⟨rfl, hg⟩

theorem mirrors_bind {x : Turn β} {f : β → Turn α}
    (hx : Mirrors x s s' fun b t t' => Mirrors (f b) t t' good) :
    Mirrors (x >>= f) s s' good := by
  refine Mirrored.bind hx ?_
  rintro ⟨b, t⟩ ⟨_, t'⟩ - - ⟨rfl, hend⟩
  exact hend

theorem mirrors_onHeap {ε : Type} {y : Action ε α} {good : Except ε α → Session → Session → Prop}
    (hy : y.Mirrors s.heap s'.heap
      (fun a g g' => good (.ok a) { s with heap := g } { s' with heap := g' })
      fun e g g' => good (.error e) { s with heap := g } { s' with heap := g' }) :
    Mirrors (onHeap y) s s' good := by
  refine Mirrored.bind hy ?_
  rintro ⟨a, g⟩ ⟨_, g'⟩ - - ⟨rfl, hend⟩
  cases a with
  | ok a => exact ⟨rfl, hend⟩
  | error e => exact ⟨rfl, hend⟩

theorem blind_pure (a : α) : Blind (pure a : Turn α) := fun ht => mirrors_pure ht

theorem blind_bind {x : Turn β} {f : β → Turn α} (hx : Blind x) (hf : ∀ b, Blind (f b)) :
    Blind (x >>= f) := fun ht => mirrors_bind ((hx ht).imp fun b _ _ ht' => hf b ht')

theorem blind_map {x : Turn β} (f : β → α) (hx : Blind x) : Blind (f <$> x) := by
  rw [map_eq_pure_bind]
  exact blind_bind hx fun b => blind_pure (f b)

theorem mirrors_get (ht : Twinned s s') {f : Session → Turn α}
    (heq : ∀ heap, f { s with heap } = f s) (hf : Mirrors (f s) s s' good) :
    Mirrors (get >>= f) s s' good := by
  have hsame : f s' = f s := by
    rw [ht.frame]
    exact heq _
  show Mirrored _ (f s s) (f s' s')
  rw [hsame]
  exact hf

theorem blind_get {f : Session → Turn α} (heq : ∀ s heap, f { s with heap } = f s)
    (hf : ∀ s, Blind (f s)) : Blind (get >>= f) := fun {s _} ht =>
  mirrors_get ht (heq s) (hf s ht)

theorem blind_onHeap {ε : Type} {y : Action ε α} (hy : Heap.Blind y) : Blind (onHeap y) := by
  intro s s' ht
  obtain ⟨st, hst⟩ := ht.heaps
  exact mirrors_onHeap ((hy hst).imp (fun _ _ _ hh => ht.with_heap hh)
    fun _ _ _ hh => ht.with_heap hh)

theorem blind_updateHeap {f : Heap → Except Fault Heap}
    (hf : ∀ {st h h'}, Heap.Twins st h h' → Mirrored Heap.Twinned (f h) (f h')) :
    Blind (updateHeap f) := by
  intro s s' ht
  obtain ⟨st, hst⟩ := ht.heaps
  exact (hf hst).bind fun g g' _ _ hh => Mirrored.pure_pure ⟨rfl, ht.with_heap hh⟩

theorem blind_readHeap {f : Heap → Except Fault α}
    (hf : ∀ {st h h'}, Heap.Twins st h h' → f h = f h') : Blind (readHeap f) := by
  intro s s' ht
  obtain ⟨st, hst⟩ := ht.heaps
  exact Mirrored.bind_eq (hf hst) fun a _ => Mirrored.pure_pure ⟨rfl, ht⟩

theorem blind_raise (e : Exception) : Blind (raise e) := by
  intro s s' ht
  refine ⟨rfl, ht.heaps, ?_⟩
  simp only
  rw [ht.frame]

theorem blind_setGlobals (g : Globals) :
    Blind (modify fun s => { s with globals := g } : Turn Unit) := by
  intro s s' ht
  refine ⟨rfl, ht.heaps, ?_⟩
  simp only
  rw [ht.frame]

theorem blind_attempt {x : Turn (Except Failure α)} (hx : Blind x) : Blind (attempt x) := by
  refine blind_bind hx fun a => ?_
  cases a with
  | ok a => exact blind_pure _
  | error f => exact blind_bind (blind_raise _) fun _ => blind_pure _

theorem blind_attemptRef {x : Turn (Except Failure Reference)} (hx : Blind x) :
    Blind (attemptRef x) := blind_bind (blind_attempt hx) fun _ => blind_pure _

end Turns

section Commands

theorem retained_blind (r : Reference) : Blind (retained r) :=
  blind_bind (blind_updateHeap fun ht => (ht.after.retain r).imp fun _ _ _ _ ha => ha.twinned)
    fun _ => blind_pure r

theorem noneRetained_blind : Blind noneRetained :=
  blind_get (fun _ _ => rfl) fun s => retained_blind s.noneRef

theorem boolRetained_blind (b : Bool) : Blind (boolRetained b) :=
  blind_get (fun _ _ => rfl) fun _ => retained_blind _

theorem release_blind (r : Reference) : Blind (release r) := by
  unfold release
  split
  · exact blind_updateHeap fun ht => (ht.after.release r).imp fun _ _ _ _ ha => ha.twinned
  · exact blind_pure ()

theorem Twinned.handOver (ht : Twinned s s') (name : String) (value : Reference) :
    Mirrored Twinned (s.handOver name value) (s'.handOver name value) := by
  obtain ⟨st, hst⟩ := ht.heaps
  have hglobals : s'.globals = s.globals := by rw [ht.frame]
  rw [Session.handOver, Session.handOver, hglobals]
  refine (hst.bind name value).bind ?_
  rintro ⟨g, h⟩ ⟨_, h'⟩ - - ⟨rfl, st', hst'⟩
  refine (hst'.after.release value).bind fun k k' _ _ ha => Mirrored.pure_pure ⟨ha.twinned, ?_⟩
  rw [ht.frame]

theorem assign_blind (name : String) (value : Reference) : Blind (assign name value) := by
  unfold assign
  split
  case isTrue =>
    refine blind_bind (blind_updateHeap fun ht => ?_) fun _ => blind_raise _
    exact (ht.after.release value).imp fun _ _ _ _ ha => ha.twinned
  case isFalse =>
    exact fun ht => (ht.handOver name value).bind fun _ _ _ _ ht' => Mirrored.pure_pure ⟨rfl, ht'⟩

theorem lookup_blind (name : String) : Blind (lookup name) :=
  blind_get (fun _ _ => rfl) fun _ => blind_attemptRef (blind_onHeap (get_blind name))

theorem unbind_blind (name : String) : Blind (unbind name) := by
  unfold unbind
  split
  case isTrue => exact blind_raise _
  case isFalse =>
    refine blind_get (fun _ _ => rfl) fun s => ?_
    refine blind_bind (blind_attempt (blind_onHeap (delete_blind name))) fun g => ?_
    cases g with
    | some g => exact blind_setGlobals g
    | none => exact blind_pure ()

theorem truthy_blind (r : Reference) : Blind (truthy r) :=
  blind_readHeap fun ht => congrFun (congrArg Heap.View.truthy ht.view_eq) r

theorem ask_blind {ε : Type} {f : Heap → Query ε α}
    (hf : ∀ {st h h'}, Heap.Twins st h h' → f h = f h') :
    Heap.Blind (Action.ask f : Action ε α) := by
  intro h h' st ht
  rw [← bind_pure (Action.ask f)]
  exact Action.ask_bind (hf ht) (fun _ _ => Action.mirrors_pure ht.twinned) fun _ _ => ht.twinned

theorem compareBy_blind (op : Comparison) (left right : Reference) :
    Blind (compareBy op left right) := by
  refine blind_bind (blind_attempt (blind_onHeap (ask_blind fun ht => ?_))) fun b => ?_
  · exact ht.alike.compareBy_eq op (fun _ => trivial) fun _ => trivial
  · cases b with
    | some b => exact boolRetained_blind b
    | none => exact blind_pure _

theorem answerNone_blind (out : Printed) : Blind (answerNone out) := by
  unfold answerNone
  split
  · exact blind_bind noneRetained_blind fun _ => blind_pure _
  · exact blind_pure _

theorem usage_eq {st : Store} {h h' : Heap} (ht : Heap.Twins st h h') : usage h = usage h' := by
  simp only [usage, ht.joined.used_eq, refsUsed, ht.joined.table_eq]

theorem displayLine_eq {st : Store} {h h' : Heap} (ht : Heap.Twins st h h')
    (args : List Reference) : displayLine h args = displayLine h' args := by
  simp only [displayLine, ht.alike.display_eq fun _ => trivial]

theorem collect_mirrors (ht : Twinned s s') :
    Mirrors Session.collect s s' fun a t t' => a.isOk → Twinned t t' := by
  refine mirrors_get ht (fun _ => rfl) (mirrors_onHeap (Action.mirrors_mapError ?_))
  obtain ⟨st, hst⟩ := ht.heaps
  exact (hst.collect _).imp (fun _ _ _ hh _ => ht.with_heap hh) fun _ _ _ _ hok => by cases hok

theorem builtin_blind (b : Builtin) (name : String) (args : List Reference) (room : Option Nat)
    (hb : ¬(b = .gc ∧ args = [])) : Blind (callBuiltin b name args room) := by
  unfold callBuiltin
  split
  · refine blind_bind (blind_readHeap fun ht => ?_) answerNone_blind
    rw [usage_eq ht]
  · exact absurd ⟨rfl, rfl⟩ hb
  · refine blind_bind (blind_onHeap (ask_blind fun ht => ?_)) fun n => ?_
    · exact ht.alike.length_eq fun _ => trivial
    · cases n with
      | ok n =>
        exact blind_bind (blind_onHeap (Heap.Blind.ofMemory (makeInteger_blind _))) fun _ => blind_pure _
      | error e => exact blind_pure _
  · exact blind_bind (truthy_blind _) fun b =>
      blind_bind (boolRetained_blind b) fun _ => blind_pure _
  · refine blind_bind (blind_readHeap fun ht => ?_) answerNone_blind
    rw [displayLine_eq ht]
  all_goals exact blind_pure _

theorem call_mirrors (ht : Twinned s s') (name : String) (args : List Reference)
    (room : Option Nat) :
    Mirrors (call name args room) s s' fun p t t' =>
      ((Command.call name args room).callsCollector && !p.1.isLive) = false → Twinned t t' := by
  have hanswer {y : Turn Answer} (hy : Blind y) :
      Blind (do let a ← y; return (← attemptRef (pure a.result), a.written)) :=
    blind_bind hy fun a => blind_bind (blind_attemptRef (blind_pure _)) fun _ => blind_pure _
  unfold call
  split
  case h_1 b hname =>
    by_cases hb : b = .gc ∧ args = []
    · obtain ⟨rfl, rfl⟩ := hb
      have hcalls : (Command.call name [] room).callsCollector = true := by
        rw [Command.callsCollector, hname]
        rfl
      refine mirrors_bind (mirrors_bind ((collect_mirrors ht).imp fun a t t' hend => ?_))
      cases a with
      | ok c =>
        have hdone : Blind (do return Answer.mk (.ok (← noneRetained)) "") :=
          blind_bind noneRetained_blind fun _ => blind_pure _
        refine (hdone (hend rfl)).imp fun a _ _ ht' => ?_
        refine mirrors_bind ((blind_attemptRef (blind_pure _) ht').imp fun _ _ _ ht' => ?_)
        exact mirrors_pure fun _ => ht'
      | error e =>
        refine mirrors_pure ?_
        rw [hcalls]
        exact ⟨rfl, nofun⟩
    · exact (hanswer (builtin_blind b name args room hb) ht).imp fun _ _ _ ht' _ => ht'
  case h_2 => exact (hanswer (blind_pure _) ht).imp fun _ _ _ ht' _ => ht'

end Commands

section Operations

theorem answer_blind {f : α → Response} {y : Action Failure α} (hy : Heap.Blind y) :
    Blind (answer f y) := by
  refine blind_bind (blind_onHeap hy) fun a => ?_
  cases a with
  | ok a => exact blind_pure _
  | error e => exact blind_pure _

theorem answerIf_blind {f : α → Response} {y : Option (Action Failure α)}
    (hy : ∀ z ∈ y, Heap.Blind z) : Blind (answerIf f y) := by
  cases y with
  | none => exact blind_pure _
  | some z => exact answer_blind (hy z rfl)

theorem made_blind {y : Action OutOfMemory Reference} (hy : Heap.Blind y) : Blind (made y) :=
  answer_blind (Heap.Blind.ofMemory hy)

theorem request_mirrors (q : Request) (ht : Twinned s s') :
    Mirrors q.perform s s' fun a t t' =>
      (Operation.request q).exhausts a = false → Twinned t t' := by
  have hblind (hq : Blind q.perform) : Mirrors q.perform s s' fun a t t' =>
      (Operation.request q).exhausts a = false → Twinned t t' :=
    (hq ht).imp fun _ _ _ ht' _ => ht'
  cases q with
  | makeNone => exact hblind (made_blind makeNone_blind)
  | makeBool b => exact hblind (made_blind (makeBool_blind b))
  | makeInteger n => exact hblind (made_blind (makeInteger_blind n))
  | makeString bytes => exact hblind (made_blind (makeString_blind bytes))
  | makeConcatenation left right => exact hblind (made_blind (makeConcatenation_blind left right))
  | makeArray capacity => exact hblind (made_blind (makeArray_blind capacity))
  | makeList values => exact hblind (made_blind (makeList_blind values))
  | makeDict keys values => exact hblind (made_blind (makeDict_blind keys values))
  | newList elements => exact hblind (made_blind (newList_blind elements))
  | newDict pairs => exact hblind (answer_blind (newDict_blind pairs))
  | listPush list item => exact hblind (answer_blind (Heap.Blind.ofMemory (listPush_blind list item)))
  | dictGet dict key => exact hblind (answer_blind (dictGet_blind dict key))
  | dictSet dict key value => exact hblind (answer_blind (dictSet_blind dict key value))
  | dictDelete dict key => exact hblind (answer_blind (dictDelete_blind dict key))
  | unary op r => exact hblind (answer_blind (unary_blind op r))
  | binary op left right => exact hblind (answer_blind (binary_blind op left right))
  | subscript r index => exact hblind (answer_blind (subscript_blind r index))
  | assignItem r index item => exact hblind (answer_blind (assignItem_blind r index item))
  | deleteItem r index => exact hblind (answer_blind (deleteItem_blind r index))
  | retain r =>
    refine hblind (blind_bind (blind_updateHeap fun ht => ?_) fun _ => blind_pure _)
    exact (ht.after.retain r).imp fun _ _ _ _ ha => ha.twinned
  | release r =>
    refine hblind (blind_bind (blind_updateHeap fun ht => ?_) fun _ => blind_pure _)
    exact (ht.after.release r).imp fun _ _ _ _ ha => ha.twinned
  | bind name value =>
    obtain ⟨st, hst⟩ := ht.heaps
    have hglobals : s'.globals = s.globals := by rw [ht.frame]
    simp only [Mirrors, Request.perform, hglobals]
    refine (hst.bind name value).bind ?_
    rintro ⟨g, h⟩ ⟨_, h'⟩ - - ⟨rfl, hh⟩
    refine Mirrored.pure_pure ⟨rfl, fun _ => ⟨hh, ?_⟩⟩
    rw [ht.frame]
  | lookup name =>
    exact hblind (blind_get (fun _ _ => rfl) fun _ => answer_blind (get_blind name))
  | unbind name =>
    refine hblind (blind_get (fun _ _ => rfl) fun _ => ?_)
    refine blind_bind (blind_onHeap (delete_blind name)) fun g => ?_
    cases g with
    | ok g => exact blind_bind (blind_setGlobals g) fun _ => blind_pure _
    | error e => exact blind_pure _
  | clear =>
    refine hblind (blind_get (fun _ _ => rfl) fun s => ?_)
    refine blind_bind (blind_updateHeap fun ht => ?_) fun _ =>
      blind_bind (blind_setGlobals []) fun _ => blind_pure _
    exact (ht.releases _).imp fun _ _ _ _ ha => ha.twinned
  | collect roots =>
    obtain ⟨st, hst⟩ := ht.heaps
    refine mirrors_bind (mirrors_onHeap (Action.mirrors_mapError ((hst.collect roots).imp ?_ ?_)))
    · exact fun _ _ _ hh => mirrors_pure fun _ => ht.with_heap hh
    · exact fun _ _ _ _ => mirrors_pure nofun

theorem command_mirrors (q : Command) (ht : Twinned s s') :
    Mirrors q.perform s s' fun a t t' =>
      (Operation.command q).exhausts a = false → Twinned t t' := by
  have hblind {α : Type} {x : Turn α} {f : α → Response} (hx : Blind x) :
      Mirrors (f <$> x) s s' fun a t t' =>
        (Operation.command q).exhausts a = false → Twinned t t' :=
    (blind_map f hx ht).imp fun _ _ _ ht' _ => ht'
  have hmade {x : Action OutOfMemory Reference} (hx : Heap.Blind x) :
      Blind (attemptRef (onHeap (liftM x : Action Failure Reference))) :=
    blind_attemptRef (blind_onHeap (Heap.Blind.ofMemory hx))
  cases q with
  | none => exact hblind noneRetained_blind
  | bool b => exact hblind (boolRetained_blind b)
  | integer n => exact hblind (hmade (makeInteger_blind n))
  | string bytes => exact hblind (hmade (makeString_blind bytes))
  | list elements => exact hblind (hmade (newList_blind elements))
  | dict pairs => exact hblind (blind_attemptRef (blind_onHeap (newDict_blind pairs)))
  | release r => exact hblind (release_blind r)
  | assign name value => exact hblind (assign_blind name value)
  | lookup name => exact hblind (lookup_blind name)
  | unbind name => exact hblind (unbind_blind name)
  | truthy r => exact hblind (truthy_blind r)
  | unary op r => exact hblind (blind_attemptRef (blind_onHeap (unary_blind op r)))
  | binary op left right =>
    exact hblind (blind_attemptRef (blind_onHeap (binary_blind op left right)))
  | compare op left right => exact hblind (compareBy_blind op left right)
  | subscript r index => exact hblind (blind_attemptRef (blind_onHeap (subscript_blind r index)))
  | assignItem r index item =>
    exact hblind (blind_bind (blind_attempt (blind_onHeap (assignItem_blind r index item)))
      fun _ => blind_pure ())
  | deleteItem r index =>
    exact hblind (blind_bind (blind_attempt (blind_onHeap (deleteItem_blind r index)))
      fun _ => blind_pure ())
  | call name args room =>
    rw [Command.perform, map_eq_pure_bind]
    exact mirrors_bind ((call_mirrors ht name args room).imp fun _ _ _ hend => mirrors_pure hend)
  | collect =>
    refine mirrors_bind ((collect_mirrors ht).imp fun a _ _ hend => ?_)
    cases a with
    | ok c => exact mirrors_pure fun _ => hend rfl
    | error e => exact mirrors_pure nofun

theorem perform_mirrors (q : Operation) (ht : Twinned s s') :
    Mirrors q.perform s s' fun a t t' => q.exhausts a = false → Twinned t t' := by
  have hblind (hq : Blind q.perform) :
      Mirrors q.perform s s' fun a t t' => q.exhausts a = false → Twinned t t' :=
    (hq ht).imp fun _ _ _ ht' _ => ht'
  cases q with
  | command q => exact command_mirrors q ht
  | request q => exact request_mirrors q ht
  | unaryAs => exact hblind (answerIf_blind fun _ hx => unaryAs_blind hx)
  | binaryAs => exact hblind (answerIf_blind fun _ hx => binaryAs_blind hx)
  | subscriptAs => exact hblind (answerIf_blind fun _ hx => subscriptAs_blind hx)
  | assignAs => exact hblind (answerIf_blind fun _ hx => assignAs_blind hx)
  | deleteAs => exact hblind (answerIf_blind fun _ hx => deleteAs_blind hx)

end Operations

section Views

theorem Twinned.view_eq (ht : Twinned s s') : s.view = s'.view := by
  obtain ⟨st, hst⟩ := ht.heaps
  have hglobals : s'.globals = s.globals := by rw [ht.frame]
  have hpending : s'.pending = s.pending := by rw [ht.frame]
  have hbindings : s.printGlobals = s'.printGlobals := by
    have hbinding : Globals.printBinding s.heap = Globals.printBinding s'.heap := by
      funext b
      simp only [Globals.printBinding, hst.alike.repr_eq fun _ => trivial]
    simp only [printGlobals, hglobals, Globals.print, hbinding]
  have hclosed : Heap.view <$> s.close = Heap.view <$> s'.close := by
    rw [close, close, hglobals]
    exact (hst.releases _).map_eq fun g g' ha => ha.choose_spec.1.view_eq
  rw [view, view, hst.view_eq, hglobals, hpending, hbindings, hclosed]
  simp only [dump, hbindings, hst.dump_eq]

theorem Twinned.history_eq (ht : Twinned s s') (operations : List Operation) :
    s.history Operation.exhausts operations = s'.history Operation.exhausts operations := by
  induction operations generalizing s s' with
  | nil => rfl
  | cons q rest ih =>
    rw [history, history]
    obtain ⟨f, hrun, hrun'⟩ | ⟨⟨a, t⟩, ⟨_, t'⟩, hrun, hrun', rfl, hend⟩ :=
      (perform_mirrors q ht).ends
    · rw [hrun, hrun']
    · rw [hrun, hrun']
      simp only
      split
      case isTrue => rfl
      case isFalse hgoes =>
        have ht' := hend (Bool.not_eq_true _ ▸ hgoes)
        rw [ht'.view_eq, ih ht']

end Views

section Start

variable (c : Config) (poison : Bool)

theorem ofConfig_mirrored :
    Mirrored (Mirrored Heap.Twinned) (Heap.ofConfig c) (Heap.ofConfig { c with poison }) := by
  refine Mirrored.imp (R := Mirrored Joined) ?_ fun x x' hx hx' hj => ?_
  · have hvalid : { c with poison }.validate = c.validate := rfl
    rw [Heap.ofConfig, Heap.ofConfig, hvalid]
    cases c.validate with
    | error e => exact Mirrored.pure_pure (Mirrored.of_error rfl rfl)
    | ok =>
      refine Mirrored.bind (R := fun p p' : Pool => p.memory.size ≤ Memory.maxSize ∧
        p'.memory = p.memory) (Mirrored.bind_eq rfl fun m hm => Mirrored.pure_pure ⟨?_, rfl⟩) ?_
      · exact (Memory.zeroed_eq_ok hm).2 ▸ (Memory.zeroed_eq_ok hm).1
      · rintro p p' - - ⟨hbound, hmem⟩
        have hsame : p.memory.Same p'.memory fun _ => True :=
          ⟨by rw [hmem], fun _ _ => by rw [hmem]⟩
        refine (Pool.activate_mirrored hsame hbound _).bind fun q q' _ _ hq => ?_
        exact Mirrored.pure_pure ⟨⟨_, hq.1⟩, q', poison, rfl⟩
  · refine hj.imp fun h h' hok hok' hj => ?_
    subst hok hok'
    exact ⟨_, (ofConfig_sound hx).1, (ofConfig_sound hx').1, hj⟩

theorem makeSingletons_blind : Heap.Blind makeSingletons := by
  intro h h' st ht
  refine Action.mirrors_bind ((makeNone_blind ht).imp ?_ fun _ _ _ hh => hh)
  rintro none g g' ⟨st₁, ht₁⟩
  refine Action.mirrors_bind ((makeBool_blind true ht₁).imp ?_ fun _ _ _ hh => hh)
  rintro yes k k' ⟨st₂, ht₂⟩
  refine Action.mirrors_bind ((makeBool_blind false ht₂).imp ?_ fun _ _ _ hh => hh)
  exact fun _ _ _ hh => Action.mirrors_pure hh

theorem bare_mirrored :
    Mirrored (Mirrored Twinned) (bare c) (bare { c with poison }) := by
  refine (ofConfig_mirrored c poison).bind fun x x' _ _ hx => ?_
  obtain ⟨e, rfl, rfl⟩ | ⟨h, h', rfl, rfl, hh⟩ := hx.ends
  · exact Mirrored.pure_pure (Mirrored.of_error rfl rfl)
  · exact Mirrored.pure_pure ⟨hh, rfl⟩

theorem session_mirrored :
    Mirrored (Mirrored Twinned) (ofConfig c) (ofConfig { c with poison }) := by
  refine (ofConfig_mirrored c poison).bind fun x x' _ _ hx => ?_
  obtain ⟨e, rfl, rfl⟩ | ⟨h, h', rfl, rfl, st, hst⟩ := hx.ends
  · exact Mirrored.pure_pure (Mirrored.of_error rfl rfl)
  · refine (makeSingletons_blind hst).bind ?_
    rintro ⟨a, g⟩ ⟨_, g'⟩ - - ⟨rfl, hend⟩
    cases a with
    | error e => exact Mirrored.pure_pure (Mirrored.of_error rfl rfl)
    | ok refs =>
      have ht : Twinned ⟨g, [], none, refs.1, refs.2.1, refs.2.2⟩
          ⟨g', [], none, refs.1, refs.2.1, refs.2.2⟩ := ⟨hend, rfl⟩
      refine (ht.handOver "None" _).bind fun _ _ _ _ ht => ?_
      refine (ht.handOver "True" _).bind fun _ _ _ _ ht => ?_
      exact (ht.handOver "False" _).bind fun _ _ _ _ ht => Mirrored.pure_pure ht

theorem historyFrom_eq {x x' : Except Fault (Except InitError Session)}
    (hx : Mirrored (Mirrored Twinned) x x') (operations : List Operation) :
    historyFrom Operation.exhausts x' operations = historyFrom Operation.exhausts x operations := by
  obtain ⟨f, rfl, rfl⟩ | ⟨y, y', rfl, rfl, hy⟩ := hx.ends
  · rfl
  · obtain ⟨e, rfl, rfl⟩ | ⟨s, s', rfl, rfl, ht⟩ := hy.ends
    · rfl
    · rw [historyFrom, historyFrom, ht.view_eq, ht.history_eq]

/-- Whether payloads are overwritten when they are given up is never seen: not by any answer, and
not by any look at what there is, until a collection runs out of room. -/
theorem history_poison (operations : List Operation) :
    historyFrom Operation.exhausts (bare { c with poison }) operations =
        historyFrom Operation.exhausts (bare c) operations ∧
      historyFrom Operation.exhausts (ofConfig { c with poison }) operations =
        historyFrom Operation.exhausts (ofConfig c) operations :=
  ⟨historyFrom_eq (bare_mirrored c poison) operations,
    historyFrom_eq (session_mirrored c poison) operations⟩

end Start

section Exhausted

/-- A half that the values fill to the last byte: the first collection copies all but None, which
stays where it was while the next one reuses its half. -/
def strandNone : List Operation :=
  [.request (.makeInteger 1), .request .makeNone, .request (.makeInteger 2),
    .request (.collect [.ofIndex 2, .ofIndex 0, .ofIndex 1]),
    .request (.collect [.ofIndex 2])]

def strandedCount (events : List Event) : Option Nat :=
  match events.getLast? with
  | some (.seen v) => (v.heap.refcount (.ofIndex 1)).toOption
  | _ => none

/-- Without the stop, what a collection left behind shows through. -/
theorem history_poison_stranded :
    ¬ ∀ (c : Config) (poison : Bool) (operations : List Operation),
      historyFrom (fun _ _ => false) (bare { c with poison }) operations =
          historyFrom (fun _ _ => false) (bare c) operations ∧
        historyFrom (fun _ _ => false) (ofConfig { c with poison }) operations =
          historyFrom (fun _ _ => false) (ofConfig c) operations := by
  intro hall
  have hsame := congrArg strandedCount (hall { poolSize := 224 } false strandNone).1
  have hzero : strandedCount (historyFrom (fun _ _ => false)
      (bare { poolSize := 224, poison := false }) strandNone) = some 0 := by decide +kernel
  have hpattern : strandedCount (historyFrom (fun _ _ => false)
      (bare { poolSize := 224 }) strandNone) = some 0xCCCCCCCCCCCCCCCC := by decide +kernel
  rw [hzero, hpattern] at hsame
  cases hsame

end Exhausted

end Session
end CountedHeap
