import CountedHeap.Proofs.BoundValues
import CountedHeap.Proofs.Frames

/-!
Turns as paths. Every command of a program other than a collection is a path of its heap on which
None and the truth values are not made anew, and does to the bindings what it says.
-/

namespace CountedHeap

open Heap

def Heap.Scope.plain : Scope := ⟨fun _ => False, fun _ => False, False⟩

namespace Command

def rebinds (g : Globals) : Command → Globals
  | assign name value => if Session.singletons.contains name then g else g.put name value
  | unbind name => if Session.singletons.contains name then g else g.remove name
  | _ => g

def collects : Command → Bool
  | collect => true
  | q => q.callsCollector

end Command

theorem Globals.remove_of_none {g : Globals} {name : String} (hf : g.find? name = none) :
    g.remove name = g := by
  refine List.filter_eq_self.mpr fun b hb => ?_
  have hne := List.lookup_eq_none_iff.mp hf b hb
  rw [bne_iff_ne]
  rintro rfl
  simp at hne

namespace Session

structure Walks (s : Session) (g : Globals) (s' : Session) : Prop where
  path : Path .plain s.heap s'.heap
  rest : s' = { s with heap := s'.heap, globals := g, pending := s'.pending }

def Walking {α : Type} (x : Turn α) (s : Session) : Prop :=
  x.Ends s fun _ s' => s.Walks s.globals s'

variable {α : Type} {s s' s'' : Session} {st : Store} {g g' : Globals} {h : Heap}
  {r value : Reference} {name : String} {arrays owned : List Reference}

theorem Walks.of_path {pending : Pending} (hp : Path .plain s.heap h) :
    s.Walks g { s with heap := h, globals := g, pending } := ⟨hp, rfl⟩

theorem Walks.refl (s : Session) : s.Walks s.globals s := .of_path .refl

theorem Walks.raised {pending : Pending} (hw : s.Walks g s') :
    s.Walks g { s' with pending } := ⟨hw.path, by rw [hw.rest]⟩

theorem Walks.globals (hw : s.Walks g s') : s'.globals = g := by rw [hw.rest]

theorem Walks.trans (hw : s.Walks g s') (hw' : s'.Walks g' s'') : s.Walks g' s'' :=
  ⟨hw.path.trans hw'.path, by rw [hw'.rest, hw.rest]⟩

theorem attempt_walking {x : Action Failure α} (hx : Traced .plain x s.heap) :
    Walking (attempt (onHeap x)) s := by
  rw [Walking, Turn.ends_attempt, Turn.ends_onHeap]
  exact hx.imp (fun _ _ hp => .of_path hp) fun _ _ hp => .of_path hp

theorem attemptRef_walking {x : Action Failure Reference} (hx : Traced .plain x s.heap) :
    Walking (attemptRef (onHeap x)) s := by
  rw [Walking, Turn.ends_attemptRef, Turn.ends_onHeap]
  exact hx.imp (fun _ _ hp => .of_path hp) fun _ _ hp => .of_path hp

theorem born_walking {x : Action Failure Reference} (hx : Born .plain x s.heap) :
    Walking (attemptRef (onHeap x)) s :=
  attemptRef_walking (hx.imp (fun _ _ hp => hp.1) fun _ _ hp => hp)

theorem retained_walking (r : Reference) : Walking (retained r) s := by
  simp only [Walking, retained, Turn.ends_bind, Turn.ends_updateHeap, Turn.ends_pure]
  exact fun h hret => .of_path (.single (.retain hret))

theorem noneRetained_walking : Walking noneRetained s := by
  simp only [Walking, noneRetained, Turn.ends_bind, Turn.ends_get]
  exact retained_walking _

theorem boolRetained_walking (b : Bool) : Walking (boolRetained b) s := by
  simp only [Walking, boolRetained, Turn.ends_bind, Turn.ends_get]
  exact retained_walking _

theorem compareBy_walking (op : Comparison) (left right : Reference) :
    Walking (compareBy op left right) s := by
  simp only [Walking, compareBy, Turn.ends_bind, Turn.ends_attempt, Turn.ends_onHeap,
    Action.ends_ask, Turn.ends_pure]
  exact ⟨fun b _ => boolRetained_walking b, fun _ _ => .of_path .refl⟩

theorem lookup_walking (name : String) : Walking (lookup name) s := by
  simp only [Walking, lookup, Turn.ends_bind, Turn.ends_get]
  refine attemptRef_walking ?_
  unfold Globals.get
  split
  · exact throw_traced _
  · simp only [Traced, Action.ends_bind, Action.ends_update, Action.ends_pure]
    exact fun h hret => .single (.retain hret)

section Calling

theorem answerNone_walking (out : Printed) : Walking (answerNone out) s := by
  simp only [Walking, answerNone, Turn.ends_ite, Turn.ends_bind, Turn.ends_pure]
  exact ⟨fun _ => noneRetained_walking, fun _ => .refl s⟩

theorem builtin_walking (hc : s.heap.Consistent) (b : Builtin) (args : List Reference)
    (room : Option Nat) (hb : ¬(b = .gc ∧ args = [])) :
    Walking (callBuiltin b name args room) s := by
  obtain ⟨st, hs⟩ := hc
  unfold Walking callBuiltin
  split
  · simp only [Turn.ends_bind, Turn.ends_readHeap]
    exact fun out _ => answerNone_walking out
  · exact absurd ⟨rfl, rfl⟩ hb
  · simp only [Turn.ends_bind, Turn.ends_onHeap, Action.ends_ask, Turn.ends_pure]
    refine ⟨fun n _ => ?_, fun _ _ => .refl s⟩
    have hborn : Born .plain (makeInteger (Int64.ofNat n)) s.heap :=
      (Creates.integer _).born hs fun _ hno => hno.elim
    exact hborn.ofMemory.imp (fun _ _ hp => .of_path hp.1) fun _ _ hp => .of_path hp
  · simp only [Turn.ends_bind, truthy, Turn.ends_readHeap, Turn.ends_pure]
    exact fun b _ => boolRetained_walking b
  · simp only [Turn.ends_bind, Turn.ends_readHeap]
    exact fun out _ => answerNone_walking out
  all_goals exact Turn.ends_pure.mpr (.refl s)

theorem call_walking (hc : s.heap.Consistent) (args : List Reference) (room : Option Nat)
    (hcalls : (Command.call name args room).callsCollector = false) :
    Walking (call name args room) s := by
  have hanswer {x : Turn Answer} (hx : Walking x s) :
      Walking (do let a ← x; return (← attemptRef (pure a.result), a.written)) s := by
    simp only [Walking, Turn.ends_bind, Turn.ends_attemptRef, Turn.ends_pure]
    refine hx.imp fun a s' hw => ?_
    split
    · exact hw
    · exact hw.raised
  unfold call
  split
  case h_1 b hname =>
    refine hanswer (builtin_walking hc b args room ?_)
    rintro ⟨rfl, rfl⟩
    rw [Command.callsCollector, hname] at hcalls
    cases hcalls
  case h_2 => exact hanswer (Turn.ends_pure.mpr (.refl s))

end Calling

section Binding

variable (hs : s.heap.Sound st)
include hs

theorem release_walking (r : Reference) : Walking (release r) s := by
  simp only [Walking, release, Turn.ends_ite, Turn.ends_updateHeap, Turn.ends_pure]
  exact ⟨fun _ h hrel => .of_path (release_path hs.consistent hrel), fun _ => .refl s⟩

theorem handOver_walks (h : s.handOver name value = .ok s') :
    s.Walks (s.globals.put name value) s' := by
  simp only [handOver, bind_eq_ok, pure_eq_ok, Prod.exists] at h
  obtain ⟨g', h₁, hbind, h₂, hrel, rfl⟩ := h
  have hput := Globals.bind_eq_put hbind
  subst hput
  refine .of_path ?_
  have ht : Trail .plain s.heap st s.heap := .start hs
  simp only [Globals.bind, bind_eq_ok] at hbind
  obtain ⟨h₃, hret, hbind⟩ := hbind
  split at hbind
  · simp only [bind_eq_ok, pure_eq_ok, Prod.mk.injEq] at hbind
    obtain ⟨h₄, hrel', -, rfl⟩ := hbind
    exact (((ht.retain hret).release hrel').release hrel).path
  · simp only [pure_bind, pure_eq_ok, Prod.mk.injEq] at hbind
    obtain ⟨-, rfl⟩ := hbind
    exact ((ht.retain hret).release hrel).path

theorem assign_walks : (assign name value).Ends s fun _ s' =>
    s.Walks ((Command.assign name value).rebinds s.globals) s' := by
  simp only [Command.rebinds]
  unfold assign
  split
  case isTrue =>
    simp only [Turn.ends_bind, Turn.ends_updateHeap, Turn.ends_raise]
    exact fun h hrel => .of_path (release_path hs.consistent hrel)
  case isFalse =>
    intro _ s' h
    simp only [bind_eq_ok, pure_eq_ok] at h
    obtain ⟨s'', h, hs'⟩ := h
    cases hs'
    exact handOver_walks hs h

theorem unbind_walks : (unbind name).Ends s fun _ s' =>
    s.Walks ((Command.unbind name).rebinds s.globals) s' := by
  simp only [Command.rebinds]
  unfold unbind
  split
  case isTrue =>
    rw [Turn.ends_raise]
    exact .of_path .refl
  case isFalse =>
    simp only [Turn.ends_bind, Turn.ends_get, Turn.ends_attempt, Turn.ends_onHeap]
    unfold Globals.delete
    split
    · rename_i hf
      rw [Action.ends_throw, Globals.remove_of_none hf, Turn.ends_pure]
      exact .of_path .refl
    · simp only [Action.ends_bind, Action.ends_update, Action.ends_pure, Turn.ends_modify]
      exact fun h hrel => .of_path (release_path hs.consistent hrel)

end Binding

end Session

namespace Program

open Session

variable {p p' : Program} {st : Store} {q : Command}

theorem act_walks {α : Type} {x : Turn α} {g : Globals}
    (hx : x.Ends p.session fun _ s' => p.session.Walks g s') (h : p.act x = .ok (some p')) :
    p.session.Walks g p'.session := by
  obtain ⟨a, session, hrun, rfl⟩ := act_eq_some.mp h
  exact hx a session hrun

theorem ask_walks {x : Turn Reference} (hx : Walking x p.session)
    (h : p.ask x = .ok (some p')) : p.session.Walks p.session.globals p'.session := by
  obtain ⟨r, session, hrun, rfl⟩ := ask_eq_some.mp h
  exact hx r session hrun

theorem session_spend (p : Program) (r : Reference) : (p.spend r).session = p.session := by
  unfold spend
  split <;> rfl

theorem InOrder.walks (hp : p.InOrder st) (hq : p.prudent q = true) (hno : q.collects = false)
    (h : p.serve q = .ok (some p')) :
    p.session.Walks (q.rebinds p.session.globals) p'.session := by
  have hs := hp.sound
  have hl := hp.ledger
  have hcreate {x : Action OutOfMemory Reference} (hx : Creates False x) :
      Walking (attemptRef (onHeap (liftM x))) p.session := by
    have hborn : Born .plain x p.session.heap := hx.born hs nofun
    exact born_walking hborn.ofMemory
  cases q with
  | none => exact ask_walks noneRetained_walking h
  | bool b => exact ask_walks (boolRetained_walking b) h
  | integer n => exact ask_walks (hcreate (.integer n)) h
  | string bytes => exact ask_walks (hcreate (.string bytes)) h
  | list elements =>
    have hborn : Born .plain (newList elements) p.session.heap := newList_born elements hs nofun
    exact ask_walks (born_walking hborn.ofMemory) h
  | dict pairs =>
    have hborn : Born .plain (newDict pairs) p.session.heap :=
      newDict_born hs hl (fun e he =>
        hp.seen (Bool.and_eq_true_iff.mp (List.all_eq_true.mp hq e he)).2) nofun
    exact ask_walks (born_walking hborn) h
  | release r =>
    have hw := act_walks (g := p.session.globals)
      (p.session_spend r ▸ release_walking hs r) h
    rwa [session_spend] at hw
  | assign name value =>
    have hw := act_walks (p.session_spend value ▸ assign_walks hs) h
    rwa [session_spend] at hw
  | lookup name => exact ask_walks (lookup_walking name) h
  | unbind name => exact act_walks (unbind_walks hs) h
  | truthy r =>
    refine act_walks ?_ h
    rw [Session.truthy, Turn.ends_readHeap]
    exact fun _ _ => .refl _
  | unary op r => exact ask_walks (born_walking (unary_born op r hs nofun)) h
  | binary op left right => exact ask_walks (born_walking (binary_born op left right hs nofun)) h
  | compare op left right => exact ask_walks (compareBy_walking op left right) h
  | subscript r index => exact ask_walks (attemptRef_walking (subscript_traced r index)) h
  | assignItem r index item =>
    refine act_walks ?_ h
    simp only [Session.assignItem, Turn.ends_bind, Turn.ends_pure]
    exact attempt_walking (assignItem_traced hs id (fun _ _ _ => id)
      (fun _ _ _ _ _ => ⟨id, id⟩) index item hl nofun (hp.seen (Bool.and_eq_true_iff.mp hq).2))
  | deleteItem r index =>
    refine act_walks ?_ h
    simp only [Session.deleteItem, Turn.ends_bind, Turn.ends_pure]
    exact attempt_walking (deleteItem_traced hs id (fun _ _ _ => id)
      (fun _ _ _ _ _ => ⟨id, id⟩) index)
  | call name args room =>
    have hcalls : (Command.call name args room).callsCollector = false := hno
    simp only [Program.serve, hcalls, Bool.false_eq_true, if_false] at h
    exact ask_walks (Turn.ends_map.mpr (call_walking hs.consistent args room hcalls)) h
  | collect => cases hno

end Program
end CountedHeap
