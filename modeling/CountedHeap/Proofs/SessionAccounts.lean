import CountedHeap.Proofs.Bindings
import CountedHeap.Proofs.OperatorAccounts
import CountedHeap.Proofs.Programs

/-!
The ledger of a session. The bindings own their values and the program owns what it was answered;
a collection leaves the bindings as the only owners. Scalars that are bound outlast every turn that
does not take their binding away.
-/

namespace CountedHeap

theorem gained_append {r : Reference} {owned others : List Reference} :
    gained r (owned ++ others) = gained r owned ++ others := by
  unfold gained
  split <;> rfl

namespace Globals

structure Proper (g : Globals) : Prop where
  distinct : g.Distinct
  live : ∀ b ∈ g, b.2.isLive = true

variable {g : Globals} {name : String} {value : Reference}

theorem proper_nil : Proper [] := ⟨List.nodup_nil, nofun⟩

theorem Proper.remove (hg : g.Proper) : (g.remove name).Proper :=
  ⟨hg.distinct.remove, fun b hb => hg.live b (mem_remove.mp hb).1⟩

theorem Proper.put (hg : g.Proper) (hvalue : value.isLive = true) : (g.put name value).Proper := by
  refine ⟨hg.distinct.put, fun b hb => ?_⟩
  unfold Globals.put at hb
  split at hb
  · obtain ⟨b', hb', rfl⟩ := List.mem_map.mp hb
    split
    · exact hvalue
    · exact hg.live b' hb'
  · rcases List.mem_append.mp hb with hb | hb
    · exact hg.live b hb
    · rw [List.mem_singleton.mp hb]
      exact hvalue

end Globals

def Store.bound (s : Store) (g : Globals) : Store := fun r =>
  if r ∈ g.references then (s r).filter (·.content.hash?.isSome) else none

namespace Store

variable {s : Store} {g : Globals} {r : Reference} {x : Content}

theorem bound_eq_some : (s.bound g).content r = some x ↔
    r ∈ g.references ∧ s.content r = some x ∧ x.hash? ≠ none := by
  simp only [content_eq_some, bound]
  split
  case isTrue hr =>
    simp only [Option.filter_eq_some_iff, hr, true_and]
    constructor
    · rintro ⟨c, ⟨hc, hsome⟩, rfl⟩
      exact ⟨⟨c, hc, rfl⟩, Option.isSome_iff_ne_none.mp hsome⟩
    · rintro ⟨⟨c, hc, rfl⟩, hsome⟩
      exact ⟨c, ⟨hc, Option.isSome_iff_ne_none.mpr hsome⟩, rfl⟩
  case isFalse hr => simp [hr]

theorem anchored_bound : Heap.Anchored s (s.bound g) g.references :=
  ⟨fun _ _ hx => (bound_eq_some.mp hx).2.1, fun hx => (bound_eq_some.mp hx).2.2,
    fun hx => (bound_eq_some.mp hx).1⟩

theorem Ledger.drop {arrays owned : List Reference} (hl : s.Ledger arrays (r :: owned))
    (hr : r.isLive = false) : s.Ledger arrays owned := by
  refine ⟨⟨hl.plain, fun q hq => hl.visible q (List.mem_cons_of_mem r hq), hl.blank, hl.lists,
    hl.dicts⟩, hl.live, hl.exact.of_eq rfl rfl fun q hq => ?_, hl.positive, hl.single⟩
  rw [List.count_append, List.count_append, count_owner, count_singleton_of_dead hq hr]
  omega

end Store

namespace Heap

theorem Balanced.gained {h : Heap} {kept : Store} {arrays owned : List Reference} {r : Reference}
    (hb : h.Balanced kept arrays (r :: owned)) : h.Balanced kept arrays (gained r owned) := by
  unfold CountedHeap.gained
  split
  case isTrue => exact hb
  case isFalse hr =>
    obtain ⟨s, hs, hl, hk⟩ := hb
    exact hs.balanced (hl.drop (Bool.not_eq_true _ ▸ hr)) hk

end Heap

namespace Session

open Heap

structure Became (s : Session) (kept : Store) (owned : List Reference) (s' : Session) : Prop where
  balanced : s'.heap.Balanced kept [] (owned ++ s.globals.references)
  globals : s'.globals = s.globals
  noneRef : s'.noneRef = s.noneRef
  trueRef : s'.trueRef = s.trueRef
  falseRef : s'.falseRef = s.falseRef

variable {s s' : Session} {st kept : Store} {owned : List Reference} {r : Reference}

theorem became {h : Heap} {pending : Pending}
    (hb : h.Balanced kept [] (owned ++ s.globals.references)) :
    s.Became kept owned { s with heap := h, pending } := ⟨hb, rfl, rfl, rfl, rfl⟩

theorem became_gained {h : Heap} {pending : Pending}
    (hb : h.Balanced kept [] (r :: (owned ++ s.globals.references))) :
    s.Became kept (gained r owned) { s with heap := h, pending } :=
  became (gained_append ▸ hb.gained)

def Answers (x : Turn Reference) (s : Session) (kept : Store) (owned : List Reference) : Prop :=
  x.Ends s fun r s' => s.Became kept (gained r owned) s'

theorem Answers.of_owns {x : Action Failure Reference}
    (hx : Owns x s.heap kept [] (owned ++ s.globals.references)) :
    Answers (attemptRef (onHeap x)) s kept owned := by
  rw [Answers, Turn.ends_attemptRef, Turn.ends_onHeap]
  exact hx.imp (fun _ _ hb => became_gained hb) fun _ _ hb => became hb

theorem Answers.of_memory {x : Action OutOfMemory Reference}
    (hx : Owns x s.heap kept [] (owned ++ s.globals.references)) :
    Answers (attemptRef (onHeap (liftM x))) s kept owned := .of_owns hx.ofMemory

theorem Became.ledger (hb : s.Became kept owned s') : ∃ st', s'.heap.Sound st' ∧
    st'.Ledger [] (owned ++ s'.globals.references) ∧ st'.Fewer kept := by
  rw [hb.globals]
  exact hb.balanced

theorem Became.raised {pending : Pending} (hb : s.Became kept owned s') :
    s.Became kept owned { s' with pending } := ⟨hb.1, hb.2, hb.3, hb.4, hb.5⟩

theorem Became.trans {s'' : Session} {owned' : List Reference} (h₁ : s.Became kept owned s')
    (h₂ : s'.Became kept owned' s'') : s.Became kept owned' s'' :=
  ⟨h₁.globals ▸ h₂.balanced, h₂.globals.trans h₁.globals, h₂.noneRef.trans h₁.noneRef,
    h₂.trueRef.trans h₁.trueRef, h₂.falseRef.trans h₁.falseRef⟩

theorem attempt_became {α : Type} {x : Action Failure α}
    (hx : Settles x s.heap kept [] (owned ++ s.globals.references)) :
    (attempt (onHeap x)).Ends s fun _ s' => s.Became kept owned s' := by
  rw [Turn.ends_attempt, Turn.ends_onHeap]
  exact hx.imp (fun _ _ hb => became hb) fun _ _ hb => became hb

section Reading

variable (hs : s.heap.Sound st) (hl : st.Ledger [] (owned ++ s.globals.references))
  (hk : st.Fewer kept)

include hs hl hk

theorem retained_answers (hr : r ∈ s.globals.references) : Answers (retained r) s kept owned := by
  simp only [Answers, retained, Turn.ends_bind, Turn.ends_updateHeap, Turn.ends_pure]
  exact fun h hret => became_gained
    (hs.retained hl hk (hl.visible r (List.mem_append_right owned hr)) hret)

theorem boolRetained_answers (htrue : s.trueRef ∈ s.globals.references)
    (hfalse : s.falseRef ∈ s.globals.references) (b : Bool) :
    Answers (boolRetained b) s kept owned := by
  simp only [Answers, boolRetained, Turn.ends_bind, Turn.ends_get]
  refine retained_answers hs hl hk ?_
  cases b with
  | true => exact htrue
  | false => exact hfalse

theorem noneRetained_answers (hnone : s.noneRef ∈ s.globals.references) :
    Answers noneRetained s kept owned := by
  simp only [Answers, noneRetained, Turn.ends_bind, Turn.ends_get]
  exact retained_answers hs hl hk hnone

theorem compareBy_answers (htrue : s.trueRef ∈ s.globals.references)
    (hfalse : s.falseRef ∈ s.globals.references) (op : Comparison) (left right : Reference) :
    Answers (compareBy op left right) s kept owned := by
  simp only [Answers, compareBy, Turn.ends_bind, Turn.ends_attempt, Turn.ends_onHeap,
    Action.ends_ask, Turn.ends_pure]
  exact ⟨fun b _ => boolRetained_answers hs hl hk htrue hfalse b,
    fun _ _ => became (hs.balanced hl hk)⟩

end Reading

theorem collect_became (hs : s.heap.Sound st)
    (hl : st.Ledger [] (owned ++ s.globals.references))
    (hk : Anchored st kept s.globals.references) :
    collect.Ends s fun a s' => ∀ col, a = .ok col → s.Became kept [] s' := by
  simp only [collect, Turn.ends_bind, Turn.ends_get, Turn.ends_onHeap, Action.ends_mapError]
  refine (hs.collect _).imp ?_ fun _ _ _ _ hcol => by cases hcol
  rintro col h' ⟨st', hc⟩ _ -
  have hvisible : ∀ q ∈ s.globals.references, ¬st.IsArray q := fun q hq =>
    hl.visible q (List.mem_append_right owned hq)
  refine became (hc.sound.balanced (hc.ledger hl hvisible hvisible fun _ _ => rfl) fun q x hx => ?_)
  have hcontent := hk.fewer q x hx
  obtain ⟨c, hq⟩ := (hc.reached q).mpr (.root (hk.owner hx) (hl.live hcontent))
  have hsame := hc.content q c hq
  rw [hcontent, Option.some_inj] at hsame
  rw [Store.content_of hq, hsame]

section Calling

variable (hs : s.heap.Sound st) (hl : st.Ledger [] (owned ++ s.globals.references))
  (hk : Anchored st kept s.globals.references) (hnone : s.noneRef ∈ s.globals.references)
  (htrue : s.trueRef ∈ s.globals.references) (hfalse : s.falseRef ∈ s.globals.references)

include hs hl hk hnone

def AnswerOwned (s : Session) (kept : Store) (owned : List Reference) (a : Answer)
    (s' : Session) : Prop :=
  match a.result with
  | .ok r => s.Became kept (gained r owned) s'
  | .error _ => s.Became kept owned s'

theorem answerNone_owned (out : Printed) :
    (answerNone out).Ends s (AnswerOwned s kept owned) := by
  simp only [answerNone, Turn.ends_ite, Turn.ends_bind, Turn.ends_pure, AnswerOwned]
  exact ⟨fun _ => noneRetained_answers hs hl hk.fewer hnone,
    fun _ => became (hs.balanced hl hk.fewer)⟩

theorem collector_owned (name : String) (room : Option Nat) :
    (callBuiltin .gc name [] room).Ends s fun a s' =>
      ∀ r, a.result = .ok r → s.Became kept (gained r []) s' := by
  simp only [callBuiltin, Turn.ends_bind]
  refine (collect_became hs hl hk).imp fun a s' hb => ?_
  cases a with
  | error e => exact Turn.ends_pure.mpr fun _ hr => by cases hr
  | ok col =>
    have hb := hb col rfl
    obtain ⟨st', hs', hl', hk'⟩ := hb.ledger
    simp only [Turn.ends_bind, Turn.ends_pure]
    refine (noneRetained_answers hs' hl' hk' ?_).imp fun a s'' hb' r hr => ?_
    · rw [hb.noneRef, hb.globals]
      exact hnone
    · cases hr
      exact hb.trans hb'

include htrue hfalse

theorem builtin_owned (b : Builtin) (name : String) (args : List Reference) (room : Option Nat)
    (hb : ¬(b = .gc ∧ args = [])) :
    (callBuiltin b name args room).Ends s (AnswerOwned s kept owned) := by
  have hstays : s.Became kept owned s := became (hs.balanced hl hk.fewer)
  have hnoted (out : Printed) := answerNone_owned hs hl hk hnone out
  unfold callBuiltin
  split
  · simp only [Turn.ends_bind, Turn.ends_readHeap]
    exact fun out _ => hnoted out
  · exact absurd ⟨rfl, rfl⟩ hb
  · simp only [Turn.ends_bind, Turn.ends_onHeap, Action.ends_ask, Turn.ends_pure]
    refine ⟨fun n _ => ?_, fun _ _ => hstays⟩
    exact (makeInteger_owns hs hl hk.fewer _).ofMemory.imp (fun _ _ hb => became_gained hb)
      fun _ _ hb => became hb
  · simp only [Turn.ends_bind, truthy, Turn.ends_readHeap, Turn.ends_pure]
    exact fun b _ => boolRetained_answers hs hl hk.fewer htrue hfalse b
  · simp only [Turn.ends_bind, Turn.ends_readHeap]
    exact fun out _ => hnoted out
  all_goals exact Turn.ends_pure.mpr hstays

theorem call_became (name : String) (args : List Reference) (room : Option Nat) :
    (call name args room).Ends s fun a s' =>
      if (Command.call name args room).callsCollector then
        a.1.isLive = true → s.Became kept (gained a.1 []) s'
      else s.Became kept (gained a.1 owned) s' := by
  have hstays : s.Became kept owned s := became (hs.balanced hl hk.fewer)
  have hanswer {x : Turn Answer} (hx : x.Ends s (AnswerOwned s kept owned)) :
      (do let a ← x; return (← attemptRef (pure a.result), a.written) : Turn _).Ends s
        fun a s' => s.Became kept (gained a.1 owned) s' := by
    simp only [Turn.ends_bind, Turn.ends_attemptRef, Turn.ends_pure]
    refine hx.imp fun a s' ha => ?_
    cases hr : a.result with
    | ok r =>
      rw [AnswerOwned, hr] at ha
      exact ha
    | error e =>
      rw [AnswerOwned, hr] at ha
      exact Became.raised ha
  have hcalls : (Command.call name args room).callsCollector =
      (Builtin.ofName? name == some .gc && args.isEmpty) := rfl
  rw [hcalls]
  unfold call
  split
  case h_1 b hname =>
    rw [hname]
    by_cases hgc : b = .gc ∧ args = []
    · obtain ⟨rfl, rfl⟩ := hgc
      show (do let a ← callBuiltin .gc name [] room
               return (← attemptRef (pure a.result), a.written) : Turn _).Ends s _
      simp only [Turn.ends_bind, Turn.ends_attemptRef, Turn.ends_pure]
      refine (collector_owned hs hl hk hnone name room).imp fun a s' ha => ?_
      split
      case h_1 r hr => exact fun _ => ha r hr
      case h_2 => exact fun hlive => by cases hlive
    · have hnot : ¬(some b == some Builtin.gc && args.isEmpty) = true := by
        simpa using hgc
      simp only [if_neg hnot]
      exact hanswer (builtin_owned hs hl hk hnone htrue hfalse b name args room hgc)
  case h_2 hname =>
    rw [hname]
    exact hanswer (Turn.ends_pure.mpr hstays)

end Calling

structure Carries (s : Session) (kept : Store) (owned : List Reference) (g : Globals)
    (s' : Session) : Prop where
  balanced : s'.heap.Balanced kept [] (owned ++ s'.globals.references)
  proper : s'.globals.Proper
  subset : g ⊆ s'.globals
  noneRef : s'.noneRef = s.noneRef
  trueRef : s'.trueRef = s.trueRef
  falseRef : s'.falseRef = s.falseRef

theorem Became.carries (hb : s.Became kept owned s') (hg : s.globals.Proper) :
    s.Carries kept owned s.globals s' :=
  ⟨hb.globals ▸ hb.balanced, hb.globals ▸ hg, hb.globals ▸ List.Subset.refl _, hb.noneRef,
    hb.trueRef, hb.falseRef⟩

theorem Carries.mono {g g' : Globals} (hc : s.Carries kept owned g s') (hsub : g' ⊆ g) :
    s.Carries kept owned g' s' :=
  ⟨hc.balanced, hc.proper, List.Subset.trans hsub hc.subset, hc.noneRef, hc.trueRef, hc.falseRef⟩

section Spending

variable {g : Globals} {name : String} {value : Reference}

theorem released_became (hs : s.heap.Sound st)
    (hl : st.Ledger [] (r :: (owned ++ s.globals.references)))
    (hk : Anchored st kept s.globals.references) {h : Heap} (hrel : s.heap.release r = .ok h) :
    s.Became kept owned { s with heap := h } :=
  became (hs.released hl (hk.mono (List.subset_append_right ..)) hrel)

theorem release_became (hs : s.heap.Sound st)
    (hl : st.Ledger [] (r :: (owned ++ s.globals.references)))
    (hk : Anchored st kept s.globals.references) :
    (release r).Ends s fun _ s' => s.Became kept owned s' := by
  simp only [release, Turn.ends_ite, Turn.ends_updateHeap, Turn.ends_pure]
  refine ⟨fun _ h hrel => released_became hs hl hk hrel, fun hr => ?_⟩
  exact became (hs.balanced (hl.drop (Bool.not_eq_true _ ▸ hr)) hk.fewer)

theorem handOver_carries (hs : s.heap.Sound st)
    (hl : st.Ledger [] (value :: owned ++ s.globals.references))
    (hk : Anchored st kept (value :: owned ++ (s.globals.remove name).references))
    (hg : s.globals.Proper) (h : s.handOver name value = .ok s') :
    s.Carries kept owned ((name, value) :: s.globals.remove name) s' := by
  simp only [handOver, bind_eq_ok, pure_eq_ok, Prod.exists] at h
  obtain ⟨g', h₁, hbind, h₂, hrel, rfl⟩ := h
  have hput := Globals.bind_eq_put hbind
  obtain ⟨-, st₁, hs₁, hl₁, hk₁⟩ :=
    bind_balanced hs hl hk hg.distinct (hl.visible value List.mem_cons_self) hbind
  subst hput
  have hlive : value.isLive = true := by
    obtain ⟨h', hret⟩ := Globals.retain_of_bind hbind
    obtain ⟨c, hc, -⟩ := hs.retain_eq hret
    exact hs.isLive hc
  have hsubset : (name, value) :: s.globals.remove name ⊆ s.globals.put name value :=
    List.cons_subset.mpr ⟨Globals.mem_put, Globals.remove_subset_put⟩
  have hk₂ : Anchored st₁ kept (owned ++ (s.globals.put name value).references) := by
    refine (hk.of_fewer hk₁).mono (List.cons_subset.mpr ⟨?_, List.append_subset.mpr ⟨?_, ?_⟩⟩)
    · exact List.mem_append_right _ (Globals.mem_references Globals.mem_put)
    · exact List.subset_append_left ..
    · exact fun q hq => List.mem_append_right _ (List.map_subset _ Globals.remove_subset_put hq)
  exact ⟨hs₁.released hl₁ hk₂ hrel, hg.put hlive, hsubset, rfl, rfl, rfl⟩

theorem assign_carries (hs : s.heap.Sound st)
    (hl : st.Ledger [] (value :: (owned ++ s.globals.references)))
    (hk : Anchored st kept ((Command.assign name value).binds s.globals).references)
    (hg : s.globals.Proper) :
    (assign name value).Ends s fun _ s' =>
      s.Carries kept owned ((Command.assign name value).binds s.globals) s' := by
  simp only [Command.binds] at hk ⊢
  unfold assign
  split
  case isTrue hname =>
    rw [if_pos hname] at hk
    simp only [Turn.ends_bind, Turn.ends_updateHeap, Turn.ends_raise]
    exact fun h hrel => (released_became hs hl hk hrel).raised.carries hg
  case isFalse hname =>
    rw [if_neg hname] at hk
    intro _ s' h
    simp only [bind_eq_ok, pure_eq_ok] at h
    obtain ⟨s'', h, hs'⟩ := h
    cases hs'
    have hk' := hk.mono (List.cons_subset_cons value (List.subset_append_right owned _))
    exact handOver_carries hs hl hk' hg h

theorem unbind_carries (hs : s.heap.Sound st)
    (hl : st.Ledger [] (owned ++ s.globals.references))
    (hk : Anchored st kept ((Command.unbind name).binds s.globals).references)
    (hg : s.globals.Proper) :
    (unbind name).Ends s fun _ s' =>
      s.Carries kept owned ((Command.unbind name).binds s.globals) s' := by
  simp only [Command.binds] at hk ⊢
  unfold unbind
  split
  case isTrue =>
    rw [Turn.ends_raise]
    exact (became (hs.balanced hl hk.fewer)).carries hg
  case isFalse hname =>
    rw [if_neg hname] at hk
    simp only [Turn.ends_bind, Turn.ends_get, Turn.ends_attempt, Turn.ends_onHeap]
    refine (delete_balanced hs hl (hk.mono (List.subset_append_right ..)) hg.distinct).imp ?_ ?_
    · rintro g h ⟨rfl, hb⟩
      rw [Turn.ends_modify]
      exact ⟨hb, hg.remove, List.Subset.refl _, rfl, rfl, rfl⟩
    · intro _ h hb
      exact Turn.ends_pure.mpr (((became hb).carries hg).mono (List.filter_subset_self _))

end Spending

end Session
end CountedHeap
