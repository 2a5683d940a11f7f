import CountedHeap.Proofs.SessionAccounts
import CountedHeap.Proofs.Shapes

/-!
Bindings that do not dangle. As long as a program gives nothing back that a collection has passed
over, what is bound is there, and the singletons are what their names say.
-/

namespace CountedHeap

theorem append_subset_append {α : Type} {front back back' : List α} (h : back ⊆ back') :
    front ++ back ⊆ front ++ back' :=
  List.append_subset.mpr ⟨List.subset_append_left .., List.subset_append_of_subset_right _ h⟩

namespace Globals

def beside (g others : Globals) : Globals := g.filter fun b => !(others.map Prod.fst).contains b.1

theorem mem_beside {g others : Globals} {b : String × Reference} :
    b ∈ g.beside others ↔ b ∈ g ∧ b.1 ∉ others.map Prod.fst := by
  simp [beside]

end Globals

namespace Command

variable {g : Globals} {q : Command}

theorem mem_binds {b : String × Reference} (hb : b ∈ g)
    (hname : Session.singletons.contains b.1 = true) : b ∈ q.binds g := by
  have hremove {name : String} (hnot : ¬Session.singletons.contains name = true) :
      b ∈ g.remove name := Globals.mem_remove.mpr ⟨hb, fun heq => hnot (heq ▸ hname)⟩
  cases q with
  | assign name value =>
    simp only [binds]
    split
    case isTrue => exact hb
    case isFalse hnot => exact List.mem_cons_of_mem _ (hremove hnot)
  | unbind name =>
    simp only [binds]
    split
    case isTrue => exact hb
    case isFalse hnot => exact hremove hnot
  | _ => exact hb

end Command

namespace Session

/-- What is bound is there for a lookup, and the singletons are what their names say. -/
structure Bound (s : Session) : Prop where
  shows : ∀ b ∈ s.globals, s.heap.Shows b.2
  lookup : ∀ b ∈ s.globals, ∃ n, s.heap.refcount b.2 = .ok n ∧
    (n + 1 < Word.limit → ∃ s', lookup b.1 s = .ok (b.2, s'))
  none : ("None", s.noneRef) ∈ s.globals ∧ s.heap.contents s.noneRef = .ok .none
  yes : ("True", s.trueRef) ∈ s.globals ∧ s.heap.contents s.trueRef = .ok (.bool true)
  no : ("False", s.falseRef) ∈ s.globals ∧ s.heap.contents s.falseRef = .ok (.bool false)

theorem lookup_eq {s : Session} {name : String} {r : Reference} {h : Heap}
    (hf : s.globals.find? name = some r) (hret : s.heap.retain r = .ok h) :
    Session.lookup name s = .ok (r, { s with heap := h }) := by
  have hget : (s.globals.get name).runOn s.heap = .ok (.ok r, h) := by
    simp only [Globals.get, hf]
    show ((do return (.ok (), ← s.heap.retain r) : Except Fault (Except Failure Unit × Heap)) >>=
      fun p => _) = _
    rw [hret]
    rfl
  have hturn : onHeap (s.globals.get name) s = .ok (.ok r, { s with heap := h }) := by
    rw [onHeap, hget]
    rfl
  show (onHeap (s.globals.get name) s >>= fun p => _) >>= (fun p => _) = _
  rw [hturn]
  rfl

end Session

namespace Program

open Heap Session

structure InOrder (p : Program) (st : Store) : Prop where
  sound : p.session.heap.Sound st
  ledger : st.Ledger [] (p.fresh ++ p.session.globals.references)
  proper : p.session.globals.Proper
  none : ("None", p.session.noneRef) ∈ p.session.globals ∧
    st.content p.session.noneRef = some .none
  yes : ("True", p.session.trueRef) ∈ p.session.globals ∧
    st.content p.session.trueRef = some (.bool true)
  no : ("False", p.session.falseRef) ∈ p.session.globals ∧
    st.content p.session.falseRef = some (.bool false)

def Stands (st : Store) (g : Globals) (p : Program) : Prop :=
  ∃ st', p.InOrder st' ∧ st'.Fewer (st.bound g) ∧ g ⊆ p.session.globals

variable {p p' : Program} {st : Store} {q : Command} {s' : Session} {r value : Reference}
  {name : String} {owned stale : List Reference}

namespace InOrder

theorem seen (hp : p.InOrder st) (hr : p.client.sees r = true) : Seen st r :=
  Client.seen_of_sees (c := p.client) hp.sound hr

theorem stands_of_carries (hp : p.InOrder st)
    (hc : p.session.Carries (st.bound (q.binds p.session.globals)) owned
      (q.binds p.session.globals) s') :
    Stands st (q.binds p.session.globals) ⟨s', owned, stale⟩ := by
  obtain ⟨st', hs', hl', hk'⟩ := hc.balanced
  have hkept {name : String} {r : Reference} {x : Content}
      (hb : (name, r) ∈ p.session.globals ∧ st.content r = some x)
      (hname : singletons.contains name = true) (hx : x.hash? ≠ Option.none) :
      (name, r) ∈ s'.globals ∧ st'.content r = some x := by
    have hleft : (name, r) ∈ q.binds p.session.globals := Command.mem_binds hb.1 hname
    exact ⟨hc.subset hleft, hk' _ _ (Store.bound_eq_some.mpr
      ⟨Globals.mem_references hleft, hb.2, hx⟩)⟩
  refine ⟨st', ⟨hs', hl', hc.proper, ?_, ?_, ?_⟩, hk', hc.subset⟩
  · rw [hc.noneRef]
    exact hkept hp.none rfl (Option.some_ne_none _)
  · rw [hc.trueRef]
    exact hkept hp.yes rfl (Option.some_ne_none _)
  · rw [hc.falseRef]
    exact hkept hp.no rfl (Option.some_ne_none _)

theorem of_carries (hp : p.InOrder st)
    (hc : p.session.Carries (st.bound p.session.globals) owned p.session.globals s') :
    Stands st p.session.globals ⟨s', owned, stale⟩ := hp.stands_of_carries (q := .none) hc

theorem ask (hp : p.InOrder st) {x : Turn Reference}
    (hx : Answers x p.session (st.bound p.session.globals) p.fresh)
    (h : p.ask x = .ok (some p')) : Stands st p.session.globals p' := by
  obtain ⟨r, session, hrun, rfl⟩ := ask_eq_some.mp h
  exact hp.of_carries ((hx r session hrun).carries hp.proper)

theorem act_carries (hp : p.InOrder st) {α : Type} {x : Turn α}
    (hx : x.Ends p.session fun _ s' =>
      p.session.Carries (st.bound (q.binds p.session.globals)) owned (q.binds p.session.globals) s')
    (h : Program.act ⟨p.session, owned, stale⟩ x = .ok (some p')) :
    Stands st (q.binds p.session.globals) p' := by
  obtain ⟨a, session, hrun, rfl⟩ := act_eq_some.mp h
  exact hp.stands_of_carries (hx a session hrun)

theorem act (hp : p.InOrder st) {α : Type} {x : Turn α}
    (hx : x.Ends p.session fun _ s' => p.session.Became (st.bound p.session.globals) owned s')
    (h : Program.act ⟨p.session, owned, stale⟩ x = .ok (some p')) :
    Stands st p.session.globals p' := by
  obtain ⟨a, session, hrun, rfl⟩ := act_eq_some.mp h
  exact hp.of_carries ((hx a session hrun).carries hp.proper)

theorem spend (hp : p.InOrder st) (hr : r ∈ p.fresh) :
    p.spend r = { p with fresh := p.fresh.erase r } ∧
      st.Ledger [] (r :: (p.fresh.erase r ++ p.session.globals.references)) := by
  refine ⟨if_pos (List.contains_iff_mem.mpr hr), hp.ledger.perm ?_⟩
  exact (List.perm_cons_erase hr).append_right _

theorem serve (hp : p.InOrder st) (hq : p.prudent q = true) (h : p.serve q = .ok (some p')) :
    Stands st (q.binds p.session.globals) p' := by
  have hs := hp.sound
  have hl := hp.ledger
  have hk : Anchored st (st.bound p.session.globals) p.session.globals.references :=
    Store.anchored_bound
  have hk' : Anchored st (st.bound p.session.globals)
      (p.fresh ++ p.session.globals.references) := hk.mono (List.subset_append_right ..)
  have hf := hk.fewer
  have hnone := Globals.mem_references hp.none.1
  have htrue := Globals.mem_references hp.yes.1
  have hfalse := Globals.mem_references hp.no.1
  cases q with
  | none => exact hp.ask (noneRetained_answers hs hl hf hnone) h
  | bool b => exact hp.ask (boolRetained_answers hs hl hf htrue hfalse b) h
  | integer n => exact hp.ask (.of_memory (makeInteger_owns hs hl hf n)) h
  | string bytes => exact hp.ask (.of_memory (makeString_owns hs hl hf bytes)) h
  | list elements =>
    exact hp.ask (.of_memory (newList_balanced hs hl hf fun r hr =>
      hp.seen (List.all_eq_true.mp hq r hr))) h
  | dict pairs =>
    exact hp.ask (.of_owns (newDict_balanced hs hl hf fun e he =>
      hp.seen (Bool.and_eq_true_iff.mp (List.all_eq_true.mp hq e he)).2)) h
  | release r =>
    obtain ⟨hspent, hl'⟩ := hp.spend (List.contains_iff_mem.mp hq)
    rw [Program.serve, hspent] at h
    exact hp.act (release_became hs hl' hk) h
  | assign name value =>
    have hfresh := (Bool.and_eq_true_iff.mp hq).1
    obtain ⟨hspent, hl'⟩ := hp.spend (List.contains_iff_mem.mp hfresh)
    rw [Program.serve, hspent] at h
    exact hp.act_carries (assign_carries hs hl' Store.anchored_bound hp.proper) h
  | lookup name =>
    refine hp.ask ?_ h
    simp only [Answers, Session.lookup, Turn.ends_bind, Turn.ends_get]
    exact Answers.of_owns (get_balanced hs hl hf)
  | unbind name => exact hp.act_carries (unbind_carries hs hl Store.anchored_bound hp.proper) h
  | truthy r =>
    refine hp.act ?_ h
    rw [Session.truthy, Turn.ends_readHeap]
    exact fun _ _ => became (hs.balanced hl hf)
  | unary op r => exact hp.ask (.of_owns (unary_owns hs hl hk' op r)) h
  | binary op left right => exact hp.ask (.of_owns (binary_owns hs hl hk' op left right)) h
  | compare op left right =>
    exact hp.ask (compareBy_answers hs hl hf htrue hfalse op left right) h
  | subscript r index => exact hp.ask (.of_owns (subscript_owns hs hl hk' r index)) h
  | assignItem r index item =>
    refine hp.act ?_ h
    simp only [Session.assignItem, Turn.ends_bind, Turn.ends_pure]
    exact attempt_became (assignItem_settles hs hl hk' r index
      (hp.seen (Bool.and_eq_true_iff.mp hq).2))
  | deleteItem r index =>
    refine hp.act ?_ h
    simp only [Session.deleteItem, Turn.ends_bind, Turn.ends_pure]
    exact attempt_became (deleteItem_settles hs hl hk' r index)
  | call name args room =>
    have hcall := call_became hs hl hk hnone htrue hfalse name args room
    simp only [Program.serve] at h
    split at h
    case isTrue hcalls =>
      simp only [hcalls, if_true] at hcall
      simp only [bind_eq_ok, pure_eq_ok, Prod.exists] at h
      obtain ⟨r, text, session, hrun, h⟩ := h
      split at h
      case isTrue hlive =>
        cases h
        have hb := hcall _ session hrun hlive
        rw [gained, if_pos hlive] at hb
        exact hp.of_carries (hb.carries hp.proper)
      case isFalse => cases h
    case isFalse hcalls =>
      simp only [if_neg hcalls] at hcall
      exact hp.ask (Turn.ends_map.mpr hcall) h
  | collect =>
    simp only [Program.serve, bind_eq_ok, Prod.exists] at h
    obtain ⟨a, session, hrun, h⟩ := h
    cases a with
    | error e => cases h
    | ok col =>
      cases h
      exact hp.of_carries ((collect_became hs hl hk _ session hrun col rfl).carries hp.proper)

end InOrder

section Starting

variable {h h' : Heap} {n t f : Reference} {x : Content}

theorem scalar_made (hm : h.Made st r x) (hl : st.Ledger [] owned) (hx : x.hash? ≠ Option.none) :
    ∃ st', h.Sound st' ∧ st'.Ledger [] (r :: owned) ∧ st'.content r = some x ∧ st'.Fewer st := by
  obtain ⟨hnone, st', hs', hcontent, hcount⟩ := hm.tells
  exact ⟨st', hs', hl.makeScalar hnone hm.live hcontent hcount hx,
    by rw [hcontent, Function.update_self], (Store.Fewer.refl st).update hnone hcontent⟩

theorem makeSingletons_ends (hs : h.Sound st) (hl : st.Ledger [] []) :
    makeSingletons.Ends h
      (fun p h' => ∃ st', h'.Sound st' ∧ st'.Ledger [] [p.2.2, p.2.1, p.1] ∧
        st'.content p.1 = some .none ∧ st'.content p.2.1 = some (.bool true) ∧
          st'.content p.2.2 = some (.bool false))
      fun _ _ => True := by
  simp only [makeSingletons, Action.ends_bind, Action.ends_pure]
  refine hs.makeNone.imp (fun n h₁ hm₁ => ?_) fun _ _ _ => trivial
  obtain ⟨st₁, hs₁, hl₁, hn₁, -⟩ := scalar_made hm₁ hl (Option.some_ne_none _)
  refine (hs₁.makeBool true).imp (fun t h₂ hm₂ => ?_) fun _ _ _ => trivial
  obtain ⟨st₂, hs₂, hl₂, ht₂, hf₂⟩ := scalar_made hm₂ hl₁ (Option.some_ne_none _)
  refine (hs₂.makeBool false).imp (fun f h₃ hm₃ => ?_) fun _ _ _ => trivial
  obtain ⟨st₃, hs₃, hl₃, hf₃, hfewer⟩ := scalar_made hm₃ hl₂ (Option.some_ne_none _)
  exact ⟨st₃, hs₃, hl₃, hfewer _ _ (hf₂ _ _ hn₁), hfewer _ _ ht₂, hf₃⟩

theorem handOvers_carries {s s' : Session} {kept : Store} {bindings : Globals}
    (hs : s.heap.Sound st) (hl : st.Ledger [] (bindings.references ++ s.globals.references))
    (hk : Anchored st kept (bindings.references ++ (s.globals.beside bindings).references))
    (hg : s.globals.Proper) (hdistinct : bindings.Distinct)
    (h : bindings.foldlM (fun s b => s.handOver b.1 b.2) s = .ok s') :
    s.Carries kept [] (bindings ++ s.globals.beside bindings) s' := by
  induction bindings generalizing s st with
  | nil =>
    cases h
    exact ⟨hs.balanced hl hk.fewer, hg, List.filter_subset_self _, rfl, rfl, rfl⟩
  | cons b rest ih =>
    obtain ⟨hfirst, hrest⟩ := List.nodup_cons.mp hdistinct
    simp only [List.foldlM_cons, bind_eq_ok] at h
    obtain ⟨s₁, h₁, h⟩ := h
    have hremove : s.globals.beside (b :: rest) ⊆ s.globals.remove b.1 := by
      intro c hc
      obtain ⟨hc, hother⟩ := Globals.mem_beside.mp hc
      exact Globals.mem_remove.mpr ⟨hc, fun heq => hother (heq ▸ List.mem_cons_self)⟩
    have hk₀ : Anchored st kept
        (b.2 :: Globals.references rest ++ (s.globals.remove b.1).references) :=
      hk.mono (append_subset_append (List.map_subset _ hremove))
    have hc₁ := handOver_carries hs hl hk₀ hg h₁
    obtain ⟨st₁, hs₁, hl₁, hk₁⟩ := hc₁.balanced
    have hbeside : b :: s.globals.beside (b :: rest) ⊆ s₁.globals.beside rest := by
      refine List.cons_subset.mpr ⟨Globals.mem_beside.mpr ⟨hc₁.subset List.mem_cons_self, hfirst⟩,
        fun c hc => ?_⟩
      have hother := (Globals.mem_beside.mp hc).2
      exact Globals.mem_beside.mpr ⟨hc₁.subset (List.mem_cons_of_mem _ (hremove hc)),
        fun hmem => hother (List.mem_cons_of_mem _ hmem)⟩
    have hk' : Anchored st₁ kept
        (Globals.references rest ++ (s₁.globals.beside rest).references) :=
      ((hk.of_fewer hk₁).mono List.perm_middle.symm.subset).mono
        (append_subset_append (List.map_subset _ hbeside))
    have hc := ih hs₁ hl₁ hk' hc₁.proper hrest h
    have hsubset : b :: (rest ++ s.globals.beside (b :: rest)) ⊆ s'.globals :=
      List.Subset.trans List.perm_middle.symm.subset
        (List.Subset.trans (append_subset_append hbeside) hc.subset)
    exact ⟨hc.balanced, hc.proper, hsubset, hc.noneRef.trans hc₁.noneRef,
      hc.trueRef.trans hc₁.trueRef, hc.falseRef.trans hc₁.falseRef⟩

theorem handOvers_inOrder {s s₁ s₂ s₃ : Session} (hs : s.heap.Sound st)
    (hl : st.Ledger [] [s.falseRef, s.trueRef, s.noneRef]) (hg : s.globals = [])
    (hn : st.content s.noneRef = some .none) (ht : st.content s.trueRef = some (.bool true))
    (hf : st.content s.falseRef = some (.bool false))
    (h₁ : s.handOver "None" s.noneRef = .ok s₁) (h₂ : s₁.handOver "True" s.trueRef = .ok s₂)
    (h₃ : s₂.handOver "False" s.falseRef = .ok s₃) : ∃ st', InOrder ⟨s₃, [], []⟩ st' := by
  let g : Globals := [("None", s.noneRef), ("True", s.trueRef), ("False", s.falseRef)]
  have hl₀ : st.Ledger [] (g.references ++ s.globals.references) :=
    hg ▸ hl.perm (List.reverse_perm [s.noneRef, s.trueRef, s.falseRef])
  -- All three stand from the start, as if they were bound.
  have hk : Anchored st (st.bound g) (g.references ++ (s.globals.beside g).references) :=
    Store.anchored_bound.mono (List.subset_append_left ..)
  have hdistinct : g.Distinct := by simp [g, Globals.Distinct]
  have hfold : g.foldlM (fun s b => s.handOver b.1 b.2) s = .ok s₃ := by
    simp [g, List.foldlM_cons, h₁, h₂, h₃]
  have hc := handOvers_carries hs hl₀ hk (hg ▸ Globals.proper_nil) hdistinct hfold
  obtain ⟨st₃, hs₃, hl₃, hk₃⟩ := hc.balanced
  have hbound : g ⊆ s₃.globals := fun b hb => hc.subset (List.mem_append_left _ hb)
  have hkept {b : String × Reference} {x : Content} (hb : b ∈ g) (hx : st.content b.2 = some x)
      (hscalar : x.hash? ≠ Option.none) : b ∈ s₃.globals ∧ st₃.content b.2 = some x :=
    ⟨hbound hb, hk₃ _ _ (Store.bound_eq_some.mpr ⟨Globals.mem_references hb, hx, hscalar⟩)⟩
  refine ⟨st₃, hs₃, hl₃, hc.proper, ?_, ?_, ?_⟩
  · rw [hc.noneRef]
    exact hkept (by simp [g]) hn (Option.some_ne_none _)
  · rw [hc.trueRef]
    exact hkept (by simp [g]) ht (Option.some_ne_none _)
  · rw [hc.falseRef]
    exact hkept (by simp [g]) hf (Option.some_ne_none _)

theorem steps_of_ofConfig {config : Config} {session : Session}
    (hnew : Session.ofConfig config = .ok (.ok session)) :
    ∃ h n t f heap s₁ s₂, Heap.ofConfig config = .ok (.ok h) ∧
      makeSingletons.runOn h = .ok (.ok (n, t, f), heap) ∧
        (⟨heap, [], none, n, t, f⟩ : Session).handOver "None" n = .ok s₁ ∧
          s₁.handOver "True" t = .ok s₂ ∧ s₂.handOver "False" f = .ok session := by
  simp only [Session.ofConfig, bind_eq_ok] at hnew
  obtain ⟨a, hheap, hnew⟩ := hnew
  cases a with
  | error e => cases hnew
  | ok h =>
    simp only [bind_eq_ok, Prod.exists] at hnew
    obtain ⟨a, heap, hmake, hnew⟩ := hnew
    cases a with
    | error e => cases hnew
    | ok refs =>
      obtain ⟨n, t, f⟩ := refs
      simp only [bind_eq_ok, pure_eq_ok, Except.ok.injEq] at hnew
      obtain ⟨s₁, h₁, s₂, h₂, s₃, h₃, rfl⟩ := hnew
      exact ⟨h, n, t, f, heap, s₁, s₂, hheap, hmake, h₁, h₂, h₃⟩

theorem ofConfig_inOrder {config : Config} {session : Session}
    (hnew : Session.ofConfig config = .ok (.ok session)) :
    ∃ st, InOrder ⟨session, [], []⟩ st := by
  obtain ⟨h, n, t, f, heap, s₁, s₂, hheap, hmake, h₁, h₂, h₃⟩ := steps_of_ofConfig hnew
  obtain ⟨st, hs, hl, hn, ht, hf⟩ :=
    (makeSingletons_ends (Heap.ofConfig_sound hheap).1 .empty).good hmake
  exact handOvers_inOrder hs hl rfl hn ht hf h₁ h₂ h₃

end Starting

theorem Run.inOrder (hrun : Run prudent p) : ∃ st, p.InOrder st := by
  induction hrun with
  | start hnew => exact ofConfig_inOrder hnew
  | step _ hq hserve ih =>
    obtain ⟨st, hp⟩ := ih
    obtain ⟨st', hp', -⟩ := hp.serve hq hserve
    exact ⟨st', hp'⟩

theorem InOrder.session_bound (hp : p.InOrder st) : p.session.Bound := by
  have hs := hp.sound
  have hl := hp.ledger
  have hcell : ∀ b ∈ p.session.globals, ∃ c, st b.2 = some c ∧ ¬st.IsArray b.2 := fun b hb => by
    have howned := List.mem_append_right p.fresh (Globals.mem_references hb)
    have hpos := List.count_pos_iff.mpr howned
    obtain ⟨x, hx⟩ := hl.exact.occupied (hp.proper.live b hb) (by
      rw [List.nil_append]
      omega)
    obtain ⟨c, hc, -⟩ := Store.content_eq_some.mp hx
    exact ⟨c, hc, hl.visible b.2 howned⟩
  refine ⟨fun b hb => ?_, fun b hb => ?_, ?_, ?_, ?_⟩
  · obtain ⟨c, hc, harray⟩ := hcell b hb
    exact hs.shows_of (Store.content_of hc) harray
  · obtain ⟨c, hc, -⟩ := hcell b hb
    refine ⟨c.count, hs.refcount_eq hc, fun hlt => ?_⟩
    obtain ⟨h', hret⟩ := hs.retain_answers hc hlt
    exact ⟨_, lookup_eq (hp.proper.distinct.find?_of_mem hb) hret⟩
  · exact ⟨hp.none.1, hs.contents_eq_ok.mpr hp.none.2⟩
  · exact ⟨hp.yes.1, hs.contents_eq_ok.mpr hp.yes.2⟩
  · exact ⟨hp.no.1, hs.contents_eq_ok.mpr hp.no.2⟩

/-- What is bound after a command was there before, and as a scalar it is what it was. -/
def Unharmed (p : Program) (q : Command) (p' : Program) : Prop :=
  ∀ b ∈ q.binds p.session.globals, b ∈ p'.session.globals ∧
    ∀ x, x.hash? ≠ Option.none → p.session.heap.contents b.2 = .ok x →
      p'.session.heap.contents b.2 = .ok x

theorem Run.bindings_stand (hrun : Run prudent p) :
    p.session.Bound ∧ ∀ q p', p.prudent q = true → p.serve q = .ok (some p') →
      p.Unharmed q p' := by
  obtain ⟨st, hp⟩ := hrun.inOrder
  refine ⟨hp.session_bound, fun q p' hq hserve b hb => ?_⟩
  obtain ⟨st', hp', hk, hsubset⟩ := hp.serve hq hserve
  refine ⟨hsubset hb, fun x hx hcontents => hp'.sound.contents_eq_ok.mpr ?_⟩
  exact hk _ _ (Store.bound_eq_some.mpr
    ⟨Globals.mem_references hb, hp.sound.contents_eq_ok.mp hcontents, hx⟩)

def tidy : Option Program :=
  run prudent { poolSize := 224 }
    [.string [0x61], .assign "x" (.ofIndex 3), .call "gc" [] none, .lookup "x"]

def secondName : Command := .assign "y" (.ofIndex 3)

theorem tidy_goes_on : ∃ p, tidy = some p ∧ ∃ p', p.prudent secondName = true ∧
    p.serve secondName = .ok (some p') := by
  have hall : (tidy.any fun p => (p.play prudent [secondName]).isSome) = true := by
    decide +kernel
  obtain ⟨p, hp, hserves⟩ := (Option.any_eq_true ..).mp hall
  obtain ⟨p', hplay⟩ := Option.isSome_iff_exists.mp hserves
  obtain ⟨hprudent, p₁, hserve, -⟩ := play_cons hplay
  exact ⟨p, hp, p₁, hprudent, hserve⟩

theorem tidy_bindings_stand :
    ∃ p p', tidy = some p ∧ p.session.Bound ∧ p.Unharmed secondName p' := by
  obtain ⟨p, hp, p', hprudent, hserve⟩ := tidy_goes_on
  obtain ⟨hbound, hunharmed⟩ := (Run.of_run hp).bindings_stand
  exact ⟨p, p', hp, hbound, hunharmed _ _ hprudent hserve⟩

def overdrawn : Option Program :=
  run thrifty { poolSize := 160 } [.none, .collect, .release (.ofIndex 0)]

theorem overdrawn_dangles : ∃ p, overdrawn = some p ∧ ∃ b ∈ p.session.globals,
    (∃ e, p.session.heap.kindOf b.2 = .error e) ∧ ∃ e, Session.lookup b.1 p.session = .error e := by
  have hall : (overdrawn.any fun p => p.session.globals.any fun b =>
      !(p.session.heap.kindOf b.2).toBool && !(Session.lookup b.1 p.session).toBool) = true := by
    decide +kernel
  obtain ⟨p, hp, hany⟩ := (Option.any_eq_true ..).mp hall
  obtain ⟨b, hb, hfaults⟩ := List.any_eq_true.mp hany
  rw [Bool.and_eq_true] at hfaults
  have herror {α : Type} {x : Except Fault α} (hx : (!x.toBool) = true) : ∃ e, x = .error e := by
    cases x with
    | error e => exact ⟨e, rfl⟩
    | ok a => cases hx
  exact ⟨p, hp, b, hb, herror hfaults.1, herror hfaults.2⟩

/-- Giving back each reference at most once does not keep bindings from dangling. -/
theorem thrifty_not_bound : ¬∀ p, Run thrifty p → ∀ b ∈ p.session.globals,
    p.session.heap.Shows b.2 ∧ ∃ a, Session.lookup b.1 p.session = .ok a := by
  intro hbound
  obtain ⟨p, hp, b, hb, ⟨e, hkind⟩, -⟩ := overdrawn_dangles
  obtain ⟨⟨k, hk, -⟩, -⟩ := hbound p (Run.of_run hp) b hb
  rw [hkind] at hk
  cases hk

end Program
end CountedHeap
