import CountedHeap.Proofs.Comparing
import CountedHeap.Proofs.Printing
import CountedHeap.Proofs.Reserves

/-!
Programs that meet no fault. Where a session is made with moderate sizes and a program keeps to its
rule, everything that a command needs is there when the command needs it, and no check of the heap
fails, whether memory runs out or not. What is left is what grows with the number of commands: the
count of a value that gets far too many owners, and the totals of the collections.
-/

namespace CountedHeap

namespace Heap

variable {h : Heap} {s : Store} {g : Globals} {name : String} {value : Reference}
  {arrays held : List Reference}

section Bindings

variable (hs : h.Sound s) (hl : s.Ledger arrays (held ++ g.references))
include hs hl

theorem bind_answers (hm : h.Moderate) (hrare : Rare (arrays ++ (held ++ g.references)))
    (hvalue : Seen s value) (hg : g.Proper) (name : String) :
    ∃ e, g.bind h name value = .ok e := by
  obtain ⟨x, hx, -⟩ := id hvalue
  obtain ⟨h₁, hret⟩ := hs.rare_retain_answers hl hm hrare hx
  obtain ⟨s₁, hs₁, hl₁, -⟩ := hs.retain_balanced hl hvalue.not_isArray hret
  cases hf : g.find? name with
  | none =>
    simp only [Globals.bind, hret, ok_bind, hf]
    exact ⟨_, rfl⟩
  | some old =>
    have hb := Globals.mem_of_find? hf
    have hold : old ∈ arrays ++ value :: (held ++ g.references) := List.mem_append_right _
      (List.mem_cons_of_mem _ (List.mem_append_right _ (Globals.mem_references hb)))
    obtain ⟨h₂, hrel⟩ := hs₁.owned_release_answers hl₁ hold (hg.live _ hb)
    simp only [Globals.bind, hret, ok_bind, hf, hrel]
    exact ⟨_, rfl⟩

theorem get_completes (hm : h.Moderate) (hrare : Rare (arrays ++ (held ++ g.references)))
    (hg : g.Proper) : (g.get name).Completes h := by
  unfold Globals.get
  cases hf : g.find? name with
  | none => exact Action.completes_throw
  | some v =>
    have hb := Globals.mem_of_find? hf
    obtain ⟨x, hx, -⟩ :=
      hl.owner_seen (List.mem_append_right held (Globals.mem_references hb)) (hg.live _ hb)
    simp only [Action.completes_bind, Action.completes_update, Action.completes_pure]
    exact ⟨hs.rare_retain_answers hl hm hrare hx, Action.ends_true⟩

theorem delete_completes (hg : g.Proper) : (g.delete name).Completes h := by
  unfold Globals.delete
  cases hf : g.find? name with
  | none => exact Action.completes_throw
  | some v =>
    have hb := Globals.mem_of_find? hf
    have hv : v ∈ arrays ++ (held ++ g.references) :=
      List.mem_append_right _ (List.mem_append_right _ (Globals.mem_references hb))
    simp only [Action.completes_bind, Action.completes_update, Action.completes_pure]
    exact ⟨hs.owned_release_answers hl hv (hg.live _ hb), Action.ends_true⟩

end Bindings

theorem Sound.releases_answers {refs : List Reference} (hs : h.Sound s)
    (hl : s.Ledger arrays (held ++ refs)) (hlive : ∀ r ∈ refs, r.isLive = true) :
    ∃ h', refs.foldlM (·.release ·) h = .ok h' := by
  induction refs generalizing h s with
  | nil => exact ⟨h, rfl⟩
  | cons r rest ih =>
    have hfirst := hl.perm List.perm_middle
    obtain ⟨h₁, hrel⟩ := hs.release_answers hfirst (hlive r List.mem_cons_self)
    obtain ⟨s₁, hs₁, hl₁, -⟩ := hs.released hfirst .nothing hrel
    obtain ⟨h₂, hrest⟩ := ih hs₁ hl₁ fun q hq => hlive q (List.mem_cons_of_mem r hq)
    exact ⟨h₂, by rw [List.foldlM_cons, hrel]; exact hrest⟩

end Heap

namespace Session

open Heap

variable {s : Session} {st : Store} {owned args : List Reference} {r value : Reference}
  {name : String}

theorem collect_moderate {s' : Session} {col : Collection} (hs : s.heap.Sound st)
    (hm : s.heap.Moderate) (hcollect : collect s = .ok (.ok col, s')) : s'.heap.Moderate := by
  have hends : collect.Ends s fun a s' => ∀ col, a = .ok col → s'.heap.Moderate := by
    simp only [collect, Turn.ends_bind, Turn.ends_get, Turn.ends_onHeap, Action.ends_mapError]
    exact (hs.collect_moderate hm _).imp (fun _ _ hm' _ _ => hm') fun _ _ _ _ hcol => by cases hcol
  exact hends _ _ hcollect col rfl

section Turns

variable (hs : s.heap.Sound st) (hl : st.Ledger [] (owned ++ s.globals.references))
  (hm : s.heap.Moderate) (hrare : Rare (owned ++ s.globals.references))

include hs hl hm hrare

theorem retained_completes (hr : Seen st r) : (retained r).Completes s := by
  obtain ⟨x, hx, -⟩ := hr
  simp only [retained, Turn.completes_bind, Turn.completes_updateHeap, Turn.ends_updateHeap,
    Turn.completes_pure, implies_true, and_true]
  exact hs.rare_retain_answers hl hm hrare hx

theorem noneRetained_completes (hnone : Seen st s.noneRef) : noneRetained.Completes s := by
  simp only [noneRetained, Turn.completes_bind, Turn.completes_get, Turn.ends_get, true_and]
  exact retained_completes hs hl hm hrare hnone

theorem boolRetained_completes (htrue : Seen st s.trueRef) (hfalse : Seen st s.falseRef)
    (b : Bool) : (boolRetained b).Completes s := by
  simp only [boolRetained, Turn.completes_bind, Turn.completes_get, Turn.ends_get, true_and]
  refine retained_completes hs hl hm hrare ?_
  cases b with
  | true => exact htrue
  | false => exact hfalse

theorem answerNone_completes (hnone : Seen st s.noneRef) (out : Printed) :
    (answerNone out).Completes s := by
  simp only [answerNone, Turn.completes_ite, Turn.completes_bind, Turn.completes_pure]
  exact ⟨fun _ => ⟨noneRetained_completes hs hl hm hrare hnone, Turn.ends_true⟩,
    fun _ => trivial⟩

theorem builtin_completes (hnone : Seen st s.noneRef) (htrue : Seen st s.trueRef)
    (hfalse : Seen st s.falseRef) (hargs : ∀ r ∈ args, Seen st r) (b : Builtin) (name : String)
    (room : Option Nat) (hb : ¬(b = .gc ∧ args = [])) :
    (callBuiltin b name args room).Completes s := by
  have hnoted (out : Printed) := answerNone_completes hs hl hm hrare hnone out
  unfold callBuiltin
  split
  case h_1 =>
    simp only [Turn.completes_bind, Turn.completes_readHeap, Turn.ends_readHeap]
    exact ⟨(usage_writes hs).print room, fun out _ => hnoted out⟩
  case h_2 => exact absurd ⟨rfl, rfl⟩ hb
  case h_3 r =>
    have hr := hargs r List.mem_cons_self
    simp only [Turn.completes_bind, Turn.completes_onHeap, Turn.ends_onHeap, Action.completes_ask,
      Action.ends_ask, Turn.completes_pure]
    refine ⟨hs.length_answers hr, fun n _ => ?_, fun _ _ => trivial⟩
    exact ⟨Action.completes_ofMemory.mpr (hs.makeInteger_completes hm _), Action.ends_true⟩
  case h_4 r =>
    have hr := hargs r List.mem_cons_self
    simp only [Turn.completes_bind, truthy, Turn.completes_readHeap, Turn.ends_readHeap,
      Turn.completes_pure]
    refine ⟨hs.truthy_answers hr, fun b _ => ?_⟩
    exact ⟨boolRetained_completes hs hl hm hrare htrue hfalse b, Turn.ends_true⟩
  case h_5 =>
    simp only [Turn.completes_bind, Turn.completes_readHeap, Turn.ends_readHeap]
    exact ⟨(displayLine_writes hs hl hargs).print room, fun out _ => hnoted out⟩
  all_goals exact Turn.completes_pure

theorem call_completes (hnone : Seen st s.noneRef) (htrue : Seen st s.trueRef)
    (hfalse : Seen st s.falseRef) (hargs : ∀ r ∈ args, Seen st r) (room : Option Nat)
    (hcalls : (Command.call name args room).callsCollector = false) :
    (call name args room).Completes s := by
  have hanswer {x : Turn Answer} (hx : x.Completes s) :
      (do let a ← x; return (← attemptRef (pure a.result), a.written) : Turn _).Completes s := by
    simp only [Turn.completes_bind, Turn.completes_attemptRef, Turn.completes_pure, Turn.ends_true,
      and_true]
    exact hx
  unfold call
  split
  case h_1 b hname =>
    refine hanswer (builtin_completes hs hl hm hrare hnone htrue hfalse hargs b name room ?_)
    rintro ⟨rfl, rfl⟩
    rw [Command.callsCollector, hname] at hcalls
    cases hcalls
  case h_2 => exact hanswer Turn.completes_pure

theorem compareBy_completes (htrue : Seen st s.trueRef) (hfalse : Seen st s.falseRef)
    (op : Comparison) {left right : Reference} (hleft : s.heap.Grounded left)
    (hright : s.heap.Grounded right) : (compareBy op left right).Completes s := by
  simp only [compareBy, Turn.completes_bind, Turn.completes_attempt, Turn.completes_onHeap,
    Action.completes_ask, Turn.ends_attempt, Turn.ends_onHeap, Action.ends_ask,
    Turn.completes_pure, implies_true, and_true]
  exact ⟨hs.compareBy_answers hl op hleft hright,
    fun b _ => boolRetained_completes hs hl hm hrare htrue hfalse b⟩

theorem lookup_completes (hg : s.globals.Proper) (name : String) : (lookup name).Completes s := by
  simp only [lookup, Turn.completes_bind, Turn.completes_get, Turn.ends_get, true_and,
    Turn.completes_attemptRef, Turn.completes_onHeap]
  exact get_completes hs hl hm hrare hg

end Turns

theorem unbind_completes (hs : s.heap.Sound st)
    (hl : st.Ledger [] (owned ++ s.globals.references)) (hg : s.globals.Proper) (name : String) :
    (unbind name).Completes s := by
  unfold unbind
  split
  · exact Turn.completes_raise
  · simp only [Turn.completes_bind, Turn.completes_get, Turn.ends_get, true_and,
      Turn.completes_attempt, Turn.completes_onHeap]
    refine ⟨delete_completes hs hl hg, fun a s' _ => ?_⟩
    cases a with
    | some g => exact Turn.completes_modify
    | none => exact Turn.completes_pure

section Spending

variable (hs : s.heap.Sound st) (hl : st.Ledger [] (value :: (owned ++ s.globals.references)))

include hs hl

theorem release_completes : (release value).Completes s := by
  simp only [release, Turn.completes_ite, Turn.completes_updateHeap, Turn.completes_pure,
    implies_true, and_true]
  exact fun hlive => hs.release_answers hl hlive

theorem handOver_answers (hm : s.heap.Moderate)
    (hrare : Rare (value :: (owned ++ s.globals.references))) (hvalue : Seen st value)
    (hg : s.globals.Proper) (name : String) : ∃ s', s.handOver name value = .ok s' := by
  have hl' : st.Ledger [] ((value :: owned) ++ s.globals.references) := hl
  obtain ⟨⟨g, h₁⟩, hbind⟩ := bind_answers hs hl' hm hrare hvalue hg name
  obtain ⟨-, st₁, hs₁, hl₁, -⟩ :=
    bind_balanced hs hl' .nothing hg.distinct hvalue.not_isArray hbind
  obtain ⟨x, hx, -⟩ := hvalue
  obtain ⟨h₂, hrel⟩ := hs₁.release_answers hl₁ (hl.live hx)
  exact ⟨_, bind_eq_ok.mpr ⟨_, hbind, bind_eq_ok.mpr ⟨h₂, hrel, rfl⟩⟩⟩

theorem assign_completes (hm : s.heap.Moderate)
    (hrare : Rare (value :: (owned ++ s.globals.references))) (hvalue : Seen st value)
    (hg : s.globals.Proper) : (assign name value).Completes s := by
  obtain ⟨x, hx, -⟩ := id hvalue
  unfold assign
  split
  · simp only [Turn.completes_bind, Turn.completes_updateHeap, Turn.ends_updateHeap,
      Turn.completes_raise, implies_true, and_true]
    exact hs.release_answers hl (hl.live hx)
  · obtain ⟨s', hs'⟩ := handOver_answers hs hl hm hrare hvalue hg name
    exact ⟨(), s', bind_eq_ok.mpr ⟨s', hs', rfl⟩⟩

end Spending

end Session

/-- Arguments as they can be given: a text has no NUL byte, nothing that is compared leads into a
cycle, and no argument is larger than memory can be, where a reference takes four bytes. -/
def Command.Decent (h : Heap) : Command → Prop
  | string bytes => 0 ∉ bytes ∧ bytes.length ≤ Memory.maxSize
  | list elements => 4 * elements.length ≤ Memory.maxSize
  | dict pairs => 8 * pairs.length ≤ Memory.maxSize
  | compare _ left right => h.AcyclicFrom left ∧ h.AcyclicFrom right
  | _ => True

namespace Program

open Heap Session

variable {config : Config} {commands : List Command} {p p' : Program} {st : Store} {q : Command}

def Crowded (p : Program) : Prop :=
  ∃ r, 2 ^ 63 < (p.fresh ++ p.session.globals.references).count r

theorem not_crowded (h : ¬p.Crowded) : Rare (p.fresh ++ p.session.globals.references) :=
  fun r => Nat.le_of_not_lt fun hmany => h ⟨r, hmany⟩

theorem Crowded.lt_length (h : p.Crowded) :
    2 ^ 63 < (p.fresh ++ p.session.globals.references).length :=
  Nat.lt_of_lt_of_le h.choose_spec List.count_le_length

/-- Nothing that may be done with the program meets a fault. -/
structure Faultless (p : Program) : Prop where
  serves : ∀ q, p.prudent q = true → q.Decent p.session.heap → ∃ p', p.serve q = .ok (some p')
  printsGlobals : ∀ room, ∃ out, p.session.printGlobals.print room = .ok out
  dumps : ∀ room, ∃ out, p.session.dump.print room = .ok out
  closes : ∃ h, p.session.close = .ok h

theorem act_answers {α : Type} {x : Turn α} (hx : x.Completes p.session) :
    ∃ p', p.act x = .ok (some p') := by
  obtain ⟨a, s', hrun⟩ := hx
  exact ⟨_, bind_eq_ok.mpr ⟨(a, s'), hrun, rfl⟩⟩

theorem ask_answers {x : Turn Reference} (hx : x.Completes p.session) :
    ∃ p', p.ask x = .ok (some p') := by
  obtain ⟨a, s', hrun⟩ := hx
  exact ⟨_, bind_eq_ok.mpr ⟨(a, s'), hrun, rfl⟩⟩

namespace InOrder

variable (hp : p.InOrder st)
include hp

theorem shows {r : Reference} (hr : p.client.sees r = true) : p.session.heap.Shows r := by
  obtain ⟨x, hx, hkind⟩ := hp.seen hr
  exact ⟨x.kind, hp.sound.kindOf_eq_ok.mpr ⟨x, hx, rfl⟩, hkind⟩

theorem bound_seen {b : String × Reference} (hb : b ∈ p.session.globals) : Seen st b.2 :=
  hp.ledger.owner_seen (List.mem_append_right _ (Globals.mem_references hb))
    (hp.proper.live b hb)

theorem printGlobals_writes : p.session.printGlobals.Writes :=
  printBindings_writes hp.sound hp.ledger fun _ hb => hp.bound_seen hb

theorem dump_writes : p.session.dump.Writes :=
  hp.printGlobals_writes.bind
    ((Printer.writes_write _).bind (hp.sound.dump_writes hp.ledger))

theorem close_answers : ∃ h, p.session.close = .ok h := by
  refine hp.sound.releases_answers hp.ledger fun r hr => ?_
  obtain ⟨b, hb, rfl⟩ := List.mem_map.mp hr
  exact hp.proper.live b hb

theorem collector_answers (hr : p.session.Reserved)
    (hroomy : p.session.heap.stats.Roomy p.session.heap.config.halfSize)
    (hrare : Rare (p.fresh ++ p.session.globals.references)) {name : String}
    {args : List Reference} {room : Option Nat}
    (hcalls : (Command.call name args room).callsCollector = true) :
    ∃ p', p.serve (.call name args room) = .ok (some p') := by
  obtain ⟨col, h', hcollect, hreaped⟩ := (hp.collect_reserved hr).answers hroomy
  obtain ⟨st', hcol⟩ := hreaped.collected
  have hcount := hrare p.session.noneRef
  rw [List.count_append] at hcount
  have hlive := hp.proper.live _ hp.none.1
  obtain ⟨h'', hret⟩ := hcol.retain_root_answers (Globals.mem_references hp.none.1) hlive
    (Nat.le_trans (Nat.le_add_left ..) hcount)
  simp only [Program.serve, hcalls, if_true, call_collector hcalls hcollect, hret, ok_bind]
  exact ⟨_, by rw [pure_bind, if_pos hlive]; rfl⟩

theorem serve_answers (hr : p.session.Reserved) (hm : p.session.heap.Moderate)
    (hroomy : q.collects = true → p.session.heap.stats.Roomy p.session.heap.config.halfSize)
    (hrare : Rare (p.fresh ++ p.session.globals.references)) (hq : p.prudent q = true)
    (hdecent : q.Decent p.session.heap) : ∃ p', p.serve q = .ok (some p') := by
  have hs := hp.sound
  have hl := hp.ledger
  have hnone := hp.bound_seen hp.none.1
  have htrue := hp.bound_seen hp.yes.1
  have hfalse := hp.bound_seen hp.no.1
  have hperm {r : Reference} (hr : p.fresh.contains r = true) :
      (p.fresh ++ p.session.globals.references).Perm
        (r :: (p.fresh.erase r ++ p.session.globals.references)) :=
    (List.perm_cons_erase (List.contains_iff_mem.mp hr)).append_right _
  have hheap {x : Action Failure Reference} (hx : x.Completes p.session.heap) :
      ∃ p', p.ask (attemptRef (onHeap x)) = .ok (some p') :=
    ask_answers (Turn.completes_attemptRef.mpr (Turn.completes_onHeap.mpr hx))
  have hmemory {x : Action OutOfMemory Reference} (hx : x.Completes p.session.heap) :
      ∃ p', p.ask (attemptRef (onHeap (liftM x))) = .ok (some p') :=
    hheap (Action.completes_ofMemory.mpr hx)
  cases q with
  | none => exact ask_answers (noneRetained_completes hs hl hm hrare hnone)
  | bool b => exact ask_answers (boolRetained_completes hs hl hm hrare htrue hfalse b)
  | integer n => exact hmemory (hs.makeInteger_completes hm n)
  | string bytes => exact hmemory (hs.makeString_completes hm hdecent.1 hdecent.2)
  | list elements =>
    have hlength : Layout.elementOffset elements.length + 8 < Word.limit := by
      simp only [Command.Decent, Memory.maxSize] at hdecent
      simp only [Layout.elementOffset, Layout.elementsOffset, Word.limit]
      omega
    exact hmemory (hs.newList_completes hl hm hrare
      (fun r hr => hp.seen (List.all_eq_true.mp hq r hr)) hlength)
  | dict pairs =>
    have hlength : Layout.elementOffset (pairs.length * 2) + 8 < Word.limit := by
      simp only [Command.Decent, Memory.maxSize] at hdecent
      simp only [Layout.elementOffset, Layout.elementsOffset, Word.limit]
      omega
    refine hheap (newDict_completes hs hl hm hrare (fun e he => ?_) hlength)
    have hboth := Bool.and_eq_true_iff.mp (List.all_eq_true.mp hq e he)
    exact ⟨hp.seen hboth.1, hp.seen hboth.2⟩
  | release r =>
    refine act_answers ?_
    rw [session_spend]
    exact release_completes hs (hl.perm (hperm hq))
  | assign name value =>
    obtain ⟨howned, hvalue⟩ := Bool.and_eq_true_iff.mp hq
    refine act_answers ?_
    rw [session_spend]
    exact assign_completes hs (hl.perm (hperm howned)) hm (hrare.perm (hperm howned))
      (hp.seen hvalue) hp.proper
  | lookup name => exact ask_answers (lookup_completes hs hl hm hrare hp.proper name)
  | unbind name => exact act_answers (unbind_completes hs hl hp.proper name)
  | truthy r =>
    exact act_answers (Turn.completes_readHeap.mpr (hs.truthy_answers (hp.seen hq)))
  | unary op r => exact hheap (unary_completes hs hm (hp.seen hq) op)
  | binary op left right =>
    obtain ⟨hleft, hright⟩ := Bool.and_eq_true_iff.mp hq
    exact hheap (binary_completes hs hm op (hp.seen hleft) (hp.seen hright))
  | compare op left right =>
    obtain ⟨hleft, hright⟩ := Bool.and_eq_true_iff.mp hq
    exact ask_answers (compareBy_completes hs hl hm hrare htrue hfalse op
      ⟨hp.shows hleft, hdecent.1⟩ ⟨hp.shows hright, hdecent.2⟩)
  | subscript r index =>
    obtain ⟨hr, hindex⟩ := Bool.and_eq_true_iff.mp hq
    exact hheap (subscript_completes hs hm (hp.seen hr) hl hrare (hp.seen hindex))
  | assignItem r index item =>
    obtain ⟨hboth, hitem⟩ := Bool.and_eq_true_iff.mp hq
    obtain ⟨hr, hindex⟩ := Bool.and_eq_true_iff.mp hboth
    refine act_answers ?_
    simp only [Session.assignItem, Turn.completes_bind, Turn.completes_attempt,
      Turn.completes_onHeap, Turn.completes_pure, Turn.ends_true, and_true]
    exact assignItem_completes hs hm (hp.seen hr) hl hrare (hp.seen hindex) (hp.seen hitem)
  | deleteItem r index =>
    obtain ⟨hr, hindex⟩ := Bool.and_eq_true_iff.mp hq
    refine act_answers ?_
    simp only [Session.deleteItem, Turn.completes_bind, Turn.completes_attempt,
      Turn.completes_onHeap, Turn.completes_pure, Turn.ends_true, and_true]
    exact deleteItem_completes hs (hp.seen hr) hl (hp.seen hindex)
  | call name args room =>
    cases hcalls : (Command.call name args room).callsCollector with
    | true => exact hp.collector_answers hr (hroomy hcalls) hrare hcalls
    | false =>
      simp only [Program.serve, hcalls]
      exact ask_answers (Turn.completes_map.mpr (call_completes hs hl hm hrare hnone htrue hfalse
        (fun r hr => hp.seen (List.all_eq_true.mp hq r hr)) room hcalls))
  | collect =>
    obtain ⟨col, h', hcollect, -⟩ := (hp.collect_reserved hr).answers (hroomy rfl)
    simp only [Program.serve, hcollect, ok_bind]
    exact ⟨_, rfl⟩

theorem serve_moderate (hr : p.session.Reserved) (hm : p.session.heap.Moderate)
    (hq : p.prudent q = true) (h : p.serve q = .ok (some p')) : p'.session.heap.Moderate := by
  cases hcollects : q.collects with
  | false => exact (hp.walks hq hcollects h).path.moderate hp.sound.consistent hm
  | true =>
    obtain ⟨col, h', hcollect, hreaped⟩ := hp.served_collect hr hcollects h
    obtain ⟨st', hcol⟩ := hreaped.collected
    have hm' : h'.Moderate := collect_moderate hp.sound hm hcollect
    exact (serve_collects hcollects hcollect h).path.moderate hcol.sound.consistent hm'

theorem serve_config (hr : p.session.Reserved) (hq : p.prudent q = true)
    (h : p.serve q = .ok (some p')) : p'.session.heap.config = p.session.heap.config := by
  cases hcollects : q.collects with
  | false => exact (hp.walks hq hcollects h).path.config hp.sound.consistent
  | true =>
    obtain ⟨col, h', hcollect, hreaped⟩ := hp.served_collect hr hcollects h
    obtain ⟨st', hcol⟩ := hreaped.collected
    have hwalks := serve_collects hcollects hcollect h
    exact (hwalks.path.config hcol.sound.consistent).trans hcol.config

theorem serve_globals (hr : p.session.Reserved) (hq : p.prudent q = true)
    (h : p.serve q = .ok (some p')) : p'.session.globals = q.rebinds p.session.globals := by
  cases hcollects : q.collects with
  | false => exact (hp.walks hq hcollects h).globals
  | true =>
    obtain ⟨col, h', hcollect, -⟩ := hp.served_collect hr hcollects h
    exact (serve_collects hcollects hcollect h).globals

theorem serve_within (hr : p.session.Reserved) (hq : p.prudent q = true)
    (h : p.serve q = .ok (some p')) {n : Nat}
    (hw : p.session.heap.stats.Within n p.session.heap.config.halfSize) :
    p'.session.heap.stats.Within (n + if q.collects then 1 else 0)
      p'.session.heap.config.halfSize := by
  rw [hp.serve_config hr hq h]
  cases hcollects : q.collects with
  | false => rwa [(hp.walks hq hcollects h).path.stats hp.sound.consistent]
  | true =>
    obtain ⟨col, h', hcollect, hreaped⟩ := hp.served_collect hr hcollects h
    obtain ⟨st', hcol⟩ := hreaped.collected
    have hwalks := serve_collects hcollects hcollect h
    rw [hwalks.path.stats hcol.sound.consistent]
    exact hw.counts hreaped.counted hreaped.before hreaped.after

end InOrder

section Owning

theorem act_fresh {α : Type} {x : Turn α} (h : p.act x = .ok (some p')) : p'.fresh = p.fresh := by
  obtain ⟨_, _, -, rfl⟩ := act_eq_some.mp h
  rfl

theorem ask_fresh {x : Turn Reference} (h : p.ask x = .ok (some p')) :
    p'.fresh.length ≤ p.fresh.length + 1 := by
  obtain ⟨r, _, -, rfl⟩ := ask_eq_some.mp h
  dsimp only [gained]
  split
  · exact Nat.le_refl _
  · exact Nat.le_succ _

theorem spend_fresh (p : Program) (r : Reference) : (p.spend r).fresh.length ≤ p.fresh.length := by
  unfold spend
  split
  · exact List.length_erase_le
  · exact Nat.le_refl _

theorem serve_grows (h : p.serve q = .ok (some p')) (g : Globals) :
    p'.fresh.length + (q.rebinds g).length ≤ p.fresh.length + g.length + 1 := by
  cases q with
  | assign name value =>
    have hspent := p.spend_fresh value
    have hfresh := act_fresh h
    have hput : (g.put name value).length ≤ g.length + 1 := by
      unfold Globals.put
      split <;> simp
    simp only [Command.rebinds]
    rw [hfresh]
    split <;> omega
  | unbind name =>
    have hfresh := act_fresh h
    have hremove : (g.remove name).length ≤ g.length := List.length_filter_le ..
    simp only [Command.rebinds]
    rw [hfresh]
    split <;> omega
  | release r =>
    have hspent := p.spend_fresh r
    have hfresh := act_fresh h
    simp only [Command.rebinds]
    rw [hfresh]
    omega
  | truthy | assignItem | deleteItem =>
    have hfresh := act_fresh h
    simp only [Command.rebinds]
    rw [hfresh]
    omega
  | call name args room =>
    simp only [Program.serve] at h
    split at h
    case isTrue =>
      simp only [bind_eq_ok, pure_eq_ok, Prod.exists] at h
      obtain ⟨r, _, _, -, h⟩ := h
      split at h <;> cases h
      simp only [Command.rebinds, collected, List.length_singleton]
      omega
    case isFalse =>
      have hfresh := ask_fresh h
      simp only [Command.rebinds]
      omega
  | collect =>
    simp only [Program.serve, bind_eq_ok] at h
    obtain ⟨⟨a, _⟩, -, h⟩ := h
    cases a <;> cases h
    simp only [Command.rebinds, collected, List.length_nil]
    omega
  | _ =>
    have hfresh := ask_fresh h
    simp only [Command.rebinds]
    omega

end Owning

section Starting

variable {h : Heap} {session : Session}

theorem makeSingletons_traced (hs : h.Sound st) : Traced .any makeSingletons h := by
  have hany {h : Heap} : ∀ q, Scope.any.fixed q → h.Occupied q := fun _ => False.elim
  have hbool (b : Bool) : Creates Scope.any.consts (makeBool b) := .bool trivial b
  simp only [Traced, makeSingletons, Action.ends_bind, Action.ends_pure]
  refine (Creates.born (.none trivial) hs hany).imp ?_ fun _ _ hp => hp
  rintro n h₁ ⟨hp₁, -⟩
  obtain ⟨_, hs₁⟩ := hp₁.consistent hs.consistent
  refine ((hbool true).born hs₁ hany).imp ?_ fun _ _ hp => hp₁.trans hp
  rintro t h₂ ⟨hp₂, -⟩
  obtain ⟨_, hs₂⟩ := hp₂.consistent hs₁.consistent
  have hp := hp₁.trans hp₂
  exact ((hbool false).born hs₂ hany).imp (fun _ _ hp₃ => hp.trans hp₃.1)
    fun _ _ hp₃ => hp.trans hp₃

theorem ofConfig_config (hnew : Session.ofConfig config = .ok (.ok session)) :
    session.heap.config = config := by
  obtain ⟨h, n, t, f, heap, hheap, hmake, hconsistent, hw⟩ := ofConfig_walks hnew
  obtain ⟨hs, hconfig, -⟩ := Heap.ofConfig_sound hheap
  have hmade : heap.config = h.config :=
    ((makeSingletons_traced hs).good hmake).config hs.consistent
  rw [hw.path.config hconsistent, hmade, hconfig]

theorem ofConfig_within (hnew : Session.ofConfig config = .ok (.ok session)) (half : Nat) :
    session.heap.stats.Within 0 half := by
  obtain ⟨h, n, t, f, heap, hheap, hmake, hconsistent, hw⟩ := ofConfig_walks hnew
  have hs := (Heap.ofConfig_sound hheap).1
  rw [hw.path.stats hconsistent, ((makeSingletons_traced hs).good hmake).stats hs.consistent,
    Heap.ofConfig_stats hheap]
  exact ⟨Nat.zero_le _, Nat.zero_le _, Nat.zero_le _⟩

theorem ofConfig_moderate (hnew : Session.ofConfig config = .ok (.ok session))
    (hc : config.Bounded) : session.heap.Moderate := by
  obtain ⟨h, n, t, f, heap, hheap, hmake, hconsistent, hw⟩ := ofConfig_walks hnew
  have hs := (Heap.ofConfig_sound hheap).1
  have hm : heap.Moderate :=
    ((makeSingletons_traced hs).moderate hs.consistent (Heap.ofConfig_moderate hheap hc)).good hmake
  exact hw.path.moderate hconsistent hm

end Starting

theorem Run.moderate (hrun : Run prudent p) (hc : p.session.heap.config.Bounded) :
    p.session.heap.Moderate := by
  induction hrun with
  | start hnew => exact ofConfig_moderate hnew (ofConfig_config hnew ▸ hc)
  | step hrun hq hserve ih =>
    obtain ⟨st, hp, hr⟩ := hrun.reserved
    exact hp.serve_moderate hr (ih (hp.serve_config hr hq hserve ▸ hc)) hq hserve

/-- What commands that keep to the rule lead to, with an owner more for each of them at most, and
with a collection more for each that collects. -/
theorem play_moderate (hp : p.InOrder st) (hr : p.session.Reserved)
    (hm : p.session.heap.Moderate) {n : Nat}
    (hw : p.session.heap.stats.Within n p.session.heap.config.halfSize)
    (hplay : p.play prudent commands = some p') :
    ∃ st', p'.InOrder st' ∧ p'.session.Reserved ∧ p'.session.heap.Moderate ∧
      p'.session.heap.config = p.session.heap.config ∧
        p'.session.heap.stats.Within (n + commands.countP Command.collects)
          p'.session.heap.config.halfSize ∧
        p'.fresh.length + p'.session.globals.length ≤
          p.fresh.length + p.session.globals.length + commands.length := by
  induction commands generalizing p st n with
  | nil =>
    cases hplay
    exact ⟨st, hp, hr, hm, rfl, hw, Nat.le_refl _⟩
  | cons q rest ih =>
    obtain ⟨hq, p₁, hserve, hrest⟩ := play_cons hplay
    obtain ⟨st₁, hp₁, -⟩ := hp.serve hq hserve
    have hr₁ := hp.serve_reserved hr hq hserve
    obtain ⟨st', hp', hr', hm', hconfig, hw', hgrows⟩ :=
      ih hp₁ hr₁ (hp.serve_moderate hr hm hq hserve) (hp.serve_within hr hq hserve hw) hrest
    have hfirst := serve_grows hserve p.session.globals
    rw [← hp.serve_globals hr hq hserve] at hfirst
    rw [Nat.add_right_comm, Nat.add_assoc, ← List.countP_cons] at hw'
    rw [List.length_cons]
    exact ⟨st', hp', hr', hm', hconfig.trans (hp.serve_config hr hq hserve), hw', by omega⟩

/-- A program that keeps to its rule meets no fault, whatever room the memory has left, in as many
commands as anyone can give: fewer than `2 ^ 63`, and fewer than `2 ^ 33` collections. -/
theorem run_faultless (hrun : run prudent config commands = some p) (hc : config.Moderate)
    (hfew : commands.length + 3 ≤ 2 ^ 63)
    (hcollections : commands.countP Command.collects + 1 < 2 ^ 33) : p.Faultless := by
  unfold Program.run at hrun
  split at hrun
  case h_2 => cases hrun
  case h_1 session hnew =>
    obtain ⟨st₀, hp₀⟩ := ofConfig_inOrder hnew
    obtain ⟨st, hp, hr, hm, hconfig, hw, hgrows⟩ := play_moderate hp₀ (ofConfig_reserved hnew)
      (ofConfig_moderate hnew hc.bounded) (ofConfig_within hnew _) hrun
    have hhalf : p.session.heap.config.halfSize ≤ 2 ^ 31 := by
      rw [hconfig, ofConfig_config hnew]
      exact hc.halfSize_le
    have hroomy : p.session.heap.stats.Roomy p.session.heap.config.halfSize := by
      rw [Nat.zero_add] at hw
      refine hw.roomy (Nat.lt_trans hcollections (by decide)) ?_
      exact Nat.lt_of_le_of_lt (Nat.mul_le_mul (Nat.le_pred_of_lt hcollections) hhalf)
        (by decide)
    have hrare : ¬p.Crowded := by
      intro hcrowded
      obtain ⟨_, _, _, _, _, -, -, -, hw⟩ := ofConfig_walks hnew
      have hlength := hcrowded.lt_length
      rw [hw.globals] at hgrows
      simp only [List.length_append, Globals.references, List.length_map, List.length_cons,
        List.length_nil] at hlength hgrows
      omega
    exact ⟨fun q hq hdecent => hp.serve_answers hr hm (fun _ => hroomy) (not_crowded hrare) hq
      hdecent, hp.printGlobals_writes.print, hp.dump_writes.print, hp.close_answers⟩

def cramped : Option Program :=
  run prudent { poolSize := 512, poison := false, dictMinCapacity := 4 } [.integer 1,
    .list [.ofIndex 3], .assign "xs" (.ofIndex 5), .string (List.replicate 64 0x61)]

theorem cramped_faultless :
    ∃ p, cramped = some p ∧ p.session.pending.isSome = true ∧ p.Faultless := by
  have hfull : cramped.any (·.session.pending.isSome) = true := by decide +kernel
  obtain ⟨p, hp, hpending⟩ := (Option.any_eq_true _ _).mp hfull
  refine ⟨p, hp, hpending, run_faultless hp ⟨?_, ?_, ?_⟩ ?_ ?_⟩
  all_goals decide

theorem run_collections {config : Config} (hstart : (run prudent config []).isSome = true)
    (hall : ∀ commands p, run prudent config commands = some p → p.Faultless) (n : Nat) :
    ∃ p, run prudent config (List.replicate n .collect) = some p ∧
      n ≤ p.session.heap.stats.collections ∧ n < Word.limit := by
  induction n with
  | zero =>
    obtain ⟨p, hp⟩ := Option.isSome_iff_exists.mp hstart
    exact ⟨p, hp, Nat.zero_le _, by decide⟩
  | succ n ih =>
    obtain ⟨p, hrun, hn, -⟩ := ih
    obtain ⟨p', hserve⟩ := (hall _ p hrun).serves .collect rfl trivial
    obtain ⟨st, hp, hr⟩ := (Run.of_run hrun).reserved
    obtain ⟨col, h', hcollect, hreaped⟩ := hp.served_collect hr rfl hserve
    have hfits := hreaped.counted.fits
    have hcounted := hreaped.counted.collections
    rw [List.replicate_succ']
    refine ⟨p', run_append hrun rfl hserve, ?_, by omega⟩
    simp only [Program.serve, hcollect, ok_bind] at hserve
    cases hserve
    exact hcounted ▸ Nat.succ_le_succ hn

def grasping : Option Program :=
  run (fun _ _ => true) { poolSize := 256 }
    [.integer 5, .assign "x" (.ofIndex 3), .release (.ofIndex 3)]

/-- No session can be collected forever, as the collections are counted in a word. Nor may a program
give a reference back that it has given to a binding. -/
theorem not_always_faultless :
    (¬∀ config commands p, run prudent config commands = some p → config.Moderate →
      p.Faultless) ∧
    ∃ p, grasping = some p ∧
      p.serve (.lookup "x") = .error (.releasedReference (.ofIndex 3)) := by
  constructor
  · intro hall
    have hfaultless : ∀ commands p, run prudent { poolSize := 256 } commands = some p →
        p.Faultless := fun commands p hrun => hall _ commands p hrun ⟨by decide, by decide, by decide⟩
    -- After as many collections as there are words their number would be a word.
    obtain ⟨p, -, -, hlt⟩ := run_collections (by decide +kernel) hfaultless Word.limit
    exact Nat.lt_irrefl _ hlt
  · have hfaults : grasping.any (fun p => (p.serve (.lookup "x")).map (fun _ => ()) =
        .error (.releasedReference (.ofIndex 3))) = true := by decide +kernel
    obtain ⟨p, hp, hfault⟩ := (Option.any_eq_true ..).mp hfaults
    refine ⟨p, hp, ?_⟩
    cases hserve : p.serve (.lookup "x") with
    | ok => simp [hserve, Except.map] at hfault
    | error e => simpa [hserve, Except.map] using hfault

end Program
end CountedHeap
