import CountedHeap.Proofs.Bindings
import CountedHeap.Proofs.OperatorAccounts
import CountedHeap.Proofs.Survivors

/-!
Counts over whole runs. Whatever a client asks for, and whether it gets it or not, the count of a
value is the number of references that the client owns to it and of the edges that lead to it.
-/

namespace CountedHeap

namespace Heap

/-- The count of each value is the number of its owners and of the edges that lead to it, and is
never zero; nothing owns or leads to a live reference that has no value. -/
structure CountedBy (h : Heap) (owned : List Reference) (out : List (List Reference)) : Prop where
  edges : h.table.entries.mapM (fun e => h.outgoing e.1) = .ok out
  refcount : ∀ r, h.Occupied r → h.refcount r = .ok (owned.count r + (out.map (·.count r)).sum)
  positive : ∀ r, h.Occupied r → 0 < owned.count r + (out.map (·.count r)).sum
  unknown : ∀ r, r.isLive = true → ¬h.Occupied r →
    owned.count r = 0 ∧ (out.map (·.count r)).sum = 0

variable {h : Heap} {s : Store} {arrays owned : List Reference}

theorem Sound.countedBy (hs : h.Sound s) (hl : s.Ledger arrays owned) :
    ∃ out, h.CountedBy (arrays ++ owned) out := by
  have hcount : ∀ q, q.isLive = true → s.count q = (arrays ++ owned).count q +
      ((h.table.entries.map fun e => s.held e.1).map (·.count q)).sum := fun q hq => by
    rw [← hs.edges_eq, List.count_append, hl.count_eq hq]
  refine ⟨_, hs.entries_outgoing, fun r hr => ?_, fun r hr => ?_, fun r hlive hr => ?_⟩
  · obtain ⟨c, hc⟩ := hs.occupied_iff.mp hr
    rw [hs.refcount_eq hc, ← hcount r (hs.isLive hc), Store.count_eq hc]
  · obtain ⟨c, hc⟩ := hs.occupied_iff.mp hr
    rw [← hcount r (hs.isLive hc)]
    exact hl.positive (Store.content_of hc)
  · have hnone : s r = none := Option.eq_none_iff_forall_ne_some.mpr fun c hc =>
      hr (hs.occupied_iff.mpr ⟨c, hc⟩)
    have hzero := hcount r hlive
    rw [Store.count_of_none hnone] at hzero
    omega

end Heap

namespace Client

open Heap

/-- A client whose account is kept. -/
structure Accounted (c : Client) : Prop where
  balanced : c.heap.Balanced (fun _ => none) c.arrays (c.held ++ c.globals.references)
  distinct : c.globals.Distinct

variable {ε α : Type} {c c' : Client} {s : Store} {r : Reference}

theorem seen_of_sees (hs : c.heap.Sound s) (hr : c.sees r = true) : Seen s r := by
  unfold sees at hr
  split at hr
  case h_1 k hk =>
    obtain ⟨x, hx, rfl⟩ := hs.kindOf_eq_ok.mp hk
    exact ⟨x, hx, by simpa using hr⟩
  case h_2 => cases hr

theorem Accounted.own {x : Action ε Reference} {spent arrays : List Reference} (hc : c.Accounted)
    (hspent : c.arrays.diff spent = arrays)
    (hx : x.Ends c.heap (fun r heap => heap.Balanced (fun _ => none) arrays
        (r :: (c.held ++ c.globals.references)))
      fun _ heap => heap.Balanced (fun _ => none) c.arrays (c.held ++ c.globals.references))
    (h : c.after x (own spent) = .ok c') : c'.Accounted := by
  subst hspent
  exact after_ends (hx.imp (fun _ _ hb => ⟨hb, hc.distinct⟩) fun _ _ hb => ⟨hb, hc.distinct⟩) h

theorem Accounted.settle {x : Action ε α} (hc : c.Accounted)
    (hx : Settles x c.heap (fun _ => none) c.arrays (c.held ++ c.globals.references))
    (h : c.after x (fun c _ => c) = .ok c') : c'.Accounted :=
  after_ends (hx.imp (fun _ _ hb => ⟨hb, hc.distinct⟩) fun _ _ hb => ⟨hb, hc.distinct⟩) h

theorem Accounted.collect (hc : c.Accounted) {given : List Reference}
    (hallowed : c.globals.isEmpty = true → ∀ r ∈ given, r.isLive = true → c.sees r = true)
    (h : c.collect given = .ok (some c')) : c'.Accounted := by
  obtain ⟨s, hs, hl, -⟩ := hc.balanced
  obtain ⟨col, heap, hrun, rfl⟩ := collect_eq_some.mp h
  obtain ⟨s', hcollected⟩ := (hs.collect _).good hrun
  have hroots : ∀ q ∈ c.roots given, ¬s.IsArray q := by
    intro q hq
    unfold roots at hq
    split at hq
    case isTrue hempty =>
      by_cases hlive : q.isLive = true
      · exact (seen_of_sees hs (hallowed hempty q hq hlive)).not_isArray
      · exact hl.not_isArray (by simpa using hlive)
    case isFalse => exact hl.visible q (List.mem_append_right _ hq)
  refine ⟨hcollected.sound.balanced (hcollected.ledger hl hroots ?_ ?_) .nothing, hc.distinct⟩
  all_goals
    simp only [roots] at hroots ⊢
    split
  · rename_i hempty
    simp only [if_pos hempty] at hroots
    intro q hq
    rcases List.mem_append.mp hq with hq | hq
    · exact hroots q (List.mem_of_mem_filter hq)
    · exact hl.visible q (List.mem_append_right _ hq)
  · exact fun q hq => hl.visible q (List.mem_append_right _ hq)
  · rename_i hempty
    intro q hq
    rw [List.isEmpty_iff.mp hempty, Globals.references, List.map_nil, List.append_nil,
      List.count_filter hq]
  · exact fun q _ => rfl

theorem Accounted.serve (hc : c.Accounted) {q : Request} (hq : c.allows q = true)
    (h : c.serve q = .ok (some c')) : c'.Accounted := by
  obtain ⟨s, hs, hl, -⟩ := hc.balanced
  -- Most requests answer a reference to own or leave what is owned as it was.
  have hown {ε : Type} {x : Action ε Reference}
      (h : some <$> c.after x (Client.own []) = .ok (some c'))
      (hx : Owns x c.heap (fun _ => none) c.arrays (c.held ++ c.globals.references)) :
      c'.Accounted := by
    simp only [map_eq_ok, Option.some_inj, exists_eq_right] at h
    exact hc.own (List.diff_nil _) hx h
  have hsettle {ε α : Type} {x : Action ε α}
      (h : some <$> c.after x (fun c _ => c) = .ok (some c'))
      (hx : Settles x c.heap (fun _ => none) c.arrays (c.held ++ c.globals.references)) :
      c'.Accounted := by
    simp only [map_eq_ok, Option.some_inj, exists_eq_right] at h
    exact hc.settle hx h
  cases q with
  | makeNone => exact hown h (makeNone_owns hs hl .nothing)
  | makeBool b => exact hown h (makeBool_owns hs hl .nothing b)
  | makeInteger n => exact hown h (makeInteger_owns hs hl .nothing n)
  | makeString bytes => exact hown h (makeString_owns hs hl .nothing bytes)
  | makeConcatenation left right => exact hown h (makeConcatenation_owns hs hl .nothing left right)
  | makeArray capacity =>
    simp only [Client.serve, map_eq_ok, Option.some_inj, exists_eq_right] at h
    exact after_ends ((makeArray_balanced hs hl .nothing capacity).imp
      (fun _ _ hb => ⟨hb, hc.distinct⟩) fun _ _ hb => ⟨hb, hc.distinct⟩) h
  | makeList values =>
    simp only [Client.serve, map_eq_ok, Option.some_inj, exists_eq_right] at h
    exact hc.own (by rw [List.diff_cons, List.diff_nil])
      (makeList_balanced hs hl .nothing (List.contains_iff_mem.mp hq)) h
  | makeDict keys values =>
    simp only [Client.serve, map_eq_ok, Option.some_inj, exists_eq_right] at h
    simp only [allows, Bool.and_eq_true, List.contains_iff_mem] at hq
    exact hc.own (by rw [List.diff_cons, List.diff_cons, List.diff_nil])
      (makeDict_balanced hs hl .nothing hq.1 hq.2) h
  | newList elements =>
    exact hown h (newList_balanced hs hl .nothing fun r hr =>
      seen_of_sees hs (List.all_eq_true.mp hq r hr))
  | newDict pairs =>
    refine hown h (newDict_balanced hs hl .nothing fun p hp => seen_of_sees hs ?_)
    have hboth := List.all_eq_true.mp hq p hp
    rw [Bool.and_eq_true] at hboth
    exact hboth.2
  | listPush list item =>
    simp only [allows, Bool.and_eq_true] at hq
    exact hsettle h (listPush_balanced hs hl .nothing (seen_of_sees hs hq.2))
  | dictGet dict key => exact hown h (dictGet_balanced hs hl .nothing)
  | dictSet dict key value =>
    simp only [allows, Bool.and_eq_true] at hq
    exact hsettle h (dictSet_balanced hs hl .nothing (seen_of_sees hs hq.2))
  | dictDelete dict key => exact hsettle h (dictDelete_balanced hs hl .nothing)
  | unary op r => exact hown h (unary_owns hs hl .nothing op r)
  | binary op left right => exact hown h (binary_owns hs hl .nothing op left right)
  | subscript r index => exact hown h (subscript_owns hs hl .nothing r index)
  | assignItem r index item =>
    simp only [allows, Bool.and_eq_true] at hq
    exact hsettle h (assignItem_settles hs hl .nothing r index (seen_of_sees hs hq.2))
  | deleteItem r index => exact hsettle h (deleteItem_settles hs hl .nothing r index)
  | retain r =>
    simp only [Client.serve, bind_eq_ok, pure_eq_ok, Option.some_inj] at h
    obtain ⟨h', hret, rfl⟩ := h
    obtain ⟨s', hs', hl', -⟩ := hs.retain_balanced hl (seen_of_sees hs hq).not_isArray hret
    exact ⟨hs'.balanced hl' .nothing, hc.distinct⟩
  | release r =>
    simp only [Client.serve, bind_eq_ok, pure_eq_ok, Option.some_inj] at h
    obtain ⟨h', hrel, rfl⟩ := h
    have hperm := (List.perm_cons_erase (List.contains_iff_mem.mp hq)).append_right
      c.globals.references
    exact ⟨hs.released (hl.perm hperm) .nothing hrel, hc.distinct⟩
  | bind name value =>
    simp only [Client.serve, bind_eq_ok, pure_eq_ok, Option.some_inj, Prod.exists] at h
    obtain ⟨g, h', hbind, rfl⟩ := h
    obtain ⟨hd, hb⟩ :=
      bind_balanced hs hl .nothing hc.distinct (seen_of_sees hs hq).not_isArray hbind
    exact ⟨hb, hd⟩
  | lookup name => exact hown h (get_balanced hs hl .nothing)
  | unbind name =>
    simp only [Client.serve, map_eq_ok, Option.some_inj, exists_eq_right] at h
    exact after_ends ((delete_balanced hs hl .nothing hc.distinct).imp
      (fun _ _ hdeleted => ⟨hdeleted.2, hdeleted.1 ▸ hc.distinct.remove⟩)
      fun _ _ hb => ⟨hb, hc.distinct⟩) h
  | clear =>
    simp only [Client.serve, bind_eq_ok, pure_eq_ok, Option.some_inj] at h
    obtain ⟨h', hclear, rfl⟩ := h
    refine ⟨?_, List.nodup_nil⟩
    have hb := releases_balanced hs hl .nothing hclear
    rwa [← List.append_nil c.held] at hb
  | collect given =>
    refine hc.collect (fun hempty r hr hlive => ?_) h
    simp only [allows, hempty, Bool.not_true, Bool.false_or] at hq
    simpa [hlive] using List.all_eq_true.mp hq r hr

theorem Run.accounted (hrun : Run allows c) : c.Accounted := by
  induction hrun with
  | start hnew => exact ⟨(ofConfig_sound hnew).1.balanced .empty .nothing, List.nodup_nil⟩
  | step _ hq hserve ih => exact ih.serve hq hserve

theorem Run.heap_counted (hrun : Run allows c) :
    ∃ out, c.heap.CountedBy (c.arrays ++ (c.held ++ c.globals.references)) out := by
  obtain ⟨s, hs, hl, -⟩ := hrun.accounted.balanced
  exact hs.countedBy hl

def household : Option Client :=
  session allows { poolSize := 512, poison := false, dictMinCapacity := 4 } [.makeInteger 1,
    .newList [.ofIndex 0], .newDict [(.ofIndex 0, .ofIndex 2)], .bind "d" (.ofIndex 5)]

theorem household_isSome : household.isSome = true := by decide +kernel

theorem household_counted : ∃ c, household = some c ∧
    ∃ out, c.heap.CountedBy (c.arrays ++ (c.held ++ c.globals.references)) out := by
  obtain ⟨c, hc⟩ := Option.isSome_iff_exists.mp household_isSome
  exact ⟨c, hc, (Run.session hc).heap_counted⟩

end Client
end CountedHeap
