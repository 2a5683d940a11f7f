import CountedHeap.Proofs.Reserves
import Mathlib.Data.Fintype.EquivFin
import Mathlib.Order.WellFounded

/-!
What reference counting cannot free. A value without an owner is counted by what leads to it, and
so is what leads to it in turn; in a heap of finitely many values that goes round in a cycle. Where
no values are on a cycle, none outlasts its owners.
-/

namespace CountedHeap

instance : Finite Reference :=
  Finite.of_injective (fun r : Reference => r.raw.toBitVec.toFin) fun r q h => by
    cases r
    cases q
    exact congrArg _ (Int32.toBitVec_inj.mp (BitVec.toFin_inj.mp h))

theorem exists_cycle {α : Type} [Finite α] {E : α → α → Prop} {P : α → Prop} {a : α}
    (hback : ∀ b, P b → ∃ c, P c ∧ E c b) (ha : P a) :
    ∃ z, P z ∧ Relation.TransGen E z z ∧ Relation.ReflTransGen E z a := by
  by_contra hno
  have hround : ∀ b, P b → Relation.ReflTransGen E b a → ¬Relation.TransGen E b b :=
    fun b hb hba hbb => hno ⟨b, hb, hbb, hba⟩
  -- Along the edges to `a` nothing comes back, so some place has nothing before it.
  let before (b c : α) : Prop :=
    (P b ∧ Relation.ReflTransGen E b a) ∧ Relation.TransGen E b c
  have htrans : IsTrans α before := ⟨fun _ _ _ hbc hcd => ⟨hbc.1, hbc.2.trans hcd.2⟩⟩
  have hirrefl : Std.Irrefl before := ⟨fun b hb => hround b hb.1.1 hb.1.2 hb.2⟩
  obtain ⟨m, ⟨hm, hma⟩, hfirst⟩ := (Finite.wellFounded_of_trans_of_irrefl before).has_min
    {b | P b ∧ Relation.ReflTransGen E b a} ⟨a, ha, .refl⟩
  obtain ⟨c, hc, hcm⟩ := hback m hm
  have hca := Relation.ReflTransGen.head hcm hma
  exact hfirst c ⟨hc, hca⟩ ⟨⟨hc, hca⟩, .single hcm⟩

namespace Heap

def Edge (h : Heap) (r q : Reference) : Prop :=
  ∃ held, h.outgoing r = .ok held ∧ q ∈ held ∧ q.isLive = true

def Acyclic (h : Heap) : Prop := ∀ r, ¬Relation.TransGen h.Edge r r

/-- A cycle leads to `r`, and no member of it can be reached from an owner. -/
def Leaked (h : Heap) (owned : List Reference) (r : Reference) : Prop :=
  ∃ z, Relation.TransGen h.Edge z z ∧ Relation.ReflTransGen h.Edge z r ∧
    ∀ m, Relation.ReflTransGen h.Edge z m → Relation.ReflTransGen h.Edge m z →
      ¬h.Reachable owned m

variable {h : Heap} {s : Store} {arrays owned : List Reference} {r q : Reference}

theorem Stored.edge_iff (hs : h.Stored s) : h.Edge r q ↔ q ∈ s.held r ∧ q.isLive = true := by
  constructor
  · rintro ⟨held, hheld, hq, hlive⟩
    obtain ⟨c, hr, rfl⟩ := hs.outgoing_eq_ok.mp hheld
    rw [Store.held_eq hr]
    exact ⟨hq, hlive⟩
  · rintro ⟨hq, hlive⟩
    cases hr : s r with
    | none =>
      rw [Store.held_of_none (by rw [Store.content, hr]; rfl)] at hq
      exact absurd hq List.not_mem_nil
    | some c => exact ⟨_, hs.outgoing_eq hr, hq, hlive⟩

theorem Reachable.along (hr : h.Reachable owned r) (hw : Relation.ReflTransGen h.Edge r q) :
    h.Reachable owned q := by
  induction hw with
  | refl => exact hr
  | tail _ hedge ih =>
    obtain ⟨held, hheld, hq, hlive⟩ := hedge
    exact ih.edge hheld hq hlive

theorem Stored.led_to (hs : h.Stored s) (hl : s.Ledger arrays owned) (hr : h.Occupied r)
    (hno : ¬h.Reachable (arrays ++ owned) r) :
    ∃ q, (h.Occupied q ∧ ¬h.Reachable (arrays ++ owned) q) ∧ h.Edge q r := by
  obtain ⟨c, hc⟩ := hs.occupied_iff.mp hr
  have hlive := hs.isLive hc
  have hpos := hl.positive (Store.content_of hc)
  rw [hl.count_eq hlive, ← List.count_append] at hpos
  have hunowned : (arrays ++ owned).count r = 0 :=
    List.count_eq_zero.mpr fun hmem => hno (.root hmem hlive)
  have hled : ¬∀ q, q.isLive = true → r ∉ s.held q := fun hall => by
    rw [hunowned, edges.eq_zero hall] at hpos
    exact absurd hpos (Nat.lt_irrefl 0)
  push Not at hled
  obtain ⟨q, -, hq⟩ := hled
  have hedge := hs.edge_iff.mpr ⟨hq, hlive⟩
  obtain ⟨x, hx, -⟩ := Store.exists_of_held hq
  obtain ⟨d, hd, -⟩ := Store.content_eq_some.mp hx
  exact ⟨q, ⟨hs.occupied_iff.mpr ⟨d, hd⟩, fun hreach => hno (hreach.along (.single hedge))⟩, hedge⟩

theorem Stored.leaked (hs : h.Stored s) (hl : s.Ledger arrays owned) (hr : h.Occupied r)
    (hno : ¬h.Reachable (arrays ++ owned) r) : h.Leaked (arrays ++ owned) r := by
  obtain ⟨z, ⟨-, hz⟩, hcycle, hway⟩ := exists_cycle
    (P := fun q => h.Occupied q ∧ ¬h.Reachable (arrays ++ owned) q)
    (fun q hq => hs.led_to hl hq.1 hq.2) ⟨hr, hno⟩
  exact ⟨z, hcycle, hway, fun m _ hback hm => hz (hm.along hback)⟩

/-- Beyond what the owners reach, there is only what hangs on cycles that they do not reach. -/
def OnlyCyclesLeak (h : Heap) (owned : List Reference) : Prop :=
  ∀ r, h.Occupied r → h.Reachable owned r ∨ h.Leaked owned r

theorem Stored.only_cycles_leak (hs : h.Stored s) (hl : s.Ledger arrays owned) :
    h.OnlyCyclesLeak (arrays ++ owned) := fun _ hr =>
  or_iff_not_imp_left.mpr (hs.leaked hl hr)

theorem Acyclic.reachable (ha : h.Acyclic) (hs : h.Stored s) (hl : s.Ledger arrays owned)
    (hr : h.Occupied r) : h.Reachable (arrays ++ owned) r := by
  by_contra hno
  obtain ⟨z, hcycle, -⟩ := hs.leaked hl hr hno
  exact ha z hcycle

theorem not_reachable_nil : ¬h.Reachable [] r := by
  intro hr
  induction hr with
  | root hr => exact List.not_mem_nil hr
  | edge _ _ _ _ ih => exact ih

theorem Stored.reachable_blank (hs : h.Stored s) (hblank : ∀ q ∈ owned, s.held q = [])
    (hr : h.Reachable owned r) : r ∈ owned := by
  rw [hs.reachable_iff] at hr
  induction hr with
  | root hr => exact hr
  | edge _ hq _ ih =>
    rw [hblank _ ih] at hq
    exact absurd hq List.not_mem_nil

theorem Sound.refsUsed_eq (hs : h.Sound s) {refs : List Reference} (hnodup : refs.Nodup)
    (hall : ∀ r, h.Occupied r ↔ r ∈ refs) : h.refsUsed = refs.length := by
  have hmem : ∀ r, r ∈ h.table.entries.map Prod.fst ↔ r ∈ refs := fun r => by
    rw [← hall, Occupied, Option.ne_none_iff_exists', List.mem_map]
    constructor
    · rintro ⟨⟨r, a⟩, he, rfl⟩
      exact ⟨a, (Table.mem_entries hs.small).mp he⟩
    · rintro ⟨a, ha⟩
      exact ⟨(r, a), (Table.mem_entries hs.small).mpr ha, rfl⟩
  have hperm := (List.perm_ext_iff_of_nodup hs.nodup_entries hnodup).mpr hmem
  rw [refsUsed, Table.used_eq, ← Table.map_entries, List.length_map, ← hperm.length_eq,
    List.length_map]

theorem Sound.vacant (hs : h.Sound s) (hnone : ∀ r, ¬h.Occupied r) :
    h.refsUsed = 0 ∧ h.used = .ok 0 := by
  have hzero : h.refsUsed = 0 := hs.refsUsed_eq List.nodup_nil fun r =>
    ⟨fun hr => absurd hr (hnone r), fun hr => absurd hr List.not_mem_nil⟩
  refine ⟨hzero, ?_⟩
  rw [refsUsed, Table.used_eq, List.length_eq_zero_iff] at hzero
  rw [hs.used_eq, bytes, hzero]
  rfl

end Heap

namespace Client

open Heap

variable {c : Client}

theorem Run.only_cycles_leak (hrun : Run allows c) :
    c.heap.OnlyCyclesLeak (c.arrays ++ (c.held ++ c.globals.references)) := by
  obtain ⟨s, hs, hl, -⟩ := hrun.accounted.balanced
  exact hs.only_cycles_leak hl

theorem Run.drained (hrun : Run allows c) (hacyclic : c.heap.Acyclic) (harrays : c.arrays = [])
    (hheld : c.held = []) (hglobals : c.globals = []) :
    c.heap.refsUsed = 0 ∧ c.heap.used = .ok 0 := by
  obtain ⟨s, hs, hl, -⟩ := hrun.accounted.balanced
  refine hs.vacant fun r hr => not_reachable_nil (h := c.heap) (r := r) ?_
  have hreach := hacyclic.reachable hs.toStored hl hr
  rwa [harrays, hheld, hglobals] at hreach

end Client

namespace Program

open Heap

variable {p : Program}

theorem Run.mem_references (hrun : Run prudent p)
    (hbound : ∀ b ∈ p.session.globals, Session.singletons.contains b.1 = true) {r : Reference}
    (hr : r ∈ p.session.globals.references) :
    r ∈ [p.session.noneRef, p.session.trueRef, p.session.falseRef] := by
  obtain ⟨st, hp⟩ := hrun.inOrder
  obtain ⟨⟨name, v⟩, hb, rfl⟩ := List.mem_map.mp hr
  have hfound := hp.proper.distinct.find?_of_mem hb
  have hother {w : Reference} (hw : (name, w) ∈ p.session.globals) : v = w := by
    have hfound' := hp.proper.distinct.find?_of_mem hw
    rwa [hfound, Option.some_inj] at hfound'
  have hname := hbound _ hb
  simp only [Session.singletons, List.contains_iff_mem, List.mem_cons, List.not_mem_nil,
    or_false] at hname
  rcases hname with rfl | rfl | rfl
  · simp [hother hp.none.1]
  · simp [hother hp.yes.1]
  · simp [hother hp.no.1]

theorem Run.singletons_left (hrun : Run prudent p) (hacyclic : p.session.heap.Acyclic)
    (hfresh : p.fresh = [])
    (hbound : ∀ b ∈ p.session.globals, Session.singletons.contains b.1 = true) :
    p.session.heap.refsUsed = 3 := by
  obtain ⟨st, hp⟩ := hrun.inOrder
  have hs := hp.sound
  have hcontents : ∀ {q : Reference} {x : Content}, st.content q = some x →
      p.session.heap.Occupied q := fun hx => by
    obtain ⟨c, hc, -⟩ := Store.content_eq_some.mp hx
    exact hs.occupied_iff.mpr ⟨c, hc⟩
  have hthree : [p.session.noneRef, p.session.trueRef, p.session.falseRef].Nodup := by
    have hnt := Store.ne_of_content hp.none.2 hp.yes.2 (by simp)
    have hnf := Store.ne_of_content hp.none.2 hp.no.2 (by simp)
    have htf := Store.ne_of_content hp.yes.2 hp.no.2 (by simp)
    simp [hnt, hnf, htf]
  refine hs.refsUsed_eq hthree fun r => ⟨fun hr => ?_, fun hr => ?_⟩
  · have hreach := hacyclic.reachable hs.toStored hp.ledger hr
    rw [hfresh, List.nil_append, List.nil_append] at hreach
    refine hrun.mem_references hbound (hs.reachable_blank (fun q hq => ?_) hreach)
    have hq := hrun.mem_references hbound hq
    simp only [List.mem_cons, List.not_mem_nil, or_false] at hq
    rcases hq with rfl | rfl | rfl
    · exact Store.held_of_content hp.none.2
    · exact Store.held_of_content hp.yes.2
    · exact Store.held_of_content hp.no.2
  · simp only [List.mem_cons, List.not_mem_nil, or_false] at hr
    rcases hr with rfl | rfl | rfl
    · exact hcontents hp.none.2
    · exact hcontents hp.yes.2
    · exact hcontents hp.no.2

theorem Run.only_cycles_leak (hrun : Run prudent p) :
    p.session.heap.OnlyCyclesLeak (p.fresh ++ p.session.globals.references) := by
  obtain ⟨st, hp⟩ := hrun.inOrder
  have howners : [] ++ (p.fresh ++ p.session.globals.references) =
    p.fresh ++ p.session.globals.references := rfl
  rw [← howners]
  exact hp.sound.only_cycles_leak hp.ledger

end Program

/-- Counting references leaks what hangs on cycles and nothing else: without cycles, a client that
owns nothing any more leaves an empty heap, and a program the three singletons. -/
theorem leaks_only_cycles :
    (∀ c, Client.Run Client.allows c →
      c.heap.OnlyCyclesLeak (c.arrays ++ (c.held ++ c.globals.references)) ∧
        (c.heap.Acyclic → c.arrays = [] → c.held = [] → c.globals = [] →
          c.heap.refsUsed = 0 ∧ c.heap.used = .ok 0)) ∧
    ∀ p, Program.Run Program.prudent p →
      p.session.heap.OnlyCyclesLeak (p.fresh ++ p.session.globals.references) ∧
        (p.session.heap.Acyclic → p.fresh = [] →
          (∀ b ∈ p.session.globals, Session.singletons.contains b.1 = true) →
            p.session.heap.refsUsed = 3) :=
  ⟨fun _ hrun => ⟨hrun.only_cycles_leak, hrun.drained⟩,
    fun _ hrun => ⟨hrun.only_cycles_leak, hrun.singletons_left⟩⟩

section Samples

def stranded : Option Client :=
  Client.session Client.allows { poolSize := 224 } [.makeInteger 0, .newList [.ofIndex 0],
    .assignItem (.ofIndex 2) (.ofIndex 0) (.ofIndex 2), .release (.ofIndex 2),
    .release (.ofIndex 0)]

def spent : Option Client :=
  Client.session Client.allows { poolSize := 512 } [.makeString [0x61],
    .newList [.ofIndex 0, .ofIndex 0], .bind "x" (.ofIndex 2), .release (.ofIndex 2),
    .release (.ofIndex 0), .unbind "x"]

def settled : Option Program :=
  Program.run Program.prudent { poolSize := 512 } [.string [0x61], .list [.ofIndex 3],
    .release (.ofIndex 3), .release (.ofIndex 5)]

def Heap.descends (h : Heap) : Bool :=
  h.table.entries.all fun e =>
    match h.outgoing e.1 with
    | .ok held => held.all fun q => q.index < e.1.index
    | .error _ => false

theorem Heap.Stored.acyclic_of_descends {h : Heap} {s : Store} (hs : h.Stored s)
    (hdescends : h.descends = true) : h.Acyclic := by
  have hedge : ∀ p q, h.Edge p q → q.index < p.index := by
    rintro p q ⟨held, hheld, hq, -⟩
    obtain ⟨c, hp, -⟩ := hs.outgoing_eq_ok.mp hheld
    have hentry := (Table.mem_entries hs.small).mpr (hs.get?_eq hp)
    have hout := List.all_eq_true.mp hdescends _ hentry
    simp only [hheld] at hout
    exact of_decide_eq_true (List.all_eq_true.mp hout q hq)
  have hway : ∀ p q, Relation.TransGen h.Edge p q → q.index < p.index := by
    intro p q hway
    induction hway with
    | single he => exact hedge _ _ he
    | tail _ he ih => exact (hedge _ _ he).trans ih
  exact fun r hcycle => (hway r r hcycle).false

def Heap.flat (h : Heap) : Bool :=
  h.table.entries.all fun e =>
    match h.outgoing e.1 with
    | .ok [] => true
    | _ => false

theorem Heap.Stored.acyclic_of_flat {h : Heap} {s : Store} (hs : h.Stored s)
    (hflat : h.flat = true) : h.Acyclic := by
  refine hs.acyclic_of_descends (List.all_eq_true.mpr fun e he => ?_)
  have hout := List.all_eq_true.mp hflat e he
  split at hout
  case h_1 heq => simp only [heq, List.all_nil]
  case h_2 => cases hout

theorem samples_leak :
    (∃ c, stranded = some c ∧ c.heap.Leaked [] (.ofIndex 2)) ∧
      (∃ c, spent = some c ∧ c.heap.refsUsed = 0 ∧ c.heap.used = .ok 0) ∧
        ∃ p, settled = some p ∧ p.session.heap.refsUsed = 3 := by
  refine ⟨?_, ?_, ?_⟩
  · have hall : (stranded.any fun c => (c.heap.table.get? (.ofIndex 2)).isSome &&
        (c.arrays ++ (c.held ++ c.globals.references)).isEmpty) = true := by decide +kernel
    obtain ⟨c, hc, hends⟩ := (Option.any_eq_true ..).mp hall
    rw [Bool.and_eq_true, List.isEmpty_iff] at hends
    have honly := (leaks_only_cycles.1 c (Client.Run.session hc)).1
    rw [hends.2] at honly
    exact ⟨c, hc, (honly _ (Option.isSome_iff_ne_none.mp hends.1)).resolve_left
      Heap.not_reachable_nil⟩
  · have hall : (spent.any fun c => c.heap.flat && c.arrays.isEmpty && c.held.isEmpty &&
        c.globals.isEmpty) = true := by decide +kernel
    obtain ⟨c, hc, hends⟩ := (Option.any_eq_true ..).mp hall
    simp only [Bool.and_eq_true, List.isEmpty_iff] at hends
    obtain ⟨⟨⟨hflat, harrays⟩, hheld⟩, hglobals⟩ := hends
    have hrun : Client.Run Client.allows c := Client.Run.session hc
    obtain ⟨s, hs⟩ := hrun.consistent
    exact ⟨c, hc, (leaks_only_cycles.1 c hrun).2 (hs.acyclic_of_flat hflat) harrays hheld hglobals⟩
  · have hall : (settled.any fun p => p.session.heap.flat && p.fresh.isEmpty &&
        p.session.globals.all fun b => Session.singletons.contains b.1) = true := by decide +kernel
    obtain ⟨p, hp, hends⟩ := (Option.any_eq_true ..).mp hall
    simp only [Bool.and_eq_true, List.isEmpty_iff] at hends
    obtain ⟨⟨hflat, hfresh⟩, hbound⟩ := hends
    have hrun : Program.Run Program.prudent p := Program.Run.of_run hp
    obtain ⟨st, hin⟩ := hrun.inOrder
    exact ⟨p, hp, (leaks_only_cycles.2 p hrun).2 (hin.sound.acyclic_of_flat hflat) hfresh
      (List.all_eq_true.mp hbound)⟩

end Samples

end CountedHeap
