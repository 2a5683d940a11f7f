import CountedHeap.Proofs.Completing
import CountedHeap.Proofs.Refcounts

/-!
Collections that run out of room. A block may be larger than what was asked for by as much as a
header, and values need not be copied in the order in which they were made; so what fills one half
need not fit into the other. Where a half is not full, it does.
-/

namespace CountedHeap

theorem Store.Ledger.countable {h : Heap} {s : Store} {arrays owned roots : List Reference}
    (hl : s.Ledger arrays owned) (hs : h.Sound s)
    (hroots : ∀ r ∈ roots, r.isLive = true → h.Occupied r)
    (hfew : roots.length ≤ Memory.maxSize) : Heap.Countable s roots := by
  refine ⟨fun q hreach => ?_, fun q _ => ?_⟩
  · cases hreach with
    | root hmem hlive =>
      obtain ⟨c, hc⟩ := hs.occupied_iff.mp (hroots q hmem hlive)
      exact ⟨c.content, Store.content_of hc⟩
    | edge hr hmem hlive =>
      have hpos := edges.pos_of_mem hr.isLive hmem
      exact hl.exact.occupied hlive (by omega)
  · have hcount := List.count_le_length (a := q) (l := roots)
    have hedges := hs.edges_le q
    have hbytes := hs.bytes_le
    have hinside := hs.halved.inside
    have hbound := hs.bound
    simp only [Memory.maxSize, Word.limit] at *
    omega

theorem Store.Ledger.countable_owned {h : Heap} {s : Store} {arrays owned roots : List Reference}
    (hl : s.Ledger arrays owned) (hs : h.Sound s)
    (howned : ∀ q, roots.count q ≤ owned.count q) : Heap.Countable s roots := by
  have hcount : ∀ q, q.isLive = true → roots.count q + edges s.held q ≤ s.count q := fun q hq => by
    have hexact := hl.exact q hq
    have hq := howned q
    rw [heldBut_nil, List.count_append] at hexact
    omega
  have hthere : ∀ q, q.isLive = true → 0 < roots.count q + edges s.held q →
      ∃ x, s.content q = some x := by
    intro q hq hpos
    refine hl.exact.occupied hq ?_
    have hq := howned q
    rw [List.count_append]
    omega
  refine ⟨fun q hreach => ?_, fun q hlive => Nat.lt_of_le_of_lt (hcount q hlive) ?_⟩
  · cases hreach with
    | root hmem hlive => exact hthere q hlive (Nat.add_pos_left (List.count_pos_iff.mpr hmem) _)
    | edge hr hmem hlive =>
      exact hthere q hlive (Nat.add_pos_right _ (edges.pos_of_mem hr.isLive hmem))
  · cases hs' : s q with
    | none =>
      rw [Store.count_of_none hs']
      decide
    | some c =>
      rw [Store.count_eq hs', ← hs.count hs']
      exact Memory.linkAt_lt ..

def Action.fails {ε α : Type} (x : Action ε α) (h : Heap) : Bool :=
  match x.runOn h with
  | .ok (.error _, _) => true
  | _ => false

theorem Action.exists_of_fails {ε α : Type} {x : Action ε α} {h : Heap}
    (hx : x.fails h = true) : ∃ e h', x.runOn h = .ok (.error e, h') := by
  unfold fails at hx
  split at hx
  case h_1 e h' hrun => exact ⟨e, h', hrun⟩
  case h_2 => cases hx

namespace Client

variable {c : Client} {roots : List Reference}

theorem sees_of_content {s : Store} {r : Reference} {x : Content} (hs : c.heap.Sound s)
    (hr : s.content r = some x) (hkind : x.kind ≠ .array) : c.sees r = true := by
  have hkindOf : c.heap.kindOf r = .ok x.kind := hs.kindOf_eq_ok.mpr ⟨x, hr, rfl⟩
  rw [sees, hkindOf]
  simpa using hkind

/-- A client without bindings that collects while there is room still sees the roots after that. -/
theorem Accounted.collect_served (hc : c.Accounted) (hempty : c.globals.isEmpty = true)
    (hroots : ∀ r ∈ roots, c.sees r = true) (hfew : roots.length ≤ Memory.maxSize)
    (hused : c.heap.used ≠ .ok c.heap.config.halfSize)
    (hroomy : c.heap.stats.Roomy c.heap.config.halfSize) :
    ∃ c', c.serve (.collect roots) = .ok (some c') ∧ ∀ r ∈ roots, c'.sees r = true := by
  obtain ⟨s, hs, hl, -⟩ := hc.balanced
  have hseen : ∀ r ∈ roots, ∃ c, s r = some c := fun r hr => by
    obtain ⟨x, hx, -⟩ := seen_of_sees hs (hroots r hr)
    exact (Store.content_eq_some.mp hx).imp fun _ h => h.1
  have hcountable := hl.countable hs (fun r hr _ => hs.occupied_iff.mpr (hseen r hr)) hfew
  obtain ⟨a, h', hrun⟩ := (hs.collect_completes hcountable).resolve_right fun h => h.1 hroomy
  cases a with
  | error e =>
    obtain ⟨-, hfull⟩ := (hs.collect roots).bad hrun
    exact absurd (hfull ▸ hs.used_eq) hused
  | ok col =>
    obtain ⟨s', hcollected⟩ := (hs.collect roots).good hrun
    have hgiven : c.roots roots = roots := if_pos hempty
    refine ⟨_, collect_eq_some.mpr ⟨col, h', hgiven.symm ▸ hrun, rfl⟩, fun r hr => ?_⟩
    obtain ⟨x, hx, hkind⟩ := seen_of_sees hs (hroots r hr)
    obtain ⟨d, hd⟩ := hseen r hr
    obtain ⟨d', hd'⟩ := (hcollected.reached r).mpr (.root hr (hs.isLive hd))
    have hsame := hcollected.content r d' hd'
    rw [hx, Option.some_inj] at hsame
    exact sees_of_content hcollected.sound (Store.content_of hd') (hsame ▸ hkind)

/-- A collection over live roots has a result, unless values fill their half to the last byte. Then
it may be that a value of the least size finds no room in the other half. Apart from that, all that
can go wrong is that the totals of the collections no longer fit their words. -/
theorem Run.collect_answers (hrun : Run allows c)
    (hroots : ∀ r ∈ roots, r.isLive = true → c.heap.Occupied r)
    (hfew : roots.length ≤ Memory.maxSize) :
    (∃ col h', (Heap.collect roots).runOn c.heap = .ok (.ok col, h')) ∨
      (c.heap.used = .ok c.heap.config.halfSize ∧
        ∃ h', (Heap.collect roots).runOn c.heap =
          .ok (.error (.toSpaceExhausted ⟨Block.headerSize, c.heap.config.halfSize⟩), h')) ∨
      ¬c.heap.stats.Roomy c.heap.config.halfSize ∧
        (Heap.collect roots).runOn c.heap = .error .overflow := by
  obtain ⟨s, hs, hl, -⟩ := hrun.accounted.balanced
  rcases hs.collect_completes (hl.countable hs hroots hfew) with ⟨a, h', hcollect⟩ | hoverflow
  · cases a with
    | ok col => exact .inl ⟨col, h', hcollect⟩
    | error e =>
      obtain ⟨rfl, hfull⟩ := (hs.collect roots).bad hcollect
      exact .inr (.inl ⟨hfull ▸ hs.used_eq, h', hcollect⟩)
  · exact .inr (.inr hoverflow)

def brimful : Option Client :=
  session allows { poolSize := 112 } [.makeNone, .makeInteger 5]

def brimfulRoots : List Reference := [.ofIndex 1, .ofIndex 0]

theorem brimful_fails : ∃ c, brimful = some c ∧ (∀ r ∈ brimfulRoots, c.heap.Occupied r) ∧
    ∃ e h', (Heap.collect brimfulRoots).runOn c.heap = .ok (.error e, h') := by
  have hall : (brimful.any fun c => brimfulRoots.all (fun r => (c.heap.table.get? r).isSome) &&
      (Heap.collect brimfulRoots).fails c.heap) = true := by decide +kernel
  obtain ⟨c, hc, hfails⟩ := (Option.any_eq_true ..).mp hall
  rw [Bool.and_eq_true, List.all_eq_true] at hfails
  obtain ⟨hoccupied, hfails⟩ := hfails
  exact ⟨c, hc, fun r hr => Option.isSome_iff_ne_none.mp (hoccupied r hr),
    Action.exists_of_fails hfails⟩

theorem brimful_exhausted : ∃ c, brimful = some c ∧ c.heap.used = .ok c.heap.config.halfSize ∧
    ∃ h', (Heap.collect brimfulRoots).runOn c.heap =
      .ok (.error (.toSpaceExhausted ⟨Block.headerSize, c.heap.config.halfSize⟩), h') := by
  obtain ⟨c, hc, hoccupied, e, h', hfail⟩ := brimful_fails
  refine ⟨c, hc, ?_⟩
  rcases (Run.session hc).collect_answers (fun r hr _ => hoccupied r hr) (by decide) with
    ⟨col, h'', hok⟩ | hexhausted | ⟨-, hoverflow⟩
  · rw [hfail] at hok
    cases hok
  · exact hexhausted
  · rw [hfail] at hoverflow
    cases hoverflow

/-- Exact ownership and live roots do not keep a collection from failing. -/
theorem collect_not_total : ¬∀ c, Run allows c → ∀ roots : List Reference,
    (∀ r ∈ roots, r.isLive = true → c.heap.Occupied r) →
      ∃ col h', (Heap.collect roots).runOn c.heap = .ok (.ok col, h') := by
  intro htotal
  obtain ⟨c, hc, hoccupied, e, h', hfail⟩ := brimful_fails
  obtain ⟨col, h'', hok⟩ := htotal c (Run.session hc) brimfulRoots fun r hr _ => hoccupied r hr
  rw [hfail] at hok
  cases hok

end Client
end CountedHeap
