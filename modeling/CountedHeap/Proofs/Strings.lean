import CountedHeap.Proofs.Dictionaries

/-!
Strings are the bytes that they were made from. A string stands in its block behind the header and
ends at its first zero byte, whatever follows it there. Its block may be larger than it has to be
and may move, and nothing writes to it.
-/

namespace CountedHeap

namespace Heap

/-- The value is a string of these bytes, and as long as they are many. -/
structure Spells (h : Heap) (r : Reference) (bytes : List UInt8) : Prop where
  value : h.value r = .ok (.string bytes)
  length : h.length r = .ok (.ok bytes.length)

variable {h h' : Heap} {s : Store} {r q : Reference} {c : Cell} {x : Content} {bytes : List UInt8}

theorem Stored.spells_iff (hs : h.Stored s) :
    h.Spells r bytes ↔ s.content r = some (.string bytes) := by
  have hbytes : h.stringBytes r = .ok bytes ↔ s.content r = some (.string bytes) :=
    hs.stringBytes_eq_ok
  constructor
  · intro hr
    refine hbytes.mp ?_
    rw [stringBytes, hr.value]
    rfl
  · intro hr
    obtain ⟨c, hc, hx⟩ := Store.content_eq_some.mp hr
    refine ⟨by rw [hs.value_eq hc, hx]; rfl, ?_⟩
    simp only [Heap.length, hs.kindOf_eq hc, hx, Content.kind, lengthAs?, hbytes.mpr hr]
    rfl

theorem Made.refcount_eq (hm : h'.Made s r x) (hs : h.Stored s) (hq : h.Occupied q) :
    h'.refcount q = h.refcount q := by
  obtain ⟨addr, hs'⟩ := hm.sound
  obtain ⟨c, hc⟩ := hs.occupied_iff.mp hq
  have hne := Store.ne_of_unused hm.unused hc
  rw [hs.refcount_eq hc, hs'.refcount_eq ((Store.set_of_ne hne).trans hc)]

end Heap

def Request.Spells (h : Heap) : Request → List UInt8 → Prop
  | .makeString given, bytes => bytes = given
  | .makeConcatenation left right, bytes =>
      ∃ x y, h.Spells left x ∧ h.Spells right y ∧ bytes = x ++ y
  | _, _ => False

namespace Client

open Heap

variable {c c' c₀ : Client} {q : Request} {qs : List Request} {r : Reference} {s s' : Store}
  {x : Content} {bytes : List UInt8}

theorem Accounted.key_kept (hc : c.Accounted) (hq : c.allows q = true)
    (hserve : c.serve q = .ok (some c')) (hs : c.heap.Sound s) (hs' : c'.heap.Sound s')
    (hx : s.content r = some x) (hhash : x.hash? ≠ none) (hsees : c'.sees r = true) :
    s'.content r = some x := by
  obtain ⟨y, hy, -⟩ := seen_of_sees hs' hsees
  rcases hc.collected_or_moved hq hserve with ⟨given, col, -, hrun⟩ | ⟨hcollect, -⟩
  · obtain ⟨t, hcollected⟩ := (hs.collect _).good hrun
    obtain rfl := hs'.toStored.unique hcollected.sound.toStored
    rw [hy, ← hcollected.fewer r y hy, hx]
  · rw [hy, hc.key_unchanged hs hs' hq hcollect hserve hx hhash hy]

theorem Accounted.spells_kept (hc : c.Accounted) (hr : c.heap.Spells r bytes)
    (hplay : c.play (holds r) qs = some c') (hsees : c'.sees r = true) :
    c'.heap.Spells r bytes := by
  induction qs generalizing c with
  | nil =>
    cases hplay
    exact hr
  | cons q rest ih =>
    obtain ⟨hq, c₁, hserve, hrest⟩ := play_cons hplay
    have hallowed := (Bool.and_eq_true_iff.mp hq).2
    have hc₁ := hc.serve hallowed hserve
    obtain ⟨s, hs, -⟩ := hc.balanced
    obtain ⟨s₁, hs₁, -⟩ := hc₁.balanced
    refine ih hc₁ (hs₁.spells_iff.mpr ?_) hrest
    exact hc.key_kept hallowed hserve hs hs₁ (hs.spells_iff.mp hr) nofun (sees_of_play hrest hsees)

theorem made_of_spells (hs : c.heap.Sound s) (hspells : q.Spells c.heap bytes)
    (hserve : c.serve q = .ok (some c')) (hheld : c'.held = r :: c.held) :
    c'.heap.Made s r (.string bytes) := by
  cases q <;> try exact hspells.elim
  case makeString given =>
    cases hspells
    simp only [Client.serve, map_eq_ok, Option.some_inj, exists_eq_right] at hserve
    refine after_ends (P := fun c' => c'.held = r :: c.held → c'.heap.Made s r _)
      ((hs.makeString bytes).imp (fun p h' hmade hheld => ?_) fun _ h' _ hheld => ?_) hserve hheld
    · rwa [← (List.cons_eq_cons.mp hheld).1]
    · exact absurd hheld.symm (List.cons_ne_self r c.held)
  case makeConcatenation left right =>
    obtain ⟨x, y, hx, hy, rfl⟩ := hspells
    simp only [Client.serve, map_eq_ok, Option.some_inj, exists_eq_right] at hserve
    refine after_ends (P := fun c' => c'.held = r :: c.held → c'.heap.Made s r _)
      ((hs.makeConcatenation left right).imp ?_ fun _ h' _ hheld => ?_) hserve hheld
    · rintro p h' ⟨x', y', hx', hy', hmade⟩ hheld
      have hleft := (hs.spells_iff.mp hx).symm.trans hx'
      have hright := (hs.spells_iff.mp hy).symm.trans hy'
      cases hleft
      cases hright
      rwa [← (List.cons_eq_cons.mp hheld).1]
    · exact absurd hheld.symm (List.cons_ne_self r c.held)

/-- A string is made at a reference that had no value and changes no other value, be it one of the
strings that it is put together from. From then on it spells what it was made from for as long as
the client keeps it. -/
theorem Run.strings_kept (hrun : Run allows c) (hq : c.allows q = true)
    (hspells : q.Spells c.heap bytes) (hserve : c.serve q = .ok (some c₀))
    (hheld : c₀.held = r :: c.held) :
    (¬c.heap.Occupied r ∧ c₀.heap.Spells r bytes ∧ c₀.heap.refcount r = .ok 1) ∧
      (∀ p, c.heap.Occupied p →
        Intact c.heap c₀.heap p ∧ c₀.heap.refcount p = c.heap.refcount p) ∧
      ∀ {qs c'}, c₀.play (holds r) qs = some c' → c'.sees r = true → c'.heap.Spells r bytes := by
  have hc := hrun.accounted
  obtain ⟨s, hs, hl, -⟩ := hc.balanced
  have hmade := made_of_spells hs hspells hserve hheld
  obtain ⟨addr, hs₀⟩ := hmade.sound
  have hspells₀ : c₀.heap.Spells r bytes := hs₀.spells_iff.mpr (by rw [Store.content_set_self])
  refine ⟨⟨hmade.not_occupied hs.toStored, hspells₀, hs₀.refcount_eq Store.set_self⟩,
    fun p hp => ⟨?_, hmade.refcount_eq hs.toStored hp⟩,
    fun hplay hsees => (hc.serve hq hserve).spells_kept hspells₀ hplay hsees⟩
  have hcollect : ∀ roots, q ≠ .collect roots := by
    rintro roots rfl
    exact hspells
  have htarget : q.target = none := by
    cases q <;> first | rfl | exact hspells.elim
  have hisolates := Path.isolates (hc.moved hq hcollect hserve).path hs hl
  rw [htarget] at hisolates
  exact hisolates.others p hp (hs₀.occupied_set hs hp) nofun nofun

def reused : Option Client :=
  session allows { poolSize := 224 }
    [.makeString (List.replicate 17 0x78), .makeString [0x61, 0x62], .release (.ofIndex 0)]

def reusedTwice : Request := .makeConcatenation (.ofIndex 1) (.ofIndex 1)

theorem reused_kept : ∃ c c₀ c', reused = some c ∧ c.serve reusedTwice = .ok (some c₀) ∧
    c₀.play (holds (.ofIndex 0)) [.collect [.ofIndex 0]] = some c' ∧
      c'.heap.Spells (.ofIndex 0) [0x61, 0x62, 0x61, 0x62] := by
  have hall : (reused.any fun c => (c.heap.stringBytes (.ofIndex 1)).toOption == some [0x61, 0x62] &&
      (c.play allows [reusedTwice]).any fun c₀ => c₀.held == .ofIndex 0 :: c.held &&
        (c₀.play (holds (.ofIndex 0)) [.collect [.ofIndex 0]]).any (·.sees (.ofIndex 0))) = true := by
    decide +kernel
  obtain ⟨c, hc, hall⟩ := (Option.any_eq_true ..).mp hall
  obtain ⟨hbytes, hall⟩ := Bool.and_eq_true_iff.mp hall
  obtain ⟨c₀, hplay₀, hall⟩ := (Option.any_eq_true ..).mp hall
  obtain ⟨hheld, hall⟩ := Bool.and_eq_true_iff.mp hall
  obtain ⟨c', hplay, hsees⟩ := (Option.any_eq_true ..).mp hall
  obtain ⟨hq, _, hserve, hdone⟩ := play_cons hplay₀
  cases hdone
  have hrun := Run.session hc
  obtain ⟨s, hs, -⟩ := hrun.accounted.balanced
  have hspells : c.heap.Spells (.ofIndex 1) [0x61, 0x62] :=
    hs.spells_iff.mpr (hs.stringBytes_eq_ok.mp (eq_ok_of_toOption hbytes))
  exact ⟨c, c₀, c', hc, hserve, hplay, (hrun.strings_kept hq ⟨_, _, hspells, hspells, rfl⟩ hserve
    (eq_of_beq hheld)).2.2 hplay hsees⟩

end Client

end CountedHeap
