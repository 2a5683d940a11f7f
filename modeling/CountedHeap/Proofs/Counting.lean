import CountedHeap.Proofs.Collecting
import CountedHeap.Proofs.Making

/-!
Who owns what. An account of a store lists the owners of references outside of it. It is exact when
the count of each value is the number of its owners and of the edges to it; a value that is about
to be freed has no edges any more.
-/

namespace CountedHeap

namespace Store

def heldBut (s : Store) (muted : List Reference) (r : Reference) : List Reference :=
  if r ∈ muted then [] else s.held r

def Exact (s : Store) (muted owned : List Reference) : Prop :=
  ∀ q, q.isLive = true → s.count q = owned.count q + edges (s.heldBut muted) q

def IsArray (s : Store) (r : Reference) : Prop := ∃ slots, s.content r = some (.array slots)

variable {s s' : Store} {r q : Reference} {c : Cell} {x : Content}
  {muted owned owned' : List Reference}

theorem held_of_content (hx : s.content r = some x) : s.held r = x.held := by
  rw [held, hx]
  rfl

theorem held_of_none (hr : s.content r = none) : s.held r = [] := by
  rw [held, hr]
  rfl

theorem mem_held_list {size : Nat} {values : Reference}
    (hr : s.content r = some (.list size values)) : values ∈ s.held r := by
  rw [held_of_content hr]
  exact List.mem_singleton_self _

theorem heldBut_nil : s.heldBut [] = s.held := by
  funext r
  rw [heldBut, if_neg List.not_mem_nil]

@[simp]
theorem count_set : (s.set r c).count = Function.update s.count r c.count := by
  funext q
  by_cases hq : q = r
  · subst hq
    rw [Function.update_self, count, set_self]
    rfl
  · rw [Function.update_of_ne hq, count, set_of_ne hq]
    rfl

@[simp]
theorem content_erase : (s.erase r).content = Function.update s.content r none := by
  funext q
  by_cases hq : q = r
  · subst hq
    rw [Function.update_self, content, erase_self]
    rfl
  · rw [Function.update_of_ne hq, content, erase_of_ne hq]
    rfl

@[simp]
theorem count_erase : (s.erase r).count = Function.update s.count r 0 := by
  funext q
  by_cases hq : q = r
  · subst hq
    rw [Function.update_self, count, erase_self]
    rfl
  · rw [Function.update_of_ne hq, count, erase_of_ne hq]
    rfl

theorem count_set_same (hr : s r = some c) (x : Content) :
    (s.set r { c with content := x }).count = s.count := by
  rw [count_set]
  refine Function.update_eq_self_iff.mpr ?_
  rw [count_eq hr]

theorem content_of (hr : s r = some c) : s.content r = some c.content := by
  rw [content, hr]
  rfl

theorem count_of_none (hr : s r = none) : s.count r = 0 := by
  rw [count, hr]
  rfl

theorem Exact.of_eq (he : s.Exact muted owned) (hcontent : s'.content = s.content)
    (hcount : s'.count = s.count)
    (howned : ∀ q, q.isLive = true → owned'.count q = owned.count q) : s'.Exact muted owned' := by
  intro q hq
  have hheld : s'.heldBut muted = s.heldBut muted := by
    funext r
    simp only [heldBut, held, hcontent]
  rw [hcount, hheld, howned q hq, he q hq]

theorem Exact.revise (he : s.Exact [] owned) {changes : List (Reference × Option Content)}
    (hcontent : s'.content = overwrite s.content changes)
    (hlive : ∀ e ∈ changes, e.1.isLive = true) (hnodup : (changes.map Prod.fst).Nodup)
    (hbalance : ∀ q, q.isLive = true →
      owned'.count q + (changes.map fun e => (e.2.elim [] Content.held).count q).sum + s.count q =
        owned.count q + (changes.map fun e => (s.held e.1).count q).sum + s'.count q) :
    s'.Exact [] owned' := by
  intro q hq
  have hheld : s'.held = overwrite s.held
      (changes.map fun e => (e.1, e.2.elim [] Content.held)) := by
    have hcomp := overwrite_comp (fun o : Option Content => o.elim [] Content.held) s.content
      changes
    rw [← hcontent] at hcomp
    exact hcomp
  have hedges := @edges.overwrite s.held q
    (changes.map fun e => (e.1, e.2.elim [] Content.held))
    (fun e he => by
      obtain ⟨d, hd, rfl⟩ := List.mem_map.mp he
      exact hlive d hd)
    (by
      rw [List.map_map]
      exact hnodup)
  have hcount := he q hq
  have hbal := hbalance q hq
  simp only [List.map_map, Function.comp_def] at hedges
  rw [heldBut_nil] at hcount ⊢
  rw [hheld]
  omega

theorem Exact.setCount (he : s.Exact muted owned) (hr : s r = some c) {n : Nat}
    (hbalance : ∀ q, q.isLive = true → owned'.count q + s.count q =
      owned.count q + Function.update s.count r n q) :
    (s.set r { c with count := n }).Exact muted owned' := by
  intro q hq
  have hheld : (s.set r { c with count := n }).heldBut muted = s.heldBut muted := by
    funext p
    simp only [heldBut, held, content_set_same hr]
  have hcount := he q hq
  have hbal := hbalance q hq
  rw [hheld, count_set]
  show Function.update s.count r n q = _
  omega

theorem Exact.mute (he : s.Exact muted owned) (hlive : r.isLive = true) (hr : r ∉ muted) :
    s.Exact (r :: muted) (s.held r ++ owned) := by
  intro q hq
  have hmuted : s.heldBut (r :: muted) = Function.update (s.heldBut muted) r [] := by
    funext p
    by_cases hp : p = r
    · subst hp
      rw [Function.update_self, heldBut, if_pos List.mem_cons_self]
    · simp only [Function.update_of_ne hp, heldBut, List.mem_cons, hp, false_or]
  have hedges := @edges.update (s.heldBut muted) r q hlive []
  have hself : s.heldBut muted r = s.held r := if_neg hr
  have hcount := he q hq
  rw [hself, List.count_nil] at hedges
  rw [hmuted, List.count_append]
  omega

def Fewer (s s' : Store) : Prop := ∀ q x, s'.content q = some x → s.content q = some x

theorem Fewer.refl (s : Store) : s.Fewer s := fun _ _ hx => hx

theorem Fewer.trans {s'' : Store} (h₁ : s.Fewer s') (h₂ : s'.Fewer s'') : s.Fewer s'' :=
  fun q x hx => h₁ q x (h₂ q x hx)

theorem Fewer.edges_le (h : s.Fewer s') : edges s'.held q ≤ edges s.held q := by
  refine edges.mono fun r _ => ?_
  cases hr : s'.content r with
  | none =>
    rw [held_of_none hr]
    exact Nat.zero_le _
  | some x => rw [held_of_content hr, held_of_content (h r x hr)]

end Store

namespace Heap

def released : List Task → List Reference
  | [] => []
  | .release r :: rest => r :: released rest
  | .discard _ :: rest => released rest

def discarded : List Task → List Reference
  | [] => []
  | .release _ :: rest => discarded rest
  | .discard r :: rest => r :: discarded rest

theorem released_dead (held : List Reference) (r : Reference) (rest : List Task) :
    released (held.map .release ++ .discard r :: rest) = held ++ released rest := by
  induction held with
  | nil => rfl
  | cons q held ih => exact congrArg (q :: ·) ih

theorem discarded_dead (held : List Reference) (r : Reference) (rest : List Task) :
    discarded (held.map .release ++ .discard r :: rest) = r :: discarded rest := by
  induction held with
  | nil => rfl
  | cons q held ih => exact ih

/-- How a release stands: each task that is left owns the reference that it gives up, and what is
about to be freed has no owner. What stands without the release is left alone. -/
structure Dropping (s₀ kept : Store) (owned : List Reference) (tasks : List Task) (s : Store) :
    Prop where
  exact : s.Exact (discarded tasks) (released tasks ++ owned)
  dying : ∀ r ∈ discarded tasks, s.count r = 0
  positive : ∀ r c, s r = some c → 0 < c.count ∨ r ∈ discarded tasks
  fewer : s₀.Fewer s
  less : ∀ r, s.count r ≤ s₀.count r
  keeps : s.Fewer kept
  alive : ∀ r ∈ discarded tasks, kept.content r = none

def Standing (kept : Store) (owned : List Reference) : Prop :=
  ∀ q x, kept.content q = some x → 0 < owned.count q + edges kept.held q

variable {h h' : Heap} {s₀ kept s : Store} {owned : List Reference} {tasks rest : List Task}
  {r : Reference} {c : Cell}

namespace Dropping

theorem discard (hd : Dropping s₀ kept owned (.discard r :: rest) s) :
    Dropping s₀ kept owned rest (s.erase r) := by
  have hzero : s.count r = 0 := hd.dying r List.mem_cons_self
  have hcount : (s.erase r).count = s.count := by
    rw [Store.count_erase]
    exact Function.update_eq_self_iff.mpr hzero.symm
  have hheld : (s.erase r).heldBut (discarded rest) = s.heldBut (r :: discarded rest) := by
    funext q
    by_cases hq : q = r
    · subst hq
      rw [Store.heldBut, Store.heldBut, Store.held_of_none (by simp), ite_self,
        if_pos List.mem_cons_self]
    · simp only [Store.heldBut, List.mem_cons, hq, false_or, Store.held, Store.content_erase,
        Function.update_of_ne hq]
  refine ⟨fun q hq => ?_, fun q hq => ?_, fun q d hq => ?_, fun q x hx => ?_, fun q => ?_,
    fun q x hx => ?_, fun q hq => hd.alive q (List.mem_cons_of_mem _ hq)⟩
  · rw [hcount, hheld]
    exact hd.exact q hq
  · rw [hcount]
    exact hd.dying q (List.mem_cons_of_mem _ hq)
  · obtain ⟨hne, hq⟩ := Store.erase_eq_some.mp hq
    rcases hd.positive q d hq with hpos | hmem
    · exact .inl hpos
    · exact .inr ((List.mem_cons.mp hmem).resolve_left hne)
  · refine hd.fewer q x ?_
    by_cases hq : q = r
    · subst hq
      simp at hx
    · rwa [Store.content_erase, Function.update_of_ne hq] at hx
  · rw [hcount]
    exact hd.less q
  · have hne : q ≠ r := by
      rintro rfl
      rw [hd.alive q List.mem_cons_self] at hx
      cases hx
    rw [Store.content_erase, Function.update_of_ne hne]
    exact hd.keeps q x hx

theorem counted (hd : Dropping s₀ kept owned (.release r :: rest) s) (hlive : r.isLive = true) :
    s.count r = 1 + ((released rest ++ owned).count r + edges (s.heldBut (discarded rest)) r) := by
  have hexact := hd.exact r hlive
  simp only [released, discarded, List.cons_append, List.count_cons_self] at hexact
  omega

theorem lower (hd : Dropping s₀ kept owned (.release r :: rest) s) (hr : s r = some c)
    (hlive : r.isLive = true) :
    (s.set r { c with count := c.count - 1 }).Exact (discarded rest) (released rest ++ owned) := by
  have hcounted := hd.counted hlive
  rw [Store.count_eq hr] at hcounted
  refine hd.exact.setCount hr fun q _ => ?_
  by_cases hq : q = r
  · subst hq
    rw [Function.update_self, Store.count_eq hr, released, List.cons_append,
      List.count_cons_self]
    omega
  · rw [Function.update_of_ne hq, released, List.cons_append,
      List.count_cons_of_ne (Ne.symm hq)]

theorem lowered (hd : Dropping s₀ kept owned (.release r :: rest) s) (hr : s r = some c)
    (hlive : r.isLive = true) {s' : Store} (hs' : s' = s.set r { c with count := c.count - 1 }) :
    s'.content = s.content ∧ (∀ q, s'.count q ≤ s.count q) ∧ r ∉ discarded rest ∧
      ∀ q ∈ discarded rest, s'.count q = 0 := by
  have hpos := hd.counted hlive
  have hcount : s'.count = Function.update s.count r (c.count - 1) := by rw [hs', Store.count_set]
  have hnot : r ∉ discarded rest := by
    intro hmem
    have hzero := hd.dying r hmem
    omega
  refine ⟨by rw [hs', Store.content_set_same hr], fun q => ?_, hnot, fun q hq => ?_⟩
  · rw [hcount]
    by_cases hq : q = r
    · subst hq
      rw [Function.update_self, Store.count_eq hr]
      exact Nat.sub_le ..
    · rw [Function.update_of_ne hq]
  · have hne : q ≠ r := fun h => hnot (h ▸ hq)
    rw [hcount, Function.update_of_ne hne]
    exact hd.dying q hq

theorem spared (hd : Dropping s₀ kept owned (.release r :: rest) s) (hr : s r = some c)
    (hlive : r.isLive = true) (hmore : c.count ≠ 1) :
    Dropping s₀ kept owned rest (s.set r { c with count := c.count - 1 }) := by
  obtain ⟨hcontent, hless, -, hdying⟩ := hd.lowered hr hlive rfl
  have hpos := hd.counted hlive
  rw [Store.count_eq hr] at hpos
  refine ⟨hd.lower hr hlive, hdying, fun q d hq => ?_, fun q x hx => ?_, fun q => ?_,
    fun q x hx => ?_, hd.alive⟩
  · rcases Store.set_eq_some.mp hq with ⟨rfl, rfl⟩ | ⟨-, hq⟩
    · exact .inl (show 0 < c.count - 1 by omega)
    · exact hd.positive q d hq
  · rw [hcontent] at hx
    exact hd.fewer q x hx
  · exact Nat.le_trans (hless q) (hd.less q)
  · rw [hcontent]
    exact hd.keeps q x hx

theorem unkept (hd : Dropping s₀ kept owned (.release r :: rest) s) (hr : s r = some c)
    (hlive : r.isLive = true) (hone : c.count = 1) (hkept : Standing kept owned) :
    kept.content r = none := by
  by_contra hne
  obtain ⟨x, hx⟩ := Option.ne_none_iff_exists'.mp hne
  have hstands := hkept r x hx
  have hpos := hd.counted hlive
  have hle : edges kept.held r ≤ edges (s.heldBut (discarded rest)) r := by
    refine edges.mono fun q _ => ?_
    cases hq : kept.content q with
    | none =>
      rw [Store.held_of_none hq]
      exact Nat.zero_le _
    | some y =>
      have hnot : q ∉ discarded rest := by
        intro hmem
        have hnone := hd.alive q hmem
        rw [hq] at hnone
        cases hnone
      rw [Store.held_of_content hq, Store.heldBut, if_neg hnot,
        Store.held_of_content (hd.keeps q y hq)]
  rw [Store.count_eq hr, hone, List.count_append] at hpos
  omega

theorem killed (hd : Dropping s₀ kept owned (.release r :: rest) s) (hr : s r = some c)
    (hlive : r.isLive = true) (hone : c.count = 1) (hkept : Standing kept owned) :
    Dropping s₀ kept owned (c.content.held.map .release ++ .discard r :: rest)
      (s.set r { c with count := c.count - 1 }) := by
  obtain ⟨hcontent, hless, hnot, hdying⟩ := hd.lowered hr hlive rfl
  have hexact := (hd.lower hr hlive).mute hlive hnot
  have hheld : (s.set r { c with count := c.count - 1 }).held r = c.content.held := by
    rw [Store.held, hcontent, Store.content_of hr]
    rfl
  rw [hheld, ← List.append_assoc] at hexact
  refine ⟨?_, fun q hq => ?_, fun q d hq => ?_, fun q x hx => ?_, fun q => ?_,
    fun q x hx => ?_, fun q hq => ?_⟩
  · rw [discarded_dead, released_dead]
    exact hexact
  · rw [discarded_dead] at hq
    rcases List.mem_cons.mp hq with rfl | hq
    · rw [Store.count_set, Function.update_self]
      show c.count - 1 = 0
      omega
    · exact hdying q hq
  · rw [discarded_dead]
    rcases Store.set_eq_some.mp hq with ⟨rfl, -⟩ | ⟨-, hq⟩
    · exact .inr List.mem_cons_self
    · exact (hd.positive q d hq).imp_right (List.mem_cons_of_mem _)
  · rw [hcontent] at hx
    exact hd.fewer q x hx
  · exact Nat.le_trans (hless q) (hd.less q)
  · rw [hcontent]
    exact hd.keeps q x hx
  · rw [discarded_dead] at hq
    rcases List.mem_cons.mp hq with rfl | hq
    · exact hd.unkept hr hlive hone hkept
    · exact hd.alive q hq

end Dropping

/-- A release gives one owner up. Of the values, fewer are left, and none dies that stands
without the reference that was given up. -/
theorem Sound.release (hs : h.Sound s) (hexact : s.Exact [] (r :: owned))
    (hpositive : ∀ q c, s q = some c → 0 < c.count) (hkept : Standing kept owned)
    (hkeeps : s.Fewer kept) (hrel : h.release r = .ok h') :
    ∃ s', h'.Sound s' ∧ Dropping s kept owned [] s' := by
  have hinv : TaskInvariant fun tasks h => ∃ s', h.Sound s' ∧ Dropping s kept owned tasks s' := by
    refine ⟨?_, ?_, ?_⟩
    · rintro q rest h₁ h₂ ⟨s₁, hs₁, hd⟩ hdiscard
      obtain ⟨c, hq, hs₂⟩ := hs₁.discard hdiscard
      exact ⟨_, hs₂, hd.discard⟩
    · rintro q rest h₁ h₂ ⟨s₁, hs₁, hd⟩ hgive
      obtain ⟨c, hq, hs₂, ho⟩ := hs₁.giveUp hgive
      have hmore : c.count ≠ 1 := by
        intro hone
        rw [if_pos hone] at ho
        cases ho
      exact ⟨_, hs₂, hd.spared hq (hs₁.isLive hq) hmore⟩
    · rintro q rest h₁ h₂ held ⟨s₁, hs₁, hd⟩ hgive
      obtain ⟨c, hq, hs₂, ho⟩ := hs₁.giveUp hgive
      have hone : c.count = 1 := by
        by_contra hmore
        rw [if_neg hmore] at ho
        cases ho
      rw [if_pos hone] at ho
      cases ho
      exact ⟨_, hs₂, hd.killed hq (hs₁.isLive hq) hone hkept⟩
  have hstart : Dropping s kept owned [.release r] s :=
    ⟨hexact, fun q hq => absurd hq List.not_mem_nil, fun q c hq => .inl (hpositive q c hq),
      .refl s, fun _ => Nat.le_refl _, hkeeps, fun q hq => absurd hq List.not_mem_nil⟩
  exact hinv.releaseAll ⟨s, hs, hstart⟩ hrel

end Heap
end CountedHeap
