import CountedHeap.Proofs.Packing
import CountedHeap.Proofs.Progress
import CountedHeap.Proofs.Refcounts

/-!
Releases as a recursion. The stack of tasks frees the same values in the same order as a release
that calls itself for what a dying value holds: each value after all that died with it. Values lie
still meanwhile, so their blocks come to the list of free blocks in that order, in front of those
that were on it.
-/

namespace CountedHeap

theorem Table.clear_eq_ok {t u : Table} {r : Reference} {a : Nat} (hget : t.get? r = some a) :
    t.clear r = .ok u ↔ { t with slots := t.slots.setIfInBounds r.index none } = u := by
  obtain ⟨hlive, -⟩ := Table.get?_eq_some.mp hget
  simp only [clear, slotOf, hlive, if_true, ok_bind, throw_bind, pure_eq_ok,
    Table.index_lt_size hget]

namespace Heap

/-- The heap with another count in the block of a value. -/
def recount (h : Heap) (r : Reference) (count : Nat) : Except Fault Heap := do
  let memory ← h.memory.store64 ((← h.deref r) + Layout.countOffset) count
  return { h with pool := { h.pool with memory } }

/-- The heap with the slot of a value empty and its block on the list of free blocks. -/
def vacate (h : Heap) (r : Reference) : Except Fault Heap := do
  let pool ← h.pool.free (← h.deref r)
  return { h with pool, table := { h.table with slots := h.table.slots.setIfInBounds r.index none } }

/-- The recursive release of these references, one after the other, and the values that it frees
in the order in which it does. The count of each is lowered by one, if it is not zero already. Where
that leaves none, what the value holds is released in turn, and then its slot is emptied and its
block freed. -/
inductive Releases : Heap → List Reference → Heap → List Reference → Prop
  | done {h : Heap} : Releases h [] h []
  | spent {h h' : Heap} {r : Reference} {rest freed : List Reference}
      (hcount : h.refcount r = .ok 0) (hrest : Releases h rest h' freed) :
      Releases h (r :: rest) h' freed
  | lower {h h₁ h' : Heap} {r : Reference} {n : Nat} {rest freed : List Reference}
      (hcount : h.refcount r = .ok (n + 2)) (hlower : h.recount r (n + 1) = .ok h₁)
      (hrest : Releases h₁ rest h' freed) : Releases h (r :: rest) h' freed
  | last {h h₁ h₂ h₃ h' : Heap} {r : Reference} {held rest inner freed : List Reference}
      (hcount : h.refcount r = .ok 1) (hlower : h.recount r 0 = .ok h₁)
      (hheld : h₁.outgoing r = .ok held) (hinner : Releases h₁ held h₂ inner)
      (hvacate : h₂.vacate r = .ok h₃) (hrest : Releases h₃ rest h' freed) :
      Releases h (r :: rest) h' (inner ++ r :: freed)

/-- A release has an end, which is that of the recursion, and frees these values in this order. -/
structure Cascade (h : Heap) (r : Reference) (h' : Heap) (freed : List Reference) : Prop where
  ends : h.release r = .ok h'
  recursive : h.Releases [r] h' freed
  only : ∀ {h'' freed'}, h.Releases [r] h'' freed' → h'' = h' ∧ freed' = freed
  once : freed.Nodup
  gone : ∀ q, h'.Occupied q ↔ h.Occupied q ∧ q ∉ freed
  listing : ∃ blocks old, freed.mapM h.blockOf = .ok blocks ∧ h.pool.listing = .ok old ∧
    h'.pool.listing = .ok ((blocks.map fun b => (b.addr, b.size)).reverse ++ old)

variable {h h' h₁ h₂ : Heap} {s : Store} {r : Reference} {c : Cell} {tasks : List Task}
  {pending rest freed freed' : List Reference}

namespace Releases

theorem unique (hr : Releases h pending h₁ freed) (hr' : Releases h pending h₂ freed') :
    h₂ = h₁ ∧ freed' = freed := by
  induction hr generalizing h₂ freed' with
  | done =>
    cases hr'
    exact ⟨rfl, rfl⟩
  | spent hcount _ ih =>
    cases hr' with
    | spent _ hrest => exact ih hrest
    | lower hcount' => cases hcount.symm.trans hcount'
    | last hcount' => cases hcount.symm.trans hcount'
  | lower hcount hlower _ ih =>
    cases hr' with
    | spent hcount' => cases hcount.symm.trans hcount'
    | lower hcount' hlower' hrest =>
      cases hcount.symm.trans hcount'
      cases hlower.symm.trans hlower'
      exact ih hrest
    | last hcount' => cases hcount.symm.trans hcount'
  | last hcount hlower hheld _ hvacate _ ihinner ihrest =>
    cases hr' with
    | spent hcount' => cases hcount.symm.trans hcount'
    | lower hcount' => cases hcount.symm.trans hcount'
    | last _ hlower' hheld' hinner hvacate' hrest =>
      cases hlower.symm.trans hlower'
      cases hheld.symm.trans hheld'
      obtain ⟨rfl, rfl⟩ := ihinner hinner
      cases hvacate.symm.trans hvacate'
      obtain ⟨rfl, rfl⟩ := ihrest hrest
      exact ⟨rfl, rfl⟩

theorem append (hr : Releases h pending h₁ freed) (hr' : Releases h₁ rest h' freed') :
    Releases h (pending ++ rest) h' (freed ++ freed') := by
  induction hr with
  | done => exact hr'
  | spent hcount _ ih => exact .spent hcount (ih hr')
  | lower hcount hlower _ ih => exact .lower hcount hlower (ih hr')
  | last hcount hlower hheld hinner hvacate _ _ ih =>
    rw [List.append_assoc]
    exact .last hcount hlower hheld hinner hvacate (ih hr')

end Releases

section Steps

theorem Stored.recount_eq_ok (hs : h.Stored s) {n : Nat} :
    h.recount r n = .ok h' ↔ ∃ c, s r = some c ∧ h.setCountAt c.addr n = .ok h' := by
  have hwrite (addr : Nat) : h.setCountAt addr n = .ok h' ↔ ∃ memory,
      h.memory.store64 (addr + Layout.countOffset) n = .ok memory ∧
        { h with pool := { h.pool with memory } } = h' := write_eq_ok
  simp only [recount, hwrite, bind_eq_ok, hs.deref_eq_ok, pure_eq_ok]
  constructor
  · rintro ⟨_, ⟨c, hr, rfl⟩, hset⟩
    exact ⟨c, hr, hset⟩
  · rintro ⟨c, hr, hset⟩
    exact ⟨_, ⟨c, hr, rfl⟩, hset⟩

theorem Stored.vacate_eq_ok (hs : h.Stored s) : h.vacate r = .ok h' ↔ h.discard r = .ok h' := by
  simp only [vacate, discard, bind_eq_ok, hs.deref_eq_ok, pure_eq_ok]
  constructor
  · rintro ⟨_, ⟨c, hr, rfl⟩, pool, hfree, rfl⟩
    exact ⟨_, ⟨c, hr, rfl⟩, _, (Table.clear_eq_ok (hs.get?_eq hr)).mpr rfl, pool, hfree, rfl⟩
  · rintro ⟨_, ⟨c, hr, rfl⟩, table, hclear, pool, hfree, rfl⟩
    obtain rfl := (Table.clear_eq_ok (hs.get?_eq hr)).mp hclear
    exact ⟨_, ⟨c, hr, rfl⟩, pool, hfree, rfl⟩

theorem Stored.giveUp_alive (hs : h.Stored s) (hgive : h.giveUp r = .ok (h', none)) :
    (h.refcount r = .ok 0 ∧ h' = h) ∨
      ∃ n, h.refcount r = .ok (n + 2) ∧ h.recount r (n + 1) = .ok h' := by
  simp only [giveUp, bind_eq_ok, hs.deref_eq_ok] at hgive
  obtain ⟨_, ⟨c, hr, rfl⟩, count, hcount, hgive⟩ := hgive
  rw [hs.countAt_eq hr] at hcount
  cases hcount
  rw [hs.refcount_eq hr]
  split at hgive
  case isTrue hzero =>
    cases hgive
    exact .inl ⟨congrArg _ hzero, rfl⟩
  case isFalse hpos =>
    simp only [bind_eq_ok] at hgive
    obtain ⟨h₁, hset, hgive⟩ := hgive
    split at hgive
    case isTrue hmany =>
      cases hgive
      refine .inr ⟨c.count - 2, congrArg _ (by omega), hs.recount_eq_ok.mpr ⟨c, hr, ?_⟩⟩
      rwa [show c.count - 2 + 1 = c.count - 1 by omega]
    case isFalse =>
      simp only [bind_eq_ok, pure_eq_ok, Prod.mk.injEq, reduceCtorEq, and_false, exists_false]
        at hgive

theorem Sound.giveUp_dead (hs : h.Sound s) {held : List Reference}
    (hgive : h.giveUp r = .ok (h', some held)) :
    h.refcount r = .ok 1 ∧ h.recount r 0 = .ok h' ∧ h'.outgoing r = .ok held := by
  obtain ⟨c, hr, hs', hlast⟩ := hs.giveUp hgive
  split at hlast
  case isFalse => cases hlast
  case isTrue hone =>
    cases hlast
    rw [hs.refcount_eq hr, hone]
    refine ⟨rfl, ?_, ?_⟩
    · simp only [Heap.giveUp, hs.deref_eq hr, hs.countAt_eq hr, hone, ok_bind, one_ne_zero, if_false,
        Nat.lt_irrefl, Nat.sub_self, bind_eq_ok, pure_eq_ok, Prod.mk.injEq] at hgive
      obtain ⟨h₁, hset, -, -, -, -, rfl, -⟩ := hgive
      exact hs.recount_eq_ok.mpr ⟨c, hr, hset⟩
    · rw [hs'.outgoing_eq Store.set_self, Store.held_eq Store.set_self]

end Steps

section Stack

/-- What is left to do on a stack of tasks, with each release done by recursion. -/
def Unwinds : List Task → Heap → Heap → Prop
  | [], h, h' => h = h'
  | .discard r :: rest, h, h' => ∃ h₁, h.vacate r = .ok h₁ ∧ Unwinds rest h₁ h'
  | .release r :: rest, h, h' => ∃ h₁ freed, Releases h [r] h₁ freed ∧ Unwinds rest h₁ h'

theorem Unwinds.releases (hu : Unwinds (pending.map .release ++ tasks) h h') :
    ∃ h₁ freed, Releases h pending h₁ freed ∧ Unwinds tasks h₁ h' := by
  induction pending generalizing h with
  | nil => exact ⟨h, [], .done, hu⟩
  | cons r rest ih =>
    obtain ⟨h₁, freed, hr, hrest⟩ := hu
    obtain ⟨h₂, freed', hr', hu'⟩ := ih hrest
    exact ⟨h₂, freed ++ freed', hr.append hr', hu'⟩

theorem runTasks_unwinds {next : List Task → Heap → Except Fault Heap}
    (hnext : ∀ {tasks h}, h.Consistent → next tasks h = .ok h' → Unwinds tasks h h')
    (hc : h.Consistent) (hrun : runTasks next tasks h = .ok h') : Unwinds tasks h h' := by
  induction tasks generalizing h with
  | nil => exact Except.ok.inj hrun
  | cons task rest ih =>
    obtain ⟨s, hs⟩ := hc
    cases task with
    | discard r =>
      simp only [runTasks, bind_eq_ok] at hrun
      obtain ⟨h₁, hdiscard, hrun⟩ := hrun
      obtain ⟨c, -, hs₁⟩ := hs.discard hdiscard
      exact ⟨h₁, hs.vacate_eq_ok.mpr hdiscard, ih ⟨_, hs₁⟩ hrun⟩
    | release r =>
      simp only [runTasks, bind_eq_ok, Prod.exists] at hrun
      obtain ⟨h₁, held, hgive, hrun⟩ := hrun
      obtain ⟨c, -, hs₁, -⟩ := hs.giveUp hgive
      cases held with
      | none =>
        have hrest := ih ⟨_, hs₁⟩ hrun
        rcases hs.giveUp_alive hgive with ⟨hcount, rfl⟩ | ⟨n, hcount, hlower⟩
        · exact ⟨h₁, [], .spent hcount .done, hrest⟩
        · exact ⟨h₁, [], .lower hcount hlower .done, hrest⟩
      | some held =>
        obtain ⟨hcount, hlower, hheld⟩ := hs.giveUp_dead hgive
        obtain ⟨h₂, inner, hinner, h₃, hvacate, hrest⟩ := (hnext ⟨_, hs₁⟩ hrun).releases
        exact ⟨h₃, inner ++ [r], .last hcount hlower hheld hinner hvacate .done, hrest⟩

theorem releaseAll_unwinds {deaths : Nat} (hc : h.Consistent)
    (hrun : releaseAll deaths tasks h = .ok h') : Unwinds tasks h h' := by
  induction deaths generalizing tasks h with
  | zero => exact runTasks_unwinds (fun _ hnext => by cases hnext) hc hrun
  | succ deaths ih => exact runTasks_unwinds ih hc hrun

theorem release_recursive (hc : h.Consistent) (hrun : h.release r = .ok h') :
    ∃ freed, Releases h [r] h' freed := by
  obtain ⟨h₁, freed, hr, rfl⟩ := releaseAll_unwinds hc hrun
  exact ⟨freed, hr⟩

end Stack

section Freeing

structure Freed (h h' : Heap) (freed : List Reference) : Prop where
  table : ∀ q, h'.table.get? q = if q ∈ freed then none else h.table.get? q
  there : ∀ q ∈ freed, h.Occupied q
  once : freed.Nodup
  laid : ∀ {free}, h.pool.Laid free h.table.addresses →
    h'.pool.Laid ((freed.map h.place).reverse ++ free) h'.table.addresses
  freeSizes : ∀ {free}, h.pool.Laid free h.table.addresses → ∀ a ∈ free,
    h'.pool.memory.sizeAt a = h.pool.memory.sizeAt a
  sizes : ∀ {free}, h.pool.Laid free h.table.addresses → ∀ q, h.Occupied q →
    h'.pool.memory.sizeAt (h.place q) = h.pool.memory.sizeAt (h.place q)

theorem place_mem {q : Reference} (hq : h.Occupied q) : h.place q ∈ h.table.addresses := by
  obtain ⟨a, ha⟩ := Option.ne_none_iff_exists'.mp hq
  rw [place, ha, Option.getD_some]
  exact Table.mem_addresses_of_get? ha

namespace Freed

theorem refl (h : Heap) : Freed h h [] :=
  ⟨fun _ => rfl, nofun, List.nodup_nil, fun hl => hl, fun _ _ _ => rfl, fun _ _ _ => rfl⟩

theorem occupied_iff (hf : Freed h h' freed) (q : Reference) :
    h'.Occupied q ↔ h.Occupied q ∧ q ∉ freed := by
  rw [Occupied, hf.table]
  by_cases hq : q ∈ freed <;> simp [hq, Occupied]

theorem place_eq (hf : Freed h h' freed) {q : Reference} (hq : q ∉ freed) :
    h'.place q = h.place q := by
  rw [place, hf.table, if_neg hq, place]

theorem trans (hf : Freed h h₁ freed) (hf' : Freed h₁ h' freed') :
    Freed h h' (freed ++ freed') := by
  have hapart : ∀ q ∈ freed', q ∉ freed := fun q hq => ((hf.occupied_iff q).mp (hf'.there q hq)).2
  have hplaces : freed'.map h₁.place = freed'.map h.place :=
    List.map_congr_left fun q hq => hf.place_eq (hapart q hq)
  refine ⟨fun q => ?_, fun q hq => ?_, ?_, fun hl => ?_, fun hl a ha => ?_, fun hl q hq => ?_⟩
  · rw [hf'.table, hf.table]
    by_cases hq : q ∈ freed <;> by_cases hq' : q ∈ freed' <;> simp [hq, hq']
  · rcases List.mem_append.mp hq with hq | hq
    · exact hf.there q hq
    · exact ((hf.occupied_iff q).mp (hf'.there q hq)).1
  · exact List.nodup_append.mpr
      ⟨hf.once, hf'.once, fun q hq q' hq' heq => hapart q' hq' (heq ▸ hq)⟩
  · have hlaid := hf'.laid (hf.laid hl)
    rwa [hplaces, ← List.append_assoc, ← List.reverse_append, ← List.map_append] at hlaid
  · rw [hf'.freeSizes (hf.laid hl) a (List.mem_append_right _ ha), hf.freeSizes hl a ha]
  · rw [← hf.sizes hl q hq]
    -- A value that was freed first has a free block from then on.
    by_cases hin : q ∈ freed
    · refine hf'.freeSizes (hf.laid hl) _ (List.mem_append_left _ ?_)
      exact List.mem_reverse.mpr (List.mem_map_of_mem hin)
    · rw [← hf.place_eq hin]
      exact hf'.sizes (hf.laid hl) q ((hf.occupied_iff q).mpr ⟨hq, hin⟩)

end Freed

theorem Stored.setCountAt_freed (hs : h.Stored s) (hr : s r = some c) {count : Nat}
    (hcount : count < Word.limit) (hset : h.setCountAt c.addr count = .ok h') :
    Freed h h' [] := by
  obtain ⟨n, hstore, rfl⟩ := write_eq_ok.mp hset
  have hn := (hs.holds hr).setCount hcount hstore
  have hmem := Table.mem_addresses_of_get? (hs.get?_eq hr)
  exact ⟨fun _ => rfl, nofun, List.nodup_nil, fun hl => hl.write hmem hn.changed hn.size_eq,
    fun hl a ha => hl.sizeAt_write (List.mem_append_right _ hmem) hn.changed hn.size_eq
      (List.mem_append_left _ ha),
    fun hl q hq => hl.sizeAt_write (List.mem_append_right _ hmem) hn.changed hn.size_eq
      (List.mem_append_right _ (place_mem hq))⟩

theorem Sound.lower_freed (hs : h.Sound s) {n : Nat} (hcount : h.refcount r = .ok (n + 1))
    (hlower : h.recount r n = .ok h') : h'.Consistent ∧ Freed h h' [] := by
  obtain ⟨c, hr, hset⟩ := hs.recount_eq_ok.mp hlower
  have hlt : c.count < Word.limit := by
    rw [← hs.count hr]
    exact Memory.linkAt_lt ..
  rw [hs.refcount_eq hr, Except.ok.injEq] at hcount
  have hless : n < Word.limit := by omega
  exact ⟨⟨_, hs.setCountAt hr hless hset⟩, hs.setCountAt_freed hr hless hset⟩

theorem Stored.discard_freed (hs : h.Stored s) (hdiscard : h.discard r = .ok h') :
    Freed h h' [r] := by
  simp only [Heap.discard, bind_eq_ok, hs.deref_eq_ok, pure_eq_ok] at hdiscard
  obtain ⟨_, ⟨c, hr, rfl⟩, table, hclear, pool, hfree, rfl⟩ := hdiscard
  obtain ⟨hget, hperm, -⟩ := Table.clear_eq (hs.get?_eq hr) hclear
  have hplace := hs.place_eq hr
  have hmem := Table.mem_addresses_of_get? (hs.get?_eq hr)
  have hkeeps {free : List Nat} (hl : h.pool.Laid free h.table.addresses) {b : Nat}
      (hb : b ∈ free ++ h.table.addresses) :
      pool.memory.sizeAt b = h.pool.memory.sizeAt b := by
    obtain ⟨-, -, -, hc, hsizes⟩ := (hl.perm hperm.symm).free hfree
    exact hl.sizeAt_write (List.mem_append_right _ hmem) hc (hsizes _ List.mem_cons_self) hb
  refine ⟨fun q => ?_, fun q hq => ?_, List.nodup_singleton r, fun hl => ?_,
    fun hl a ha => hkeeps hl (List.mem_append_left _ ha),
    fun hl q hq => hkeeps hl (List.mem_append_right _ (place_mem hq))⟩
  · simp only [hget, List.mem_singleton, Function.update_apply]
  · exact List.mem_singleton.mp hq ▸ hs.occupied_iff.mpr ⟨c, hr⟩
  · rw [List.map_singleton, List.reverse_singleton, hplace]
    exact ((hl.perm hperm.symm).free hfree).1

theorem Sound.vacate_freed (hs : h.Sound s) (hvacate : h.vacate r = .ok h') :
    h'.Consistent ∧ Freed h h' [r] := by
  have hdiscard := hs.vacate_eq_ok.mp hvacate
  obtain ⟨c, -, hs'⟩ := hs.discard hdiscard
  exact ⟨⟨_, hs'⟩, hs.discard_freed hdiscard⟩

theorem Releases.frees (hr : Releases h pending h' freed) (hc : h.Consistent) :
    h'.Consistent ∧ Freed h h' freed := by
  induction hr with
  | done => exact ⟨hc, .refl _⟩
  | spent _ _ ih => exact ih hc
  | lower hcount hlower _ ih =>
    obtain ⟨s, hs⟩ := hc
    obtain ⟨hc₁, hlowered⟩ := hs.lower_freed hcount hlower
    obtain ⟨hc', hrest⟩ := ih hc₁
    exact ⟨hc', hlowered.trans hrest⟩
  | last hcount hlower _ _ hvacate _ ihinner ihrest =>
    obtain ⟨s, hs⟩ := hc
    obtain ⟨hc₁, hlowered⟩ := hs.lower_freed hcount hlower
    obtain ⟨⟨s₂, hs₂⟩, hinner⟩ := ihinner hc₁
    obtain ⟨hc₃, hvacated⟩ := hs₂.vacate_freed hvacate
    obtain ⟨hc', hrest⟩ := ihrest hc₃
    have hall := ((hlowered.trans hinner).trans hvacated).trans hrest
    rw [List.nil_append, List.append_assoc] at hall
    exact ⟨hc', hall⟩

theorem Sound.freed_listing (hs : h.Sound s) (hf : Freed h h' freed) :
    ∃ blocks old, freed.mapM h.blockOf = .ok blocks ∧ h.pool.listing = .ok old ∧
      h'.pool.listing = .ok ((blocks.map fun b => (b.addr, b.size)).reverse ++ old) := by
  obtain ⟨free, hl⟩ := hs.laid
  refine ⟨_, _, hs.mapM_blockOf fun q hq => hs.occupied_iff.mp (hf.there q hq), hl.listing_eq, ?_⟩
  rw [(hf.laid hl).listing_eq, List.map_append, List.map_reverse, List.map_map, List.map_map]
  refine congrArg Except.ok (congrArg₂ _ (congrArg _ ?_) ?_)
  · exact List.map_congr_left fun q hq => congrArg _ (hf.sizes hl q (hf.there q hq))
  · exact List.map_congr_left fun a ha => congrArg _ (hf.freeSizes hl a ha)

end Freeing

theorem Sound.cascade (hs : h.Sound s) (hrun : h.release r = .ok h') :
    ∃ freed, Cascade h r h' freed := by
  obtain ⟨freed, hr⟩ := release_recursive ⟨s, hs⟩ hrun
  obtain ⟨-, hf⟩ := hr.frees ⟨s, hs⟩
  exact ⟨freed, hrun, hr, hr.unique, hf.once, hf.occupied_iff, hs.freed_listing hf⟩

def releaseBy : Nat → Heap → List Reference → Except Fault (Heap × List Reference)
  | _, h, [] => .ok (h, [])
  | 0, _, _ :: _ => .error .endless
  | steps + 1, h, r :: rest => do
      match ← h.refcount r with
      | 0 => releaseBy steps h rest
      | 1 => do
          let h ← h.recount r 0
          let (h, inner) ← releaseBy steps h (← h.outgoing r)
          let (h, freed) ← releaseBy steps (← h.vacate r) rest
          return (h, inner ++ r :: freed)
      | n + 2 => releaseBy steps (← h.recount r (n + 1)) rest

theorem releases_of_releaseBy {steps : Nat} (hrun : releaseBy steps h pending = .ok (h', freed)) :
    Releases h pending h' freed := by
  induction steps generalizing h pending h' freed with
  | zero =>
    cases pending with
    | nil =>
      cases hrun
      exact .done
    | cons r rest => cases hrun
  | succ steps ih =>
    cases pending with
    | nil =>
      cases hrun
      exact .done
    | cons r rest =>
      simp only [releaseBy, bind_eq_ok] at hrun
      obtain ⟨count, hcount, hrun⟩ := hrun
      split at hrun
      case h_1 => exact .spent hcount (ih hrun)
      case h_2 =>
        simp only [bind_eq_ok, pure_eq_ok, Prod.exists, Prod.mk.injEq] at hrun
        obtain ⟨h₁, hlower, held, hheld, h₂, inner, hinner, h₃, hvacate, _, after, hrest, rfl, rfl⟩ :=
          hrun
        exact .last hcount hlower hheld (ih hinner) hvacate (ih hrest)
      case h_3 n =>
        simp only [bind_eq_ok] at hrun
        obtain ⟨h₁, hlower, hrest⟩ := hrun
        exact .lower hcount hlower (ih hrest)

end Heap

namespace Client

variable {c : Client} {r : Reference}

/-- What a client owns can be given up, and that ends where the recursion ends. -/
theorem Run.release_cascades (hrun : Run allows c)
    (hr : r ∈ c.arrays ++ (c.held ++ c.globals.references)) (hlive : r.isLive = true) :
    ∃ h' freed, c.heap.Cascade r h' freed := by
  obtain ⟨s, hs, hl, -⟩ := hrun.accounted.balanced
  obtain ⟨h', hrelease⟩ := hs.owned_release_answers hl hr hlive
  exact ⟨h', hs.cascade hrelease⟩

def couple : Option Client :=
  session allows { poolSize := 512 } [.makeInteger 1, .makeString [0x61],
    .newList [.ofIndex 0, .ofIndex 1, .ofIndex 0], .release (.ofIndex 0)]

theorem couple_cascades : ∃ c h', couple = some c ∧
    .ofIndex 3 ∈ c.arrays ++ (c.held ++ c.globals.references) ∧
      (Reference.ofIndex 3).isLive = true ∧
        c.heap.Cascade (.ofIndex 3) h' [.ofIndex 0, .ofIndex 2, .ofIndex 3] ∧
          h'.Occupied (.ofIndex 1) := by
  have hall : (couple.any fun c => c.held.contains (.ofIndex 3) &&
      match Heap.releaseBy 8 c.heap [.ofIndex 3] with
      | .ok (h', freed) => freed == [.ofIndex 0, .ofIndex 2, .ofIndex 3] &&
          (h'.table.get? (.ofIndex 1)).isSome
      | .error _ => false) = true := by decide +kernel
  obtain ⟨c, hc, hends⟩ := (Option.any_eq_true ..).mp hall
  rw [Bool.and_eq_true] at hends
  obtain ⟨hheld, hends⟩ := hends
  have hmem : .ofIndex 3 ∈ c.arrays ++ (c.held ++ c.globals.references) :=
    List.mem_append_right _ (List.mem_append_left _ (List.contains_iff_mem.mp hheld))
  have hlive : (Reference.ofIndex 3).isLive = true := by decide
  obtain ⟨h', freed, hcascade⟩ := (Run.session hc).release_cascades hmem hlive
  split at hends
  case h_2 => cases hends
  case h_1 h'' freed' hby =>
    rw [Bool.and_eq_true, beq_iff_eq] at hends
    obtain ⟨rfl, hthere⟩ := hends
    obtain ⟨rfl, rfl⟩ := hcascade.only (Heap.releases_of_releaseBy hby)
    exact ⟨c, h'', hc, hmem, hlive, hcascade, Option.isSome_iff_ne_none.mp hthere⟩

end Client
end CountedHeap
