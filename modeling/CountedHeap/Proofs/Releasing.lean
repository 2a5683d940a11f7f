import CountedHeap.Heap.Release
import CountedHeap.Proofs.Sound

/-!
Giving references up. Each task on the stack changes the store at one reference: it lowers a count
or takes a value away. What holds of the stack and the store at each task holds once all tasks are
done, so a property of a whole release follows from that of three steps.
-/

namespace CountedHeap.Heap

variable {h h' : Heap} {s : Store} {r : Reference} {c : Cell}

theorem Stored.restrict (hs : h.Stored s) {s' : Store} (hsub : ∀ q d, s' q = some d → s q = some d)
    (htable : h'.table.get? = fun q => (s' q).map Cell.addr) (hsmall : h'.table.size ≤ 2 ^ 31)
    (hsize : h'.pool.memory.size = h.pool.memory.size)
    (hkeep : ∀ q d, s' q = some d → ∀ i, d.addr ≤ i →
      i < d.addr + h.pool.memory.sizeAt d.addr → h'.pool.memory.byte i = h.pool.memory.byte i) :
    h'.Stored s' := by
  have hheader : ∀ q d, s' q = some d →
      h'.pool.memory.header d.addr = h.pool.memory.header d.addr := fun q d hq =>
    (hs.holds (hsub q d hq)).header_congr (hkeep q d hq)
  have hsizes : ∀ q d, s' q = some d →
      h'.pool.memory.sizeAt d.addr = h.pool.memory.sizeAt d.addr := fun q d hq =>
    Memory.sizeAt_of_header (hheader q d hq)
  refine ⟨?_, hsmall, htable, ?_, ?_, ?_, ?_, ?_⟩
  · rw [hsize]
    exact hs.bound
  · intro q d hq
    exact (hs.holds (hsub q d hq)).congr (hkeep q d hq)
  · intro q d hq
    rw [← hs.count (hsub q d hq)]
    exact congrArg Block.link (hheader q d hq)
  · intro q d hq
    rw [hsize, hsizes q d hq]
    exact hs.inside (hsub q d hq)
  · intro q d hq
    exact hs.aligned (hsub q d hq)
  · intro q p d e hq hp hne
    rw [hsizes q d hq, hsizes p e hp]
    exact hs.apart (hsub q d hq) (hsub p e hp) hne

theorem Sound.discard (hs : h.Sound s) (hd : h.discard r = .ok h') :
    ∃ c, s r = some c ∧ h'.Sound (s.erase r) := by
  simp only [Heap.discard, bind_eq_ok, hs.deref_eq_ok, pure_eq_ok] at hd
  obtain ⟨_, ⟨c, hr, rfl⟩, table, hclear, pool, hfree, rfl⟩ := hd
  obtain ⟨free, hl⟩ := hs.laid
  obtain ⟨hget, hperm, hsize⟩ := Table.clear_eq (hs.get?_eq hr) hclear
  obtain ⟨hlaid, hregion, -, hc, -⟩ := (hl.perm hperm.symm).free hfree
  refine ⟨c, hr, hs.toStored.restrict ?_ ?_ ?_ hc.size_eq ?_, ⟨_, hlaid⟩, hs.halved.halves, ?_, ?_,
    hs.halved.roomy⟩
  · exact fun q d hq => (Store.erase_eq_some.mp hq).2
  · show table.get? = _
    rw [hget, hs.table]
    funext q
    by_cases hq : q = r
    · subst hq
      rw [Function.update_self, Store.erase_self]
      rfl
    · rw [Function.update_of_ne hq, Store.erase_of_ne hq]
  · exact Nat.le_trans (Nat.le_of_eq hsize) hs.small
  · intro q d hq i hlo hhi
    obtain ⟨hne, hq⟩ := Store.erase_eq_some.mp hq
    have hap := hs.apart hr hq (Ne.symm hne)
    exact hc.byte_eq i (by omega)
  · show _ ≤ pool.memory.size
    rw [hc.size_eq]
    exact hs.halved.inside
  · exact hregion.trans hs.halved.region

theorem Store.set_same {s : Store} (hr : s r = some c) : s.set r c = s := by
  funext q
  by_cases hq : q = r
  · subst hq
    rw [Store.set_self, hr]
  · rw [Store.set_of_ne hq]

theorem Sound.giveUp (hs : h.Sound s) {o : Option (List Reference)}
    (hg : h.giveUp r = .ok (h', o)) :
    ∃ c, s r = some c ∧ h'.Sound (s.set r { c with count := c.count - 1 }) ∧
      o = if c.count = 1 then some c.content.held else none := by
  simp only [Heap.giveUp, bind_eq_ok, hs.deref_eq_ok] at hg
  obtain ⟨_, ⟨c, hr, rfl⟩, count, hcount, hg⟩ := hg
  rw [hs.countAt_eq hr] at hcount
  cases hcount
  refine ⟨c, hr, ?_⟩
  by_cases hzero : c.count = 0
  · simp only [hzero, if_true, pure_eq_ok, Prod.mk.injEq] at hg
    obtain ⟨rfl, rfl⟩ := hg
    refine ⟨?_, by rw [hzero]; rfl⟩
    rw [show { c with count := c.count - 1 } = c by rw [hzero]; cases c; simp_all,
      Store.set_same hr]
    exact hs
  · simp only [if_neg hzero, bind_eq_ok] at hg
    obtain ⟨h₁, hset, hg⟩ := hg
    have hlt : c.count < Word.limit := by
      rw [← hs.count hr]
      exact Memory.linkAt_lt ..
    have hless : c.count - 1 < Word.limit := by omega
    have hs₁ := hs.setCountAt hr hless hset
    by_cases hone : 1 < c.count
    · simp only [hone, if_true, pure_eq_ok, Prod.mk.injEq] at hg
      obtain ⟨rfl, rfl⟩ := hg
      exact ⟨hs₁, (if_neg (by omega)).symm⟩
    · have hself : (s.set r { c with count := c.count - 1 }) r =
          some { c with count := c.count - 1 } := Store.set_self
      have hkind := hs₁.kindAt_eq hself
      have hheld := hs₁.children_eq hself
      simp only [hone, if_false, bind_eq_ok, pure_eq_ok, Prod.mk.injEq] at hg
      obtain ⟨k, hk, held, hchildren, rfl, rfl⟩ := hg
      rw [hkind] at hk
      cases hk
      rw [hheld] at hchildren
      cases hchildren
      exact ⟨hs₁, (if_pos (by omega)).symm⟩

/-- What one task preserves, of the tasks left to do and the heap. -/
structure TaskInvariant (P : List Task → Heap → Prop) : Prop where
  discard : ∀ {r rest h h'}, P (.discard r :: rest) h → h.discard r = .ok h' → P rest h'
  alive : ∀ {r rest h h'}, P (.release r :: rest) h → h.giveUp r = .ok (h', none) → P rest h'
  dead : ∀ {r rest h h' held}, P (.release r :: rest) h → h.giveUp r = .ok (h', some held) →
    P (held.map .release ++ .discard r :: rest) h'

namespace TaskInvariant

variable {P : List Task → Heap → Prop} {tasks : List Task}

theorem runTasks (hinv : TaskInvariant P) {next : List Task → Heap → Except Fault Heap}
    (hnext : ∀ {tasks h h'}, P tasks h → next tasks h = .ok h' → P [] h') (hP : P tasks h)
    (hr : runTasks next tasks h = .ok h') : P [] h' := by
  induction tasks generalizing h with
  | nil =>
    cases hr
    exact hP
  | cons task rest ih =>
    cases task with
    | discard r =>
      simp only [Heap.runTasks, bind_eq_ok] at hr
      obtain ⟨h₁, hd, hr⟩ := hr
      exact ih (hinv.discard hP hd) hr
    | release r =>
      simp only [Heap.runTasks, bind_eq_ok, Prod.exists] at hr
      obtain ⟨h₁, o, hg, hr⟩ := hr
      cases o with
      | none => exact ih (hinv.alive hP hg) hr
      | some held => exact hnext (hinv.dead hP hg) hr

theorem releaseAll (hinv : TaskInvariant P) {deaths : Nat} (hP : P tasks h)
    (hr : releaseAll deaths tasks h = .ok h') : P [] h' := by
  induction deaths generalizing tasks h h' with
  | zero => exact hinv.runTasks (fun _ hr => by cases hr) hP hr
  | succ deaths ih => exact hinv.runTasks ih hP hr

end TaskInvariant

end CountedHeap.Heap
