import CountedHeap.Proofs.BestFit
import CountedHeap.Proofs.PoolTwins

/-!
When a new value is made. It takes a block and a reference: the block is there where some free one
is large enough, the reference where a slot of the table is empty or the table may grow. Where no
block is left the heap stays as it is.
-/

namespace CountedHeap

/-- A size, a count or the number of references is too large for the machine. -/
def Fault.IsLimit (f : Fault) : Prop := f = .overflow ∨ f = .tableOverflow

theorem Word.isLimit_of_add {a b : Nat} {f : Fault} (h : add a b = .error f) : f.IsLimit := by
  unfold add fit at h
  split at h <;> cases h
  exact .inl rfl

theorem Word.isLimit_of_mul {a b : Nat} {f : Fault} (h : mul a b = .error f) : f.IsLimit := by
  unfold mul fit at h
  split at h <;> cases h
  exact .inl rfl

namespace Table

variable {t : Table}

def grown (t : Table) : Nat := if t.capacity = 0 then t.initial else 2 * t.capacity

def Accepts (t : Table) : Prop :=
  none ∈ t.slots ∨ (t.size ≤ maxIndex ∧ (t.size < t.capacity ∨ t.grown ≤ maxCapacity))

theorem reserve_eq (t : Table) : t.reserve =
    if t.size < t.capacity then .ok t
    else if t.grown ≤ maxCapacity then .ok { t with capacity := t.grown } else .error .overflow :=
  rfl

theorem reserve_answers_iff :
    (∃ u, t.reserve = .ok u) ↔ t.size < t.capacity ∨ t.grown ≤ maxCapacity := by
  rw [reserve_eq]
  by_cases hroom : t.size < t.capacity
  · simp [hroom]
  · by_cases hgrown : t.grown ≤ maxCapacity <;> simp [hroom, hgrown]

theorem referenceAt_answers_iff {index : Nat} :
    (∃ r, referenceAt index = .ok r) ↔ index ≤ maxIndex := by
  simp only [referenceAt_eq_ok, exists_and_left, exists_eq', and_true, maxIndex]
  omega

theorem assign_answers_iff (hsmall : t.size ≤ 2 ^ 31) (addr : Nat) :
    (∃ e, t.assign addr = .ok e) ↔ t.Accepts := by
  unfold assign Accepts
  split
  case h_1 index hindex =>
    obtain ⟨hlt, hnone, -⟩ := Array.findIdx?_eq_some_iff_getElem.mp hindex
    have hmem : none ∈ t.slots := Option.isNone_iff_eq_none.mp hnone ▸ Array.getElem_mem hlt
    obtain ⟨r, hr⟩ := referenceAt_answers_iff.mpr
      (show index ≤ maxIndex by simp only [maxIndex, Table.size] at *; omega)
    simp [hmem, hr]
  case h_2 hfull =>
    have hmem : none ∉ t.slots := fun hmem => by
      have hsome := Array.findIdx?_eq_none_iff.mp hfull none hmem
      cases hsome
    simp only [bind_eq_ok, pure_eq_ok, hmem, false_or, ← reserve_answers_iff,
      ← referenceAt_answers_iff]
    constructor
    · rintro ⟨_, r, hr, u, hu, -⟩
      exact ⟨⟨r, hr⟩, u, hu⟩
    · rintro ⟨⟨r, hr⟩, u, hu⟩
      exact ⟨_, r, hr, u, hu, rfl⟩

theorem isLimit_of_referenceAt {index : Nat} {f : Fault} (h : referenceAt index = .error f) :
    f.IsLimit := by
  unfold referenceAt at h
  split at h <;> cases h
  exact .inr rfl

theorem isLimit_of_assign {addr : Nat} {f : Fault} (h : t.assign addr = .error f) :
    f.IsLimit := by
  unfold assign at h
  split at h
  case h_1 index _ =>
    cases hr : referenceAt index with
    | error e =>
      rw [hr] at h
      cases h
      exact isLimit_of_referenceAt hr
    | ok r =>
      rw [hr] at h
      cases h
  case h_2 =>
    cases hr : referenceAt t.size with
    | error e =>
      rw [hr] at h
      cases h
      exact isLimit_of_referenceAt hr
    | ok r =>
      rw [hr, ok_bind, reserve_eq] at h
      split_ifs at h <;> cases h
      exact .inl rfl

end Table

namespace Heap

variable {h h' : Heap} {s : Store} {r : Reference} {k : Kind} {size addr : Nat}

theorem adopt_eq_map {p : Pool} {free taken : List Nat} (hl : p.Laid free (addr :: taken))
    (hfree : (p.memory.header addr).isFree = true) (k : Kind) :
    ∃ pool, h.adopt k addr p =
      (fun e => (e.1, { h with pool, table := e.2 })) <$> h.table.assign addr := by
  have hmem : addr ∈ free ++ addr :: taken := by simp
  have hroom := (hl.bounds hmem).2.2.1
  have hin := hl.header_inside hmem
  simp only [Block.headerSize] at hroom hin
  have hfit₁ : addr + 4 ≤ p.memory.size := by omega
  obtain ⟨m₁, htag, h₁⟩ := Memory.store_answers k.tag hfit₁
  have hfit₂ : addr + Block.auxOffset + 4 ≤ m₁.size := by
    simp only [Block.auxOffset]
    omega
  obtain ⟨m₂, haux, h₂⟩ := Memory.store_answers 0 hfit₂
  have hfit₃ : addr + Layout.countOffset + 8 ≤ m₂.size := by
    simp only [Layout.countOffset, Block.linkOffset]
    omega
  obtain ⟨m₃, hcount, -⟩ := Memory.store_answers 1 hfit₃
  obtain ⟨hc, hsize⟩ := changedIn_of_stamp hroom htag haux hcount
  obtain ⟨n, hpattern, -⟩ := (hl.write List.mem_cons_self hc hsize).writePattern_answers hmem
  refine ⟨{ p with memory := n }, ?_⟩
  simp only [adopt, hl.read_eq hmem, hfree, Memory.store32, Memory.store64, htag, haux, hcount,
    hpattern, ok_bind, if_true]
  cases h.table.assign addr <;> rfl

theorem adopt_answers_iff {p : Pool} {free taken : List Nat} (hl : p.Laid free (addr :: taken))
    (hfree : (p.memory.header addr).isFree = true) (k : Kind) :
    (∃ e, h.adopt k addr p = .ok e) ↔ ∃ e, h.table.assign addr = .ok e := by
  obtain ⟨pool, hadopt⟩ := adopt_eq_map (h := h) hl hfree k
  rw [hadopt]
  cases h.table.assign addr with
  | error f => simp
  | ok e => exact ⟨fun _ => ⟨e, rfl⟩, fun _ => ⟨_, rfl⟩⟩

theorem Sound.make_answers_iff (hs : h.Sound s) (hk : k ≠ .free) (size : Nat) :
    (∃ r h', (Heap.make k size).runOn h = .ok (.ok r, h')) ↔
      h.pool.Serves size ∧ h.table.Accepts := by
  obtain ⟨free, hl⟩ := hs.laid
  simp only [Heap.make, Action.runOn, ExceptT.run, ExceptT.mk, throw_bind, guard_not_eq_ok, hk,
    not_false_eq_true, true_and, bind_eq_ok, Pool.Serves]
  constructor
  · rintro ⟨r, h', e, halloc, hr⟩
    cases e with
    | error e => simp at hr
    | ok e =>
      obtain ⟨addr, p⟩ := e
      simp only [bind_eq_ok, pure_eq_ok, Prod.mk.injEq] at hr
      obtain ⟨e, hadopt, -⟩ := hr
      obtain ⟨free', hl', -, hfree, -⟩ := hl.alloc halloc
      exact ⟨⟨addr, p, halloc⟩, (Table.assign_answers_iff hs.small addr).mp
        ((adopt_answers_iff hl' hfree k).mp ⟨e, hadopt⟩)⟩
  · rintro ⟨⟨addr, p, halloc⟩, haccepts⟩
    obtain ⟨free', hl', -, hfree, -⟩ := hl.alloc halloc
    obtain ⟨⟨r, h'⟩, hadopt⟩ := (adopt_answers_iff (h := h) hl' hfree k).mpr
      ((Table.assign_answers_iff hs.small addr).mpr haccepts)
    refine ⟨r, h', .ok (addr, p), halloc, ?_⟩
    simp only [hadopt, ok_bind]
    rfl

theorem Sound.make_faults (hs : h.Sound s) (hk : k ≠ .free) (size : Nat) :
    (Heap.make k size).Faults h Fault.IsLimit := by
  obtain ⟨free, hl⟩ := hs.laid
  intro f hf
  simp only [Heap.make, Action.runOn, ExceptT.run, ExceptT.mk, if_neg hk] at hf
  cases halloc : h.pool.alloc size with
  | error e =>
    rw [halloc] at hf
    cases hf
    by_cases hsize : size + 8 < Word.limit
    · obtain ⟨answer, hanswer⟩ := hl.alloc_answers hsize
      cases hanswer.symm.trans halloc
    · have hadd : Word.add size Block.alignment = .error .overflow := if_neg hsize
      have hrequest : Pool.requestSize size = .error .overflow := by
        rw [Pool.requestSize, Word.alignUp, hadd]
        rfl
      rw [Pool.alloc, hrequest] at halloc
      cases halloc
      exact .inl rfl
  | ok answer =>
    cases answer with
    | error e =>
      rw [halloc] at hf
      cases hf
    | ok e =>
      obtain ⟨addr, p⟩ := e
      obtain ⟨free', hl', -, hfree, -⟩ := hl.alloc halloc
      obtain ⟨pool, hadopt⟩ := adopt_eq_map (h := h) hl' hfree k
      simp only [halloc, ok_bind, hadopt] at hf
      cases hassign : h.table.assign addr with
      | error e =>
        rw [hassign] at hf
        cases hf
        exact Table.isLimit_of_assign hassign
      | ok e =>
        rw [hassign] at hf
        cases hf

theorem Sound.make_refused (hs : h.Sound s) (hk : k ≠ .free) (hsize : size + 8 < Word.limit)
    (hno : ¬h.pool.Serves size) {used : Nat} (hused : h.used = .ok used) :
    (Heap.make k size).runOn h = .ok (.error ⟨Pool.rounded size, used⟩, h) := by
  obtain ⟨free, hl⟩ := hs.laid
  obtain ⟨e, halloc⟩ := hl.alloc_answers hsize
  cases e with
  | ok e => exact absurd ⟨e.1, e.2, halloc⟩ hno
  | error e =>
    obtain ⟨n, hn, rfl, -⟩ := hl.alloc_refused halloc
    obtain ⟨-, rfl⟩ := Pool.requestSize_eq_ok.mp hn
    obtain rfl := Except.ok.inj (hl.used_eq.symm.trans hused)
    simp only [Heap.make, Action.runOn, ExceptT.run, ExceptT.mk, if_neg hk, halloc, ok_bind]
    rfl

theorem Sound.make_completes_of_accepts (hs : h.Sound s) (hk : k ≠ .free)
    (hsize : size + 8 < Word.limit) (haccepts : h.table.Accepts) :
    (Heap.make k size).Completes h := by
  by_cases hserves : h.pool.Serves size
  · obtain ⟨r, h', hmake⟩ := (hs.make_answers_iff hk size).mpr ⟨hserves, haccepts⟩
    exact ⟨_, _, hmake⟩
  · exact ⟨_, _, hs.make_refused hk hsize hserves hs.used_eq⟩

end Heap
end CountedHeap
