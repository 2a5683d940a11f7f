import CountedHeap.Proofs.Tiling

/-!
The list of free blocks. From a head on, each block is free and its link leads to the next one, up
to a tail. Blocks may be taken out of a chain or exchanged by setting the link in front of them,
and a walk of the allocator visits just the blocks of the chain.
-/

namespace CountedHeap

def Block.successor (b : Block) : Option Nat :=
  if b.link = Block.endOfList then none else some b.link

theorem Block.nextFree_eq_ok {b : Block} {next : Option Nat} :
    b.nextFree = .ok next ↔ b.isFree = true ∧ b.successor = next := by
  unfold Block.nextFree Block.successor
  by_cases hb : b.isFree = true <;> simp [hb]

/-- From `head` on the chain leads through these free blocks to `tail`. -/
def Chain (m : Memory) (tail : Option Nat) : Option Nat → List Nat → Prop
  | head, [] => head = tail
  | head, a :: rest =>
      head = some a ∧ (m.header a).isFree = true ∧ Chain m tail (m.header a).successor rest

namespace Chain

variable {m n : Memory} {head tail : Option Nat} {free : List Nat}

theorem isFree_of_mem (h : Chain m tail head free) {a : Nat} (ha : a ∈ free) :
    (m.header a).isFree = true := by
  induction free generalizing head with
  | nil => exact absurd ha List.not_mem_nil
  | cons b rest ih =>
    rcases List.mem_cons.mp ha with rfl | har
    · exact h.2.1
    · exact ih h.2.2 har

theorem mem_of_head (h : Chain m none head free) : ∀ a ∈ head, a ∈ free := by
  intro a ha
  cases free with
  | nil =>
    obtain rfl : head = none := h
    cases ha
  | cons b rest =>
    obtain ⟨rfl, -⟩ := h
    cases ha
    exact List.mem_cons_self

theorem congr (h : Chain m tail head free) (hs : ∀ a ∈ free, n.header a = m.header a) :
    Chain n tail head free := by
  induction free generalizing head with
  | nil => exact h
  | cons a rest ih =>
    obtain ⟨hhead, hfree, hrest⟩ := h
    have ha := hs a List.mem_cons_self
    refine ⟨hhead, by rw [ha]; exact hfree, ?_⟩
    rw [ha]
    exact ih hrest fun b hb => hs b (List.mem_cons_of_mem _ hb)

theorem append {pre post : List Nat} :
    Chain m tail head (pre ++ post) ↔
      ∃ middle, Chain m middle head pre ∧ Chain m tail middle post := by
  induction pre generalizing head with
  | nil => exact ⟨fun h => ⟨head, rfl, h⟩, by rintro ⟨_, rfl, h⟩; exact h⟩
  | cons a pre ih =>
    simp only [List.cons_append, Chain, ih]
    constructor
    · rintro ⟨hhead, hfree, middle, hpre, hpost⟩
      exact ⟨middle, ⟨hhead, hfree, hpre⟩, hpost⟩
    · rintro ⟨middle, ⟨hhead, hfree, hpre⟩, hpost⟩
      exact ⟨hhead, hfree, middle, hpre, hpost⟩

theorem head_eq {pre post : List Nat} {a : Nat} (h : Chain m tail head (pre ++ a :: post)) :
    Chain m (some a) head pre ∧ Chain m tail (m.header a).successor post := by
  obtain ⟨middle, hpre, rfl, -, hpost⟩ := append.mp h
  exact ⟨hpre, hpost⟩

theorem retail {pre : List Nat} {a : Nat} {tail' : Option Nat}
    (h : Chain m tail head (pre ++ [a])) (hfree : (n.header a).isFree = true)
    (hnext : (n.header a).successor = tail') (hs : ∀ b ∈ pre, n.header b = m.header b) :
    Chain n tail' head (pre ++ [a]) := by
  obtain ⟨hpre, -⟩ := head_eq h
  exact append.mpr ⟨some a, hpre.congr hs, rfl, hfree, hnext⟩

theorem freeFrom_eq (h : Chain m none head free) (hin : ∀ a ∈ free, a + Block.headerSize ≤ m.size)
    {fuel : Nat} (hfuel : free.length ≤ fuel) (taken : Nat → Fault) :
    Pool.freeFrom m taken fuel head = .ok (free.map m.header) := by
  induction free generalizing head fuel with
  | nil =>
    obtain rfl : head = none := h
    cases fuel <;> rfl
  | cons a rest ih =>
    obtain ⟨rfl, hfree, hrest⟩ := h
    cases fuel with
    | zero => exact absurd hfuel (Nat.not_succ_le_zero _)
    | succ fuel =>
      have hread : Block.read m a = .ok (m.header a) :=
        Block.read_eq_ok.mpr ⟨hin a List.mem_cons_self, rfl⟩
      have hnext : (m.header a).nextFree = .ok (m.header a).successor :=
        Block.nextFree_eq_ok.mpr ⟨hfree, rfl⟩
      have htail := ih hrest (fun b hb => hin b (List.mem_cons_of_mem _ hb))
        (Nat.le_of_succ_le_succ hfuel)
      simp only [Pool.freeFrom, hread, ok_bind, hfree, if_true, hnext, htail]
      rfl

end Chain

theorem Memory.successor_of_link {m : Memory} {addr : Nat} {next : Option Nat}
    (hlink : m.linkAt addr = Block.linkOf next) (hnext : ∀ a ∈ next, a < Block.endOfList) :
    (m.header addr).successor = next := by
  unfold Block.successor
  show (if m.linkAt addr = Block.endOfList then none else some (m.linkAt addr)) = next
  cases next with
  | none => exact if_pos hlink
  | some a =>
    have ha : a < Block.endOfList := hnext a rfl
    rw [hlink]
    exact if_neg (Nat.ne_of_lt ha)

theorem Block.linkOf_lt {next : Option Nat} (hnext : ∀ a ∈ next, a < Block.endOfList) :
    Block.linkOf next < 256 ^ 8 := by
  cases next with
  | none => decide
  | some a => exact Nat.lt_trans (hnext a rfl) (by decide)

theorem Block.setLink_changedIn {m n : Memory} {addr : Nat} {next : Option Nat}
    (h : Block.setLink m addr next = .ok n) :
    m.ChangedIn n (addr + Block.linkOffset) (addr + Block.headerSize) :=
  Memory.store_changedIn h

theorem Block.setSize_changedIn {m n : Memory} {addr size : Nat}
    (h : Block.setSize m addr size = .ok n) :
    m.ChangedIn n (addr + Block.sizeOffset) (addr + Block.linkOffset) :=
  Memory.store_changedIn h

theorem Block.linkAt_setLink {m n : Memory} {addr : Nat} {next : Option Nat}
    (h : Block.setLink m addr next = .ok n) (hnext : ∀ a ∈ next, a < Block.endOfList) :
    n.linkAt addr = Block.linkOf next := by
  unfold Memory.linkAt
  exact (Memory.number_store h).trans (Nat.mod_eq_of_lt (Block.linkOf_lt hnext))

theorem Block.sizeAt_setSize {m n : Memory} {addr size : Nat}
    (h : Block.setSize m addr size = .ok n) (hsize : size < Word.limit) :
    n.sizeAt addr = size := by
  unfold Memory.sizeAt
  exact (Memory.number_store h).trans (Nat.mod_eq_of_lt hsize)

theorem Block.writeFree_header {m n : Memory} {addr size : Nat} {next : Option Nat}
    (h : Block.writeFree m addr size next = .ok n) (hsize : size < Word.limit)
    (hnext : ∀ a ∈ next, a < Block.endOfList) :
    m.ChangedIn n addr (addr + Block.headerSize) ∧ (n.header addr).isFree = true ∧
      n.sizeAt addr = size ∧ (n.header addr).successor = next := by
  simp only [Block.writeFree, bind_eq_ok] at h
  obtain ⟨m₁, htag, m₂, haux, m₃, hset, hlink⟩ := h
  have c₁ := Memory.store_changedIn htag
  have c₂ := Memory.store_changedIn haux
  have c₃ := Block.setSize_changedIn hset
  have c₄ := Block.setLink_changedIn hlink
  have htag' : n.tagAt addr = Kind.free.tag := by
    unfold Memory.tagAt
    rw [c₄.number_eq (by simp only [Block.linkOffset]; omega),
      c₃.number_eq (by simp only [Block.sizeOffset]; omega),
      c₂.number_eq (by simp only [Block.auxOffset]; omega), Memory.number_store htag]
    rfl
  have hsize' : n.sizeAt addr = size := by
    have hs := Block.sizeAt_setSize hset hsize
    unfold Memory.sizeAt at hs ⊢
    rw [c₄.number_eq (by simp only [Block.sizeOffset, Block.linkOffset]; omega), hs]
  refine ⟨?_, ?_, hsize', ?_⟩
  · simp only [Block.auxOffset, Block.sizeOffset, Block.linkOffset, Block.headerSize] at c₂ c₃ c₄ ⊢
    exact (((c₁.mono (by omega) (by omega)).trans (c₂.mono (by omega) (by omega))).trans
      (c₃.mono (by omega) (by omega))).trans (c₄.mono (by omega) (by omega))
  · show (n.tagAt addr == Kind.free.tag) = true
    rw [htag']
    rfl
  · exact Memory.successor_of_link (Block.linkAt_setLink hlink hnext) hnext

end CountedHeap
