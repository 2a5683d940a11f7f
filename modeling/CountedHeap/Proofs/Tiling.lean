import CountedHeap.Pool
import CountedHeap.Proofs.Memory

/-!
Blocks side by side. From a start on, each block ends where the next one begins, until the stop
is reached; so the blocks are in order and do not overlap. Only their sizes matter for this, and
a block may be split in two.
-/

namespace CountedHeap

namespace Memory

@[irreducible]
def tagAt (m : Memory) (addr : Nat) : Nat := m.number addr 4

@[irreducible]
def sizeAt (m : Memory) (addr : Nat) : Nat := m.number (addr + Block.sizeOffset) 8

@[irreducible]
def linkAt (m : Memory) (addr : Nat) : Nat := m.number (addr + Block.linkOffset) 8

def header (m : Memory) (addr : Nat) : Block :=
  ⟨addr, m.tagAt addr, m.number (addr + Block.auxOffset) 4, m.sizeAt addr, m.linkAt addr⟩

@[simp]
theorem header_size (m : Memory) (addr : Nat) : (m.header addr).size = m.sizeAt addr := rfl

@[simp]
theorem header_addr (m : Memory) (addr : Nat) : (m.header addr).addr = addr := rfl

theorem sizeAt_of_header {m n : Memory} {addr : Nat} (h : n.header addr = m.header addr) :
    n.sizeAt addr = m.sizeAt addr := by
  rw [← header_size, h, header_size]

theorem sizeAt_lt (m : Memory) (addr : Nat) : m.sizeAt addr < Word.limit := by
  unfold sizeAt
  exact number_lt ..

theorem linkAt_lt (m : Memory) (addr : Nat) : m.linkAt addr < Word.limit := by
  unfold linkAt
  exact number_lt ..

theorem ChangedIn.header_eq {m n : Memory} {lo hi addr : Nat} (h : m.ChangedIn n lo hi)
    (hd : addr + Block.headerSize ≤ lo ∨ hi ≤ addr) : n.header addr = m.header addr := by
  simp only [Block.headerSize] at hd
  simp only [header, tagAt, sizeAt, linkAt, Block.auxOffset, Block.sizeOffset, Block.linkOffset]
  rw [h.number_eq (by omega), h.number_eq (by omega), h.number_eq (by omega),
    h.number_eq (by omega)]

theorem isFree_of_tag {m n : Memory} {addr : Nat} (h : n.tagAt addr = m.tagAt addr) :
    (n.header addr).isFree = (m.header addr).isFree := by
  unfold Block.isFree header
  rw [h]

theorem ChangedIn.tagAt_eq {m n : Memory} {lo hi addr : Nat} (h : m.ChangedIn n lo hi)
    (hd : addr + Block.auxOffset ≤ lo) : n.tagAt addr = m.tagAt addr := by
  unfold tagAt
  exact h.number_eq (.inl hd)

end Memory

theorem Block.read_eq_ok {m : Memory} {addr : Nat} {b : Block} :
    Block.read m addr = .ok b ↔ addr + Block.headerSize ≤ m.size ∧ m.header addr = b := by
  simp only [Block.read, throw_bind, guard_eq_ok, pure_eq_ok, Memory.header, Memory.tagAt,
    Memory.sizeAt, Memory.linkAt]

theorem Block.total_eq (blocks : List Block) : total blocks = (blocks.map size).sum := by
  induction blocks with
  | nil => rfl
  | cons b rest ih => rw [total, ih, List.map_cons, List.sum_cons]

/-- The blocks at these addresses cover all bytes from `start` up to `stop`. -/
def Tiles (m : Memory) (stop : Nat) : Nat → List Nat → Prop
  | start, [] => start = stop
  | start, a :: rest =>
      a = start ∧ Block.headerSize ≤ m.sizeAt a ∧ 8 ∣ m.sizeAt a ∧
        Tiles m stop (start + m.sizeAt a) rest

namespace Tiles

variable {m n : Memory} {start stop : Nat} {blocks : List Nat}

theorem start_le (h : Tiles m stop start blocks) : start ≤ stop := by
  induction blocks generalizing start with
  | nil => exact Nat.le_of_eq h
  | cons a rest ih => exact Nat.le_trans (Nat.le_add_right _ _) (ih h.2.2.2)

theorem mem_bounds (h : Tiles m stop start blocks) {a : Nat} (ha : a ∈ blocks) :
    start ≤ a ∧ a + m.sizeAt a ≤ stop ∧ Block.headerSize ≤ m.sizeAt a ∧ 8 ∣ m.sizeAt a := by
  induction blocks generalizing start with
  | nil => exact absurd ha List.not_mem_nil
  | cons b rest ih =>
    obtain ⟨rfl, hsize, hdvd, hrest⟩ := h
    rcases List.mem_cons.mp ha with rfl | ha
    · exact ⟨Nat.le_refl _, hrest.start_le, hsize, hdvd⟩
    · obtain ⟨hlo, hhi⟩ := ih hrest ha
      exact ⟨by omega, hhi⟩

theorem dvd (h : Tiles m stop start blocks) (hstart : 8 ∣ start) {a : Nat} (ha : a ∈ blocks) :
    8 ∣ a := by
  induction blocks generalizing start with
  | nil => exact absurd ha List.not_mem_nil
  | cons b rest ih =>
    obtain ⟨rfl, -, hdvd, hrest⟩ := h
    rcases List.mem_cons.mp ha with rfl | ha
    · exact hstart
    · exact ih hrest (Nat.dvd_add hstart hdvd) ha

theorem pairwise (h : Tiles m stop start blocks) :
    blocks.Pairwise fun a b => a + m.sizeAt a ≤ b := by
  induction blocks generalizing start with
  | nil => exact .nil
  | cons a rest ih =>
    obtain ⟨rfl, -, -, hrest⟩ := h
    refine .cons (fun b hb => ?_) (ih hrest)
    exact (hrest.mem_bounds hb).1

theorem nodup (h : Tiles m stop start blocks) : blocks.Nodup := by
  refine h.pairwise.imp_of_mem fun {a b} ha _ hle => ?_
  have hsize := (h.mem_bounds ha).2.2.1
  simp only [Block.headerSize] at hsize
  omega

theorem apart (h : Tiles m stop start blocks) {a b : Nat} (ha : a ∈ blocks) (hb : b ∈ blocks)
    (hne : a ≠ b) : a + m.sizeAt a ≤ b ∨ b + m.sizeAt b ≤ a := by
  induction blocks generalizing start with
  | nil => exact absurd ha List.not_mem_nil
  | cons c rest ih =>
    obtain ⟨rfl, -, -, hrest⟩ := h
    rcases List.mem_cons.mp ha with rfl | har
    · rcases List.mem_cons.mp hb with rfl | hbr
      · exact absurd rfl hne
      · exact .inl (hrest.mem_bounds hbr).1
    · rcases List.mem_cons.mp hb with rfl | hbr
      · exact .inr (hrest.mem_bounds har).1
      · exact ih hrest har hbr

theorem sum_sizes (h : Tiles m stop start blocks) :
    start + (blocks.map m.sizeAt).sum = stop := by
  induction blocks generalizing start with
  | nil => exact h
  | cons a rest ih =>
    have hrest := ih h.2.2.2
    rw [List.map_cons, List.sum_cons]
    omega

theorem length_le (h : Tiles m stop start blocks) : start + blocks.length ≤ stop := by
  induction blocks generalizing start with
  | nil => exact Nat.le_of_eq h
  | cons a rest ih =>
    have hrest := ih h.2.2.2
    have hsize := h.2.1
    simp only [Block.headerSize] at hsize
    rw [List.length_cons]
    omega

theorem congr (h : Tiles m stop start blocks)
    (hs : ∀ a ∈ blocks, n.sizeAt a = m.sizeAt a) : Tiles n stop start blocks := by
  induction blocks generalizing start with
  | nil => exact h
  | cons a rest ih =>
    obtain ⟨rfl, hsize, hdvd, hrest⟩ := h
    have ha := hs a List.mem_cons_self
    refine ⟨rfl, by rwa [ha], by rwa [ha], ?_⟩
    rw [ha]
    exact ih hrest fun b hb => hs b (List.mem_cons_of_mem _ hb)

theorem split {pre post : List Nat} {a size : Nat} (h : Tiles m stop start (pre ++ a :: post))
    (hsize : Block.headerSize ≤ size) (hdvd : 8 ∣ size)
    (hrest : size + Block.headerSize ≤ m.sizeAt a) (hfst : n.sizeAt a = size)
    (hsnd : n.sizeAt (a + size) = m.sizeAt a - size)
    (hs : ∀ b ∈ pre ++ post, n.sizeAt b = m.sizeAt b) :
    Tiles n stop start (pre ++ a :: (a + size) :: post) := by
  induction pre generalizing start with
  | nil =>
    obtain ⟨rfl, -, hd, hpost⟩ := h
    refine ⟨rfl, ?_, ?_, by rw [hfst], ?_, ?_, ?_⟩
    · rw [hfst]
      exact hsize
    · rw [hfst]
      exact hdvd
    · rw [hsnd]
      omega
    · rw [hsnd]
      exact Nat.dvd_sub hd hdvd
    · rw [hfst, hsnd, Nat.add_assoc, Nat.add_sub_cancel' (by omega)]
      exact hpost.congr hs
  | cons b pre ih =>
    obtain ⟨rfl, hb, hd, hpost⟩ := h
    have hbs := hs b List.mem_cons_self
    refine ⟨rfl, by rwa [hbs], by rwa [hbs], ?_⟩
    rw [hbs]
    exact ih hpost fun c hc => hs c (List.mem_cons_of_mem _ hc)

theorem single {size : Nat} (hsize : Block.headerSize ≤ size) (hdvd : 8 ∣ size)
    (hs : m.sizeAt start = size) : Tiles m (start + size) start [start] := by
  refine ⟨rfl, by rwa [hs], by rwa [hs], ?_⟩
  rw [hs]
  rfl

end Tiles
end CountedHeap
