import CountedHeap.Proofs.Allocation

/-!
An allocator over a whole run of requests, releases and writes by the owners of its blocks. The
walk over the region, the list of free blocks and the blocks that are handed out tell the same of
the memory at any time: each block is either free and on the list once, or has one owner.
-/

namespace CountedHeap

def Block.Abut (stop : Nat) : Nat → List Block → Prop
  | start, [] => start = stop
  | start, b :: rest => b.addr = start ∧ Abut stop (start + b.size) rest

namespace Memory

variable {m : Memory} {addr size width value : Nat} {next : Option Nat}

theorem store_answers (value : Nat) (h : addr + width ≤ m.size) :
    ∃ n, m.store addr width value = .ok n ∧ n.size = m.size :=
  ⟨_, store_eq_ok.mpr ⟨h, rfl⟩, size_setNumber ..⟩

theorem writeFree_answers (size : Nat) (next : Option Nat) (h : addr + Block.headerSize ≤ m.size) :
    ∃ n, Block.writeFree m addr size next = .ok n ∧ n.size = m.size := by
  simp only [Block.headerSize] at h
  simp only [Block.writeFree, Block.setSize, Block.setLink, store32, store64, bind_eq_ok,
    store_eq_ok, Block.auxOffset, Block.sizeOffset, Block.linkOffset]
  refine ⟨_, ⟨_, ⟨by omega, rfl⟩, _, ⟨?_, rfl⟩, _, ⟨?_, rfl⟩, ?_, rfl⟩, ?_⟩ <;>
    simp only [size_setNumber] <;> omega

end Memory

theorem Tiles.abut {m : Memory} {start stop : Nat} {blocks : List Nat}
    (h : Tiles m stop start blocks) : Block.Abut stop start (blocks.map m.header) := by
  induction blocks generalizing start with
  | nil => exact h
  | cons a rest ih =>
    obtain ⟨rfl, -, -, hrest⟩ := h
    exact ⟨rfl, ih hrest⟩

namespace Pool

namespace Laid

variable {p q : Pool} {free taken : List Nat} {a size : Nat}

theorem read_eq (hl : p.Laid free taken) (ha : a ∈ free ++ taken) :
    Block.read p.memory a = .ok (p.memory.header a) :=
  Block.read_eq_ok.mpr ⟨hl.header_inside ha, rfl⟩

theorem free_answers (hl : p.Laid free taken) (ha : a ∈ taken)
    (hused : (p.memory.header a).isFree = false) : ∃ q, p.free a = .ok q := by
  have ham := List.mem_append_right free ha
  have hab := hl.bounds ham
  have hin := hl.inside
  simp only [Block.headerSize] at hab
  have hcontains : p.contains a = true := by
    simp only [contains, Span.contains, Bool.and_eq_true, decide_eq_true_eq]
    omega
  obtain ⟨m, hwrite, -⟩ := Memory.writeFree_answers (p.memory.sizeAt a) p.freeHead
    (hl.header_inside ham)
  obtain ⟨hc, -, hsize, -⟩ := Block.writeFree_header hwrite (Memory.sizeAt_lt ..) hl.head_lt
  obtain ⟨n, hpattern, -⟩ : ∃ n, writePattern { p with memory := m, freeHead := some a } a =
      .ok { p with memory := n, freeHead := some a } ∧ _ := by
    refine Pool.writePattern_answers ?_ ?_ ?_
    · rw [hc.size_eq]
      exact hl.bound
    · rw [hsize]
      exact hab.2.2.1
    · rw [hsize, hc.size_eq]
      exact Nat.le_trans hab.2.1 hin
  simp only [Pool.free, hcontains, hl.read_eq ham, hused, Memory.header_size, hwrite, ok_bind]
  exact ⟨_, hpattern⟩

theorem cut_answers (hl : p.Laid free taken) (ha : a ∈ free) (n : Nat) :
    ∃ m heir, Pool.cut p.memory n a (p.memory.header a).successor = .ok (m, heir) ∧
      m.size = p.memory.size := by
  have hab := hl.bounds (List.mem_append_left taken ha)
  have hin := hl.inside
  unfold Pool.cut
  split
  · rename_i hrest
    simp only [Block.headerSize] at hrest hab
    have hroom : a + n + Block.headerSize ≤ p.memory.size := by
      simp only [Block.headerSize]
      omega
    obtain ⟨m, hwrite, hm⟩ := Memory.writeFree_answers (p.memory.sizeAt a - n)
      (p.memory.header a).successor hroom
    have hfield : a + Block.sizeOffset + 8 ≤ m.size := by
      simp only [Block.sizeOffset]
      omega
    obtain ⟨m', hset, hm'⟩ := Memory.store_answers n hfield
    refine ⟨m', some (a + n), ?_, hm'.trans hm⟩
    simp only [hwrite, ok_bind, Block.setSize, Memory.store64, hset]
    rfl
  · exact ⟨_, _, rfl, rfl⟩

theorem relink_answers (hl : p.Laid free taken) {m : Memory} (hm : m.size = p.memory.size)
    (heir : Option Nat) {previous : Option Nat} (hp : ∀ c ∈ previous, c ∈ free) :
    ∃ q, p.relink m heir previous = .ok q := by
  cases previous with
  | none => exact ⟨_, rfl⟩
  | some c =>
    have hc := hl.header_inside (List.mem_append_left taken (hp c rfl))
    simp only [Block.headerSize] at hc
    have hfield : c + Block.linkOffset + 8 ≤ m.size := by
      simp only [Block.linkOffset]
      omega
    obtain ⟨m', hset, -⟩ := Memory.store_answers (Block.linkOf heir) hfield
    refine ⟨{ p with memory := m' }, ?_⟩
    simp only [relink, Block.setLink, Memory.store64, hset, ok_bind]
    rfl

theorem alloc_answers (hl : p.Laid free taken) (hsize : size + 8 < Word.limit) :
    ∃ answer, p.alloc size = .ok answer := by
  simp only [Pool.alloc, requestSize_eq_ok.mpr ⟨hsize, rfl⟩, ok_bind, hl.walk_eq]
  generalize max ((size + 7) / 8 * 8) 24 = n
  split
  · simp only [hl.used_eq, ok_bind]
    exact ⟨_, rfl⟩
  · rename_i previous block hbest
    obtain ⟨pre, b, post, rfl, hc⟩ := mem_withPrevious (bestFit_mem hbest).1
    cases hc
    obtain ⟨m, heir, hcut, hm⟩ := hl.cut_answers (a := b) (by simp) n
    have hprevious : ∀ c ∈ pre.getLast?, c ∈ pre ++ b :: post := fun c hc =>
      List.mem_append_left _ (List.mem_of_getLast? hc)
    obtain ⟨q, hlink⟩ := hl.relink_answers hm heir hprevious
    have hfree := hl.chained.isFree_of_mem (a := b) (by simp)
    refine ⟨.ok (b, q), ?_⟩
    simp only [carve_eq p n b _ hfree, hcut, hlink, ok_bind, Memory.header_addr]
    rfl

end Laid

/-- What comes of a region by requests, releases and writes, with the addresses of the blocks that
have an owner. The owner of a block marks it as soon as it gets it, and may write to it whatever
leaves the mark and the size of the block. -/
inductive Run (span : Span) : Pool → List Nat → Prop
  | start {p q : Pool} (hsize : p.memory.size ≤ Memory.maxSize) (h : p.activate span = .ok q) :
      Run span q []
  | alloc {p q : Pool} {taken : List Nat} {size addr tag : Nat} {m : Memory}
      (hp : Run span p taken) (h : p.alloc size = .ok (.ok (addr, q)))
      (htag : tag < 0x100000000 ∧ tag ≠ Kind.free.tag) (hmark : q.memory.store32 addr tag = .ok m) :
      Run span { q with memory := m } (addr :: taken)
  | write {p : Pool} {taken : List Nat} {addr : Nat} {m : Memory} (hp : Run span p taken)
      (ha : addr ∈ taken) (h : p.memory.ChangedIn m addr (addr + p.memory.sizeAt addr))
      (hsize : m.sizeAt addr = p.memory.sizeAt addr) (hmark : (m.header addr).isFree = false) :
      Run span { p with memory := m } taken
  | free {p q : Pool} {taken : List Nat} {addr : Nat} (hp : Run span p taken) (ha : addr ∈ taken)
      (h : p.free addr = .ok q) : Run span q (taken.erase addr)

/-- The walk over the region, the list of free blocks and the blocks with an owner agree. -/
structure Partition (p : Pool) (taken : List Nat) (blocks free owned : List Block) : Prop where
  walk : p.blocks = .ok blocks
  abut : Block.Abut p.region.stop p.region.start blocks
  sizes : ∀ b ∈ blocks, 8 ∣ b.size ∧ 24 ≤ b.size
  list : p.freeBlocks = .ok free
  once : (free.map Block.addr).Nodup
  onList : free.Perm (blocks.filter (·.isFree))
  reads : taken.mapM (Block.read p.memory) = .ok owned
  inUse : owned.Perm (blocks.filter (!·.isFree))
  apart : owned.Pairwise fun b c => b.addr + b.size ≤ c.addr ∨ c.addr + c.size ≤ b.addr
  used : p.used = .ok (Block.total owned)
  served : ∀ size, size + 8 < Word.limit → ∃ answer, p.alloc size = .ok answer
  returnable : ∀ a ∈ taken, ∃ q, p.free a = .ok q

variable {p q : Pool} {span : Span} {free taken : List Nat} {a b size : Nat}

structure Marked (p : Pool) (span : Span) (free taken : List Nat) : Prop
    extends Laid p free taken where
  region : p.region = ⟨span.start, span.start + Word.roundDown span.size Block.alignment⟩
  marked : ∀ a ∈ taken, (p.memory.header a).isFree = false

namespace Marked

theorem elsewhere (hl : p.Laid free taken)
    (hm : ∀ c ∈ taken, c ≠ a → (p.memory.header c).isFree = false) (ha : a ∈ taken)
    {m : Memory} (hc : p.memory.ChangedIn m a (a + p.memory.sizeAt a)) (hb : b ∈ taken)
    (hne : b ≠ a) : (m.header b).isFree = false := by
  rw [hl.covered.header_eq (List.mem_append_right free ha) (List.mem_append_right free hb) hne hc
    (Nat.le_refl a)]
  exact hm b hb hne

theorem write (hl : p.Marked span free taken) {m : Memory} (ha : a ∈ taken)
    (hc : p.memory.ChangedIn m a (a + p.memory.sizeAt a))
    (hsize : m.sizeAt a = p.memory.sizeAt a) (hmark : (m.header a).isFree = false) :
    Marked { p with memory := m } span free taken := by
  refine ⟨hl.toLaid.write ha hc hsize, hl.region, fun b hb => ?_⟩
  by_cases hne : b = a
  · exact hne ▸ hmark
  · exact elsewhere hl.toLaid (fun c hc _ => hl.marked c hc) ha hc hb hne

theorem alloc (hl : p.Marked span free taken) (h : p.alloc size = .ok (.ok (a, q))) {tag : Nat}
    (htag : tag < 0x100000000 ∧ tag ≠ Kind.free.tag) {m : Memory}
    (hmark : q.memory.store32 a tag = .ok m) :
    ∃ free', Marked { q with memory := m } span free' (a :: taken) := by
  obtain ⟨free', hl', -, -, -, -, hregion, -, hon, -⟩ := hl.toLaid.alloc h
  have hsize := (hl'.bounds (a := a) (by simp)).2.2.1
  simp only [Block.headerSize] at hsize
  have hc := (Memory.store_changedIn hmark).mono (Nat.le_refl _)
    (show a + 4 ≤ a + q.memory.sizeAt a by omega)
  have hold : ∀ b ∈ taken, (q.memory.header b).isFree = false := by
    intro b hb
    have hheader := (hl.toLaid.bounds (List.mem_append_right free hb)).2.2.1
    simp only [Block.headerSize] at hheader
    have htagAt : q.memory.tagAt b = p.memory.tagAt b := by
      unfold Memory.tagAt
      exact Memory.number_congr fun i hlo hhi => hl.toLaid.byte_eq hb hon hlo (by omega)
    rw [Memory.isFree_of_tag htagAt]
    exact hl.marked b hb
  refine ⟨free', hl'.write List.mem_cons_self hc ?_, ?_, fun b hb => ?_⟩
  · unfold Memory.sizeAt
    exact (Memory.store_changedIn hmark).number_eq (by simp only [Block.sizeOffset]; omega)
  · rw [← hl.region, ← hregion]
  · by_cases hne : b = a
    · subst hne
      have htagAt : m.tagAt b = tag := by
        unfold Memory.tagAt
        exact (Memory.number_store hmark).trans (Nat.mod_eq_of_lt htag.1)
      show (m.tagAt b == Kind.free.tag) = false
      rw [htagAt]
      exact beq_false_of_ne htag.2
    · exact elsewhere hl' (fun c hc hca => hold c ((List.mem_cons.mp hc).resolve_left hca))
        List.mem_cons_self hc hb hne

theorem release (hl : p.Marked span free taken) (ha : a ∈ taken) (h : p.free a = .ok q) :
    q.Marked span (a :: free) (taken.erase a) := by
  have hlaid := hl.toLaid.perm (List.perm_cons_erase ha)
  obtain ⟨hq, hregion, -, hc, -⟩ := hlaid.free h
  have hnodup := (List.nodup_append.mp hl.toLaid.nodup).2.1
  refine ⟨hq, hregion.trans hl.region, fun b hb => ?_⟩
  obtain ⟨hne, hb⟩ := hnodup.mem_erase_iff.mp hb
  exact elsewhere hl.toLaid (fun c hc _ => hl.marked c hc) ha hc hb hne

theorem partitioned (hl : p.Marked span free taken) :
    ∃ blocks free owned, p.Partition taken blocks free owned := by
  obtain ⟨addresses, htiles, hperm⟩ := hl.tiled
  have hfree : ∀ b ∈ free.map p.memory.header, b.isFree = true :=
    List.forall_mem_map.mpr fun c hc => hl.chained.isFree_of_mem hc
  have hused : ∀ b ∈ taken.map p.memory.header, b.isFree = false :=
    List.forall_mem_map.mpr hl.marked
  have hnodup := List.nodup_append.mp hl.toLaid.nodup
  have hwalk := (hperm.symm.map p.memory.header).filter
  rw [List.map_append] at hwalk
  refine ⟨addresses.map p.memory.header, free.map p.memory.header, taken.map p.memory.header,
    hl.toLaid.blocks_of_tiles htiles, htiles.abut, ?_, hl.toLaid.walk_eq _, ?_, ?_, ?_, ?_, ?_, ?_,
    fun _ => hl.toLaid.alloc_answers, fun c hc => hl.toLaid.free_answers hc (hl.marked c hc)⟩
  · refine List.forall_mem_map.mpr fun c hc => ?_
    obtain ⟨-, -, hsize, hdvd⟩ := htiles.mem_bounds hc
    exact ⟨hdvd, hsize⟩
  · rw [List.map_map]
    exact (List.map_id free).symm ▸ hnodup.1
  · have hon := (hwalk fun b => b.isFree).symm
    rw [List.filter_append, List.filter_eq_self.mpr hfree,
      List.filter_eq_nil_iff.mpr fun b hb => by simp [hused b hb], List.append_nil] at hon
    exact hon
  · exact mapM_eq_ok fun c hc => hl.toLaid.read_eq (List.mem_append_right free hc)
  · have hin := (hwalk fun b => !b.isFree).symm
    rw [List.filter_append, List.filter_eq_nil_iff.mpr fun b hb => by simp [hfree b hb],
      List.filter_eq_self.mpr fun b hb => by simp [hused b hb], List.nil_append] at hin
    exact hin
  · rw [List.pairwise_map]
    refine hnodup.2.1.imp_of_mem fun hb hc hne => ?_
    exact hl.toLaid.apart (List.mem_append_right free hb) (List.mem_append_right free hc) hne
  · rw [hl.toLaid.used_eq, Block.total_eq, List.map_map]
    rfl

end Marked

theorem Run.marked (hrun : Run span p taken) : ∃ free, p.Marked span free taken := by
  induction hrun with
  | start hsize h =>
    obtain ⟨hl, hregion, -⟩ := activate_laid hsize h
    exact ⟨_, hl, hregion, nofun⟩
  | alloc hp h htag hmark ih =>
    obtain ⟨free, hl⟩ := ih
    exact hl.alloc h htag hmark
  | write hp ha h hsize hmark ih =>
    obtain ⟨free, hl⟩ := ih
    exact ⟨free, hl.write ha h hsize hmark⟩
  | free hp ha h ih =>
    obtain ⟨free, hl⟩ := ih
    exact ⟨_, hl.release ha h⟩

/-- The walk, the list and the owners agree at any time, and nothing is in use once every block was
given back. -/
theorem Run.partition (hrun : Run span p taken) :
    p.region = ⟨span.start, span.start + Word.roundDown span.size Block.alignment⟩ ∧
      (∃ blocks free owned, p.Partition taken blocks free owned) ∧
        (taken = [] → p.used = .ok 0) := by
  obtain ⟨free, hl⟩ := hrun.marked
  refine ⟨hl.region, hl.partitioned, ?_⟩
  rintro rfl
  exact hl.toLaid.used_eq

def trial : Except Fault (Option (Pool × Nat)) := do
  let p ← (← idle 128 true).activate ⟨8, 128⟩
  match ← p.alloc 20 with
  | .error _ => return none
  | .ok (a, p) =>
      let p := { p with memory := ← p.memory.store32 a Kind.bool.tag }
      match ← p.alloc 40 with
      | .error _ => return none
      | .ok (b, p) =>
          let p := { p with memory := ← p.memory.store32 b Kind.list.tag }
          return some (← p.free a, b)

theorem trial_run (h : trial = .ok (some (q, b))) : Run ⟨8, 128⟩ q [b] := by
  simp only [trial, idle, Memory.zeroed, bind_eq_ok, pure_eq_ok] at h
  obtain ⟨_, ⟨m, hzero, rfl⟩, p, hstart, h⟩ := h
  split at hzero
  case isFalse hlarge => exact absurd (by decide) hlarge
  cases hzero
  obtain ⟨_ | ⟨a, p₁⟩, halloc, h⟩ := h
  · cases h
  simp only [bind_eq_ok] at h
  obtain ⟨m₁, hmark, _ | ⟨b', p₂⟩, halloc', h⟩ := h
  · cases h
  simp only [bind_eq_ok, pure_eq_ok, Option.some_inj, Prod.mk.injEq] at h
  obtain ⟨m₂, hmark', p₃, hfree, rfl, rfl⟩ := h
  have hstarted : Run ⟨8, 128⟩ p [] := .start (by decide +kernel) hstart
  have htwo := (hstarted.alloc halloc (by decide) hmark).alloc halloc' (by decide) hmark'
  have hgiven := htwo.free (List.mem_cons_of_mem _ List.mem_cons_self) hfree
  by_cases hne : b' = a
  · rwa [hne, List.erase_cons_head, ← hne] at hgiven
  · rwa [List.erase_cons_tail (by simpa using hne), List.erase_cons_head] at hgiven

theorem trial_partition : ∃ p b, trial = .ok (some (p, b)) ∧
    p.region = ⟨8, 128⟩ ∧ ∃ blocks free owned, p.Partition [b] blocks free owned := by
  have hends : (match trial with
      | .ok (some _) => true
      | _ => false) = true := by decide +kernel
  split at hends
  case h_1 r hr =>
    obtain ⟨hregion, hpartition, -⟩ := (trial_run hr).partition
    exact ⟨r.1, r.2, hr, hregion, hpartition⟩
  case h_2 => cases hends

end Pool
end CountedHeap
