import CountedHeap.Proofs.Alignment
import CountedHeap.Proofs.FreeList

/-!
The state of an allocator. Its region is tiled by blocks, of which some hang on the free list and
the others are taken. A request turns a free block into a taken one, a release a taken one into a
free one, and neither touches a byte of the blocks that are taken.
-/

namespace CountedHeap

def Memory.InBlocks (m : Memory) (blocks : List Nat) (i : Nat) : Prop :=
  ∃ a ∈ blocks, a ≤ i ∧ i < a + m.sizeAt a

structure Memory.ChangedOn (m n : Memory) (some : Nat → Prop) : Prop where
  size_eq : n.size = m.size
  byte_eq : ∀ i, ¬some i → n.byte i = m.byte i

namespace Memory.ChangedOn

variable {m n k : Memory} {P : Nat → Prop}

theorem refl (m : Memory) (P : Nat → Prop) : m.ChangedOn m P := ⟨rfl, fun _ _ => rfl⟩

theorem trans (h₁ : m.ChangedOn n P) (h₂ : n.ChangedOn k P) : m.ChangedOn k P :=
  ⟨h₂.size_eq.trans h₁.size_eq, fun i hi => (h₂.byte_eq i hi).trans (h₁.byte_eq i hi)⟩

theorem of_changedIn {lo hi : Nat} (h : m.ChangedIn n lo hi) (hP : ∀ i, lo ≤ i → i < hi → P i) :
    m.ChangedOn n P := by
  refine ⟨h.size_eq, fun i hi => h.byte_eq i ?_⟩
  by_cases hlo : i < lo
  · exact .inl hlo
  · exact .inr (Nat.le_of_not_lt fun hhi => hi (hP i (Nat.le_of_not_lt hlo) hhi))

end Memory.ChangedOn

structure Covered (m : Memory) (region : Span) (blocks : List Nat) : Prop where
  bound : m.size ≤ Memory.maxSize
  inside : region.stop ≤ m.size
  aligned : 8 ∣ region.start
  tiled : ∃ tiles, Tiles m region.stop region.start tiles ∧ blocks.Perm tiles

namespace Covered

variable {m n : Memory} {region : Span} {blocks blocks' : List Nat} {a b lo size : Nat}

theorem bounds (h : Covered m region blocks) (ha : a ∈ blocks) :
    region.start ≤ a ∧ a + m.sizeAt a ≤ region.stop ∧
      Block.headerSize ≤ m.sizeAt a ∧ 8 ∣ m.sizeAt a ∧ 8 ∣ a := by
  obtain ⟨tiles, htiles, hperm⟩ := h.tiled
  have hmem := hperm.mem_iff.mp ha
  obtain ⟨hlo, hhi, hsize, hdvd⟩ := htiles.mem_bounds hmem
  exact ⟨hlo, hhi, hsize, hdvd, htiles.dvd h.aligned hmem⟩

theorem apart (h : Covered m region blocks) (ha : a ∈ blocks) (hb : b ∈ blocks) (hne : a ≠ b) :
    a + m.sizeAt a ≤ b ∨ b + m.sizeAt b ≤ a := by
  obtain ⟨tiles, htiles, hperm⟩ := h.tiled
  exact htiles.apart (hperm.mem_iff.mp ha) (hperm.mem_iff.mp hb) hne

theorem nodup (h : Covered m region blocks) : blocks.Nodup := by
  obtain ⟨tiles, htiles, hperm⟩ := h.tiled
  exact hperm.nodup_iff.mpr htiles.nodup

theorem lt_endOfList (h : Covered m region blocks) (ha : a ∈ blocks) : a < Block.endOfList := by
  have hb := h.bounds ha
  have hin := h.inside
  have hbound := h.bound
  simp only [Memory.maxSize, Block.endOfList, Word.limit] at *
  omega

theorem perm (h : Covered m region blocks) (hp : blocks.Perm blocks') :
    Covered m region blocks' := by
  obtain ⟨tiles, htiles, hperm⟩ := h.tiled
  exact ⟨h.bound, h.inside, h.aligned, tiles, htiles, hp.symm.trans hperm⟩

theorem congr (h : Covered m region blocks) (hsize : n.size = m.size)
    (hs : ∀ a ∈ blocks, n.sizeAt a = m.sizeAt a) : Covered n region blocks := by
  obtain ⟨tiles, htiles, hperm⟩ := h.tiled
  refine ⟨?_, ?_, h.aligned, tiles, htiles.congr fun a ha => hs a (hperm.mem_iff.mpr ha), hperm⟩
  · rw [hsize]
    exact h.bound
  · rw [hsize]
    exact h.inside

theorem header_eq (h : Covered m region blocks) (ha : a ∈ blocks) (hb : b ∈ blocks) (hne : b ≠ a)
    (hc : m.ChangedIn n lo (a + m.sizeAt a)) (hlo : a ≤ lo) : n.header b = m.header b := by
  have hsize := (h.bounds hb).2.2.1
  have hap := h.apart hb ha hne
  exact hc.header_eq (by omega)

theorem others (h : Covered m region (a :: blocks))
    (hc : m.ChangedIn n lo (a + m.sizeAt a)) (hlo : a ≤ lo) :
    ∀ b ∈ blocks, n.header b = m.header b := fun _ hb =>
  h.header_eq List.mem_cons_self (List.mem_cons_of_mem a hb)
    (fun heq => (List.nodup_cons.mp h.nodup).1 (heq ▸ hb)) hc hlo

theorem split (h : Covered m region (a :: blocks)) (hsize : Block.headerSize ≤ size)
    (hdvd : 8 ∣ size) (hrest : size + Block.headerSize ≤ m.sizeAt a) (hmem : n.size = m.size)
    (hfst : n.sizeAt a = size) (hsnd : n.sizeAt (a + size) = m.sizeAt a - size)
    (hs : ∀ b ∈ blocks, n.sizeAt b = m.sizeAt b) :
    Covered n region (a :: (a + size) :: blocks) := by
  obtain ⟨tiles, htiles, hperm⟩ := h.tiled
  obtain ⟨pre, post, rfl⟩ := List.append_of_mem (hperm.mem_iff.mp List.mem_cons_self)
  have hothers : blocks.Perm (pre ++ post) := (hperm.trans List.perm_middle).cons_inv
  refine ⟨?_, ?_, h.aligned, _, htiles.split hsize hdvd hrest hfst hsnd fun b hb =>
    hs b (hothers.mem_iff.mpr hb), ?_⟩
  · rw [hmem]
    exact h.bound
  · rw [hmem]
    exact h.inside
  · exact ((hothers.cons _).cons _).trans
      ((List.perm_middle.symm.cons _).trans List.perm_middle.symm)

end Covered

namespace Pool

/-- The region is tiled by free and taken blocks, and the list of the pool holds the free ones. -/
structure Laid (p : Pool) (free taken : List Nat) : Prop where
  bound : p.memory.size ≤ Memory.maxSize
  inside : p.region.stop ≤ p.memory.size
  aligned : 8 ∣ p.region.start
  tiled : ∃ blocks, Tiles p.memory p.region.stop p.region.start blocks ∧
    (free ++ taken).Perm blocks
  chained : Chain p.memory none p.freeHead free

namespace Laid

variable {p q : Pool} {free taken pre post : List Nat} {a b : Nat}

theorem covered (h : p.Laid free taken) : Covered p.memory p.region (free ++ taken) :=
  ⟨h.bound, h.inside, h.aligned, h.tiled⟩

theorem of_covered (h : Covered p.memory p.region (free ++ taken))
    (hc : Chain p.memory none p.freeHead free) : p.Laid free taken :=
  ⟨h.bound, h.inside, h.aligned, h.tiled, hc⟩

theorem bounds (h : p.Laid free taken) (ha : a ∈ free ++ taken) :
    p.region.start ≤ a ∧ a + p.memory.sizeAt a ≤ p.region.stop ∧
      Block.headerSize ≤ p.memory.sizeAt a ∧ 8 ∣ p.memory.sizeAt a ∧ 8 ∣ a :=
  h.covered.bounds ha

theorem apart (h : p.Laid free taken) (ha : a ∈ free ++ taken) (hb : b ∈ free ++ taken)
    (hne : a ≠ b) : a + p.memory.sizeAt a ≤ b ∨ b + p.memory.sizeAt b ≤ a :=
  h.covered.apart ha hb hne

theorem nodup (h : p.Laid free taken) : (free ++ taken).Nodup := h.covered.nodup

theorem covered_free (h : p.Laid (pre ++ a :: post) taken) :
    Covered p.memory p.region (a :: (pre ++ post ++ taken)) :=
  h.covered.perm (List.perm_middle.append_right taken)

theorem covered_taken (h : p.Laid free (a :: taken)) :
    Covered p.memory p.region (a :: (free ++ taken)) := h.covered.perm List.perm_middle

theorem head_lt (h : p.Laid free taken) : ∀ a ∈ p.freeHead, a < Block.endOfList := fun a ha =>
  h.covered.lt_endOfList (List.mem_append_left _ (h.chained.mem_of_head a ha))

theorem successor_lt (h : p.Laid (pre ++ a :: post) taken) :
    ∀ c ∈ (p.memory.header a).successor, c < Block.endOfList := by
  intro c hc
  have hmem := h.chained.head_eq.2.mem_of_head c hc
  exact h.covered.lt_endOfList (by simp [hmem])

theorem header_inside (h : p.Laid free taken) (ha : a ∈ free ++ taken) :
    a + Block.headerSize ≤ p.memory.size := by
  obtain ⟨-, hhi, hsize, -⟩ := h.bounds ha
  have hin := h.inside
  omega

theorem sizeAt_lt (h : p.Laid free taken) (ha : a ∈ free ++ taken) :
    p.memory.sizeAt a ≤ Memory.maxSize := by
  obtain ⟨-, hhi, -⟩ := h.bounds ha
  have hin := h.inside
  have hbound := h.bound
  omega

theorem transport (h : p.Laid free taken) {n : Memory} (hsize : n.size = p.memory.size)
    (hfree : ∀ a ∈ free, n.header a = p.memory.header a)
    (htaken : ∀ a ∈ taken, n.sizeAt a = p.memory.sizeAt a) :
    Laid { p with memory := n } free taken := by
  refine .of_covered (h.covered.congr hsize fun a ha => ?_) (h.chained.congr hfree)
  rcases List.mem_append.mp ha with ha | ha
  · exact Memory.sizeAt_of_header (hfree a ha)
  · exact htaken a ha

theorem perm {taken' : List Nat} (hl : p.Laid free taken) (hp : taken.Perm taken') :
    p.Laid free taken' := .of_covered (hl.covered.perm (hp.append_left free)) hl.chained

theorem write (h : p.Laid free taken) {n : Memory} (ha : a ∈ taken)
    (hc : p.memory.ChangedIn n a (a + p.memory.sizeAt a))
    (hs : n.sizeAt a = p.memory.sizeAt a) : Laid { p with memory := n } free taken := by
  have ham := List.mem_append_right free ha
  refine h.transport hc.size_eq (fun b hb => ?_) fun b hb => ?_
  · have hba : b ≠ a := (List.nodup_append.mp h.nodup).2.2 b hb a ha
    exact h.covered.header_eq ham (List.mem_append_left taken hb) hba hc (Nat.le_refl a)
  · by_cases hba : b = a
    · rw [hba]
      exact hs
    · exact Memory.sizeAt_of_header
        (h.covered.header_eq ham (List.mem_append_right free hb) hba hc (Nat.le_refl a))

theorem sizeAt_write (h : p.Laid free taken) {n : Memory} (ha : a ∈ free ++ taken)
    (hc : p.memory.ChangedIn n a (a + p.memory.sizeAt a))
    (hs : n.sizeAt a = p.memory.sizeAt a) (hb : b ∈ free ++ taken) :
    n.sizeAt b = p.memory.sizeAt b := by
  by_cases hne : b = a
  · exact hne ▸ hs
  · exact Memory.sizeAt_of_header (h.covered.header_eq ha hb hne hc (Nat.le_refl a))

theorem byte_eq (h : p.Laid free taken) {n : Memory} (ha : a ∈ taken)
    (hc : p.memory.ChangedOn n (p.memory.InBlocks free)) {i : Nat} (hlo : a ≤ i)
    (hhi : i < a + p.memory.sizeAt a) : n.byte i = p.memory.byte i := by
  refine hc.byte_eq i ?_
  rintro ⟨b, hb, hblo, hbhi⟩
  have hne : b ≠ a := (List.nodup_append.mp h.nodup).2.2 b hb a ha
  have hap := h.apart (List.mem_append_left _ hb) (List.mem_append_right _ ha) hne
  omega

theorem apart_taken (h : p.Laid free (a :: taken)) (hb : b ∈ taken) :
    a + p.memory.sizeAt a ≤ b ∨ b + p.memory.sizeAt b ≤ a := by
  have hnot : a ∉ taken := (List.nodup_cons.mp (List.nodup_append.mp h.nodup).2.1).1
  exact h.apart (by simp) (by simp [hb]) fun heq => hnot (heq ▸ hb)

theorem walk_eq (h : p.Laid free taken) (f : Nat → Fault) :
    p.walk f = .ok (free.map p.memory.header) := by
  refine h.chained.freeFrom_eq (fun a ha => h.header_inside (List.mem_append_left taken ha)) ?_ f
  obtain ⟨blocks, htiles, hperm⟩ := h.tiled
  have hlen := htiles.length_le
  have hperm := hperm.length_eq
  have hin := h.inside
  rw [List.length_append] at hperm
  omega

theorem visit_of_tiles (h : p.Laid free taken) {a start : Nat} {rest : List Nat}
    (htiles : Tiles p.memory p.region.stop start (a :: rest)) :
    p.visit a = .ok (p.memory.header a, a + p.memory.sizeAt a) := by
  have hin := h.inside
  have hbound := h.bound
  obtain ⟨hlo, hhi, hsize, -⟩ := htiles.mem_bounds List.mem_cons_self
  simp only [Block.headerSize] at hsize
  have hread : Block.read p.memory a = .ok (p.memory.header a) :=
    Block.read_eq_ok.mpr ⟨by simp only [Block.headerSize]; omega, rfl⟩
  have hstop : (p.memory.header a).stop = .ok (a + p.memory.sizeAt a) :=
    Word.fit_of_lt (by
      simp only [Memory.header_addr, Memory.header_size, Memory.maxSize, Word.limit] at *
      omega)
  have hne : (p.memory.header a).size ≠ 0 := by
    rw [Memory.header_size]
    omega
  simp only [visit, hread, ok_bind, if_neg hne, hstop]
  rfl

theorem blocks_of_tiles (h : p.Laid free taken) {blocks : List Nat}
    (htiles : Tiles p.memory p.region.stop p.region.start blocks) :
    p.blocks = .ok (blocks.map p.memory.header) := by
  have hin := h.inside
  have hlen := htiles.length_le
  have hfrom (fuel start : Nat) (rest : List Nat)
      (hrest : Tiles p.memory p.region.stop start rest) (hfuel : rest.length ≤ fuel) :
      p.blocksFrom fuel start = .ok (rest.map p.memory.header) := by
    induction fuel generalizing start rest with
    | zero =>
      rw [List.length_eq_zero_iff.mp (Nat.le_zero.mp hfuel)]
      rfl
    | succ fuel ih =>
      cases rest with
      | nil => exact if_pos (Nat.le_of_eq (Eq.symm hrest))
      | cons a rest =>
        have hvisit := h.visit_of_tiles hrest
        obtain ⟨hlo, hhi, hsize, -⟩ := hrest.mem_bounds List.mem_cons_self
        obtain ⟨rfl, -, -, hrest⟩ := hrest
        simp only [Block.headerSize] at hsize
        have htail := ih _ rest hrest (Nat.le_of_succ_le_succ hfuel)
        rw [blocksFrom, if_neg (by omega), hvisit, ok_bind]
        simp only [htail, ok_bind]
        rfl
  refine hfrom _ _ blocks htiles ?_
  simp only [Span.size]
  omega

theorem blocks_eq (h : p.Laid free taken) : ∃ addresses,
    p.blocks = .ok (addresses.map p.memory.header) ∧ (free ++ taken).Perm addresses := by
  obtain ⟨blocks, htiles, hperm⟩ := h.tiled
  exact ⟨blocks, h.blocks_of_tiles htiles, hperm⟩

theorem sum_sizes (h : p.Laid free taken) :
    p.region.start + ((free.map p.memory.sizeAt).sum + (taken.map p.memory.sizeAt).sum) =
      p.region.stop := by
  obtain ⟨blocks, htiles, hperm⟩ := h.tiled
  rw [← List.sum_append, ← List.map_append, (hperm.map _).sum_nat]
  exact htiles.sum_sizes

theorem used_eq (h : p.Laid free taken) : p.used = .ok (taken.map p.memory.sizeAt).sum := by
  have hsum := h.sum_sizes
  have hin := h.inside
  have hbound := h.bound
  have hfit : (free.map p.memory.sizeAt).sum < Word.limit := by
    simp only [Memory.maxSize, Word.limit] at *
    omega
  have htotal : Block.total (free.map p.memory.header) = (free.map p.memory.sizeAt).sum := by
    rw [Block.total_eq, List.map_map]
    rfl
  have hsub : Word.sub p.region.size (free.map p.memory.sizeAt).sum =
      .ok (taken.map p.memory.sizeAt).sum := by
    unfold Word.sub Span.size
    rw [if_pos (by omega)]
    congr 1
    omega
  simp only [used, freeBlocks, h.walk_eq, ok_bind, htotal, Word.fit_of_lt hfit, hsub]

end Laid

theorem requestSize_eq_ok {size n : Nat} :
    requestSize size = .ok n ↔ size + 8 < Word.limit ∧ max ((size + 7) / 8 * 8) 24 = n := by
  simp only [requestSize, bind_eq_ok, Word.alignUp_eq_ok, pure_eq_ok, Block.headerSize]
  constructor
  · rintro ⟨a, ⟨hlt, rfl⟩, rfl⟩
    exact ⟨hlt, rfl⟩
  · rintro ⟨hlt, rfl⟩
    exact ⟨_, ⟨hlt, rfl⟩, rfl⟩

theorem requestSize_bounds {size n : Nat} (h : requestSize size = .ok n) :
    size ≤ n ∧ Block.headerSize ≤ n ∧ 8 ∣ n := by
  obtain ⟨-, rfl⟩ := requestSize_eq_ok.mp h
  simp only [Block.headerSize]
  omega

theorem bestFit_mem {size : Nat} {blocks : List (Option Nat × Block)} {c : Option Nat × Block}
    (h : bestFit size blocks = some c) : c ∈ blocks ∧ size ≤ c.2.size := by
  suffices hfold : ∀ (l : List (Option Nat × Block)) (best : Option (Option Nat × Block)),
      (∀ b ∈ best, b ∈ blocks ∧ size ≤ b.2.size) → (∀ b ∈ l, b ∈ blocks) →
      ∀ b ∈ l.foldl (fun best c =>
        if size ≤ c.2.size && best.all fun b => c.2.size < b.2.size then some c else best) best,
        b ∈ blocks ∧ size ≤ b.2.size from
    hfold blocks none (by simp) (fun b hb => hb) c h
  intro l
  induction l with
  | nil => exact fun best hbest _ => hbest
  | cons d l ih =>
    intro best hbest hl
    rw [List.foldl_cons]
    refine ih _ ?_ fun b hb => hl b (List.mem_cons_of_mem _ hb)
    split
    · rename_i hfit
      rintro b ⟨⟩
      rw [Bool.and_eq_true, decide_eq_true_eq] at hfit
      exact ⟨hl d List.mem_cons_self, hfit.1⟩
    · exact hbest

theorem lt_of_bestFit {size : Nat} {blocks : List (Option Nat × Block)}
    (h : bestFit size blocks = none) : ∀ c ∈ blocks, c.2.size < size := by
  suffices hfold : ∀ (l : List (Option Nat × Block)) (best : Option (Option Nat × Block)),
      l.foldl (fun best c =>
        if size ≤ c.2.size && best.all fun b => c.2.size < b.2.size then some c else best) best =
          none → best = none ∧ ∀ c ∈ l, c.2.size < size from (hfold blocks none h).2
  intro l
  induction l with
  | nil => exact fun best hbest => ⟨hbest, nofun⟩
  | cons d l ih =>
    intro best hl
    rw [List.foldl_cons] at hl
    obtain ⟨hbest, hrest⟩ := ih _ hl
    split at hbest
    · cases hbest
    · rename_i hfit
      subst hbest
      simp only [Option.all_none, Bool.and_true, decide_eq_true_eq, Nat.not_le] at hfit
      exact ⟨rfl, List.forall_mem_cons.mpr ⟨hfit, hrest⟩⟩

theorem mem_withPrevious {m : Memory} {free : List Nat} {c : Option Nat × Block}
    (hc : c ∈ withPrevious (free.map m.header)) :
    ∃ pre a post, free = pre ++ a :: post ∧ c = (pre.getLast?, m.header a) := by
  obtain ⟨i, hi, rfl⟩ := List.getElem_of_mem hc
  have hlen : i < free.length := by
    simp only [withPrevious, List.length_zip, List.length_cons, List.length_map] at hi
    omega
  refine ⟨free.take i, free[i], free.drop (i + 1), ?_, ?_⟩
  · rw [List.getElem_cons_drop, List.take_append_drop]
  · simp only [withPrevious, List.getElem_zip, List.getElem_map]
    congr 1
    cases i with
    | zero => rfl
    | succ i =>
      have htake : free.take (i + 1) = free.take i ++ [free[i]] :=
        List.take_succ_eq_append_getElem (by omega)
      rw [htake, List.getLast?_concat]
      simp

def cut (m : Memory) (size addr : Nat) (next : Option Nat) : Except Fault (Memory × Option Nat) :=
  if Block.headerSize < m.sizeAt addr - size then do
    let m' ← Block.writeFree m (addr + size) (m.sizeAt addr - size) next
    return (← Block.setSize m' addr size, some (addr + size))
  else return (m, next)

def relink (p : Pool) (m : Memory) (heir : Option Nat) : Option Nat → Except Fault Pool
  | none => return { p with memory := m, freeHead := heir }
  | some previous => return { p with memory := ← Block.setLink m previous heir }

theorem carve_eq (p : Pool) (size addr : Nat) (previous : Option Nat)
    (hfree : (p.memory.header addr).isFree = true) :
    p.carve size previous (p.memory.header addr) =
      cut p.memory size addr (p.memory.header addr).successor >>=
        fun c => p.relink c.1 c.2 previous := by
  have hnext := Block.nextFree_eq_ok.mpr ⟨hfree, rfl⟩
  simp only [carve, cut, hnext, ok_bind, Memory.header_size, Memory.header_addr]
  by_cases hrest : Block.headerSize < p.memory.sizeAt addr - size
  · simp only [hrest, if_true, bind_assoc, pure_bind]
    rfl
  · simp only [hrest, if_false, pure_bind]
    rfl

theorem relink_laid {p q : Pool} {m : Memory} {pre rest taken : List Nat} {heir : Option Nat}
    {a : Nat} (hcovered : Covered m p.region (pre ++ rest ++ taken))
    (hpre : Chain m (some a) p.freeHead pre) (hrest : Chain m none heir rest)
    (h : p.relink m heir pre.getLast? = .ok q) :
    q.Laid (pre ++ rest) taken ∧ q.region = p.region ∧ q.poison = p.poison ∧
      m.ChangedOn q.memory (m.InBlocks pre) ∧
      (∀ c ∈ taken, q.memory.header c = m.header c) ∧
      ∀ c ∈ pre ++ rest, q.memory.sizeAt c = m.sizeAt c := by
  rcases List.eq_nil_or_concat pre with rfl | ⟨init, b, rfl⟩
  · cases h
    exact ⟨.of_covered hcovered hrest, rfl, rfl, Memory.ChangedOn.refl _ _, fun _ _ => rfl,
      fun _ _ => rfl⟩
  · rw [List.concat_eq_append] at *
    simp only [List.getLast?_concat, relink, bind_eq_ok, pure_eq_ok] at h
    obtain ⟨n, hlink, rfl⟩ := h
    have hfront : Covered m p.region (b :: (init ++ (rest ++ taken))) := by
      refine hcovered.perm ?_
      rw [List.append_assoc, List.append_assoc]
      exact List.perm_middle
    have hhead := (hfront.bounds List.mem_cons_self).2.2.1
    have hheir : ∀ c ∈ heir, c < Block.endOfList := fun c hc => by
      have hmem := hrest.mem_of_head c hc
      exact hcovered.lt_endOfList (by simp [hmem])
    have hc := Block.setLink_changedIn hlink
    simp only [Block.headerSize, Block.linkOffset] at hhead hc
    have hother := hfront.others (hc.mono (Nat.le_refl _) (by omega)) (by omega)
    have hfree : (n.header b).isFree = true := by
      rw [Memory.isFree_of_tag (hc.tagAt_eq (by simp only [Block.auxOffset]; omega))]
      exact hpre.isFree_of_mem (List.mem_append_right init List.mem_cons_self)
    have hnext : (n.header b).successor = heir :=
      Memory.successor_of_link (Block.linkAt_setLink hlink hheir) hheir
    have hsizes : ∀ c ∈ (init ++ [b]) ++ rest ++ taken, n.sizeAt c = m.sizeAt c := by
      intro c hcm
      by_cases hcb : c = b
      · subst hcb
        unfold Memory.sizeAt
        exact hc.number_eq (by simp only [Block.sizeOffset]; omega)
      · exact Memory.sizeAt_of_header (hother c (by simpa [hcb] using hcm))
    refine ⟨.of_covered (hcovered.congr hc.size_eq hsizes) (Chain.append.mpr ⟨heir, ?_, ?_⟩), rfl,
      rfl, ?_, fun c hcm => hother c (by simp [hcm]),
      fun c hcm => hsizes c (List.mem_append_left _ hcm)⟩
    · exact hpre.retail hfree hnext fun c hcm => hother c (by simp [hcm])
    · exact hrest.congr fun c hcm => hother c (by simp [hcm])
    · refine Memory.ChangedOn.of_changedIn hc fun i hlo hhi => ⟨b, by simp, ?_, ?_⟩ <;> omega

structure Split (m n : Memory) (addr size : Nat) : Prop where
  first : n.sizeAt addr = size
  second : n.sizeAt (addr + size) = m.sizeAt addr - size
  isFree : (n.header (addr + size)).isFree = true
  successor : (n.header (addr + size)).successor = (m.header addr).successor
  bytes : ∃ k, m.ChangedIn k (addr + size) (addr + size + Block.headerSize) ∧
    k.ChangedIn n (addr + Block.sizeOffset) (addr + Block.linkOffset)

theorem cut_cases {m n : Memory} {addr size : Nat} {heir : Option Nat}
    (hsize : Block.headerSize ≤ size)
    (hnext : ∀ c ∈ (m.header addr).successor, c < Block.endOfList)
    (h : cut m size addr (m.header addr).successor = .ok (n, heir)) :
    (Block.headerSize < m.sizeAt addr - size ∧ heir = some (addr + size) ∧
        Split m n addr size) ∨
      (¬Block.headerSize < m.sizeAt addr - size ∧ n = m ∧ heir = (m.header addr).successor) := by
  have hlt : m.sizeAt addr < Word.limit := Memory.sizeAt_lt ..
  unfold cut at h
  split at h
  case isTrue hrest =>
    simp only [bind_eq_ok, pure_eq_ok, Prod.mk.injEq] at h
    obtain ⟨k, hwrite, n, hset, rfl, rfl⟩ := h
    obtain ⟨hc₁, hfree, hsecond, hsucc⟩ := Block.writeFree_header hwrite (by omega) hnext
    have hc₂ := Block.setSize_changedIn hset
    have hheader : n.header (addr + size) = k.header (addr + size) := by
      refine hc₂.header_eq (.inr ?_)
      simp only [Block.linkOffset, Block.headerSize] at *
      omega
    refine .inl ⟨hrest, rfl, Block.sizeAt_setSize hset (by omega), ?_, ?_, ?_, k, hc₁, hc₂⟩
    · rw [Memory.sizeAt_of_header hheader, hsecond]
    · rw [hheader, hfree]
    · rw [hheader, hsucc]
  case isFalse hrest =>
    simp only [pure_eq_ok, Prod.mk.injEq] at h
    obtain ⟨rfl, rfl⟩ := h
    exact .inr ⟨hrest, rfl, rfl⟩

theorem Split.changedIn {m n : Memory} {addr size : Nat} (h : Split m n addr size)
    (hsize : Block.headerSize ≤ size) (hrest : Block.headerSize < m.sizeAt addr - size) :
    m.ChangedIn n (addr + Block.sizeOffset) (addr + m.sizeAt addr) := by
  obtain ⟨k, hc₁, hc₂⟩ := h.bytes
  simp only [Block.headerSize, Block.sizeOffset, Block.linkOffset] at *
  exact (hc₁.mono (by omega) (by omega)).trans (hc₂.mono (Nat.le_refl _) (by omega))

/-- How a request for `size` bytes changes the list of free blocks: the block is cut to size, or it
is taken as a whole when that leaves no more than a header. -/
def Spent (free free' : List Nat) (size allocated : Nat) : Prop :=
  (free'.length = free.length ∧ allocated = size) ∨
    (free'.length + 1 = free.length ∧ allocated ≤ size + Block.headerSize)

theorem Spent.append {free free' : List Nat} {size allocated : Nat}
    (h : Spent free free' size allocated) (pre : List Nat) :
    Spent (pre ++ free) (pre ++ free') size allocated := by
  simp only [Spent, List.length_append] at h ⊢
  omega

def Leaves (m n : Memory) (free free' : List Nat) : Prop :=
  ∀ a ∈ free', (a ∈ free ∧ n.sizeAt a = m.sizeAt a) ∨ Block.headerSize < n.sizeAt a

def IsRest (m : Memory) (addr size : Nat) (free free' : List Nat) : Prop :=
  ∀ a ∈ free', a ∈ free ∨ (a = addr + size ∧ Block.headerSize < m.sizeAt addr - size)

theorem Laid.cut {p : Pool} {pre post taken : List Nat} {a size : Nat}
    (hl : p.Laid (pre ++ a :: post) taken) (hsize : Block.headerSize ≤ size) (hdvd : 8 ∣ size)
    (hfit : size ≤ p.memory.sizeAt a) {m : Memory} {heir : Option Nat}
    (h : Pool.cut p.memory size a (p.memory.header a).successor = .ok (m, heir)) :
    ∃ rest, Chain m none heir rest ∧ Covered m p.region (pre ++ rest ++ a :: taken) ∧
      p.memory.ChangedIn m (a + Block.sizeOffset) (a + p.memory.sizeAt a) ∧
      size ≤ m.sizeAt a ∧ Spent (a :: post) rest size (m.sizeAt a) ∧
      Leaves p.memory m post rest ∧ IsRest p.memory a size post rest := by
  obtain ⟨-, hpost⟩ := hl.chained.head_eq
  rcases cut_cases hsize hl.successor_lt h with ⟨hrest, rfl, hs⟩ | ⟨hrest, rfl, rfl⟩
  · have hc := hs.changedIn hsize hrest
    have hother := hl.covered_free.others hc (Nat.le_add_right _ _)
    refine ⟨(a + size) :: post, ⟨rfl, hs.isFree, ?_⟩, ?_, hc, Nat.le_of_eq hs.first.symm,
      .inl ⟨rfl, hs.first⟩, List.forall_mem_cons.mpr ⟨.inr ?_, fun c hcm => .inl ⟨hcm, ?_⟩⟩,
      List.forall_mem_cons.mpr ⟨.inr ⟨rfl, hrest⟩, fun c hcm => .inl hcm⟩⟩
    · rw [hs.successor]
      exact hpost.congr fun c hcm => hother c (by simp [hcm])
    · refine (hl.covered_free.split hsize hdvd (by omega) hc.size_eq hs.first hs.second fun c hcm =>
        Memory.sizeAt_of_header (hother c hcm)).perm ?_
      have hmiddle : ((a + size) :: (pre ++ post ++ taken)).Perm
          (pre ++ (a + size) :: post ++ taken) := List.perm_middle.symm.append_right taken
      exact (hmiddle.cons a).trans List.perm_middle.symm
    · rwa [hs.second]
    · exact Memory.sizeAt_of_header (hother c (by simp [hcm]))
  · refine ⟨post, hpost, hl.covered_free.perm List.perm_middle.symm, Memory.ChangedIn.refl .., hfit,
      .inr ⟨rfl, by omega⟩, fun c hcm => .inl ⟨hcm, rfl⟩, fun c hcm => .inl hcm⟩

/-- A request that is served takes a free block of at least that size, leaves no mere header free,
and writes to free blocks only. -/
theorem Laid.alloc {p q : Pool} {free taken : List Nat} {size addr : Nat}
    (hl : p.Laid free taken) (h : p.alloc size = .ok (.ok (addr, q))) :
    ∃ free', q.Laid free' (addr :: taken) ∧ addr ∈ free ∧
      (q.memory.header addr).isFree = true ∧ size ≤ q.memory.sizeAt addr ∧
      (∃ n, requestSize size = .ok n ∧ Spent free free' n (q.memory.sizeAt addr) ∧
        IsRest p.memory addr n free free') ∧
      q.region = p.region ∧ q.poison = p.poison ∧
      p.memory.ChangedOn q.memory (p.memory.InBlocks free) ∧
      Leaves p.memory q.memory free free' := by
  simp only [Pool.alloc, bind_eq_ok, hl.walk_eq, Except.ok.injEq, exists_eq_left'] at h
  obtain ⟨n, hn, h⟩ := h
  obtain ⟨hle, hhead, hdvd⟩ := requestSize_bounds hn
  split at h
  · simp only [bind_eq_ok, pure_eq_ok] at h
    obtain ⟨_, -, h⟩ := h
    cases h
  rename_i previous block hbest
  obtain ⟨hmem, hfit⟩ := bestFit_mem hbest
  obtain ⟨pre, a, post, rfl, hc⟩ := mem_withPrevious hmem
  cases hc
  have hafree := hl.chained.isFree_of_mem (a := a) (by simp)
  simp only [bind_eq_ok, pure_eq_ok, Except.ok.injEq, Prod.mk.injEq, carve_eq p n a _ hafree] at h
  obtain ⟨_, ⟨⟨m, heir⟩, hcut, hrelink⟩, rfl, rfl⟩ := h
  obtain ⟨rest, hrest, hcovered, hch, hsize, hspent, hleaves, hisRest⟩ :=
    hl.cut hhead hdvd hfit hcut
  -- The blocks in front of the one that is taken are not touched but for the last link.
  have hpreHeader : ∀ c ∈ pre, m.header c = p.memory.header c := fun c hcm =>
    hl.covered_free.others hch (Nat.le_add_right _ _) c (by simp [hcm])
  have hpre : Chain m (some a) p.freeHead pre := hl.chained.head_eq.1.congr hpreHeader
  obtain ⟨hlaid, hregion, hpoison, hrch, hheader, hsizes⟩ := relink_laid hcovered hpre hrest hrelink
  have ha := hheader a List.mem_cons_self
  refine ⟨_, hlaid, by simp, ?_, ?_, ⟨n, hn, ?_, fun c hcm => ?_⟩, hregion, hpoison, ?_,
    fun c hcm => ?_⟩
  · have htag : a + Block.auxOffset ≤ a + Block.sizeOffset := Nat.add_le_add_left (by decide) a
    rw [Memory.header_addr, ha, Memory.isFree_of_tag (hch.tagAt_eq htag)]
    exact hafree
  · rw [Memory.header_addr, Memory.sizeAt_of_header ha]
    omega
  · rw [Memory.header_addr, Memory.sizeAt_of_header ha]
    exact hspent.append pre
  · rcases List.mem_append.mp hcm with hc | hc
    · exact .inl (by simp [hc])
    · exact (hisRest c hc).imp_left fun h => by simp [h]
  · refine (Memory.ChangedOn.of_changedIn hch fun i hlo hhi => ⟨a, by simp, by omega, hhi⟩).trans
      ⟨hrch.size_eq, fun i hi => hrch.byte_eq i ?_⟩
    rintro ⟨c, hcm, hlo, hhi⟩
    rw [Memory.sizeAt_of_header (hpreHeader c hcm)] at hhi
    exact hi ⟨c, by simp [hcm], hlo, hhi⟩
  · rw [hsizes c hcm]
    rcases List.mem_append.mp hcm with hc | hc
    · exact .inl ⟨by simp [hc], Memory.sizeAt_of_header (hpreHeader c hc)⟩
    · exact (hleaves c hc).imp_left fun h => ⟨by simp [h.1], h.2⟩

theorem Laid.alloc_refused {p : Pool} {free taken : List Nat} {size : Nat} {e : OutOfMemory}
    (hl : p.Laid free taken) (h : p.alloc size = .ok (.error e)) :
    ∃ n, requestSize size = .ok n ∧ e = ⟨n, (taken.map p.memory.sizeAt).sum⟩ ∧
      ∀ a ∈ free, p.memory.sizeAt a < n := by
  simp only [Pool.alloc, bind_eq_ok, hl.walk_eq, Except.ok.injEq, exists_eq_left'] at h
  obtain ⟨n, hn, h⟩ := h
  split at h
  · rename_i hbest
    simp only [bind_eq_ok, hl.used_eq, Except.ok.injEq, exists_eq_left', pure_eq_ok] at h
    cases h
    refine ⟨n, hn, rfl, fun a ha => ?_⟩
    obtain ⟨i, hi, rfl⟩ := List.getElem_of_mem ha
    have hlt : i < (withPrevious (free.map p.memory.header)).length := by
      simp only [withPrevious, List.length_zip, List.length_cons, List.length_map]
      omega
    have hsmall := lt_of_bestFit hbest _ (List.getElem_mem hlt)
    simpa only [withPrevious, List.getElem_zip, List.getElem_map, Memory.header_size] using hsmall
  · simp only [bind_eq_ok, pure_eq_ok] at h
    obtain ⟨_, -, h⟩ := h
    cases h

theorem writePattern_changedIn {p q : Pool} {addr : Nat} (h : p.writePattern addr = .ok q) :
    ∃ n, q = { p with memory := n } ∧
      p.memory.ChangedIn n (addr + Block.headerSize) (addr + p.memory.sizeAt addr) := by
  unfold writePattern at h
  split at h
  · simp only [bind_eq_ok, Block.read_eq_ok, pure_eq_ok] at h
    obtain ⟨_, ⟨-, rfl⟩, stop, hstop, n, hfill, rfl⟩ := h
    obtain ⟨rfl, -⟩ := Word.fit_eq_ok.mp hstop
    exact ⟨n, rfl, Memory.fill_changedIn hfill⟩
  · cases h
    exact ⟨p.memory, rfl, Memory.ChangedIn.refl ..⟩

theorem writePattern_answers {p : Pool} {a : Nat} (hbound : p.memory.size ≤ Memory.maxSize)
    (hhead : Block.headerSize ≤ p.memory.sizeAt a)
    (hin : a + p.memory.sizeAt a ≤ p.memory.size) :
    ∃ n, p.writePattern a = .ok { p with memory := n } ∧
      p.memory.ChangedIn n (a + Block.headerSize) (a + p.memory.sizeAt a) := by
  have hanswers : ∃ q, p.writePattern a = .ok q := by
    unfold writePattern
    split
    · have hread : Block.read p.memory a = .ok (p.memory.header a) :=
        Block.read_eq_ok.mpr ⟨by omega, rfl⟩
      have hstop : (p.memory.header a).stop = .ok (a + p.memory.sizeAt a) := by
        refine Word.fit_of_lt ?_
        simp only [Memory.header_addr, Memory.header_size, Memory.maxSize, Word.limit] at *
        omega
      simp only [hread, hstop, ok_bind, bind_eq_ok, Memory.fill_eq_ok, pure_eq_ok]
      exact ⟨_, _, ⟨⟨by omega, hin⟩, rfl⟩, rfl⟩
    · exact ⟨_, rfl⟩
  obtain ⟨q, hq⟩ := hanswers
  obtain ⟨n, rfl, hc⟩ := writePattern_changedIn hq
  exact ⟨n, hq, hc⟩

theorem Laid.writePattern_answers {p : Pool} {free taken : List Nat} {a : Nat}
    (hl : p.Laid free taken) (ha : a ∈ free ++ taken) :
    ∃ n, p.writePattern a = .ok { p with memory := n } ∧
      p.memory.ChangedIn n (a + Block.headerSize) (a + p.memory.sizeAt a) := by
  obtain ⟨-, hstop, hhead, -⟩ := hl.bounds ha
  exact Pool.writePattern_answers hl.bound hhead (Nat.le_trans hstop hl.inside)

theorem Laid.free {p q : Pool} {free taken : List Nat} {a : Nat}
    (hl : p.Laid free (a :: taken)) (h : p.free a = .ok q) :
    q.Laid (a :: free) taken ∧ q.region = p.region ∧ q.poison = p.poison ∧
      p.memory.ChangedIn q.memory a (a + p.memory.sizeAt a) ∧
      ∀ c ∈ a :: free, q.memory.sizeAt c = p.memory.sizeAt c := by
  simp only [Pool.free, throw_bind, guard_eq_ok, guard_not_eq_ok, bind_eq_ok,
    Block.read_eq_ok] at h
  obtain ⟨-, _, ⟨-, rfl⟩, -, m, hwrite, hpattern⟩ := h
  have hhead := (hl.covered_taken.bounds List.mem_cons_self).2.2.1
  have hlt : p.memory.sizeAt a < Word.limit := Memory.sizeAt_lt ..
  obtain ⟨hc₁, hfree, hsize, hsucc⟩ := Block.writeFree_header hwrite hlt hl.head_lt
  obtain ⟨n, rfl, hc₂⟩ := writePattern_changedIn hpattern
  simp only [Memory.header_size] at hsize
  simp only [hsize] at hc₂
  have ha : n.header a = m.header a := hc₂.header_eq (.inl (Nat.le_refl _))
  have hc : p.memory.ChangedIn n a (a + p.memory.sizeAt a) :=
    (hc₁.mono (Nat.le_refl _) (by omega)).trans (hc₂.mono (by omega) (Nat.le_refl _))
  have hother := hl.covered_taken.others hc (Nat.le_refl a)
  have hsizes : ∀ c ∈ a :: (free ++ taken), n.sizeAt c = p.memory.sizeAt c :=
    List.forall_mem_cons.mpr ⟨by rw [Memory.sizeAt_of_header ha, hsize],
      fun c hcm => Memory.sizeAt_of_header (hother c hcm)⟩
  refine ⟨.of_covered (hl.covered_taken.congr hc.size_eq hsizes) ⟨rfl, ?_, ?_⟩, rfl, rfl, hc,
    fun c hcm => hsizes c (List.mem_append_left taken hcm)⟩
  · rw [ha]
    exact hfree
  · rw [ha, hsucc]
    exact hl.chained.congr fun c hcm => hother c (List.mem_append_left taken hcm)

theorem activate_laid {p q : Pool} {span : Span} (hbound : p.memory.size ≤ Memory.maxSize)
    (h : p.activate span = .ok q) :
    q.Laid [span.start] [] ∧
      q.region = ⟨span.start, span.start + Word.roundDown span.size Block.alignment⟩ ∧
      q.poison = p.poison ∧ span.stop ≤ p.memory.size ∧ span.start ≤ span.stop ∧
      p.memory.ChangedIn q.memory span.start (span.start + Block.headerSize) := by
  simp only [activate, throw_bind, guard_eq_ok, bind_eq_ok, Word.isAligned_eq_ok, pure_eq_ok,
    Bool.and_eq_true, decide_eq_true_eq, exists_eq_left', beq_iff_eq] at h
  obtain ⟨⟨hle, hin⟩, halign, hroom, n, hwrite, rfl⟩ := h
  have hround := Word.roundDown_eight span.size
  have hsize : Word.roundDown span.size Block.alignment ≤ span.size := by
    rw [hround]
    have hmod := Nat.mod_le span.size Word.limit
    omega
  have hspan : span.size = span.stop - span.start := rfl
  obtain ⟨hc, hfree, hs, hsucc⟩ := Block.writeFree_header hwrite
    (by simp only [Memory.maxSize, Word.limit] at *; omega) (by simp)
  refine ⟨⟨?_, ?_, Nat.dvd_of_mod_eq_zero halign, ⟨[span.start], Tiles.single hroom ?_ hs, ?_⟩,
    rfl, hfree, hsucc⟩, rfl, rfl, hin, hle, hc⟩
  · rw [hc.size_eq]
    exact hbound
  · rw [hc.size_eq]
    show span.start + _ ≤ _
    omega
  · rw [hround]
    exact Nat.dvd_mul_left 8 _
  · exact .refl _

end Pool
end CountedHeap
