import CountedHeap.Proofs.Mirrors
import CountedHeap.Proofs.PoolRuns

/-!
Allocators that differ in what lies behind the headers of their blocks. The headers, the list of
free blocks and the region are the same, and nothing else is ever read by an allocator: so each
request and each release does the same to both, whether it fills payloads with a pattern or not.
-/

namespace CountedHeap

namespace Memory

structure Same (m m' : Memory) (known : Nat → Prop) : Prop where
  size_eq : m'.size = m.size
  byte_eq : ∀ i, known i → m'.byte i = m.byte i

def InHeader (addr i : Nat) : Prop := addr ≤ i ∧ i < addr + Block.headerSize

def InHeaders (blocks : List Nat) (i : Nat) : Prop := ∃ a ∈ blocks, InHeader a i

namespace Same

variable {m m' n n' : Memory} {known known' : Nat → Prop} {addr lo hi : Nat}

theorem mono (hs : m.Same m' known) (hk : ∀ i, known' i → known i) : m.Same m' known' :=
  ⟨hs.size_eq, fun i hi => hs.byte_eq i (hk i hi)⟩

theorem or (hs : m.Same m' known) (hs' : m.Same m' known') :
    m.Same m' fun i => known i ∨ known' i :=
  ⟨hs.size_eq, fun i hi => hi.elim (hs.byte_eq i) (hs'.byte_eq i)⟩

theorem number_eq (hs : m.Same m' known) {width : Nat}
    (hk : ∀ i, addr ≤ i → i < addr + width → known i) :
    m'.number addr width = m.number addr width :=
  number_congr fun i hlo hhi => hs.byte_eq i (hk i hlo hhi)

theorem header_eq (hs : m.Same m' known) (hk : ∀ i, InHeader addr i → known i) :
    m'.header addr = m.header addr := by
  have hnum (offset width : Nat) (h : offset + width ≤ 24) :
      m'.number (addr + offset) width = m.number (addr + offset) width :=
    hs.number_eq fun i hlo hhi => hk i ⟨by omega, by simp only [Block.headerSize]; omega⟩
  simp only [header, tagAt, sizeAt, linkAt, Block.auxOffset, Block.sizeOffset, Block.linkOffset]
  rw [hnum 4 4 (by omega), hnum 8 8 (by omega), hnum 16 8 (by omega),
    show m'.number addr 4 = _ from hnum 0 4 (by omega)]
  rfl

theorem read_eq (hs : m.Same m' known) (hk : ∀ i, InHeader addr i → known i) :
    Block.read m' addr = Block.read m addr := by
  by_cases hin : addr + Block.headerSize ≤ m.size
  · rw [Block.read_eq_ok.mpr ⟨hin, rfl⟩, Block.read_eq_ok.mpr ⟨hs.size_eq ▸ hin, rfl⟩,
      hs.header_eq hk]
  · have hout (k : Memory) (hsize : k.size = m.size) :
        Block.read k addr = .error .headerOutside := by
      rw [Block.read, hsize, if_neg hin]
      rfl
    rw [hout m rfl, hout m' hs.size_eq]

theorem check_eq (hs : m.Same m' known) (start stop : Nat) :
    m'.check start stop = m.check start stop := by
  rw [check, check, hs.size_eq]

theorem changed (hs : m.Same m' known) (hc : m.ChangedIn n lo hi) (hc' : m'.ChangedIn n' lo hi)
    (hk : ∀ i, known' i → known i ∧ (i < lo ∨ hi ≤ i)) : n.Same n' known' := by
  refine ⟨?_, fun i hi => ?_⟩
  · rw [hc.size_eq, hc'.size_eq, hs.size_eq]
  · obtain ⟨hi, hout⟩ := hk i hi
    rw [hc.byte_eq i hout, hc'.byte_eq i hout, hs.byte_eq i hi]

theorem setByte (hs : m.Same m' known) (addr : Nat) (b : UInt8) :
    (m.setByte addr b).Same (m'.setByte addr b) fun i => known i ∨ i = addr := by
  refine ⟨?_, fun i hi => ?_⟩
  · rw [size_setByte, size_setByte, hs.size_eq]
  · have hout (k : Memory) (hsize : ¬addr < k.size) : k.byte addr = 0 := dif_neg hsize
    rw [byte_setByte, byte_setByte, hs.size_eq]
    by_cases hia : i = addr
    · subst hia
      by_cases hin : i < m.size
      · rw [if_pos ⟨rfl, hin⟩, if_pos ⟨rfl, hin⟩]
      · rw [if_neg (fun h => hin h.2), if_neg (fun h => hin h.2), hout m hin,
          hout m' (hs.size_eq ▸ hin)]
    · rw [if_neg (fun h => hia h.1), if_neg (fun h => hia h.1)]
      exact hs.byte_eq i (hi.resolve_right hia)

theorem setNumber (hs : m.Same m' known) (addr value width : Nat) :
    (m.setNumber addr value width).Same (m'.setNumber addr value width)
      fun i => known i ∨ (addr ≤ i ∧ i < addr + width) := by
  induction width generalizing m m' known addr value with
  | zero => exact hs.mono fun i hi => hi.resolve_right (by omega)
  | succ width ih =>
    refine (ih (hs.setByte addr _) (addr + 1) _).mono fun i hi => ?_
    rcases hi with hi | hi
    · exact .inl (.inl hi)
    · by_cases hia : i = addr
      · exact .inl (.inr hia)
      · exact .inr (by omega)

theorem setBytes (hs : m.Same m' known) (addr : Nat) (bytes : List UInt8) :
    (m.setBytes addr bytes).Same (m'.setBytes addr bytes) known := by
  induction bytes generalizing m m' addr with
  | nil => exact hs
  | cons b rest ih => exact ih ((hs.setByte addr b).mono fun _ => .inl) (addr + 1)

theorem store (hs : m.Same m' known) (addr width value : Nat) :
    Mirrored (fun n n' => n.Same n' fun i => known i ∨ (addr ≤ i ∧ i < addr + width))
      (m.store addr width value) (m'.store addr width value) :=
  Mirrored.bind_eq (hs.check_eq ..).symm fun _ _ =>
    Mirrored.pure_pure (hs.setNumber addr value width)

theorem put (hs : m.Same m' known) (addr : Nat) (bytes : List UInt8) :
    Mirrored (fun n n' => n.Same n' known) (m.put addr bytes) (m'.put addr bytes) :=
  Mirrored.bind_eq (hs.check_eq ..).symm fun _ _ =>
    Mirrored.pure_pure (hs.setBytes addr bytes)

theorem copy (hs : m.Same m' known) {start stop : Nat} (dest : Nat)
    (hk : ∀ i, start ≤ i → i < stop → known i) :
    Mirrored (fun n n' => n.Same n' known) (m.copy start stop dest) (m'.copy start stop dest) := by
  refine Mirrored.bind_eq ?_ fun bytes _ => hs.put dest bytes
  simp only [slice, hs.check_eq]
  rw [bytesFrom_shift fun i hi => (hs.byte_eq (start + i) (hk _ (by omega) (by omega))).symm]

theorem copied (hs : m.Same m' known) (start stop dest : Nat) :
    Mirrored (fun n n' => n.Same n' fun i => (known i ∧ (i < dest ∨ dest + (stop - start) ≤ i)) ∨
        (dest ≤ i ∧ i < dest + (stop - start) ∧ known (start + (i - dest))))
      (m.copy start stop dest) (m'.copy start stop dest) := by
  refine Mirrored.imp (R := fun n n' => n'.size = n.size) ?_ fun n n' hn hn' hsize => ?_
  · refine Mirrored.bind (R := fun bytes bytes' => bytes'.length = bytes.length) ?_ ?_
    · refine Mirrored.bind_eq (hs.check_eq ..).symm fun _ _ => Mirrored.pure_pure ?_
      rw [length_bytesFrom, length_bytesFrom]
    · intro bytes bytes' _ _ hlen
      rw [Memory.put, Memory.put, hs.check_eq, hlen]
      refine Mirrored.bind_eq rfl fun _ _ => Mirrored.pure_pure ?_
      rw [size_setBytes, size_setBytes, hs.size_eq]
  · have hc := copy_changedIn hn
    have hc' := copy_changedIn hn'
    refine ⟨hsize, fun i hi => ?_⟩
    rcases hi with ⟨hk, hout⟩ | ⟨hlo, hhi, hk⟩
    · rw [hc.byte_eq i hout, hc'.byte_eq i hout, hs.byte_eq i hk]
    · have hi : i = dest + (i - dest) := by omega
      rw [hi, byte_copy hn (by omega), byte_copy hn' (by omega), hs.byte_eq _ hk]

theorem of_bytesFrom {count : Nat} (hsize : m'.size = m.size)
    (hbytes : m'.bytesFrom addr count = m.bytesFrom addr count) :
    m.Same m' fun i => addr ≤ i ∧ i < addr + count := by
  refine ⟨hsize, fun i hi => ?_⟩
  have hlt : i - addr < (m.bytesFrom addr count).length := by
    rw [length_bytesFrom]
    omega
  have hlt' : i - addr < (m'.bytesFrom addr count).length := hbytes ▸ hlt
  have hget : (m'.bytesFrom addr count)[i - addr] = (m.bytesFrom addr count)[i - addr] := by
    simp only [hbytes]
  rw [getElem_bytesFrom, getElem_bytesFrom] at hget
  rwa [show addr + (i - addr) = i by omega] at hget

end Same
end Memory

theorem Block.writeFree_mirrored {m m' : Memory} {known : Nat → Prop} (hs : m.Same m' known)
    (addr size : Nat) (next : Option Nat) :
    Mirrored (fun n n' => n.Same n' fun i => known i ∨ Memory.InHeader addr i)
      (Block.writeFree m addr size next) (Block.writeFree m' addr size next) := by
  refine (hs.store addr 4 _).bind fun m₁ m₁' _ _ h₁ => ?_
  refine (h₁.store (addr + Block.auxOffset) 4 _).bind fun m₂ m₂' _ _ h₂ => ?_
  refine (h₂.store (addr + Block.sizeOffset) 8 _).bind fun m₃ m₃' _ _ h₃ => ?_
  refine (h₃.store (addr + Block.linkOffset) 8 _).imp fun n n' _ _ h => h.mono fun i hi => ?_
  simp only [Memory.InHeader, Block.headerSize, Block.auxOffset, Block.sizeOffset,
    Block.linkOffset] at *
  rcases hi with hi | hi
  · exact .inl (.inl (.inl (.inl hi)))
  · omega

namespace Pool

/-- Allocators of one state, up to what lies behind the headers of their blocks. -/
structure Twins (p p' : Pool) (free taken : List Nat) : Prop where
  laid : p.Laid free taken
  region : p'.region = p.region
  freeHead : p'.freeHead = p.freeHead
  headers : p.memory.Same p'.memory (Memory.InHeaders (free ++ taken))

theorem Laid.header_outside {p : Pool} {free taken : List Nat} {a b i : Nat}
    (hl : p.Laid free taken) (ha : a ∈ free ++ taken) (hb : b ∈ free ++ taken)
    (hi : Memory.InHeader b i) : i < a + Block.headerSize ∨ a + p.memory.sizeAt a ≤ i := by
  have hab := (hl.bounds ha).2.2.1
  have hbb := (hl.bounds hb).2.2.1
  obtain ⟨hlo, hhi⟩ := hi
  by_cases hne : b = a
  · subst hne
    exact .inl hhi
  · have hap := hl.apart hb ha hne
    omega

namespace Twins

variable {p p' : Pool} {free taken : List Nat} {a size : Nat} {known : Nat → Prop}

theorem header_eq (ht : p.Twins p' free taken) (ha : a ∈ free ++ taken) :
    p'.memory.header a = p.memory.header a :=
  ht.headers.header_eq fun _ hi => ⟨a, ha, hi⟩

theorem laid' (ht : p.Twins p' free taken) : p'.Laid free taken := by
  have hl := ht.laid.transport ht.headers.size_eq
    (fun a ha => ht.header_eq (List.mem_append_left _ ha))
    fun a ha => Memory.sizeAt_of_header (ht.header_eq (List.mem_append_right _ ha))
  refine .of_covered ?_ ?_
  · rw [ht.region]
    exact hl.covered
  · rw [ht.freeHead]
    exact hl.chained

theorem perm (ht : p.Twins p' free taken) {taken' : List Nat} (hp : taken.Perm taken') :
    p.Twins p' free taken' := by
  refine ⟨ht.laid.perm hp, ht.region, ht.freeHead, ht.headers.mono ?_⟩
  rintro i ⟨a, ha, hi⟩
  refine ⟨a, ?_, hi⟩
  rwa [List.mem_append, hp.mem_iff, ← List.mem_append]

theorem contains_eq (ht : p.Twins p' free taken) : p'.contains = p.contains := by
  funext a
  simp only [Pool.contains, ht.region]

theorem read_eq (ht : p.Twins p' free taken) (ha : a ∈ free ++ taken) :
    Block.read p'.memory a = Block.read p.memory a :=
  ht.headers.read_eq fun _ hi => ⟨a, ha, hi⟩

theorem walk_eq (ht : p.Twins p' free taken) (f : Nat → Fault) : p'.walk f = p.walk f := by
  rw [ht.laid.walk_eq, ht.laid'.walk_eq,
    List.map_congr_left fun a ha => ht.header_eq (List.mem_append_left taken ha)]

theorem used_eq (ht : p.Twins p' free taken) : p'.used = p.used := by
  rw [used, used, freeBlocks, freeBlocks, ht.walk_eq, ht.region]

theorem blocks_eq (ht : p.Twins p' free taken) : p'.blocks = p.blocks := by
  obtain ⟨blocks, htiles, hperm⟩ := ht.laid.tiled
  have hheader : ∀ a ∈ blocks, p'.memory.header a = p.memory.header a :=
    fun a ha => ht.header_eq (hperm.mem_iff.mpr ha)
  have htiles' := htiles.congr fun a ha => Memory.sizeAt_of_header (hheader a ha)
  rw [ht.laid.blocks_of_tiles htiles, ht.laid'.blocks_of_tiles (ht.region ▸ htiles'),
    List.map_congr_left hheader]

theorem write (ht : p.Twins p' free taken) {n n' : Memory} (ha : a ∈ taken)
    (hc : p.memory.ChangedIn n a (a + p.memory.sizeAt a))
    (hsize : n.sizeAt a = p.memory.sizeAt a)
    (hheaders : n.Same n' (Memory.InHeaders (free ++ taken))) :
    Twins { p with memory := n } { p' with memory := n' } free taken :=
  ⟨ht.laid.write ha hc hsize, ht.region, ht.freeHead, hheaders⟩

theorem writePattern (ht : p.Twins p' free taken) (ha : a ∈ taken) :
    Mirrored (fun q q' => q.Twins q' free taken) (p.writePattern a) (p'.writePattern a) := by
  have ham : a ∈ free ++ taken := List.mem_append_right _ ha
  have hab := (ht.laid.bounds ham).2.2.1
  obtain ⟨n, hn, hc⟩ := ht.laid.writePattern_answers ham
  obtain ⟨n', hn', hc'⟩ := ht.laid'.writePattern_answers ham
  rw [Memory.sizeAt_of_header (ht.header_eq ham)] at hc'
  have hsize : n.sizeAt a = p.memory.sizeAt a :=
    Memory.sizeAt_of_header (hc.header_eq (.inl (Nat.le_refl _)))
  refine Mirrored.of_ok hn hn' (ht.write ha (hc.mono (by omega) (Nat.le_refl _)) hsize ?_)
  refine ht.headers.changed hc hc' ?_
  rintro i ⟨b, hb, hi⟩
  exact ⟨⟨b, hb, hi⟩, ht.laid.header_outside ham hb hi⟩

theorem carve (hregion : p'.region = p.region) (hhead : p'.freeHead = p.freeHead)
    (hs : p.memory.Same p'.memory known) (size : Nat) (previous : Option Nat) (block : Block) :
    Mirrored (fun q q' => q'.region = q.region ∧ q'.freeHead = q.freeHead ∧
      q.memory.Same q'.memory fun i => known i ∨
        (Block.headerSize < block.size - size ∧ Memory.InHeader (block.addr + size) i))
      (p.carve size previous block) (p'.carve size previous block) := by
  have hrelink {known : Nat → Prop} {m m' : Memory} (hm : m.Same m' known)
      (heir : Option Nat) : Mirrored (fun q q' => q'.region = q.region ∧
        q'.freeHead = q.freeHead ∧ q.memory.Same q'.memory known)
        (p.relink m heir previous) (p'.relink m' heir previous) := by
    cases previous with
    | none => exact Mirrored.pure_pure ⟨hregion, rfl, hm⟩
    | some previous =>
      refine (hm.store (previous + Block.linkOffset) 8 _).bind fun n n' _ _ hn => ?_
      exact Mirrored.pure_pure ⟨hregion, hhead, hn.mono fun i => .inl⟩
  refine Mirrored.bind_eq rfl fun next _ => ?_
  by_cases hrest : Block.headerSize < block.size - size
  · simp only [hrest, if_true, true_and]
    refine (Block.writeFree_mirrored hs ..).bind fun m m' _ _ hm => ?_
    refine (hm.store (block.addr + Block.sizeOffset) 8 size).bind fun n n' _ _ hn => ?_
    exact hrelink (hn.mono fun _ => .inl) (some (block.addr + size))
  · simp only [hrest, if_false, false_and, or_false]
    exact hrelink hs next

theorem alloc (ht : p.Twins p' free taken) (hs : p.memory.Same p'.memory known) (size : Nat) :
    Mirrored (Mirrored fun x x' => x'.1 = x.1 ∧ x.2.memory.Same x'.2.memory known ∧
        ∃ free', x.2.Twins x'.2 free' (x.1 :: taken))
      (p.alloc size) (p'.alloc size) := by
  have hboth := ht.headers.or hs
  refine Mirrored.imp (R := Mirrored fun x x' => x'.1 = x.1 ∧ x'.2.region = x.2.region ∧
    x'.2.freeHead = x.2.freeHead ∧ ∀ n, requestSize size = .ok n →
      x.2.memory.Same x'.2.memory fun i => (Memory.InHeaders (free ++ taken) i ∨ known i) ∨
        (Block.headerSize < p.memory.sizeAt x.1 - n ∧ Memory.InHeader (x.1 + n) i)) ?_ ?_
  · refine Mirrored.bind_eq rfl fun n hn => ?_
    refine Mirrored.bind_eq (ht.walk_eq _).symm fun blocks hwalk => ?_
    cases hbest : bestFit n (withPrevious blocks) with
    | none => exact Mirrored.bind_eq ht.used_eq.symm fun used _ => Mirrored.pure_pure rfl
    | some found =>
      obtain ⟨previous, block⟩ := found
      have hblock : p.memory.sizeAt block.addr = block.size := by
        rw [ht.laid.walk_eq, Except.ok.injEq] at hwalk
        subst hwalk
        obtain ⟨pre, a, post, -, hc⟩ := mem_withPrevious (bestFit_mem hbest).1
        cases hc
        rfl
      refine (carve ht.region ht.freeHead hboth n previous block).bind fun q q' _ _ hq => ?_
      obtain ⟨hregion, hhead, hmem⟩ := hq
      refine Mirrored.pure_pure ⟨rfl, hregion, hhead, fun n' hn' => ?_⟩
      rw [hn, Except.ok.injEq] at hn'
      subst hn'
      rw [hblock]
      exact hmem
  · intro x x' hx _ hmem
    refine hmem.imp ?_
    rintro ⟨addr, q⟩ ⟨_, q'⟩ rfl rfl ⟨rfl, hregion, hhead, hq⟩
    obtain ⟨free', hl, hmem, -, -, ⟨n, hn, -, hrest⟩, -⟩ := ht.laid.alloc hx
    refine ⟨rfl, (hq n hn).mono fun i hi => .inl (.inr hi), free', hl, hregion, hhead,
      (hq n hn).mono ?_⟩
    rintro i ⟨b, hb, hi⟩
    rcases List.mem_append.mp hb with hb | hb
    · rcases hrest b hb with hb | ⟨rfl, hmore⟩
      · exact .inl (.inl ⟨b, List.mem_append_left _ hb, hi⟩)
      · exact .inr ⟨hmore, hi⟩
    · rcases List.mem_cons.mp hb with rfl | hb
      · exact .inl (.inl ⟨b, List.mem_append_left _ hmem, hi⟩)
      · exact .inl (.inl ⟨b, List.mem_append_right _ hb, hi⟩)

end Twins

theorem free_eq_ok {p q : Pool} {a : Nat} (h : p.free a = .ok q) :
    ∃ m, Block.writeFree p.memory a (p.memory.sizeAt a) p.freeHead = .ok m ∧
      m.ChangedIn q.memory (a + Block.headerSize) (a + m.sizeAt a) := by
  simp only [Pool.free, throw_bind, guard_eq_ok, guard_not_eq_ok, bind_eq_ok,
    Block.read_eq_ok] at h
  obtain ⟨-, _, ⟨-, rfl⟩, -, m, hwrite, hpattern⟩ := h
  obtain ⟨n, rfl, hc⟩ := writePattern_changedIn hpattern
  exact ⟨m, hwrite, hc⟩

theorem Twins.free {p p' : Pool} {free taken : List Nat} {a : Nat}
    (ht : p.Twins p' free (a :: taken)) :
    Mirrored (fun q q' => q.Twins q' (a :: free) taken) (p.free a) (p'.free a) := by
  have ham : a ∈ free ++ a :: taken := by simp
  have hheader := ht.header_eq ham
  cases hused : (p.memory.header a).isFree with
  | true =>
    have hdouble (q : Pool) (hread : Block.read q.memory a = .ok (p.memory.header a))
        (hcontains : q.contains = p.contains) :
        q.free a = if p.contains a then .error (.doubleFree a) else .error (.outsideRegion a) := by
      simp only [Pool.free, hread, hcontains, ok_bind, hused]
      cases p.contains a <;> rfl
    refine Mirrored.of_eq ?_ fun q hq => ?_
    · rw [hdouble p (ht.laid.read_eq ham) rfl,
        hdouble p' (hheader ▸ ht.laid'.read_eq ham) ht.contains_eq]
    · rw [hdouble p (ht.laid.read_eq ham) rfl] at hq
      split at hq <;> cases hq
  | false =>
    obtain ⟨q, hq⟩ := ht.laid.free_answers (a := a) (by simp) hused
    obtain ⟨q', hq'⟩ := ht.laid'.free_answers (a := a) (by simp) (hheader ▸ hused)
    obtain ⟨hl, hregion, -, -, hsizes⟩ := ht.laid.free hq
    obtain ⟨hl', hregion', -, -, hsizes'⟩ := ht.laid'.free hq'
    obtain ⟨m, hm, hc⟩ := free_eq_ok hq
    obtain ⟨m', hm', hc'⟩ := free_eq_ok hq'
    have hwritten := Block.writeFree_mirrored ht.headers a (p.memory.sizeAt a) p.freeHead
    rw [Memory.sizeAt_of_header hheader, ht.freeHead] at hm'
    rw [hm, hm'] at hwritten
    have hself {k n : Memory} (h : k.ChangedIn n (a + Block.headerSize) (a + k.sizeAt a)) :
        n.sizeAt a = k.sizeAt a := Memory.sizeAt_of_header (h.header_eq (.inl (Nat.le_refl _)))
    have hsize := (hself hc).symm.trans (hsizes a List.mem_cons_self)
    have hsize' := (hself hc').symm.trans (hsizes' a List.mem_cons_self)
    rw [Memory.sizeAt_of_header hheader, ← hsize] at hsize'
    refine Mirrored.of_ok hq hq' ⟨hl, ?_, ?_, hwritten.changed hc (hsize' ▸ hc') ?_⟩
    · rw [hregion', ht.region, hregion]
    · rw [hl.chained.1, hl'.chained.1]
    · rintro i ⟨b, hb, hi⟩
      refine ⟨?_, ?_⟩
      · by_cases hba : b = a
        · exact .inr (hba ▸ hi)
        · refine .inl ⟨b, ?_, hi⟩
          simp only [List.cons_append, List.mem_cons, List.mem_append] at hb ⊢
          grind
      · rw [← hself hc]
        exact hl.header_outside (by simp) hb hi

theorem activate_mirrored {p p' : Pool} {known : Nat → Prop} (hs : p.memory.Same p'.memory known)
    (hbound : p.memory.size ≤ Memory.maxSize) (span : Span) :
    Mirrored (fun q q' => q.Twins q' [span.start] [] ∧ q.memory.Same q'.memory known)
      (p.activate span) (p'.activate span) := by
  refine Mirrored.imp (R := fun q q' => q'.region = q.region ∧ q'.freeHead = q.freeHead ∧
    q.memory.Same q'.memory fun i => known i ∨ Memory.InHeader span.start i) ?_ ?_
  · unfold activate
    rw [hs.size_eq]
    split
    · refine Mirrored.bind_eq rfl fun aligned _ => ?_
      cases aligned with
      | false => exact Mirrored.throw_throw _
      | true =>
        simp only [if_true]
        split
        · refine (Block.writeFree_mirrored hs ..).bind fun m m' _ _ hm => ?_
          exact Mirrored.pure_pure ⟨rfl, rfl, hm⟩
        · exact Mirrored.throw_throw _
    · exact Mirrored.throw_throw _
  · rintro q q' hq - ⟨hregion, hhead, hmem⟩
    obtain ⟨hl, -⟩ := activate_laid hbound hq
    refine ⟨⟨hl, hregion, hhead, hmem.mono ?_⟩, hmem.mono fun _ => .inl⟩
    rintro i ⟨b, hb, hi⟩
    cases List.mem_singleton.mp hb
    exact .inr hi

end Pool
end CountedHeap
