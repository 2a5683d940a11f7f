import CountedHeap.Heap.Collect
import CountedHeap.Proofs.Releasing
import Mathlib.Algebra.Order.BigOperators.Group.List
import Mathlib.Algebra.Order.Group.Nat

/-!
A heap in the middle of a collection. Its values lie in both halves: those that were copied in the
active one, where the allocator knows of them, the others where they were. Counting a value or
moving it to the active half changes the store at one reference and keeps all contents.
-/

namespace CountedHeap

theorem Pool.contains_iff {p : Pool} {a : Nat} :
    p.contains a = true ↔ p.region.start ≤ a ∧ a < p.region.stop := by
  simp only [Pool.contains, Span.contains, Bool.and_eq_true, decide_eq_true_eq]

theorem Memory.Holds.copy {m m' n : Memory} {old new size : Nat} {x : Content}
    (hx : m.Holds old x) (hsize : m.sizeAt old ≤ size) (hlt : size < Word.limit)
    (hcopy : m.copy old (old + m.sizeAt old) new = .ok m')
    (hset : Block.setSize m' new size = .ok n) :
    m.ChangedIn n new (new + size) ∧ n.sizeAt new = size ∧ n.linkAt new = m.linkAt old ∧
      n.Holds new x := by
  have hc₁ := Memory.copy_changedIn hcopy
  have hc₂ := Block.setSize_changedIn hset
  have hroom := hx.header_le
  have hnew := Block.sizeAt_setSize hset hlt
  simp only [Block.headerSize, Block.sizeOffset, Block.linkOffset] at hc₂ hroom
  have hbyte (i : Nat) (hi : i < m.sizeAt old) (hout : i < 8 ∨ 16 ≤ i) :
      n.byte (new + i) = m.byte (old + i) := by
    rw [hc₂.byte_eq _ (by omega), Memory.byte_copy hcopy (by omega)]
  refine ⟨(hc₁.mono (Nat.le_refl _) (by omega)).trans (hc₂.mono (by omega) (by omega)), hnew, ?_,
    ?_⟩
  · unfold Memory.linkAt
    refine Memory.number_shift fun i hi => ?_
    simp only [Block.linkOffset, Nat.add_assoc]
    exact hbyte _ (by omega) (by omega)
  · exact hx.shift (by rw [hnew]; exact hsize) (fun i hi => hbyte i (by omega) (by omega))
      fun i hlo hhi => hbyte i hhi (by omega)

namespace Heap

structure SameFrame (h h' : Heap) : Prop where
  region : h'.pool.region = h.pool.region
  active : h'.active = h.active
  spare : h'.spare = h.spare
  config : h'.config = h.config
  slots : h'.table.size = h.table.size
  bytes : h'.pool.memory.size = h.pool.memory.size

namespace SameFrame

variable {h h' h'' : Heap}

theorem refl (h : Heap) : h.SameFrame h := ⟨rfl, rfl, rfl, rfl, rfl, rfl⟩

theorem trans (h₁ : h.SameFrame h') (h₂ : h'.SameFrame h'') : h.SameFrame h'' :=
  ⟨h₂.region.trans h₁.region, h₂.active.trans h₁.active, h₂.spare.trans h₁.spare,
    h₂.config.trans h₁.config, h₂.slots.trans h₁.slots, h₂.bytes.trans h₁.bytes⟩

theorem contains (hf : h.SameFrame h') : h'.pool.contains = h.pool.contains := by
  funext a
  simp only [Pool.contains, hf.region]

theorem halved (hf : h.SameFrame h') (hh : h.Halved) : h'.Halved := by
  refine ⟨?_, ?_, ?_, ?_⟩
  · rw [hf.active, hf.spare, hf.config]
    exact hh.halves
  · rw [hf.config, hf.bytes]
    exact hh.inside
  · rw [hf.region, hf.active]
    exact hh.region
  · rw [hf.config]
    exact hh.roomy

end SameFrame

def isCopied (h : Heap) (r : Reference) : Bool := (h.table.get? r).any h.pool.contains

def copies (h : Heap) : Nat := (h.table.addresses.filter h.pool.contains).length

def bytes (h : Heap) : Nat := (h.table.addresses.map h.pool.memory.sizeAt).sum

def copiedBytes (h : Heap) : Nat :=
  ((h.table.addresses.filter h.pool.contains).map h.pool.memory.sizeAt).sum

def SameSizes (h : Heap) (s : Store) (h' : Heap) : Prop :=
  ∀ {q d}, s q = some d → h'.pool.memory.sizeAt d.addr = h.pool.memory.sizeAt d.addr

/-- The room that is left in the active half while values of `total` bytes move there: a single
free block, or none once a value got the whole of it with no more than a header to spare. -/
structure Room (bytes total : Nat) (free : List Nat) : Prop where
  single : free.length ≤ 1
  exact : free ≠ [] → bytes = total
  slack : bytes ≤ total + Block.headerSize

theorem Room.spent {bytes total a size allocated : Nat} {free free' : List Nat}
    (hr : Room bytes total free) (ha : a ∈ free) (hs : Pool.Spent free free' size allocated) :
    Room (bytes + allocated) (total + size) free' := by
  have hexact := hr.exact (List.ne_nil_of_mem ha)
  have hpos := List.length_pos_of_mem ha
  have hsingle := hr.single
  rcases hs with ⟨hlen, rfl⟩ | ⟨hlen, hle⟩
  · exact ⟨by omega, fun _ => by omega, by omega⟩
  · have hnil : free' = [] := List.eq_nil_of_length_eq_zero (by omega)
    exact ⟨by omega, fun hne => absurd hnil hne, by omega⟩

/-- The values of `s₀` on their way to the active half. -/
structure Moving (h : Heap) (total : Nat) (s₀ s : Store) : Prop extends Stored h s where
  same : ∀ q, s.content q = s₀.content q
  whole : ∀ {q c}, s q = some c → 8 ∣ h.pool.memory.sizeAt c.addr
  laid : ∃ free, h.pool.Laid free (h.table.addresses.filter h.pool.contains) ∧
    Room h.bytes total free
  outside : ∀ {q c}, s q = some c → h.pool.contains c.addr = false →
    c.addr + h.pool.memory.sizeAt c.addr ≤ h.pool.region.start ∨ h.pool.region.stop ≤ c.addr

variable {h h' : Heap} {total : Nat} {s₀ s : Store} {r : Reference} {c : Cell}

section Sizes

variable {n : Memory}
  (hsizes : ∀ q d, s q = some d → n.sizeAt d.addr = h.pool.memory.sizeAt d.addr)
include hsizes

theorem Stored.map_sizeAt_congr (hs : h.Stored s) :
    h.table.addresses.map n.sizeAt = h.table.addresses.map h.pool.memory.sizeAt := by
  refine List.map_congr_left fun a ha => ?_
  obtain ⟨q, hq⟩ := (Table.mem_addresses hs.small).mp ha
  obtain ⟨d, hd, rfl⟩ := hs.get?_eq_some.mp hq
  exact hsizes q d hd

theorem Stored.bytes_congr (hs : h.Stored s) : (h.table.addresses.map n.sizeAt).sum = h.bytes := by
  rw [bytes, hs.map_sizeAt_congr hsizes]

theorem Stored.copiedBytes_congr (hs : h.Stored s) :
    ((h.table.addresses.filter h.pool.contains).map n.sizeAt).sum = h.copiedBytes := by
  refine congrArg List.sum (List.map_congr_left fun a ha => ?_)
  exact List.map_inj_left.mp (hs.map_sizeAt_congr hsizes) a (List.mem_filter.mp ha).1

end Sizes

theorem SameSizes.copiedBytes_eq (hsame : SameSizes h s h') (hs : h.Stored s)
    (hf : h.SameFrame h') (htable : h'.table = h.table) : h'.copiedBytes = h.copiedBytes := by
  rw [copiedBytes, htable, hf.contains]
  exact hs.copiedBytes_congr fun q d hd => hsame hd

namespace Moving

theorem copiedBytes_le (hm : h.Moving total s₀ s) : h.copiedBytes ≤ h.pool.region.size := by
  obtain ⟨free, hl, -⟩ := hm.laid
  have hsum := hl.sum_sizes
  simp only [copiedBytes, Span.size]
  omega

theorem isCopied_eq (hm : h.Moving total s₀ s) (hr : s r = some c) :
    h.isCopied r = h.pool.contains c.addr := by
  rw [isCopied, hm.get?_eq hr]
  rfl

theorem mem_copied (hm : h.Moving total s₀ s) (hr : s r = some c)
    (hc : h.pool.contains c.addr = true) :
    c.addr ∈ h.table.addresses.filter h.pool.contains :=
  List.mem_filter.mpr ⟨Table.mem_addresses_of_get? (hm.get?_eq hr), hc⟩

theorem requestSize_eq (hm : h.Moving total s₀ s) (hr : s r = some c) :
    Pool.requestSize (h.pool.memory.sizeAt c.addr) = .ok (h.pool.memory.sizeAt c.addr) := by
  have hwhole := hm.whole hr
  have hheader := (hm.holds hr).header_le
  have hinside := hm.inside hr
  have hbound := hm.bound
  rw [Pool.requestSize_eq_ok]
  simp only [Block.headerSize, Memory.maxSize, Word.limit] at *
  omega

theorem laid_rewrite (hm : h.Moving total s₀ s) (hr : s r = some c) {free : List Nat}
    (hl : h.pool.Laid free (h.table.addresses.filter h.pool.contains)) {n : Memory} {count : Nat}
    {x : Content} (hn : h.pool.memory.Rewrites n c.addr count x) :
    Pool.Laid { h.pool with memory := n } free (h.table.addresses.filter h.pool.contains) := by
  by_cases hc : h.pool.contains c.addr = true
  · exact hl.write (hm.mem_copied hr hc) hn.changed hn.size_eq
  · have hout := hm.outside hr (Bool.not_eq_true _ ▸ hc)
    have hheader : ∀ a ∈ free ++ h.table.addresses.filter h.pool.contains,
        n.header a = h.pool.memory.header a := by
      intro a ha
      obtain ⟨hlo, hhi, hsize, -⟩ := hl.bounds ha
      exact hn.changed.header_eq (by omega)
    exact hl.transport hn.changed.size_eq
      (fun a ha => hheader a (List.mem_append_left _ ha))
      fun a ha => Memory.sizeAt_of_header (hheader a (List.mem_append_right _ ha))

theorem setCountAt (hm : h.Moving total s₀ s) (hr : s r = some c) {count : Nat}
    (hcount : count < Word.limit) (hset : h.setCountAt c.addr count = .ok h') :
    h.SameFrame h' ∧ h'.table = h.table ∧ h'.Moving total s₀ (s.set r { c with count }) ∧
      SameSizes h s h' := by
  have hs := hm.toStored.setCountAt hr hcount hset
  obtain ⟨n, hstore, rfl⟩ := write_eq_ok.mp hset
  have hn := (hm.holds hr).setCount hcount hstore
  obtain ⟨free, hl, hleft⟩ := hm.laid
  have hroom := (hm.holds hr).header_le
  simp only [Block.headerSize] at hroom
  have hsizes : ∀ q d, s q = some d → n.sizeAt d.addr = h.pool.memory.sizeAt d.addr := by
    intro q d hq
    by_cases hqr : q = r
    · subst hqr
      rw [hr] at hq
      cases hq
      exact hn.size_eq
    · have hap := hm.apart hr hq (Ne.symm hqr)
      refine Memory.sizeAt_of_header ((hm.holds hq).header_congr fun i hlo hhi => ?_)
      exact hn.changed.byte_eq i (by omega)
  have hold : ∀ {q d}, (s.set r { c with count }) q = some d → ∃ q' d', s q' = some d' ∧
      d'.addr = d.addr := by
    intro q d hq
    rcases Store.set_eq_some.mp hq with ⟨rfl, rfl⟩ | ⟨-, hsq⟩
    · exact ⟨_, _, hr, rfl⟩
    · exact ⟨_, _, hsq, rfl⟩
  refine ⟨⟨rfl, rfl, rfl, rfl, rfl, hn.changed.size_eq⟩, rfl, ⟨hs,
    fun q => (congrFun (Store.content_set_same hr) q).trans (hm.same q),
    fun {q d} hq => ?_, ⟨free, ?_, ?_⟩, fun {q d} hq hd => ?_⟩, fun hq => hsizes _ _ hq⟩
  · obtain ⟨q', d', hd', haddr⟩ := hold hq
    show 8 ∣ n.sizeAt d.addr
    rw [← haddr, hsizes q' d' hd']
    exact hm.whole hd'
  · exact hm.laid_rewrite hr hl hn
  · rwa [bytes, hm.toStored.bytes_congr hsizes]
  · obtain ⟨q', d', hd', haddr⟩ := hold hq
    show d.addr + n.sizeAt d.addr ≤ _ ∨ _
    rw [← haddr, hsizes q' d' hd']
    exact hm.outside hd' (haddr ▸ hd)

theorem retain (hm : h.Moving total s₀ s) (hret : h.retain r = .ok h') :
    ∃ c, s r = some c ∧ h.SameFrame h' ∧ h'.table = h.table ∧
      h'.Moving total s₀ (s.set r { c with count := c.count + 1 }) ∧ SameSizes h s h' := by
  obtain ⟨c, hr, hlt, hset⟩ := hm.retain_eq hret
  exact ⟨c, hr, hm.setCountAt hr hlt hset⟩

end Moving

structure HandedOut (h : Heap) (total size : Nat) (s₀ s : Store) (new : Nat) : Prop
    extends Stored h s where
  same : ∀ q, s.content q = s₀.content q
  whole : ∀ {q c}, s q = some c → 8 ∣ h.pool.memory.sizeAt c.addr
  laid : ∃ free, h.pool.Laid free (new :: h.table.addresses.filter h.pool.contains) ∧
    Room (h.bytes + h.pool.memory.sizeAt new) (total + size) free
  outside : ∀ {q c}, s q = some c → h.pool.contains c.addr = false →
    c.addr + h.pool.memory.sizeAt c.addr ≤ h.pool.region.start ∨ h.pool.region.stop ≤ c.addr

theorem Moving.alloc (hm : h.Moving total s₀ s) {size new : Nat} {p : Pool}
    (hsize : Pool.requestSize size = .ok size)
    (halloc : h.pool.alloc size = .ok (.ok (new, p))) :
    h.SameFrame { h with pool := p } ∧ size ≤ p.memory.sizeAt new ∧
      HandedOut { h with pool := p } total size s₀ s new ∧
      ∀ q c, s q = some c → p.memory.sizeAt c.addr = h.pool.memory.sizeAt c.addr := by
  obtain ⟨free, hl, hleft⟩ := hm.laid
  obtain ⟨free', hl', hmem, -, hfit, ⟨n, hn, hspent, -⟩, hregion, -, hc, -⟩ :=
    hl.alloc halloc
  rw [hsize] at hn
  cases hn
  have hkept : ∀ q d, s q = some d → ∀ i, d.addr ≤ i →
      i < d.addr + h.pool.memory.sizeAt d.addr → p.memory.byte i = h.pool.memory.byte i := by
    intro q d hq i hlo hhi
    by_cases hin : h.pool.contains d.addr = true
    · exact hl.byte_eq (hm.mem_copied hq hin) hc hlo hhi
    · refine hc.byte_eq i ?_
      rintro ⟨a, ha, halo, hahi⟩
      have hab := hl.bounds (List.mem_append_left _ ha)
      have hout := hm.outside hq (Bool.not_eq_true _ ▸ hin)
      omega
  have hsizes : ∀ q d, s q = some d → p.memory.sizeAt d.addr = h.pool.memory.sizeAt d.addr :=
    fun q d hq => Memory.sizeAt_of_header ((hm.holds hq).header_congr (hkept q d hq))
  have hcontains : p.contains = h.pool.contains := by
    funext a
    simp only [Pool.contains, hregion]
  refine ⟨⟨hregion, rfl, rfl, rfl, rfl, hc.size_eq⟩, hfit,
    ⟨?_, hm.same, fun {q d} hq => ?_, ⟨free', ?_, ?_⟩, ?_⟩, hsizes⟩
  · exact hm.toStored.restrict (fun _ _ hq => hq) hm.table hm.small hc.size_eq hkept
  · show 8 ∣ p.memory.sizeAt d.addr
    rw [hsizes q d hq]
    exact hm.whole hq
  · show p.Laid free' (new :: h.table.addresses.filter p.contains)
    rw [hcontains]
    exact hl'
  · rw [bytes, hm.toStored.bytes_congr hsizes]
    exact hleft.spent hmem hspent
  · intro q d hq hd
    show d.addr + p.memory.sizeAt d.addr ≤ p.region.start ∨ p.region.stop ≤ d.addr
    rw [hsizes q d hq, hregion]
    exact hm.outside hq (hcontains ▸ hd)

theorem HandedOut.apart_new {size new : Nat} (hm : h.HandedOut total size s₀ s new) {q : Reference}
    {d : Cell} (hq : s q = some d) : new + h.pool.memory.sizeAt new ≤ d.addr ∨
      d.addr + h.pool.memory.sizeAt d.addr ≤ new := by
  obtain ⟨free, hl, -⟩ := hm.laid
  have hnb := hl.bounds (a := new) (by simp)
  by_cases hd : h.pool.contains d.addr = true
  · exact hl.apart_taken (List.mem_filter.mpr ⟨Table.mem_addresses_of_get? (hm.get?_eq hq), hd⟩)
  · have hd' := hm.outside hq (Bool.not_eq_true _ ▸ hd)
    omega

theorem filter_perm {keep : Nat → Bool} {old new : Nat} {l l' : List Nat}
    (hperm : (old :: l').Perm (new :: l)) (hnew : keep new = true) (hold : keep old = false) :
    (new :: l.filter keep).Perm (l'.filter keep) := by
  have hp := (hperm.filter keep).symm
  simp only [List.filter_cons, hnew, if_true, hold] at hp
  exact hp

theorem HandedOut.sums {size new : Nat} {table : Table} {n : Memory}
    (hm : h.HandedOut total size s₀ s new) (hr : s r = some c)
    (hnew : h.pool.contains new = true) (hout : h.pool.contains c.addr = false)
    (hperm : (c.addr :: table.addresses).Perm (new :: h.table.addresses))
    (hsize : n.sizeAt new = h.pool.memory.sizeAt new)
    (hsizes : ∀ q d, s q = some d → n.sizeAt d.addr = h.pool.memory.sizeAt d.addr) :
    (table.addresses.map n.sizeAt).sum + h.pool.memory.sizeAt c.addr =
        h.bytes + h.pool.memory.sizeAt new ∧
      ((table.addresses.filter h.pool.contains).map n.sizeAt).sum =
        h.copiedBytes + n.sizeAt new := by
  constructor
  · have hsum := (hperm.map n.sizeAt).sum_nat
    simp only [List.map_cons, List.sum_cons, hm.toStored.bytes_congr hsizes, hsizes r c hr,
      hsize] at hsum
    omega
  · have hsum := ((filter_perm hperm hnew hout).map n.sizeAt).sum_nat
    rw [List.map_cons, List.sum_cons, hm.copiedBytes_congr hsizes] at hsum
    omega

theorem HandedOut.copyTo {new : Nat}
    (hm : h.HandedOut total (h.pool.memory.sizeAt c.addr) s₀ s new) (hr : s r = some c)
    (hout : h.pool.contains c.addr = false)
    (hfit : h.pool.memory.sizeAt c.addr ≤ h.pool.memory.sizeAt new)
    (hcopy : h.copyTo r c.addr (h.pool.memory.sizeAt c.addr) new (h.pool.memory.sizeAt new) =
      .ok h') :
    h.SameFrame h' ∧ h'.pool.contains new = true ∧ h'.copies = h.copies + 1 ∧
      h'.Moving total s₀ (s.set r ⟨new, c.count, c.content⟩) ∧ SameSizes h s h' ∧
      h'.bytes + h.pool.memory.sizeAt c.addr = h.bytes + h'.pool.memory.sizeAt new ∧
      h'.copiedBytes = h.copiedBytes + h'.pool.memory.sizeAt new := by
  obtain ⟨free, hl, hleft⟩ := hm.laid
  simp only [Heap.copyTo, bind_eq_ok, write_eq_ok, pure_eq_ok] at hcopy
  obtain ⟨_, ⟨n, ⟨m', hcopied, hset⟩, rfl⟩, table, htable, rfl⟩ := hcopy
  obtain ⟨old, hold, hget, hperm, hslots⟩ := Table.set_eq htable
  rw [hm.get?_eq hr, Option.some_inj] at hold
  subst hold
  have hnb := hl.bounds (a := new) (by simp)
  have hlt := hl.sizeAt_lt (a := new) (by simp)
  have hinside := hl.inside
  simp only [Memory.maxSize, Block.headerSize] at hlt hnb
  obtain ⟨hc, hsize, hlink, hholds⟩ := (hm.holds hr).copy hfit
    (by simp only [Word.limit]; omega) hcopied hset
  have hnew : h.pool.contains new = true := Pool.contains_iff.mpr ⟨hnb.1, by omega⟩
  -- The block that was handed out lies apart from all others, so these keep their bytes.
  have hkept : ∀ q d, s q = some d → ∀ i, d.addr ≤ i →
      i < d.addr + h.pool.memory.sizeAt d.addr → n.byte i = h.pool.memory.byte i := by
    intro q d hq i hlo hhi
    have hap := hm.apart_new hq
    exact hc.byte_eq i (by omega)
  have hsizes : ∀ q d, s q = some d → n.sizeAt d.addr = h.pool.memory.sizeAt d.addr :=
    fun q d hq => Memory.sizeAt_of_header ((hm.holds hq).header_congr (hkept q d hq))
  have hfilter := filter_perm hperm hnew hout
  obtain ⟨hbytes, hcopiedBytes⟩ := hm.sums hr hnew hout hperm hsize hsizes
  refine ⟨⟨rfl, rfl, rfl, rfl, hslots, hc.size_eq⟩, hnew, ?_, ⟨?_, ?_, fun {q d} hq => ?_,
    ⟨free, ?_, ?_⟩, ?_⟩, fun hq => hsizes _ _ hq, by rw [hsize]; exact hbytes, hcopiedBytes⟩
  · exact hfilter.length_eq.symm
  · refine hm.toStored.put hget (Nat.le_trans (Nat.le_of_eq hslots) hm.small) hc.size_eq
      (fun q d hq _ => hkept q d hq) hholds (hlink.trans (hm.count hr)) ?_ hnb.2.2.2.2 ?_
    · show new + n.sizeAt new ≤ _
      rw [hsize]
      omega
    · intro q d hq _
      show new + n.sizeAt new ≤ _ ∨ _
      rw [hsize]
      exact hm.apart_new hq
  · exact fun q => (congrFun (Store.content_set_same hr) q).trans (hm.same q)
  · rcases Store.set_eq_some.mp hq with ⟨rfl, rfl⟩ | ⟨-, hsq⟩
    · show 8 ∣ n.sizeAt new
      rw [hsize]
      exact hnb.2.2.2.1
    · show 8 ∣ n.sizeAt d.addr
      rw [hsizes q d hsq]
      exact hm.whole hsq
  · exact (hl.write List.mem_cons_self hc hsize).perm hfilter
  · refine ⟨hleft.single, fun hne => ?_, ?_⟩
    · have hexact := hleft.exact hne
      show (table.addresses.map n.sizeAt).sum = total
      omega
    · have hslack := hleft.slack
      show (table.addresses.map n.sizeAt).sum ≤ total + Block.headerSize
      omega
  · intro q d hq hd
    rcases Store.set_eq_some.mp hq with ⟨rfl, rfl⟩ | ⟨hne, hsq⟩
    · rw [show h.pool.contains new = false from hd] at hnew
      cases hnew
    · show d.addr + n.sizeAt d.addr ≤ _ ∨ _
      rw [hsizes q d hsq]
      exact hm.outside hsq hd

theorem Store.set_set {s : Store} {r : Reference} {c d : Cell} :
    (s.set r c).set r d = s.set r d := Function.update_idem ..

theorem Moving.copied_add_le (hm : h.Moving total s₀ s) (hr : s r = some c)
    (hout : h.pool.contains c.addr = false) :
    ((h.table.addresses.filter h.pool.contains).map h.pool.memory.sizeAt).sum +
      h.pool.memory.sizeAt c.addr ≤ h.bytes := by
  have hsplit := ((List.filter_append_perm h.pool.contains h.table.addresses).map
    h.pool.memory.sizeAt).sum_nat
  rw [List.map_append, List.sum_append] at hsplit
  have hmem : c.addr ∈ h.table.addresses.filter fun a => !h.pool.contains a :=
    List.mem_filter.mpr ⟨Table.mem_addresses_of_get? (hm.get?_eq hr), by rw [hout]; rfl⟩
  have hle := List.le_sum_of_mem (List.mem_map_of_mem (f := h.pool.memory.sizeAt) hmem)
  rw [bytes]
  omega

/-- The active half has no room for a value only if it is full to the last byte but one header,
and the values would fill it exactly. -/
theorem Moving.exhausted (hm : h.Moving total s₀ s) (hr : s r = some c)
    (hout : h.pool.contains c.addr = false) (htotal : total ≤ h.pool.region.size)
    (hsize : Pool.requestSize (h.pool.memory.sizeAt c.addr) =
      .ok (h.pool.memory.sizeAt c.addr)) {e : OutOfMemory}
    (hrefused : h.pool.alloc (h.pool.memory.sizeAt c.addr) = .ok (.error e)) :
    e = ⟨Block.headerSize, h.pool.region.size⟩ ∧ total = h.pool.region.size ∧
      h.copiedBytes = h.pool.region.size ∧ h.pool.memory.sizeAt c.addr = Block.headerSize := by
  obtain ⟨free, hl, hleft⟩ := hm.laid
  obtain ⟨n, hn, rfl, hsmall⟩ := hl.alloc_refused hrefused
  rw [hsize] at hn
  cases hn
  rw [copiedBytes]
  have hsum := hl.sum_sizes
  have hle := hm.copied_add_le hr hout
  have hheader := (hm.holds hr).header_le
  have hsingle := hleft.single
  have hexact := hleft.exact
  have hslack := hleft.slack
  simp only [Span.size] at *
  cases free with
  | nil =>
    simp only [List.map_nil, List.sum_nil] at hsum
    rw [OutOfMemory.mk.injEq]
    omega
  | cons a rest =>
    -- A free block is as large as what did not move, and that includes the value.
    have ha := hsmall a List.mem_cons_self
    have heq := hexact (List.cons_ne_nil _ _)
    have hrest : rest = [] := List.eq_nil_of_length_eq_zero (by
      rw [List.length_cons] at hsingle
      omega)
    simp only [hrest, List.map_cons, List.map_nil, List.sum_cons, List.sum_nil] at hsum
    omega

theorem relocate_cases {old : Nat} {a : Except CollectionError (Nat × Nat)}
    (hrun : (Heap.relocate r old).runOn h = .ok (a, h')) :
    ∃ h₁, h.resetCount old = .ok h₁ ∧
      ((∃ e, h₁.pool.alloc (h.pool.memory.sizeAt old) = .ok (.error e) ∧
        a = .error (.toSpaceExhausted e) ∧ h' = h₁) ∨
      ∃ new p, h₁.pool.alloc (h.pool.memory.sizeAt old) = .ok (.ok (new, p)) ∧
        a = .ok (new, p.memory.sizeAt new) ∧
        { h₁ with pool := p }.copyTo r old (h.pool.memory.sizeAt old) new (p.memory.sizeAt new) =
          .ok h') := by
  simp only [Heap.relocate, Action.runOn, ExceptT.run, ExceptT.mk, bind_eq_ok, Heap.block,
    Block.read_eq_ok] at hrun
  obtain ⟨_, ⟨-, rfl⟩, h₁, hreset, e, halloc, hrun⟩ := hrun
  refine ⟨h₁, hreset, ?_⟩
  cases e with
  | error e =>
    cases hrun
    exact .inl ⟨e, halloc, rfl, rfl⟩
  | ok e =>
    obtain ⟨new, p⟩ := e
    simp only [bind_eq_ok, Block.read_eq_ok, pure_eq_ok, Prod.mk.injEq] at hrun
    obtain ⟨_, ⟨-, rfl⟩, h₃, hcopy, rfl, rfl⟩ := hrun
    exact .inr ⟨new, p, halloc, rfl, hcopy⟩

structure Relocated (h : Heap) (total : Nat) (s₀ s : Store) (r : Reference) (c : Cell) (new : Nat)
    (h' : Heap) : Prop where
  frame : h.SameFrame h'
  inside : h'.pool.contains new = true
  copies : h'.copies = h.copies + 1
  moving : h'.Moving total s₀ (s.set r ⟨new, 1, c.content⟩)
  sizes : SameSizes h s h'
  bytes : h'.bytes + h.pool.memory.sizeAt c.addr = h.bytes + h'.pool.memory.sizeAt new
  copied : h'.copiedBytes = h.copiedBytes + h'.pool.memory.sizeAt new

theorem Moving.relocate (hm : h.Moving total s₀ s) (htotal : total ≤ h.pool.region.size)
    (hr : s r = some c) (hout : h.pool.contains c.addr = false) :
    (relocate r c.addr).Ends h (fun p h' => Relocated h total s₀ s r c p.1 h')
      fun e _ => e = .toSpaceExhausted ⟨Block.headerSize, h.pool.region.size⟩ ∧
        total = h.pool.region.size ∧ h.copiedBytes = h.pool.region.size ∧
        h.pool.memory.sizeAt c.addr = Block.headerSize := by
  intro a h' hrun
  obtain ⟨h₁, hreset, hrun⟩ := relocate_cases hrun
  obtain ⟨hf₁, ht₁, hm₁, hsame₁⟩ := hm.setCountAt hr (by decide) hreset
  have hself : (s.set r { c with count := 1 }) r = some { c with count := 1 } := Store.set_self
  have hsize₁ : h₁.pool.memory.sizeAt c.addr = h.pool.memory.sizeAt c.addr := hsame₁ hr
  rw [← hsize₁] at hrun
  have hrequest := hm₁.requestSize_eq hself
  have hout₁ : h₁.pool.contains c.addr = false := by
    rw [hf₁.contains]
    exact hout
  have hbytes₁ : h₁.bytes = h.bytes := by
    rw [bytes, ht₁]
    exact hm.toStored.bytes_congr fun q d hd => hsame₁ hd
  have hcopied₁ := hsame₁.copiedBytes_eq hm.toStored hf₁ ht₁
  obtain ⟨e, halloc, rfl, rfl⟩ | ⟨new, p, halloc, rfl, hcopy⟩ := hrun
  · obtain ⟨rfl, hfull, hcopied, hmere⟩ :=
      hm₁.exhausted hself hout₁ (hf₁.region ▸ htotal) hrequest halloc
    rw [hf₁.region, hcopied₁] at *
    exact ⟨rfl, hfull, hcopied, hsize₁ ▸ hmere⟩
  · obtain ⟨hf₂, hfit, hm₂, hsizes⟩ := hm₁.alloc hrequest halloc
    have hcontains : p.contains = h₁.pool.contains := hf₂.contains
    rw [← hsizes r _ hself] at hm₂ hfit hcopy
    obtain ⟨hf₃, hnew, hcopies, hm₃, hsame₃, hbytes₃, hcopied₃⟩ :=
      hm₂.copyTo hself (hcontains ▸ hout₁) hfit hcopy
    have hsize₂ : p.memory.sizeAt c.addr = h.pool.memory.sizeAt c.addr :=
      (hsizes r _ hself).trans hsize₁
    have hbytes₂ : { h₁ with pool := p }.bytes = h.bytes :=
      (hm₁.toStored.bytes_congr hsizes).trans hbytes₁
    have hcopied₂ : { h₁ with pool := p }.copiedBytes = h.copiedBytes := by
      rw [copiedBytes, hcontains]
      exact (hm₁.toStored.copiedBytes_congr hsizes).trans hcopied₁
    rw [Store.set_set] at hm₃
    refine ⟨(hf₁.trans hf₂).trans hf₃, hnew, hcopies.trans ?_, hm₃, fun {q d} hd => ?_, ?_, ?_⟩
    · show (h₁.table.addresses.filter p.contains).length + 1 = _
      rw [hcontains, hf₁.contains, ht₁]
      rfl
    · by_cases hqr : q = r
      · subst hqr
        rw [hr, Option.some_inj] at hd
        subst hd
        exact ((hsame₃ hself).trans (hsizes q _ hself)).trans hsize₁
      · have hd₁ := (Store.set_of_ne (c := { c with count := 1 }) hqr).trans hd
        exact ((hsame₃ hd₁).trans (hsizes q d hd₁)).trans (hsame₁ hd)
    · rw [← hbytes₂, ← hsize₂]
      exact hbytes₃
    · rw [← hcopied₂]
      exact hcopied₃

end Heap
end CountedHeap
