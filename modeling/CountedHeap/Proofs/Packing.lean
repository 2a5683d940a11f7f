import CountedHeap.Proofs.Evacuating

/-!
Where a collection puts what it copies. The half that it copies into starts as one free block, so
the copies come to lie one behind the other, in the order in which they are made. Each block is cut
to size, up to the one that leaves no more than a header; that one takes all there is. Blocks that
were handed out like this get the same sizes when they are asked for anew.
-/

namespace CountedHeap

/-- The bytes that a request for `size` gets of a free block of `room` bytes. -/
def grant (room size : Nat) : Nat := if Block.headerSize < room - size then size else room

def grants (room : Nat) : List Nat → List Nat
  | [] => []
  | size :: rest => grant room size :: grants (room - grant room size) rest

theorem grant_grant (room size : Nat) : grant room (grant room size) = grant room size := by
  by_cases h : Block.headerSize < room - size
  · simp only [grant, if_pos h]
  · simp only [grant, if_neg h, ite_self]

theorem grants_grants (room : Nat) (sizes : List Nat) :
    grants room (grants room sizes) = grants room sizes := by
  induction sizes generalizing room with
  | nil => rfl
  | cons size rest ih => rw [grants, grants, grant_grant, ih]

theorem length_grants (room : Nat) (sizes : List Nat) :
    (grants room sizes).length = sizes.length := by
  induction sizes generalizing room with
  | nil => rfl
  | cons size rest ih => rw [grants, List.length_cons, List.length_cons, ih]

theorem grants_append (room : Nat) (sizes more : List Nat) :
    grants room (sizes ++ more) =
      grants room sizes ++ grants (room - (grants room sizes).sum) more := by
  induction sizes generalizing room with
  | nil => rfl
  | cons size rest ih =>
    rw [List.cons_append, grants, ih, grants, List.sum_cons, Nat.sub_sub, List.cons_append]

theorem grant_le (room size : Nat) : grant room size ≤ room := by
  unfold grant
  split <;> omega

theorem sum_grants_le (room : Nat) (sizes : List Nat) : (grants room sizes).sum ≤ room := by
  induction sizes generalizing room with
  | nil => exact Nat.zero_le room
  | cons size rest ih =>
    have hfirst := grant_le room size
    have hrest := ih (room - grant room size)
    rw [grants, List.sum_cons]
    omega

theorem grants_eq_of_append {room : Nat} {sizes more : List Nat}
    (h : grants room (sizes ++ more) = sizes ++ more) : grants room sizes = sizes := by
  rw [grants_append] at h
  exact (List.append_inj h (length_grants room sizes)).1

def Pool.listing (p : Pool) : Except Fault (List (Nat × Nat)) := do
  return (← p.freeBlocks).map fun b => (b.addr, b.size)

theorem Pool.Laid.listing_eq {p : Pool} {free taken : List Nat} (hl : p.Laid free taken) :
    p.listing = .ok (free.map fun a => (a, p.memory.sizeAt a)) := by
  rw [Pool.listing, Pool.freeBlocks, hl.walk_eq, ok_bind, List.map_map]
  rfl

theorem Pool.Laid.alloc_lone {p q : Pool} {taken : List Nat} {a size addr : Nat}
    (hl : p.Laid [a] taken) (hsize : requestSize size = .ok size)
    (h : p.alloc size = .ok (.ok (addr, q))) :
    addr = a ∧ q.memory.sizeAt a = grant (p.memory.sizeAt a) size ∧
      q.freeHead =
        if Block.headerSize < p.memory.sizeAt a - size then some (a + size) else none := by
  simp only [Pool.alloc, bind_eq_ok, hl.walk_eq, hsize, Except.ok.injEq, exists_eq_left'] at h
  split at h
  · simp only [bind_eq_ok, pure_eq_ok] at h
    obtain ⟨_, -, h⟩ := h
    cases h
  rename_i previous block hbest
  obtain ⟨pre, a', post, hsplit, hc⟩ := mem_withPrevious (bestFit_mem hbest).1
  obtain ⟨rfl, rfl, rfl⟩ : pre = [] ∧ a' = a ∧ post = [] := by
    cases pre <;> simp_all
  cases hc
  obtain ⟨-, hfree, hnext⟩ := hl.chained
  simp only [List.getLast?_nil, carve_eq p size a' _ hfree, relink, bind_eq_ok, pure_eq_ok,
    Except.ok.injEq, Prod.mk.injEq] at h
  obtain ⟨_, ⟨⟨m, heir⟩, hcut, rfl⟩, rfl, rfl⟩ := h
  have hnext' := (show p.Laid ([] ++ a' :: []) taken from hl).successor_lt
  refine ⟨rfl, ?_⟩
  unfold grant
  rcases cut_cases (requestSize_bounds hsize).2.1 hnext' hcut with
    ⟨hrest, rfl, hs⟩ | ⟨hrest, rfl, rfl⟩
  · rw [if_pos hrest, if_pos hrest]
    exact ⟨hs.first, rfl⟩
  · rw [if_neg hrest, if_neg hrest]
    exact ⟨rfl, hnext⟩

namespace Heap

variable {h h' h₁ : Heap} {s₀ s : Store} {roots seen rest order : List Reference}
  {r : Reference} {c : Cell} {t : Tally} {total : Nat}

def footprint (h : Heap) (r : Reference) : Nat := (h.extent r).getD 0

theorem Stored.footprint_eq (hs : h.Stored s) (hr : s r = some c) :
    h.footprint r = h.pool.memory.sizeAt c.addr := by
  rw [footprint, hs.extent_eq hr]
  rfl

def blockOf (h : Heap) (r : Reference) : Except Fault Block := do h.block (← h.deref r)

def place (h : Heap) (r : Reference) : Nat := (h.table.get? r).getD 0

theorem Stored.blockOf_eq (hs : h.Stored s) (hr : s r = some c) :
    h.blockOf r = .ok (h.pool.memory.header c.addr) := by
  simp only [blockOf, hs.deref_eq hr, ok_bind, block, memory_eq]
  exact Block.read_eq_ok.mpr ⟨hs.header_le hr, rfl⟩

theorem Stored.place_eq (hs : h.Stored s) (hr : s r = some c) : h.place r = c.addr := by
  rw [place, hs.get?_eq hr, Option.getD_some]

theorem Stored.mapM_blockOf (hs : h.Stored s) (hthere : ∀ q ∈ order, ∃ c, s q = some c) :
    order.mapM h.blockOf = .ok (order.map fun r => h.pool.memory.header (h.place r)) := by
  refine mapM_eq_ok fun r hr => ?_
  obtain ⟨c, hc⟩ := hthere r hr
  rw [hs.blockOf_eq hc, hs.place_eq hc]

def Bumps (h : Heap) : Prop :=
  h.pool.freeHead =
    if h.copiedBytes < h.pool.region.size then some (h.pool.region.start + h.copiedBytes) else none

theorem Moving.listing_eq (hm : h.Moving total s₀ s) (hb : h.Bumps) :
    h.pool.listing = .ok (if h.copiedBytes < h.pool.region.size then
      [(h.pool.region.start + h.copiedBytes, h.pool.region.size - h.copiedBytes)] else []) := by
  unfold Bumps at hb
  split at hb
  case isTrue hlt =>
    obtain ⟨a, hl, hsize⟩ := hm.free_eq hlt
    obtain rfl : h.pool.region.start + h.copiedBytes = a := by
      have hhead := hl.chained.1
      rwa [hb, Option.some_inj] at hhead
    rw [hl.listing_eq, if_pos hlt, List.map_singleton, ← hsize, Nat.add_sub_cancel_left]
  case isFalse hlt =>
    obtain ⟨free, hl, -⟩ := hm.laid
    have hfree : free = [] := by
      cases free with
      | nil => rfl
      | cons a free =>
        have hhead := hl.chained.1
        rw [hb] at hhead
        cases hhead
    rw [hl.listing_eq, hfree, if_neg hlt]
    rfl

theorem setCountAt_freeHead {addr count : Nat} (hset : h.setCountAt addr count = .ok h') :
    h'.pool.freeHead = h.pool.freeHead := by
  rw [setCountAt, write_eq_ok] at hset
  obtain ⟨n, -, rfl⟩ := hset
  rfl

theorem retain_freeHead (hret : h.retain r = .ok h') : h'.pool.freeHead = h.pool.freeHead := by
  simp only [retain, bind_eq_ok] at hret
  obtain ⟨_, -, _, -, _, -, hset⟩ := hret
  exact setCountAt_freeHead hset

structure Bumped (h : Heap) (size : Nat) (p : Nat × Nat) (h' : Heap) : Prop where
  addr : p.1 = h.pool.region.start + h.copiedBytes
  granted : h'.pool.memory.sizeAt p.1 = grant (h.pool.region.size - h.copiedBytes) size
  head : h'.pool.freeHead =
    if Block.headerSize < h.pool.region.size - h.copiedBytes - size then
      some (h.pool.region.start + h.copiedBytes + size) else none
  initial : h'.table.initial = h.table.initial
  capacity : h'.table.capacity = h.table.capacity

theorem copyTo_eq {size new allocated old : Nat} (hlt : allocated < Word.limit)
    (hcopy : h.copyTo r old size new allocated = .ok h') :
    h'.pool.memory.sizeAt new = allocated ∧ h'.pool.freeHead = h.pool.freeHead ∧
      h'.table.initial = h.table.initial ∧ h'.table.capacity = h.table.capacity := by
  simp only [Heap.copyTo, bind_eq_ok, write_eq_ok, pure_eq_ok] at hcopy
  obtain ⟨_, ⟨n, ⟨m, -, hset⟩, rfl⟩, table, htable, rfl⟩ := hcopy
  refine ⟨Block.sizeAt_setSize hset hlt, rfl, ?_⟩
  simp only [Table.set, bind_eq_ok] at htable
  obtain ⟨index, -, htable⟩ := htable
  split at htable
  · cases htable
  · cases htable
  · cases htable
    exact ⟨rfl, rfl⟩

theorem Moving.relocate_bumps (hm : h.Moving total s₀ s) (hr : s r = some c) (hb : h.Bumps) :
    (Heap.relocate r c.addr).Ends h (h.Bumped (h.pool.memory.sizeAt c.addr)) fun _ _ => True := by
  intro a h' hrun
  obtain ⟨h₁, hreset, hrun⟩ := relocate_cases hrun
  obtain ⟨hf₁, ht₁, hm₁, hsame₁⟩ := hm.setCountAt hr (by decide) hreset
  have hself : (s.set r { c with count := 1 }) r = some { c with count := 1 } := Store.set_self
  have hsize₁ : h₁.pool.memory.sizeAt c.addr = h.pool.memory.sizeAt c.addr := hsame₁ hr
  have hhead₁ : h₁.pool.freeHead = h.pool.freeHead := setCountAt_freeHead hreset
  have hcopied₁ := hsame₁.copiedBytes_eq hm.toStored hf₁ ht₁
  rw [← hsize₁] at hrun
  obtain ⟨e, -, rfl, -⟩ | ⟨new, p, halloc, rfl, hcopy⟩ := hrun
  · trivial
  · have hrequest := hm₁.requestSize_eq hself
    obtain ⟨-, -, hm₂, -⟩ := hm₁.alloc hrequest halloc
    obtain ⟨free, hl, -⟩ := hm₁.laid
    have hlt : h₁.copiedBytes < h₁.pool.region.size := by
      obtain ⟨-, -, hmem, -⟩ := hl.alloc halloc
      have hpos := (hl.bounds (List.mem_append_left _ hmem)).2.2.1
      have hsum := hl.sum_sizes
      have hle := List.le_sum_of_mem (List.mem_map_of_mem (f := h₁.pool.memory.sizeAt) hmem)
      simp only [copiedBytes, Span.size, Block.headerSize] at *
      omega
    obtain ⟨lone, hlone, hroom⟩ := hm₁.free_eq hlt
    obtain ⟨rfl, hgrant, hhead⟩ := hlone.alloc_lone hrequest halloc
    have haddr : h₁.pool.freeHead = some new := hlone.chained.1
    rw [hf₁.region, hcopied₁] at hlt hroom
    rw [hhead₁, hb, if_pos hlt, Option.some_inj] at haddr
    have hwhole : h₁.pool.memory.sizeAt new = h.pool.region.size - h.copiedBytes := by omega
    rw [hwhole] at hgrant hhead
    obtain ⟨hsize, hhead₃, hinitial, hcapacity⟩ :=
      copyTo_eq (Memory.sizeAt_lt ..) hcopy
    refine ⟨haddr.symm, hsize.trans ?_, ?_, hinitial.trans ?_, hcapacity.trans ?_⟩
    · exact hgrant.trans (by rw [hsize₁])
    · rw [hhead₃, hhead, haddr, hsize₁]
    · exact congrArg Table.initial ht₁
    · exact congrArg Table.capacity ht₁

/-- The values in `order` were copied one after the other, and lie in that order. -/
structure Packed (h₁ h : Heap) (order : List Reference) : Prop where
  copied : ∀ q, h.isCopied q = true ↔ q ∈ order
  copies : h.copies = order.length
  bytes : h.copiedBytes = (order.map h.footprint).sum
  granted : order.map h.footprint = grants h.pool.region.size (order.map h₁.footprint)
  placed : ∀ {pre r post}, order = pre ++ r :: post →
    h.table.get? r = some (h.pool.region.start + (pre.map h.footprint).sum)
  bumps : h.Bumps
  waiting : ∀ q, q ∉ order → h.footprint q = h₁.footprint q
  initial : h.table.initial = h₁.table.initial
  capacity : h.table.capacity = h₁.table.capacity

namespace Packed

theorem start (hnone : ∀ q, h.isCopied q = false) (hcopies : h.copies = 0)
    (hhead : h.pool.freeHead = some h.pool.region.start) (hroom : 0 < h.pool.region.size) :
    Packed h h [] := by
  have hzero : h.copiedBytes = 0 := by
    rw [copiedBytes, List.eq_nil_of_length_eq_zero hcopies]
    rfl
  refine ⟨fun q => ?_, hcopies, hzero, rfl, fun hsplit => ?_, ?_, fun _ _ => rfl, rfl, rfl⟩
  · rw [hnone q]
    simp
  · simp at hsplit
  · rw [Bumps, hzero, if_pos hroom, hhead, Nat.add_zero]

theorem congr (hp : Packed h₁ h order) (hf : h.SameFrame h') (htable : h'.table = h.table)
    (hhead : h'.pool.freeHead = h.pool.freeHead) (hsizes : ∀ q, h'.footprint q = h.footprint q)
    (hbytes : h'.copiedBytes = h.copiedBytes) : Packed h₁ h' order := by
  have hfootprint : h'.footprint = h.footprint := funext hsizes
  have hcontains := hf.contains
  refine ⟨fun q => ?_, ?_, ?_, ?_, fun hsplit => ?_, ?_, fun q hq => ?_, ?_, ?_⟩
  · rw [isCopied, htable, hcontains]
    exact hp.copied q
  · rw [Heap.copies, htable, hcontains]
    exact hp.copies
  · rw [hbytes, hfootprint, hp.bytes]
  · rw [hfootprint, hf.region, hp.granted]
  · rw [htable, hf.region, hfootprint, hp.placed hsplit]
  · rw [Bumps, hhead, hbytes, hf.region]
    exact hp.bumps
  · rw [hsizes, hp.waiting q hq]
  · rw [htable, hp.initial]
  · rw [htable, hp.capacity]

theorem push {new : Nat × Nat} (hp : Packed h₁ h order) (hm : h.Moving total s₀ s)
    (hr : s r = some c) (hout : h.isCopied r = false)
    (hd : Relocated h total s₀ s r c new.1 h')
    (hb : h.Bumped (h.pool.memory.sizeAt c.addr) new h') : Packed h₁ h' (order ++ [r]) := by
  have hnew : r ∉ order := by
    rw [← hp.copied r, hout]
    exact Bool.false_ne_true
  have hothers : ∀ q, q ≠ r → h'.footprint q = h.footprint q := fun q hq => by
    rw [footprint, (hd.others hm hq).2, footprint]
  have hself : h'.footprint r = h'.pool.memory.sizeAt new.1 :=
    hd.moving.toStored.footprint_eq Store.set_self
  have hsame : order.map h'.footprint = order.map h.footprint :=
    List.map_congr_left fun q hq => hothers q fun heq => hnew (heq ▸ hq)
  have hasked : h₁.footprint r = h.pool.memory.sizeAt c.addr := by
    rw [← hp.waiting r hnew, hm.toStored.footprint_eq hr]
  have hle := hm.copiedBytes_le
  refine ⟨fun q => ?_, ?_, ?_, ?_, fun {pre q post} hsplit => ?_, ?_, fun q hq => ?_, ?_, ?_⟩
  · by_cases hq : q = r
    · subst hq
      simp [hd.isCopied]
    · simp [(hd.others hm hq).1, hp.copied q, hq]
  · rw [hd.copies, hp.copies, List.length_append, List.length_singleton]
  · rw [hd.copied, hp.bytes, List.map_append, hsame, List.sum_append, List.map_singleton,
      List.sum_singleton, hself]
  · rw [List.map_append, hsame, List.map_singleton, hself, hb.granted, List.map_append,
      grants_append, hd.frame.region, ← hp.granted, ← hp.bytes, List.map_singleton, hasked]
    rfl
  · rcases List.eq_nil_or_concat post with rfl | ⟨post, last, rfl⟩
    · obtain ⟨rfl, hlast⟩ := List.append_inj' hsplit rfl
      cases hlast
      rw [hd.moving.get?_eq Store.set_self, hsame, ← hp.bytes, hd.frame.region, ← hb.addr]
    · rw [List.concat_eq_append, ← List.cons_append, ← List.append_assoc] at hsplit
      obtain ⟨horder, hlast⟩ := List.append_inj' hsplit rfl
      cases hlast
      have hmem : ∀ p ∈ pre ++ q :: post, p ≠ r := fun p hp heq => hnew (horder ▸ heq ▸ hp)
      have hpre : pre.map h'.footprint = pre.map h.footprint :=
        List.map_congr_left fun p hp => hothers p (hmem p (by simp [hp]))
      have hget : h'.table.get? q = h.table.get? q := by
        simp only [hd.moving.table, hm.table, Store.set_of_ne (hmem q (by simp))]
      rw [hget, hpre, hp.placed horder, hd.frame.region]
  · rw [Bumps, hb.head, hd.copied, hb.granted, hd.frame.region, grant, Nat.add_assoc]
    split
    case isTrue hrest => rw [if_pos (by omega)]
    case isFalse hrest => rw [if_neg (by omega)]
  · have hne : q ≠ r := fun heq => hq (by simp [heq])
    rw [hothers q hne, hp.waiting q fun hmem => hq (by simp [hmem])]
  · rw [hb.initial, hp.initial]
  · rw [hb.capacity, hp.capacity]

end Packed

end Heap
end CountedHeap
