import CountedHeap.Proofs.Coarse
import CountedHeap.Proofs.Completing

/-!
Collections that waste no room. A block that is copied may take as much as a header more than it
had, and then nothing else fits. With None and the truth values first and no other values that are
mere headers, that happens to the last block at most; so all values find room, and what is free
afterwards serves at least what was served before.
-/

namespace CountedHeap

namespace Pool

def Serves (p : Pool) (size : Nat) : Prop := ∃ addr q, p.alloc size = .ok (.ok (addr, q))

variable {p : Pool} {free taken : List Nat} {size : Nat}

theorem Laid.serves_iff (hl : p.Laid free taken) :
    p.Serves size ↔ ∃ n, requestSize size = .ok n ∧ ∃ a ∈ free, n ≤ p.memory.sizeAt a := by
  constructor
  · rintro ⟨addr, q, h⟩
    simp only [Pool.alloc, bind_eq_ok, hl.walk_eq, Except.ok.injEq, exists_eq_left'] at h
    obtain ⟨n, hn, h⟩ := h
    refine ⟨n, hn, ?_⟩
    split at h
    · simp only [bind_eq_ok, pure_eq_ok] at h
      obtain ⟨_, -, h⟩ := h
      cases h
    · rename_i previous block hbest
      obtain ⟨hmem, hfit⟩ := bestFit_mem hbest
      obtain ⟨pre, a, post, rfl, hc⟩ := mem_withPrevious hmem
      cases hc
      exact ⟨a, by simp, hfit⟩
  · rintro ⟨n, hn, a, ha, hfit⟩
    obtain ⟨answer, halloc⟩ := hl.alloc_answers (requestSize_eq_ok.mp hn).1
    cases answer with
    | ok e => exact ⟨e.1, e.2, halloc⟩
    | error e =>
      obtain ⟨n', hn', -, hsmall⟩ := hl.alloc_refused halloc
      rw [hn] at hn'
      cases hn'
      have hlt := hsmall a ha
      omega

end Pool

namespace Heap

def Settled (h h' : Heap) : Prop :=
  ∀ q, h.isCopied q = true → h'.isCopied q = true ∧ h'.extent q = h.extent q

variable {h h' h₁ h₂ : Heap} {s₀ s : Store} {roots seen rest : List Reference}
  {r n t f : Reference} {c : Cell} {total : Nat} {tally : Tally}

theorem Settled.refl (h : Heap) : Settled h h := fun _ hq => ⟨hq, rfl⟩

theorem Settled.trans (hs₁ : Settled h h₁) (hs₂ : Settled h₁ h₂) : Settled h h₂ := fun q hq =>
  ⟨(hs₂ q (hs₁ q hq).1).1, (hs₂ q (hs₁ q hq).1).2.trans (hs₁ q hq).2⟩

theorem SameSizes.extent (hsame : SameSizes h s h') (hs : h.Stored s)
    (htable : h'.table.get? = h.table.get?) (q : Reference) : h'.extent q = h.extent q := by
  rw [Heap.extent, Heap.extent, htable, hs.table]
  cases hq : s q with
  | none => simp [hq]
  | some d =>
    simp only [hq, Option.map_some]
    rw [hsame hq]

namespace Moving

theorem copiedBytes_le_bytes (h : Heap) : h.copiedBytes ≤ h.bytes := by
  have hsplit := ((List.filter_append_perm h.pool.contains h.table.addresses).map
    h.pool.memory.sizeAt).sum_nat
  rw [List.map_append, List.sum_append] at hsplit
  rw [copiedBytes, bytes]
  omega

theorem bytes_eq (hm : h.Moving total s₀ s) (hlt : h.copiedBytes < h.pool.region.size) :
    h.bytes = total := by
  obtain ⟨free, hl, hroom⟩ := hm.laid
  refine hroom.exact ?_
  rintro rfl
  have hsum := hl.sum_sizes
  simp only [List.map_nil, List.sum_nil, copiedBytes, Span.size] at *
  omega

theorem bytes_le (hm : h.Moving total s₀ s) : h.bytes ≤ total + Block.headerSize :=
  let ⟨_, _, hroom⟩ := hm.laid
  hroom.slack

theorem free_eq (hm : h.Moving total s₀ s) (hlt : h.copiedBytes < h.pool.region.size) :
    ∃ a, h.pool.Laid [a] (h.table.addresses.filter h.pool.contains) ∧
      h.copiedBytes + h.pool.memory.sizeAt a = h.pool.region.size := by
  obtain ⟨free, hl, hroom⟩ := hm.laid
  have hsum := hl.sum_sizes
  have hsingle := hroom.single
  cases free with
  | nil =>
    simp only [List.map_nil, List.sum_nil, copiedBytes, Span.size] at *
    omega
  | cons a rest =>
    obtain rfl : rest = [] := List.eq_nil_of_length_eq_zero (by
      rw [List.length_cons] at hsingle
      omega)
    refine ⟨a, hl, ?_⟩
    simp only [List.map_cons, List.map_nil, List.sum_cons, List.sum_nil, copiedBytes,
      Span.size] at *
    omega

end Moving

namespace Relocated

variable {new : Nat}

theorem others (hd : Relocated h total s₀ s r c new h') (hm : h.Moving total s₀ s) {q : Reference}
    (hq : q ≠ r) : h'.isCopied q = h.isCopied q ∧ h'.extent q = h.extent q := by
  have hget : h'.table.get? q = h.table.get? q := by
    simp only [hd.moving.table, hm.table, Store.set_of_ne hq]
  refine ⟨by rw [isCopied, isCopied, hget, hd.frame.contains], ?_⟩
  rw [extent, extent, hget, hm.table]
  cases hs : s q with
  | none => simp [hs]
  | some d =>
    simp only [hs, Option.map_some]
    rw [hd.sizes hs]

theorem isCopied (hd : Relocated h total s₀ s r c new h') : h'.isCopied r = true :=
  (hd.moving.isCopied_eq Store.set_self).trans hd.inside

theorem settled (hd : Relocated h total s₀ s r c new h') (hm : h.Moving total s₀ s)
    (hout : h.isCopied r = false) : Settled h h' := by
  intro q hq
  have hne : q ≠ r := by
    rintro rfl
    rw [hout] at hq
    cases hq
  obtain ⟨hcopied, hextent⟩ := hd.others hm hne
  exact ⟨hcopied.trans hq, hextent⟩

theorem exact (hd : Relocated h total s₀ s r c new h') (hm : h.Moving total s₀ s)
    (hroom : h.copiedBytes + h.pool.memory.sizeAt c.addr + Block.headerSize <
      h.pool.region.size) :
    h'.pool.memory.sizeAt new = h.pool.memory.sizeAt c.addr := by
  have hbytes := hd.bytes
  have hcopied := hd.copied
  have hbefore := hm.bytes_eq (by omega)
  have hslack := hd.moving.bytes_le
  have hregion := hd.frame.region
  by_cases hlt : h'.copiedBytes < h'.pool.region.size
  · have hafter := hd.moving.bytes_eq hlt
    omega
  · rw [hregion] at hlt
    omega

end Relocated

namespace Collecting

theorem meet_settled (hc : Collecting h₁ s₀ roots seen (r :: rest) tally h s) :
    (Heap.meet r).Ends h (fun _ h' => Settled h h') fun _ _ => ∃ c, s r = some c ∧
      h.isCopied r = false ∧ h.pool.memory.sizeAt c.addr = Block.headerSize := by
  refine hc.meet_ends (fun _ => .refl h) (fun h' _ hret q hq => ?_) fun c hr hout => ?_
  · obtain ⟨-, -, hf, htable, -, hsame⟩ := hc.moving.retain hret
    refine ⟨by rwa [Heap.isCopied, htable, hf.contains], ?_⟩
    exact hsame.extent hc.moving.toStored (by rw [htable]) q
  · refine (hc.relocate hr hout).imp (fun p h' hd => ?_) fun e _ he => ?_
    · exact hd.settled hc.moving hout
    · exact ⟨c, hr, hout, he.2.2⟩

theorem evacuate_settled {root : Reference} (hc : Collecting h₁ s₀ roots seen [] tally h s)
    (hroot : root ∈ roots)
    (hconst : ∀ q x, s₀.content q = some x → x.kind.isConstant = true → h.isCopied q = true) :
    (Heap.evacuate tally root).Ends h
      (fun t' h' => Stands h₁ s₀ roots (seen ++ [root]) [] t' h' ∧ Settled h h')
      fun _ _ => False := by
  simp only [Heap.evacuate, Action.ends_bind, Action.ends_get]
  refine evacuateAll_ends (P := fun pending t' h' =>
    Stands h₁ s₀ roots (seen ++ [root]) pending t' h' ∧ Settled h h') ?_ _
      ⟨⟨s, hc.see hroot⟩, .refl h⟩
  rintro r rest t' h' ⟨⟨s', hc'⟩, hset⟩
  refine (hc'.meet.and hc'.meet_settled).imp ?_ ?_
  · rintro o h'' ⟨hnext, hset'⟩
    cases o with
    | none => exact ⟨hnext, hset.trans hset'⟩
    | some p => exact ⟨hnext, hset.trans hset'⟩
  · rintro e _ ⟨-, c, hr, hout, hmere⟩
    have hx : c.content.kind.isConstant = true := by
      by_contra hx
      have hlarge := Content.headerSize_lt_room (Bool.eq_false_iff.mpr hx)
      have hroom := (hc'.moving.holds hr).room
      omega
    have hcopied := hconst r c.content (hc'.moving.same r ▸ Store.content_of hr) hx
    rw [(hset r hcopied).1] at hout
    cases hout

theorem evacuateRoots_settled (hc : Collecting h₁ s₀ roots seen [] tally h s)
    (hroots : seen ++ rest = roots)
    (hconst : ∀ q x, s₀.content q = some x → x.kind.isConstant = true → h.isCopied q = true) :
    (rest.foldlM Heap.evacuate tally).Ends h
      (fun t' h' => Stands h₁ s₀ roots roots [] t' h' ∧ Settled h h') fun _ _ => False := by
  induction rest generalizing seen tally h s with
  | nil =>
    rw [List.append_nil] at hroots
    subst hroots
    exact Action.ends_pure.mpr ⟨⟨s, hc⟩, .refl h⟩
  | cons root rest ih =>
    simp only [List.foldlM_cons, Action.ends_bind]
    refine (hc.evacuate_settled (hroots ▸ by simp) hconst).imp ?_ fun _ _ he => he
    rintro t' h' ⟨⟨s', hc'⟩, hset⟩
    refine (ih hc' (by rw [List.append_assoc]; exact hroots) fun q x hq hx =>
      (hset q (hconst q x hq hx)).1).imp ?_ fun _ _ he => he
    rintro t'' h'' ⟨hstands, hset'⟩
    exact ⟨hstands, hset.trans hset'⟩

end Collecting

structure Took (h : Heap) (r : Reference) (size : Nat) (h' : Heap) : Prop where
  region : h'.pool.region = h.pool.region
  others : ∀ q, q ≠ r → h'.isCopied q = h.isCopied q ∧ h'.extent q = h.extent q
  copied : h'.isCopied r = true
  exact : h.copiedBytes + size + Block.headerSize < h.pool.region.size →
    h'.extent r = some size ∧ h'.copiedBytes = h.copiedBytes + size

namespace Collecting

theorem evacuate_leaf {root : Reference} {G : Heap → Prop} {E : CollectionError → Heap → Prop}
    (hmeet : (Heap.meet root).Ends h (fun o h' => (∃ k, o = some (k, [])) ∧ G h') E) :
    (Heap.evacuate tally root).Ends h (fun _ h' => G h') E := by
  simp only [Heap.evacuate, Action.ends_bind, Action.ends_get]
  refine (evacuateAll_ends (P := fun pending _ h' =>
    (pending = [root] ∧ h' = h) ∨ (pending = [] ∧ G h')) ?_ _ (.inl ⟨rfl, rfl⟩)).imp ?_
      fun _ _ he => he
  · rintro r rest t' h' (⟨hpending, rfl⟩ | ⟨hpending, -⟩)
    · obtain ⟨rfl, rfl⟩ := List.cons_eq_cons.mp hpending
      refine hmeet.imp ?_ fun _ _ he => he
      rintro o h'' ⟨⟨k, rfl⟩, hG⟩
      exact .inr ⟨rfl, hG⟩
    · cases hpending
  · rintro t' h' (⟨hpending, -⟩ | ⟨-, hG⟩)
    · cases hpending
    · exact hG

variable {x : Content} {size : Nat}

theorem evacuate_first (hc : Collecting h₁ s₀ roots seen [] tally h s) (hr : r ∈ roots)
    (hx : s₀.content r = some x) (hheld : x.held = []) (hout : h.isCopied r = false)
    (hsize : h.extent r = some size) (hroom : h.copiedBytes < h.pool.region.size) :
    (Heap.evacuate tally r).Ends h
      (fun t' h' => Stands h₁ s₀ roots (seen ++ [r]) [] t' h' ∧ Took h r size h')
      fun _ _ => False := by
  rw [← hc.moving.same] at hx
  obtain ⟨c, hs, rfl⟩ := Store.content_eq_some.mp hx
  have hlive := hc.moving.isLive hs
  rw [hc.moving.toStored.extent_eq hs, Option.some_inj] at hsize
  subst hsize
  refine ((hc.evacuate hr).and (evacuate_leaf (E := fun _ _ => False) ?_)).imp
    (fun _ _ hend => hend) fun _ _ hend => hend.2
  refine hc.meet_ends (fun hdead => ?_) (fun h' hin _ => ?_) fun c' hs' _ => ?_
  · rw [hlive] at hdead
    cases hdead
  · rw [hout] at hin
    cases hin
  rw [hs, Option.some_inj] at hs'
  subst hs'
  refine (hc.relocate hs hout).imp ?_ fun e _ he => ?_
  · rintro ⟨new, k⟩ h' hd
    refine ⟨⟨k, by rw [hheld]⟩, hd.frame.region, fun q hq => hd.others hc.moving hq,
      hd.isCopied, fun hroom => ?_⟩
    have hexact := hd.exact hc.moving hroom
    rw [hd.moving.toStored.extent_eq Store.set_self, hd.copied]
    exact ⟨congrArg some hexact, congrArg _ hexact⟩
  · have hfull := he.2.1
    rw [← hc.frame.region] at hfull
    omega

theorem evacuate_constants (hc : Collecting h₁ s₀ (n :: t :: f :: rest) [] [] tally h s)
    (hnone : ∀ q, h.isCopied q = false) (hzero : h.copiedBytes = 0)
    (hn : s₀.content n = some .none) (ht : s₀.content t = some (.bool true))
    (hf : s₀.content f = some (.bool false)) {a b : Nat} (ha : h.extent n = some a)
    (hb : h.extent t = some b) (hroom : a + b + Block.headerSize < h.pool.region.size) :
    ([n, t, f].foldlM Heap.evacuate tally).Ends h
      (fun t' h' => Stands h₁ s₀ (n :: t :: f :: rest) [n, t, f] [] t' h' ∧
        (∀ q ∈ [n, t, f], h'.isCopied q = true) ∧ h'.extent n = some a ∧ h'.extent t = some b)
      fun _ _ => False := by
  have htn : t ≠ n := by
    rintro rfl
    rw [hn] at ht
    cases ht
  have hfn : f ≠ n := by
    rintro rfl
    rw [hn] at hf
    cases hf
  have hft : f ≠ t := by
    rintro rfl
    rw [ht] at hf
    cases hf
  simp only [List.foldlM_cons, List.foldlM_nil, Action.ends_bind, Action.ends_pure]
  refine (hc.evacuate_first (by simp) hn rfl (hnone n) ha (by omega)).imp ?_ fun _ _ he => he
  rintro t₁ k₁ ⟨⟨s₁, hc₁⟩, hreg₁, hother₁, hcopied₁, hexact₁⟩
  obtain ⟨hsize₁, hbytes₁⟩ := hexact₁ (by omega)
  have hout₁ := (hother₁ t htn).1.trans (hnone t)
  have hb₁ := (hother₁ t htn).2.trans hb
  refine (hc₁.evacuate_first (by simp) ht rfl hout₁ hb₁ (by rw [hreg₁]; omega)).imp ?_
    fun _ _ he => he
  rintro t₂ k₂ ⟨⟨s₂, hc₂⟩, hreg₂, hother₂, hcopied₂, hexact₂⟩
  obtain ⟨hsize₂, hbytes₂⟩ := hexact₂ (by rw [hreg₁]; omega)
  have hout₂ := (hother₂ f hft).1.trans ((hother₁ f hfn).1.trans (hnone f))
  obtain ⟨c, hcf, hcx⟩ := Store.content_eq_some.mp (hc₂.moving.same f ▸ hf)
  refine (hc₂.evacuate_first (by simp) hf rfl hout₂ (hc₂.moving.toStored.extent_eq hcf)
    (by rw [hreg₂, hreg₁]; omega)).imp ?_ fun _ _ he => he
  rintro t₃ k₃ ⟨hstands, -, hother₃, hcopied₃, -⟩
  refine ⟨hstands, ?_, ?_, ?_⟩
  · simp only [List.forall_mem_cons, List.not_mem_nil, false_imp_iff, implies_true, and_true]
    refine ⟨?_, ?_, hcopied₃⟩
    · rw [(hother₃ n hfn.symm).1, (hother₂ n htn.symm).1, hcopied₁]
    · rw [(hother₃ t hft.symm).1, hcopied₂]
  · rw [(hother₃ n hfn.symm).2, (hother₂ n htn.symm).2, hsize₁]
  · rw [(hother₃ t hft.symm).2, hsize₂]

end Collecting

/-- A collection that costs no room. The blocks of the first two values are as large as before. -/
structure Thrifty (h : Heap) (n t : Reference) (col : Collection) (h' : Heap) : Prop where
  used : col.usedAfter ≤ col.usedBefore
  serves : ∀ size, h.pool.Serves size → h'.pool.Serves size
  coarse : h'.pool.Coarse
  extents : h'.extent n = h.extent n ∧ h'.extent t = h.extent t

theorem sweep_extent (h : Heap) {q : Reference} (hq : h.isCopied q = true) :
    h.sweep.extent q = h.extent q := by
  obtain ⟨hget, -, -⟩ := Table.keepIf_eq h.table h.pool.contains
  show ((h.table.keepIf h.pool.contains).2.get? q).map h.pool.memory.sizeAt = _
  rw [hget, extent]
  rw [isCopied, Option.any_eq_true] at hq
  obtain ⟨a, ha, hin⟩ := hq
  simp [ha, Option.filter, hin]

theorem Moving.exists_left (hm : h.Moving total s₀ s) (hlt : h.copiedBytes < h.bytes) :
    ∃ q c, s q = some c ∧ h.pool.contains c.addr = false := by
  by_contra hall
  push Not at hall
  refine Nat.ne_of_lt hlt ?_
  rw [copiedBytes, bytes, List.filter_eq_self.mpr fun a ha => ?_]
  obtain ⟨q, hq⟩ := (Table.mem_addresses hm.small).mp ha
  obtain ⟨c, hc, rfl⟩ := hm.get?_eq_some.mp hq
  exact Bool.not_eq_false _ ▸ hall q c hc

theorem Moving.thrifty (hm : h₂.Moving h.bytes s₀ s) (hs : h.Sound s₀) (hcoarse : h.pool.Coarse)
    (hregion : h₂.pool.region.size = h.config.halfSize)
    (hconst : ∀ q, h₂.Constant q → h₂.isCopied q = true) :
    h₂.copiedBytes ≤ h.bytes ∧ (∀ size, h.pool.Serves size → h₂.pool.Serves size) ∧
      h₂.pool.Coarse := by
  obtain ⟨free, hl⟩ := hs.laid
  have hsum := hl.sum_sizes
  have hhalf := hs.halved.size_eq
  rw [hl.coarse_iff] at hcoarse
  have hle := copiedBytes_le_bytes h₂
  have hslack := hm.bytes_le
  simp only [Span.size] at hhalf
  have hfree : (free.map h.pool.memory.sizeAt).sum + h.bytes = h.config.halfSize := by
    rw [bytes]
    omega
  -- Either one free block is left, which is as large as any before, or the half was full.
  by_cases hlt : h₂.copiedBytes < h₂.pool.region.size
  · obtain ⟨a, hl₂, ha⟩ := hm.free_eq hlt
    have hbytes := hm.bytes_eq hlt
    have hlarge : ∀ b ∈ free, h.pool.memory.sizeAt b ≤ h₂.pool.memory.sizeAt a := by
      intro b hb
      have hb := List.le_sum_of_mem (List.mem_map_of_mem (f := h.pool.memory.sizeAt) hb)
      omega
    refine ⟨by omega, fun size => ?_, ?_⟩
    · rw [hl.serves_iff, hl₂.serves_iff]
      rintro ⟨k, hk, b, hb, hfit⟩
      exact ⟨k, hk, a, List.mem_cons_self, Nat.le_trans hfit (hlarge b hb)⟩
    · rw [hl₂.coarse_iff]
      intro b hb
      obtain rfl := List.mem_singleton.mp hb
      cases free with
      | cons d rest =>
        exact Nat.lt_of_lt_of_le (hcoarse d List.mem_cons_self) (hlarge d List.mem_cons_self)
      | nil =>
        -- All was in use, so what is free now is what a value had that was not copied.
        rw [List.map_nil, List.sum_nil] at hfree
        obtain ⟨q, c, hq, hout⟩ := hm.exists_left (by omega)
        have hlarge := hm.toStored.large hq fun hq' => by
          have hcopied := hconst q hq'
          rw [hm.isCopied_eq hq, hout] at hcopied
          cases hcopied
        have hadd := hm.copied_add_le hq hout
        rw [copiedBytes] at ha
        omega
  · have hfull : free = [] := by
      cases free with
      | nil => rfl
      | cons d rest =>
        have hd := hcoarse d List.mem_cons_self
        rw [List.map_cons, List.sum_cons] at hfree
        omega
    subst hfull
    rw [List.map_nil, List.sum_nil] at hfree
    have hfull₂ := hm.copiedBytes_le
    refine ⟨by omega, fun size => ?_, ?_⟩
    · rw [hl.serves_iff]
      rintro ⟨k, hk, b, hb, -⟩
      cases hb
    · obtain ⟨free₂, hl₂, hroom⟩ := hm.laid
      rw [hl₂.coarse_iff]
      intro b hb
      have hsum₂ := hl₂.sum_sizes
      have hb' := List.le_sum_of_mem (List.mem_map_of_mem (f := h₂.pool.memory.sizeAt) hb)
      have hpos := (hl₂.bounds (List.mem_append_left _ hb)).2.2.1
      simp only [copiedBytes, Span.size, Block.headerSize] at *
      omega

/-- A collection over None, the truth values and others has a result and costs no room, if no other
value and no free block is a mere header. -/
theorem Sound.collect_thrifty (hs : h.Sound s) (hcoarse : h.pool.Coarse)
    (hconst : ∀ q, h.Constant q → q ∈ [n, t, f]) (hn : s.content n = some .none)
    (ht : s.content t = some (.bool true)) (hf : s.content f = some (.bool false)) {a b : Nat}
    (ha : h.extent n = some a) (hb : h.extent t = some b)
    (hroom : a + b + Block.headerSize < h.config.halfSize) :
    (Heap.collect (n :: t :: f :: rest)).Ends h (fun col h' => h.Thrifty n t col h')
      fun _ _ => False := by
  simp only [Heap.collect, Action.ends_bind, Action.ends_read, Action.ends_update,
    Action.ends_pure, Except.ok.injEq]
  rintro usedBefore hused h₁ hflip
  obtain ⟨hhalved, hbytes, hm, hnone, hcopies, htable, hconfig, -, hsame⟩ := hs.flip hflip
  have hregion : h₁.pool.region.size = h.config.halfSize := by rw [hhalved.size_eq, hconfig]
  have hextent (q : Reference) : h₁.extent q = h.extent q :=
    hsame.extent hs.toStored (by rw [htable]) q
  have hzero : h₁.copiedBytes = 0 := by
    rw [copiedBytes, List.eq_nil_of_length_eq_zero hcopies]
    rfl
  rw [show n :: t :: f :: rest = [n, t, f] ++ rest from rfl, List.foldlM_append, Action.ends_bind]
  have hstart := hs.collecting (n :: t :: f :: rest) hflip
  refine (hstart.evacuate_constants hnone hzero hn ht hf ((hextent n).trans ha)
    ((hextent t).trans hb) (by omega)).imp ?_ fun _ _ he => he
  rintro t₂ h₂ ⟨⟨s₂, hc₂⟩, hcopied, ha₂, hb₂⟩
  have hcontent : ∀ q x, s.content q = some x → x.kind.isConstant = true →
      h₂.isCopied q = true := by
    intro q x hq hx
    obtain ⟨c, hc, rfl⟩ := Store.content_eq_some.mp hq
    exact hcopied q (hconst q (hs.toStored.constant_iff.mpr ⟨c, hc, hx⟩))
  refine (hc₂.evacuateRoots_settled rfl hcontent).imp ?_ fun _ _ he => he
  rintro t₃ h₃ ⟨⟨s₃, hc₃⟩, hset⟩ _ rfl usedAfter husedAfter _ hrecord
  obtain ⟨_, -, rfl⟩ := record_eq_ok.mp hrecord
  have hconst₃ : ∀ q, h₃.Constant q → h₃.isCopied q = true := by
    intro q hq
    obtain ⟨c, hc, hx⟩ := hc₃.moving.toStored.constant_iff.mp hq
    exact (hset q (hcontent q c.content (hc₃.moving.same q ▸ Store.content_of hc) hx)).1
  have hm₃ : h₃.Moving h.bytes s s₃ := hbytes ▸ hc₃.moving
  obtain ⟨hle, hserves, hcoarse₃⟩ :=
    hm₃.thrifty hs hcoarse (by rw [hc₃.frame.region, hregion]) hconst₃
  have husedEq : h₃.sweep.used = .ok h₃.copiedBytes := by
    obtain ⟨free, hl, -⟩ := hm₃.laid
    exact hl.used_eq
  rw [hs.used_eq] at hused
  cases hused
  rw [husedEq] at husedAfter
  cases husedAfter
  have hleft {q : Reference} (hq : q ∈ [n, t, f]) : h₃.sweep.extent q = h₂.extent q :=
    (h₃.sweep_extent (hset q (hcopied q hq)).1).trans (hset q (hcopied q hq)).2
  refine ⟨hle, hserves, hcoarse₃, ?_, ?_⟩
  · rw [ha, ← ha₂]
    exact hleft (by simp)
  · rw [hb, ← hb₂]
    exact hleft (by simp)

end Heap

end CountedHeap
