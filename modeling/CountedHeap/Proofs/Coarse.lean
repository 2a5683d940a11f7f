import CountedHeap.Proofs.Frames

/-!
Heaps that waste no room. A request that would leave no more than a header takes its block as a
whole, so no free block is a mere header as long as no block of that size is given back; and only
those of None and the truth values may be so small.
-/

namespace CountedHeap

def Pool.Coarse (p : Pool) : Prop :=
  ∀ blocks, p.freeBlocks = .ok blocks → ∀ b ∈ blocks, Block.headerSize < b.size

theorem Pool.Laid.coarse_iff {p : Pool} {free taken : List Nat} (hl : p.Laid free taken) :
    p.Coarse ↔ ∀ a ∈ free, Block.headerSize < p.memory.sizeAt a := by
  simp only [Pool.Coarse, Pool.freeBlocks, hl.walk_eq, Except.ok.injEq, forall_eq', List.mem_map,
    forall_exists_index, and_imp, forall_apply_eq_imp_iff₂, Memory.header_size]

theorem Content.headerSize_lt_room {x : Content} (hx : x.kind.isConstant = false) :
    Block.headerSize < x.room := by
  cases x with
  | none | bool _ => cases hx
  | _ => simp only [room, Block.headerSize, Layout.integerSize, Layout.stringOffset,
      Layout.listSize, Layout.dictSize, Layout.elementOffset, Layout.elementsOffset]; omega

namespace Heap

def extent (h : Heap) (r : Reference) : Option Nat := (h.table.get? r).map h.pool.memory.sizeAt

def Constant (h : Heap) (r : Reference) : Prop := ∃ k, h.kindOf r = .ok k ∧ k.isConstant = true

variable {sc : Scope} {h h' : Heap} {s : Store} {r : Reference} {c : Cell}

theorem Stored.constant_iff (hs : h.Stored s) :
    h.Constant r ↔ ∃ c, s r = some c ∧ c.content.kind.isConstant = true := by
  simp only [Constant, hs.kindOf_eq_ok]
  constructor
  · rintro ⟨_, ⟨x, hx, rfl⟩, hk⟩
    obtain ⟨c, hc, rfl⟩ := Store.content_eq_some.mp hx
    exact ⟨c, hc, hk⟩
  · rintro ⟨c, hc, hk⟩
    exact ⟨_, ⟨_, Store.content_of hc, rfl⟩, hk⟩

theorem Stored.extent_eq (hs : h.Stored s) (hr : s r = some c) :
    h.extent r = some (h.pool.memory.sizeAt c.addr) := by
  rw [extent, hs.get?_eq hr]
  rfl

theorem Stored.large (hs : h.Stored s) (hr : s r = some c) (hno : ¬h.Constant r) :
    Block.headerSize < h.pool.memory.sizeAt c.addr := by
  have hx : c.content.kind.isConstant = false := by
    rw [Bool.eq_false_iff]
    exact fun hx => hno (hs.constant_iff.mpr ⟨c, hr, hx⟩)
  exact Nat.lt_of_lt_of_le (Content.headerSize_lt_room hx) (hs.holds hr).room

theorem Step.constant (hstep : Step sc h h') (hc : h.Consistent) (hno : ¬sc.consts)
    (hr : h'.Constant r) : h.Constant r := by
  obtain ⟨s, hs⟩ := hc
  cases hstep.change hs with
  | none heq => exact heq ▸ hr
  | @rewrite q c n count x hq hn hkind _ heq =>
    subst heq
    obtain ⟨d, hd, hk⟩ := (hs.rewrite hq hn).constant_iff.mp hr
    rcases Store.set_eq_some.mp hd with ⟨rfl, rfl⟩ | ⟨-, hd⟩
    · exact hs.constant_iff.mpr ⟨c, hq, hkind ▸ hk⟩
    · exact hs.constant_iff.mpr ⟨d, hd, hk⟩
  | discard _ hdiscard =>
    obtain ⟨c, -, hs'⟩ := hs.discard hdiscard
    obtain ⟨d, hd, hk⟩ := hs'.constant_iff.mp hr
    exact hs.constant_iff.mpr ⟨d, (Store.erase_eq_some.mp hd).2, hk⟩
  | create hx _ hrun =>
    obtain ⟨y, hm, hy⟩ := (hx.made hs).good hrun
    obtain ⟨addr, hs'⟩ := hm.sound
    obtain ⟨d, hd, hk⟩ := hs'.constant_iff.mp hr
    rcases Store.set_eq_some.mp hd with ⟨rfl, rfl⟩ | ⟨-, hd⟩
    · exact absurd (hy hk) hno
    · exact hs.constant_iff.mpr ⟨d, hd, hk⟩

theorem Path.constant (hp : Path sc h h') (hc : h.Consistent) (hno : ¬sc.consts)
    (hr : h'.Constant r) : h.Constant r := by
  induction hp with
  | refl => exact hr
  | tail hp hstep ih => exact ih (hstep.constant (Path.consistent hp hc) hno hr)

theorem Step.extent (hstep : Step sc h h') (hc : h.Consistent) (hr : h.Occupied r)
    (hr' : h'.Occupied r) : h'.extent r = h.extent r := by
  obtain ⟨s, hs⟩ := hc
  have hscope : Step ⟨h.Occupied, fun _ => True, sc.consts⟩ h h' :=
    hstep.rescope (fun _ _ => trivial) (fun _ => id) id
  obtain ⟨s', hk⟩ := hscope.steady hs
  obtain ⟨d, hd⟩ := hk.sound.occupied_iff.mp hr'
  obtain ⟨c, hc, -, hsize, -⟩ := hk.addr hr hd
  rw [hk.sound.extent_eq hd, hs.extent_eq hc, hsize]

theorem Constant.occupied (hr : h.Constant r) (hc : h.Consistent) : h.Occupied r := by
  obtain ⟨s, hs⟩ := hc
  obtain ⟨c, hc, -⟩ := hs.constant_iff.mp hr
  exact hs.occupied_iff.mpr ⟨c, hc⟩

theorem Path.extent (hp : Path sc h h') (hc : h.Consistent) (hno : ¬sc.consts)
    (hr : h'.Constant r) : h'.extent r = h.extent r := by
  induction hp with
  | refl => rfl
  | @tail h₁ h₂ hp hstep ih =>
    have hc₁ := Path.consistent hp hc
    have hr₁ := hstep.constant hc₁ hno hr
    have hc₂ := Path.consistent (.single hstep) hc₁
    exact (hstep.extent hc₁ (hr₁.occupied hc₁) (hr.occupied hc₂)).trans (ih hr₁)

section Coarse

variable {x : Action OutOfMemory Reference} {n : Memory} {count size : Nat} {y : Content}

theorem Sound.rewrite_free (hs : h.Sound s) (hr : s r = some c)
    (hn : h.pool.memory.Rewrites n c.addr count y) :
    ∃ free, h.pool.Laid free h.table.addresses ∧
      Pool.Laid { h.pool with memory := n } free h.table.addresses ∧
        ∀ a ∈ free, n.sizeAt a = h.pool.memory.sizeAt a := by
  obtain ⟨free, hl⟩ := hs.laid
  have hmem := Table.mem_addresses_of_get? (hs.get?_eq hr)
  exact ⟨free, hl, hl.write hmem hn.changed hn.size_eq, fun a ha =>
    hl.sizeAt_write (List.mem_append_right _ hmem) hn.changed hn.size_eq
      (List.mem_append_left _ ha)⟩

theorem Sound.coarse_rewrite (hs : h.Sound s) (hr : s r = some c)
    (hn : h.pool.memory.Rewrites n c.addr count y) (hcoarse : h.pool.Coarse) :
    { h.pool with memory := n }.Coarse := by
  obtain ⟨free, hl, hl', hsizes⟩ := hs.rewrite_free hr hn
  rw [hl'.coarse_iff]
  rw [hl.coarse_iff] at hcoarse
  intro a ha
  show _ < n.sizeAt a
  rw [hsizes a ha]
  exact hcoarse a ha

theorem Sound.coarse_discard (hs : h.Sound s) (hr : s r = some c)
    (hlarge : Block.headerSize < h.pool.memory.sizeAt c.addr) (hcoarse : h.pool.Coarse)
    (hdiscard : h.discard r = .ok h') : h'.pool.Coarse := by
  simp only [Heap.discard, hs.deref_eq hr, ok_bind, bind_eq_ok, pure_eq_ok] at hdiscard
  obtain ⟨table, hclear, pool, hfree, rfl⟩ := hdiscard
  obtain ⟨free, hl⟩ := hs.laid
  obtain ⟨-, hperm, -⟩ := Table.clear_eq (hs.get?_eq hr) hclear
  obtain ⟨hl', -, -, -, hsizes⟩ := (hl.perm hperm.symm).free hfree
  show pool.Coarse
  rw [hl'.coarse_iff]
  rw [hl.coarse_iff] at hcoarse
  intro a ha
  rw [hsizes a ha]
  rcases List.mem_cons.mp ha with rfl | ha
  · exact hlarge
  · exact hcoarse a ha

theorem Allotted.coarse (ha : Allotted h s size r h') (hcoarse : h.pool.Coarse) :
    h'.pool.Coarse := by
  obtain ⟨addr, free, free', n, -, -, hl, hl', -, -, -, hleaves⟩ := ha.block
  rw [hl'.coarse_iff]
  rw [hl.coarse_iff] at hcoarse
  intro a ha
  rcases hleaves a ha with ⟨hfree, hsize⟩ | hlarge
  · rw [hsize]
    exact hcoarse a hfree
  · exact hlarge

theorem Step.coarse (hstep : Step sc h h') (hc : h.Consistent) (hcoarse : h.pool.Coarse)
    (hkeep : ∀ r, h.Constant r → h'.Occupied r) : h'.pool.Coarse := by
  obtain ⟨s, hs⟩ := hc
  cases hstep.change hs with
  | none heq => exact heq ▸ hcoarse
  | rewrite hr hn _ _ heq => exact heq ▸ hs.coarse_rewrite hr hn hcoarse
  | @discard r _ hdiscard =>
    obtain ⟨c, hr, hs'⟩ := hs.discard hdiscard
    have hno : ¬h.Constant r := fun hconst => by
      obtain ⟨d, hd⟩ := hs'.occupied_iff.mp (hkeep r hconst)
      exact (Store.erase_eq_some.mp hd).1 rfl
    exact hs.coarse_discard hr (hs.large hr hno) hcoarse hdiscard
  | create hx _ hrun =>
    obtain ⟨size, ha⟩ := (hx.allotted hs).good hrun
    exact ha.coarse hcoarse

theorem Path.coarse (hp : Path sc h h') (hc : h.Consistent) (hno : ¬sc.consts)
    (hcoarse : h.pool.Coarse) (hkeep : ∀ r, h.Constant r → h'.Constant r) : h'.pool.Coarse := by
  induction hp using Relation.ReflTransGen.head_induction_on with
  | refl => exact hcoarse
  | @head h h₁ hstep hp ih =>
    have hc₁ : h₁.Consistent := Path.consistent (.single hstep) hc
    have hback : ∀ r, h.Constant r → h₁.Constant r := fun r hr =>
      Path.constant hp hc₁ hno (hkeep r hr)
    refine ih hc₁ (hstep.coarse hc hcoarse fun r hr => ?_) fun r hr =>
      hkeep r (hstep.constant hc hno hr)
    exact (hback r hr).occupied hc₁

end Coarse

end Heap

end CountedHeap
