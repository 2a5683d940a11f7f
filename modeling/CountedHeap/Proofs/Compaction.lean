import CountedHeap.Proofs.Progress
import CountedHeap.Proofs.Repeating
import CountedHeap.Proofs.Serving

/-!
What the active half looks like after a collection. The values that are left lie side by side from
its start on, in the order in which a recursive traversal of the roots comes to them; what is free
lies behind them in one piece. A block has the size that it had, unless it is the last one and there
was no more than a header left. So what is left of the half decides which values can be made next.
-/

namespace CountedHeap

theorem grants_eq_or {room : Nat} {sizes : List Nat} (hroom : sizes.sum ≤ room)
    (hpos : ∀ n ∈ grants room sizes, 0 < n) :
    grants room sizes = sizes ∨ ((grants room sizes).sum = room ∧
      ∃ init last extra, extra ≤ Block.headerSize ∧ sizes = init ++ [last] ∧
        grants room sizes = init ++ [last + extra]) := by
  induction sizes generalizing room with
  | nil => exact .inl rfl
  | cons size rest ih =>
    rw [List.sum_cons] at hroom
    by_cases hcut : Block.headerSize < room - size
    · have hgrant : grant room size = size := if_pos hcut
      simp only [grants, hgrant, List.mem_cons, forall_eq_or_imp, List.sum_cons] at hpos ⊢
      have hleft : rest.sum ≤ room - size := by omega
      rcases ih hleft hpos.2 with heq | ⟨hsum, init, last, extra, hle, hrest, hgrants⟩
      · exact .inl (by rw [heq])
      · exact .inr ⟨by omega, size :: init, last, extra, hle, by rw [hrest, List.cons_append],
          by rw [hgrants, List.cons_append]⟩
    · have hgrant : grant room size = room := if_neg hcut
      cases rest with
      | nil =>
        refine .inr ⟨by simp [grants, hgrant], [], size, room - size, by omega, rfl, ?_⟩
        simp only [grants, hgrant, List.nil_append, List.cons.injEq, and_true]
        omega
      | cons next more =>
        -- All room is taken, so the next block would get none.
        have hnext := hpos (grant (room - room) next) (by simp [grants, hgrant])
        have hnone := grant_le (room - room) next
        omega

namespace Visits

variable {s : Store} {order : List Reference}

theorem nodup {a b : List Reference × List Reference} (h : Visits s a b) (ha : a.2.Nodup) :
    b.2.Nodup := by
  induction h with
  | refl => exact ha
  | tail _ hstep ih =>
    cases hstep with
    | pass _ => exact ih
    | enter _ hnew =>
      rw [List.nodup_append]
      refine ⟨ih, List.nodup_singleton _, fun q hq r hr heq => ?_⟩
      exact hnew (List.mem_singleton.mp hr ▸ heq ▸ hq)

end Visits

namespace Heap

/-- The recursive traversal of the references that are pending, by which the values in `order` come
to be those in `last`: a value that was not visited yet is visited before what it holds, and all of
that before what is pending behind it. -/
inductive Preorder (h : Heap) : List Reference → List Reference → List Reference → Prop
  | done {order : List Reference} : h.Preorder [] order order
  | pass {r : Reference} {rest order last : List Reference} (hr : r.isLive = false ∨ r ∈ order)
      (hrest : h.Preorder rest order last) : h.Preorder (r :: rest) order last
  | enter {r : Reference} {held rest order inner last : List Reference} (hlive : r.isLive = true)
      (hnew : r ∉ order) (hheld : h.outgoing r = .ok held)
      (hinner : h.Preorder held (order ++ [r]) inner) (hrest : h.Preorder rest inner last) :
      h.Preorder (r :: rest) order last

/-- The active half after a collection, with the blocks of the values and what is free behind. -/
structure Compacted (h : Heap) (roots : List Reference) (col : Collection) (h' : Heap)
    (order : List Reference) (kept rest : List Block) : Prop where
  preorder : h.Preorder roots [] order
  occupied : ∀ r, h'.Occupied r ↔ r ∈ order
  blocks : order.mapM h'.blockOf = .ok kept
  walk : h'.pool.blocks = .ok (kept ++ rest)
  active : h'.active = h.spare
  abut : Block.Abut h'.active.stop h'.active.start (kept ++ rest)
  owned : ∀ b ∈ kept, b.isFree = false
  free : ∀ b ∈ rest, b.isFree = true
  lone : rest.length ≤ 1
  sizes : ∃ old, order.mapM h.blockOf = .ok old ∧ (kept.map Block.size = old.map Block.size ∨
    (rest = [] ∧ ∃ init last extra, extra ≤ Block.headerSize ∧
      old.map Block.size = init ++ [last] ∧ kept.map Block.size = init ++ [last + extra]))
  usedAfter : col.usedAfter = Block.total kept
  copiedBytes : h'.stats.copiedBytes = h.stats.copiedBytes + col.usedAfter
  collections : h'.stats.collections = h.stats.collections + 1

/-- Which values can be made when so many bytes of a half are in use. -/
structure Grants (h : Heap) (used : Nat) : Prop where
  makes : ∀ k size, k ≠ .free → ((∃ r h', (Heap.make k size).runOn h = .ok (.ok r, h')) ↔
    size + 8 < Word.limit ∧ Pool.rounded size ≤ h.config.halfSize - used ∧ h.table.Accepts)
  refuses : ∀ k size, k ≠ .free → size + 8 < Word.limit →
    h.config.halfSize - used < Pool.rounded size →
      (Heap.make k size).runOn h = .ok (.error ⟨Pool.rounded size, used⟩, h)

variable {h h' h₁ : Heap} {s s' s₀ : Store} {roots seen pending rest order last : List Reference}
  {r : Reference} {c : Cell} {t : Tally} {col : Collection}

namespace Preorder

theorem unique {last' : List Reference} (hp : h.Preorder pending order last)
    (hp' : h.Preorder pending order last') : last = last' := by
  induction hp generalizing last' with
  | done =>
    cases hp'
    rfl
  | pass hr _ ih =>
    cases hp' with
    | pass _ hrest => exact ih hrest
    | enter hlive hnew => simp_all
  | enter hlive hnew hheld _ _ ihinner ihrest =>
    cases hp' with
    | pass hr => simp_all
    | enter _ _ hheld' hinner hrest =>
      cases hheld.symm.trans hheld'
      cases ihinner hinner
      exact ihrest hrest

theorem split {front back : List Reference} (hp : h.Preorder pending order last)
    (hsplit : front ++ back = pending) :
    ∃ inner, h.Preorder front order inner ∧ h.Preorder back inner last := by
  induction hp generalizing front with
  | done =>
    obtain ⟨rfl, rfl⟩ := List.append_eq_nil_iff.mp hsplit
    exact ⟨_, .done, .done⟩
  | pass hr hrest ih =>
    cases front with
    | nil =>
      subst hsplit
      exact ⟨_, .done, .pass hr hrest⟩
    | cons q front =>
      cases hsplit
      obtain ⟨inner, hfront, hback⟩ := ih rfl
      exact ⟨inner, .pass hr hfront, hback⟩
  | enter hlive hnew hheld hinner hrest _ ih =>
    cases front with
    | nil =>
      subst hsplit
      exact ⟨_, .done, .enter hlive hnew hheld hinner hrest⟩
    | cons q front =>
      cases hsplit
      obtain ⟨inner, hfront, hback⟩ := ih rfl
      exact ⟨inner, .enter hlive hnew hheld hinner hfront, hback⟩

end Preorder

theorem Stored.preorder (hs : h.Stored s) (hthere : ∀ q ∈ last, ∃ c, s q = some c)
    (hv : Visits s (pending, order) ([], last)) : h.Preorder pending order last := by
  suffices hall : ∀ a : List Reference × List Reference, Visits s a ([], last) →
      h.Preorder a.1 a.2 last from hall _ hv
  intro a ha
  induction ha using Relation.ReflTransGen.head_induction_on with
  | refl => exact .done
  | head hstep hrest ih =>
    cases hstep with
    | pass hr => exact .pass hr ih
    | @enter r pending order hlive hnew =>
      obtain ⟨c, hr⟩ := hthere r (Visits.grows hrest |>.subset (by simp))
      obtain ⟨inner, hinner, hbehind⟩ := ih.split rfl
      exact .enter hlive hnew (hs.outgoing_eq hr) hinner hbehind

section Layout

variable {used : Nat}

theorem Stored.map_sizes (hs : h.Stored s) (hthere : ∀ q ∈ order, ∃ c, s q = some c) :
    (order.map fun r => h.pool.memory.header (h.place r)).map Block.size =
      order.map h.footprint := by
  rw [List.map_map]
  refine List.map_congr_left fun r hr => ?_
  obtain ⟨c, hc⟩ := hthere r hr
  rw [Function.comp, Memory.header_size, hs.place_eq hc, hs.footprint_eq hc]

theorem Sound.exists_sublist (hs : h.Sound s) (hthere : ∀ q ∈ order, ∃ c, s q = some c)
    (hnodup : order.Nodup) :
    ∃ part : List Nat, part.Sublist h.table.addresses ∧ part.length = order.length ∧
      (part.map h.pool.memory.sizeAt).sum = (order.map h.footprint).sum := by
  obtain ⟨free, hl⟩ := hs.laid
  have hinj : (order.map h.place).Nodup := by
    refine hnodup.map_on fun q hq r hr heq => ?_
    obtain ⟨c, hc⟩ := hthere q hq
    obtain ⟨d, hd⟩ := hthere r hr
    rw [hs.place_eq hc, hs.place_eq hd] at heq
    exact Table.get?_inj (List.nodup_append.mp hl.nodup).2.1 (hs.get?_eq hc)
      (heq ▸ hs.get?_eq hd)
  have hsub : order.map h.place ⊆ h.table.addresses := by
    rintro _ ha
    obtain ⟨r, hr, rfl⟩ := List.mem_map.mp ha
    obtain ⟨c, hc⟩ := hthere r hr
    exact hs.place_eq hc ▸ Table.mem_addresses_of_get? (hs.get?_eq hc)
  obtain ⟨part, hperm, hpart⟩ := hinj.subperm hsub
  refine ⟨part, hpart, by rw [hperm.length_eq, List.length_map], ?_⟩
  rw [(hperm.map _).sum_eq, List.map_map, ← hs.map_sizes hthere, List.map_map]
  rfl

theorem Sound.sum_footprint_le (hs : h.Sound s) (hthere : ∀ q ∈ order, ∃ c, s q = some c)
    (hnodup : order.Nodup) : (order.map h.footprint).sum ≤ h.bytes := by
  obtain ⟨part, hpart, -, hsum⟩ := hs.exists_sublist hthere hnodup
  exact hsum ▸ (hpart.map _).sum_le_sum fun _ _ => Nat.zero_le _

variable {free : List Nat}

namespace Arranged

theorem used_le (harr : h.Arranged s roots col h' order) :
    col.usedAfter ≤ h.config.halfSize := by
  rw [harr.total, harr.granted]
  exact sum_grants_le ..

theorem free_eq (harr : h.Arranged s roots col h' order)
    (hl : h'.pool.Laid free h'.table.addresses) :
    (col.usedAfter < h.config.halfSize ∧ free = [h.spare.start + col.usedAfter] ∧
      h'.pool.memory.sizeAt (h.spare.start + col.usedAfter) =
        h.config.halfSize - col.usedAfter) ∨
    (col.usedAfter = h.config.halfSize ∧ free = []) := by
  have hlisting := Except.ok.inj (hl.listing_eq.symm.trans harr.listing)
  by_cases hlt : col.usedAfter < h.config.halfSize
  · rw [if_pos hlt] at hlisting
    obtain ⟨a, rfl, ha⟩ := List.map_eq_singleton_iff.mp hlisting
    obtain ⟨rfl, hsize⟩ := Prod.mk.inj ha
    exact .inl ⟨hlt, rfl, hsize⟩
  · rw [if_neg hlt, List.map_eq_nil_iff] at hlisting
    exact .inr ⟨Nat.le_antisymm harr.used_le (Nat.le_of_not_lt hlt), hlisting⟩

theorem tiles (harr : h.Arranged s roots col h' order) (hs : h'.Sound s')
    (hl : h'.pool.Laid free h'.table.addresses) {pre post : List Reference}
    (hsplit : order = pre ++ post) :
    Tiles h'.pool.memory h'.pool.region.stop (h'.pool.region.start + (pre.map h'.footprint).sum)
      (post.map h'.place ++ free) := by
  have hregion : h'.pool.region = h.spare := hs.halved.region.trans harr.active
  have hhalf : h'.pool.region.size = h.config.halfSize := by rw [hs.halved.size_eq, harr.config]
  -- The walk is built from its end: what is free behind the copies, then copy by copy.
  induction post generalizing pre with
  | nil =>
    rw [List.append_nil] at hsplit
    subst hsplit
    rw [← harr.total]
    have hle := harr.used_le
    rcases harr.free_eq hl with ⟨hlt, rfl, hsize⟩ | ⟨hfull, rfl⟩
    · obtain ⟨-, -, hhead, hdvd, -⟩ := hl.bounds (a := h.spare.start + col.usedAfter) (by simp)
      refine ⟨by rw [hregion], hhead, hdvd, ?_⟩
      show _ = _
      rw [hsize]
      rw [hregion] at hhalf ⊢
      simp only [Span.size] at hhalf
      omega
    · show _ = _
      obtain ⟨_, htiled, -⟩ := hl.tiled
      have hle := htiled.start_le
      rw [hregion] at hhalf hle ⊢
      simp only [Span.size] at hhalf
      omega
  | cons r post ih =>
    have hget := harr.placed hsplit
    have hplace : h'.place r = h.spare.start + (pre.map h'.footprint).sum := by
      rw [place, hget, Option.getD_some]
    have hmem := Table.mem_addresses_of_get? hget
    obtain ⟨-, -, hhead, hdvd, -⟩ := hl.bounds (List.mem_append_right free hmem)
    have hbehind : order = (pre ++ [r]) ++ post := by rw [hsplit, List.append_assoc]; rfl
    have hrest := ih hbehind
    obtain ⟨c, hc, haddr⟩ := hs.get?_eq_some.mp hget
    have hfootprint := hs.footprint_eq hc
    refine ⟨by rw [hplace, hregion], by rwa [hplace], by rwa [hplace], ?_⟩
    rw [hplace, ← haddr, ← hfootprint]
    simpa [Nat.add_assoc] using hrest

theorem compacted (harr : h.Arranged s roots col h' order) (hs : h.Sound s)
    (hcol : h.Collected s roots col h' s')
    (hcopied : h'.stats.copiedBytes = h.stats.copiedBytes + col.usedAfter)
    (hcollections : h'.stats.collections = h.stats.collections + 1) :
    ∃ kept rest, h.Compacted roots col h' order kept rest := by
  have hs' := hcol.sound
  obtain ⟨free, hl⟩ := hs'.laid
  have hthere' : ∀ q ∈ order, ∃ c, s' q = some c := fun q hq =>
    hs'.occupied_iff.mp ((harr.occupied q).mpr hq)
  have hthere : ∀ q ∈ order, ∃ c, s q = some c := fun q hq => by
    obtain ⟨c, hc⟩ := hthere' q hq
    obtain ⟨d, hd, -⟩ := Store.content_eq_some.mp (hcol.content q c hc)
    exact ⟨d, hd⟩
  have hnodup : order.Nodup := harr.visits.nodup List.nodup_nil
  have htiles := harr.tiles hs' hl (List.nil_append order).symm
  rw [List.map_nil, List.sum_nil, Nat.add_zero] at htiles
  have hwalk := hl.blocks_of_tiles htiles
  have habut := htiles.abut
  rw [List.map_append, List.map_map] at hwalk habut
  rw [hs'.halved.region] at habut
  have hsizes := hs'.map_sizes hthere'
  refine ⟨_, _, hs.preorder hthere harr.visits, harr.occupied, hs'.mapM_blockOf hthere', hwalk,
    harr.active, habut, ?_, ?_, ?_, ⟨_, hs.mapM_blockOf hthere, ?_⟩, ?_, hcopied, hcollections⟩
  · refine List.forall_mem_map.mpr fun r hr => ?_
    obtain ⟨c, hc⟩ := hthere' r hr
    exact hs'.place_eq hc ▸ hs'.isFree_eq hc
  · exact List.forall_mem_map.mpr fun a ha => hl.chained.isFree_of_mem ha
  · rw [List.length_map]
    rcases harr.free_eq hl with ⟨-, rfl, -⟩ | ⟨-, rfl⟩ <;> simp
  · rw [hsizes, hs.map_sizes hthere, harr.granted]
    have hroom := Nat.le_trans (hs.sum_footprint_le hthere hnodup) hs.bytes_le
    have hpos : ∀ n ∈ grants h.config.halfSize (order.map h.footprint), 0 < n := by
      rw [← harr.granted]
      refine List.forall_mem_map.mpr fun r hr => ?_
      obtain ⟨c, hc⟩ := hthere' r hr
      have hhead := (hs'.holds hc).header_le
      rw [hs'.footprint_eq hc]
      simp only [Block.headerSize] at hhead
      omega
    refine (grants_eq_or hroom hpos).imp_right ?_
    rintro ⟨hfull, hlast⟩
    refine ⟨?_, hlast⟩
    rw [← harr.granted, ← harr.total] at hfull
    rcases harr.free_eq hl with ⟨hlt, -⟩ | ⟨-, rfl⟩
    · omega
    · rfl
  · rw [harr.total, ← hsizes, Block.total_eq]

theorem serves_iff (harr : h.Arranged s roots col h' order) (hs : h'.Sound s') (size : Nat) :
    h'.pool.Serves size ↔
      size + 8 < Word.limit ∧ Pool.rounded size ≤ h'.config.halfSize - col.usedAfter := by
  obtain ⟨free, hl⟩ := hs.laid
  have hpos : 0 < Pool.rounded size := by
    simp only [Pool.rounded, Block.headerSize]
    omega
  simp only [hl.serves_iff, Pool.requestSize_eq_ok, harr.config]
  constructor
  · rintro ⟨n, ⟨hsize, rfl⟩, a, ha, hfit⟩
    refine ⟨hsize, ?_⟩
    rcases harr.free_eq hl with ⟨-, rfl, hroom⟩ | ⟨-, rfl⟩
    · rw [List.mem_singleton.mp ha, hroom] at hfit
      exact hfit
    · simp at ha
  · rintro ⟨hsize, hfit⟩
    refine ⟨_, ⟨hsize, rfl⟩, ?_⟩
    rcases harr.free_eq hl with ⟨-, rfl, hroom⟩ | ⟨hfull, -⟩
    · exact ⟨_, List.mem_singleton_self _, hroom ▸ hfit⟩
    · omega

theorem grants (harr : h.Arranged s roots col h' order) (hs : h'.Sound s') :
    h'.Grants col.usedAfter := by
  refine ⟨fun k size hk => ?_, fun k size hk hsize hlt => ?_⟩
  · rw [hs.make_answers_iff hk, harr.serves_iff hs, and_assoc]
  · refine hs.make_refused hk hsize (fun hserves => ?_) harr.after
    have hfit := ((harr.serves_iff hs size).mp hserves).2
    omega

end Arranged

end Layout

end Heap

namespace Client

variable {rule : Client → Request → Bool} {c : Client} {roots : List Reference}
  {col : Collection} {h' : Heap}

/-- After a collection the values lie side by side in the order of the recursive traversal, and what
can be made next is what fits behind them. -/
theorem Run.collect_compacts (hrun : Run rule c)
    (hcollect : (Heap.collect roots).runOn c.heap = .ok (.ok col, h')) :
    (∃ order kept rest, c.heap.Compacted roots col h' order kept rest) ∧
      h'.Grants col.usedAfter := by
  obtain ⟨s, hs⟩ := hrun.consistent
  obtain ⟨s', hcol⟩ := (hs.collect roots).good hcollect
  obtain ⟨order, harr⟩ := (hs.collect_arranges roots).good hcollect
  obtain ⟨hcounts, -⟩ := (hs.collect_records roots).good hcollect
  exact ⟨⟨order, harr.compacted hs hcol hcounts.copied hcounts.collections⟩,
    harr.grants hcol.sound⟩

theorem sample_compacts : ∃ c col h', sample = some c ∧
    (Heap.collect sampleRoots).runOn c.heap = .ok (.ok col, h') ∧
      (∃ order kept rest, c.heap.Compacted sampleRoots col h' order kept rest) ∧
        h'.Grants col.usedAfter := by
  obtain ⟨c, hc, col, h', hcollect⟩ := sample_collects
  exact ⟨c, col, h', hc, hcollect, (Run.session hc).collect_compacts hcollect⟩

def vast : Option Client := session allows { poolSize := 112, initialRefs := 2 ^ 59 } []

/-- A half may have room for a value for which the table has none. -/
theorem vast_not_made : ∃ c col h', vast = some c ∧ Run allows c ∧
    (Heap.collect []).runOn c.heap = .ok (.ok col, h') ∧ 24 + 8 < Word.limit ∧
      Pool.rounded 24 ≤ h'.config.halfSize - col.usedAfter ∧
        ¬∃ r h'', (Heap.make .none 24).runOn h' = .ok (.ok r, h'') := by
  have hall : (vast.any fun c => ((Heap.collect []).runOn c.heap).toOption.any fun e =>
      e.1.toOption.any fun col =>
        decide (Pool.rounded 24 ≤ e.2.config.halfSize - col.usedAfter) &&
          e.2.table.slots.isEmpty && e.2.table.capacity == 0 &&
            e.2.table.initial == 2 ^ 59) = true := by decide +kernel
  obtain ⟨c, hc, hall⟩ := (Option.any_eq_true ..).mp hall
  obtain ⟨⟨outcome, h'⟩, hsome, hall⟩ := (Option.any_eq_true ..).mp hall
  obtain ⟨col, hcol, hends⟩ := (Option.any_eq_true ..).mp hall
  obtain rfl := toOption_eq_some.mp hcol
  have hcollect := toOption_eq_some.mp hsome
  have hrun : Run allows c := Run.session hc
  simp only [Bool.and_eq_true, decide_eq_true_eq, beq_iff_eq, Array.isEmpty_iff] at hends
  obtain ⟨⟨⟨hfits, hslots⟩, hcapacity⟩, hinitial⟩ := hends
  refine ⟨c, col, h', hc, hrun, hcollect, by decide, hfits, fun hmade => ?_⟩
  obtain ⟨s, hs⟩ := hrun.consistent
  obtain ⟨s', hcol⟩ := (hs.collect []).good hcollect
  obtain ⟨-, haccepts⟩ := (hcol.sound.make_answers_iff (by decide) 24).mp hmade
  simp [Table.Accepts, Table.grown, Table.size, hslots, hcapacity, hinitial,
    Table.maxCapacity] at haccepts

end Client
end CountedHeap
