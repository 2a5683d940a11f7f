import CountedHeap.Proofs.Packing
import CountedHeap.Proofs.Survivors
import Mathlib.Logic.Relation

/-!
Collections that are repeated. In which order values are copied depends on what they lead to and on
the roots alone, so a collection with the same roots as the one before copies the same values in the
same order. Their blocks get the sizes that they have, which fit, and so it changes nothing but the
half in which the values lie; a third one brings back what the first one left.
-/

namespace CountedHeap

inductive Visit (s : Store) :
    List Reference × List Reference → List Reference × List Reference → Prop
  | pass {r : Reference} {pending order : List Reference} (hr : r.isLive = false ∨ r ∈ order) :
      Visit s (r :: pending, order) (pending, order)
  | enter {r : Reference} {pending order : List Reference} (hlive : r.isLive = true)
      (hr : r ∉ order) : Visit s (r :: pending, order) (s.held r ++ pending, order ++ [r])

abbrev Visits (s : Store) := Relation.ReflTransGen (Visit s)

variable {s s' : Store} {roots pending order order' : List Reference} {r : Reference}

theorem Visit.unique {a b c : List Reference × List Reference} (hb : Visit s a b)
    (hc : Visit s a c) : b = c := by
  cases hb with
  | pass hr =>
    cases hc with
    | pass _ => rfl
    | enter hlive hnew => simp_all
  | enter hlive hnew =>
    cases hc with
    | pass hr => simp_all
    | enter _ _ => rfl

theorem Visits.grows {a b : List Reference × List Reference} (h : Visits s a b) :
    a.2 <+: b.2 := by
  induction h with
  | refl => exact List.prefix_rfl
  | tail _ hstep ih =>
    cases hstep with
    | pass _ => exact ih
    | enter _ _ => exact ih.trans (List.prefix_append ..)

theorem Visits.onward {a b : List Reference × List Reference} (hend : Visits s a ([], order))
    (h : Visits s a b) : Visits s b ([], order) := by
  have hright : Relator.RightUnique (Visit s) := fun _ _ _ => Visit.unique
  rcases Relation.ReflTransGen.total_of_right_unique hright h hend with hto | hback
  · exact hto
  · rcases hback.cases_head with rfl | ⟨c, hstep, -⟩
    · exact .refl
    · cases hstep

theorem Visits.unique {a : List Reference × List Reference} (h : Visits s a ([], order))
    (h' : Visits s a ([], order')) : order = order' := by
  rcases (h.onward h').cases_head with heq | ⟨c, hstep, -⟩
  · cases heq
    rfl
  · cases hstep

theorem Visits.next {a : List Reference × List Reference} (hend : Visits s a ([], order))
    (h : Visits s a (r :: pending, order')) (hlive : r.isLive = true) (hr : r ∉ order') :
    order' ++ [r] <+: order :=
  (hend.onward (h.tail (.enter hlive hr))).grows

theorem Visits.congr {a b : List Reference × List Reference} (h : Visits s a b)
    (hheld : ∀ q ∈ b.2, s'.held q = s.held q) : Visits s' a b := by
  induction h with
  | refl => exact .refl
  | tail _ hstep ih =>
    cases hstep with
    | pass hr => exact (ih hheld).tail (.pass hr)
    | @enter r pending order hlive hr =>
      have hstep : Visit s' (r :: pending, order) (s'.held r ++ pending, order ++ [r]) :=
        .enter hlive hr
      rw [hheld r (by simp)] at hstep
      exact (ih fun q hq => hheld q (by simp [hq])).tail hstep

structure Collection.Idle (col col' : Collection) : Prop where
  survivors : col'.survivors = col.survivors
  before : col'.usedBefore = col.usedAfter
  after : col'.usedAfter = col.usedAfter
  reclaimed : col'.reclaimed = 0

theorem Table.ext_get? {t u : Table} (hsmall : t.size ≤ 2 ^ 31) (hsize : u.size = t.size)
    (hget : ∀ r, u.get? r = t.get? r) (hinitial : u.initial = t.initial)
    (hcapacity : u.capacity = t.capacity) : u = t := by
  have hslots : u.slots = t.slots := by
    refine Array.ext hsize fun i hu ht => ?_
    have hi : i < 2 ^ 31 := Nat.lt_of_lt_of_le ht hsmall
    have hslot := hget (.ofIndex i)
    simpa only [Table.get?, Reference.isLive_ofIndex hi, if_true, Reference.index_ofIndex hi,
      Array.getElem?_eq_getElem hu, Array.getElem?_eq_getElem ht, Option.join_some] using hslot
  cases t
  cases u
  simp_all only

namespace Heap

variable {h h' h₁ : Heap} {s₀ : Store} {seen rest later : List Reference} {t : Tally}

def Blocked (s : Store) (roots : List Reference) (room : Nat) (size : Reference → Nat) : Prop :=
  ∃ r pending order, Visits s (roots, []) (r :: pending, order) ∧ r.isLive = true ∧ r ∉ order ∧
    room < (grants room (order.map size)).sum + size r

namespace Collecting

theorem meet_packs (hc : Collecting h₁ s₀ roots seen (r :: rest) t h s)
    (hp : Packed h₁ h order) :
    (Heap.meet r).Ends h
      (fun o h' => ∃ order', Packed h₁ h' order' ∧ ∀ later,
        Visit s₀ (r :: later, order) (o.elim [] Prod.snd ++ later, order'))
      fun _ _ => r.isLive = true ∧ r ∉ order ∧
        h₁.pool.region.size < (order.map h.footprint).sum + h₁.footprint r := by
  refine hc.meet_ends (fun hdead => ⟨order, hp, fun later => .pass (.inl hdead)⟩)
    (fun h' hin hret => ⟨order, ?_, fun later => .pass (.inr ((hp.copied r).mp hin))⟩)
    fun c hr hout => ?_
  · obtain ⟨-, -, hf, htable, -, hsame⟩ := hc.moving.retain hret
    refine hp.congr hf htable (retain_freeHead hret) (fun q => ?_)
      (hsame.copiedBytes_eq hc.moving.toStored hf htable)
    rw [footprint, footprint, hsame.extent hc.moving.toStored (by rw [htable])]
  · have hnew : r ∉ order := by
      rw [← hp.copied r, hout]
      exact Bool.false_ne_true
    have hlive := hc.moving.isLive hr
    refine ((hc.relocate hr hout).and (hc.moving.relocate_bumps hr hp.bumps)).imp ?_
      fun e _ he => ?_
    · rintro new h' ⟨hd, hb⟩
      refine ⟨order ++ [r], hp.push hc.moving hr hout hd hb, fun later => ?_⟩
      have hheld : s₀.held r = c.content.held := by
        rw [Store.held, ← hc.moving.same r, Store.content_of hr]
        rfl
      exact hheld ▸ .enter hlive hnew
    · obtain ⟨⟨-, hfull, hsize⟩, -⟩ := he
      refine ⟨hlive, hnew, ?_⟩
      rw [← hp.bytes, hfull, ← hp.waiting r hnew, hc.moving.toStored.footprint_eq hr, hsize,
        Block.headerSize]
      omega

theorem evacuate_packs {root : Reference} (hc : Collecting h₁ s₀ roots seen [] t h s)
    (hroot : root ∈ roots) (hp : Packed h₁ h order)
    (hv : Visits s₀ (roots, []) (root :: later, order)) :
    (Heap.evacuate t root).Ends h
      (fun t' h' => Stands h₁ s₀ roots (seen ++ [root]) [] t' h' ∧
        ∃ order', Packed h₁ h' order' ∧ Visits s₀ (roots, []) (later, order'))
      fun _ _ => Blocked s₀ roots h₁.pool.region.size h₁.footprint := by
  simp only [Heap.evacuate, Action.ends_bind, Action.ends_get]
  refine evacuateAll_ends (P := fun pending t' h' =>
    Stands h₁ s₀ roots (seen ++ [root]) pending t' h' ∧ ∃ order', Packed h₁ h' order' ∧
      Visits s₀ (roots, []) (pending ++ later, order')) ?_ _ ⟨⟨s, hc.see hroot⟩, order, hp, hv⟩
  rintro r rest t' h' ⟨⟨s', hc'⟩, order', hp', hv'⟩
  refine (hc'.meet.and (hc'.meet_packs hp')).imp ?_ ?_
  · rintro o h'' ⟨hnext, order'', hp'', hvisit⟩
    have hv'' := hv'.tail (hvisit (rest ++ later))
    cases o with
    | none => exact ⟨hnext, order'', hp'', hv''⟩
    | some p =>
      refine ⟨hnext, order'', hp'', ?_⟩
      rw [List.append_assoc]
      exact hv''
  · rintro e _ ⟨-, hlive, hnew, hroom⟩
    refine ⟨r, rest ++ later, order', hv', hlive, hnew, ?_⟩
    rwa [hp'.granted, hc'.frame.region] at hroom

theorem evacuateRoots_packs (hc : Collecting h₁ s₀ roots seen [] t h s)
    (hroots : seen ++ rest = roots) (hp : Packed h₁ h order)
    (hv : Visits s₀ (roots, []) (rest, order)) :
    (rest.foldlM Heap.evacuate t).Ends h
      (fun t' h' => Stands h₁ s₀ roots roots [] t' h' ∧
        ∃ order', Packed h₁ h' order' ∧ Visits s₀ (roots, []) ([], order'))
      fun _ _ => Blocked s₀ roots h₁.pool.region.size h₁.footprint := by
  induction rest generalizing seen t h s order with
  | nil =>
    rw [List.append_nil] at hroots
    subst hroots
    exact Action.ends_pure.mpr ⟨⟨s, hc⟩, order, hp, hv⟩
  | cons root rest ih =>
    simp only [List.foldlM_cons, Action.ends_bind]
    refine (hc.evacuate_packs (hroots ▸ by simp) hp hv).imp ?_ fun _ _ he => he
    rintro t' h' ⟨⟨s', hc'⟩, order', hp', hv'⟩
    exact ih hc' (by rw [List.append_assoc]; exact hroots) hp' hv'

end Collecting

structure Arranged (h : Heap) (s : Store) (roots : List Reference) (col : Collection) (h' : Heap)
    (order : List Reference) : Prop where
  visits : Visits s (roots, []) ([], order)
  occupied : ∀ q, h'.Occupied q ↔ q ∈ order
  survivors : col.survivors = order.length
  before : h.used = .ok col.usedBefore
  after : h'.used = .ok col.usedAfter
  total : col.usedAfter = (order.map h'.footprint).sum
  granted : order.map h'.footprint = grants h.config.halfSize (order.map h.footprint)
  placed : ∀ {pre r post}, order = pre ++ r :: post →
    h'.table.get? r = some (h.spare.start + (pre.map h'.footprint).sum)
  listing : h'.pool.listing = .ok (if col.usedAfter < h.config.halfSize then
    [(h.spare.start + col.usedAfter, h.config.halfSize - col.usedAfter)] else [])
  slots : h'.table.size = h.table.size
  initial : h'.table.initial = h.table.initial
  capacity : h'.table.capacity = h.table.capacity
  active : h'.active = h.spare
  spare : h'.spare = h.active
  config : h'.config = h.config

theorem Sound.flip_freeHead (hs : h.Sound s) (hflip : h.flip = .ok h₁) :
    h₁.pool.freeHead = some h₁.pool.region.start ∧ h₁.pool.region.start = h.spare.start ∧
      h₁.spare = h.active := by
  simp only [Heap.flip, bind_eq_ok, pure_eq_ok] at hflip
  obtain ⟨p, hactivate, rfl⟩ := hflip
  obtain ⟨hl, hregion, -⟩ := Pool.activate_laid hs.bound hactivate
  have hhead : p.freeHead = some h.spare.start := hl.chained.1
  exact ⟨hhead.trans (by rw [hregion]), by rw [hregion], rfl⟩

theorem sweep_get? (h : Heap) {q : Reference} (hq : h.isCopied q = true) :
    h.sweep.table.get? q = h.table.get? q := by
  obtain ⟨hget, -, -⟩ := Table.keepIf_eq h.table h.pool.contains
  rw [isCopied, Option.any_eq_true] at hq
  obtain ⟨a, ha, hin⟩ := hq
  rw [sweep, hget]
  simp [ha, Option.filter, hin]

theorem sweep_occupied (h : Heap) (q : Reference) :
    h.sweep.Occupied q ↔ h.isCopied q = true := by
  obtain ⟨hget, -, -⟩ := Table.keepIf_eq h.table h.pool.contains
  rw [Occupied, sweep, hget, isCopied]
  cases hq : h.table.get? q with
  | none => simp [hq]
  | some a => by_cases ha : h.pool.contains a = true <;> simp [hq, Option.filter, ha]

theorem Sound.collect_arranges (hs : h.Sound s) (roots : List Reference) :
    (Heap.collect roots).Ends h (fun col h' => ∃ order, h.Arranged s roots col h' order)
      fun _ _ => Blocked s roots h.config.halfSize h.footprint := by
  simp only [Heap.collect, Action.ends_bind, Action.ends_read, Action.ends_update,
    Action.ends_pure, Except.ok.injEq]
  rintro usedBefore hused h₁ hflip
  obtain ⟨hhalved, hbytes, hm, hnone, hcopies, htable, hconfig, hactive, hsame⟩ := hs.flip hflip
  have hregion : h₁.pool.region.size = h.config.halfSize := by rw [hhalved.size_eq, hconfig]
  have hfootprint : h₁.footprint = h.footprint := funext fun q => by
    rw [footprint, footprint, hsame.extent hs.toStored (by rw [htable])]
  obtain ⟨hhead, hstart, hspare⟩ := hs.flip_freeHead hflip
  have hpos : 0 < h₁.pool.region.size := by
    have hroomy := hhalved.roomy
    rw [hhalved.size_eq]
    simp only [Block.headerSize] at hroomy
    omega
  refine ((hs.collecting roots hflip).evacuateRoots_packs (List.nil_append roots)
    (.start hnone hcopies hhead hpos) .refl).imp ?_ fun _ _ he => by rwa [hregion, hfootprint] at he
  rintro t h₂ ⟨⟨s₂, hc⟩, order, hp, hv⟩ _ rfl usedAfter husedAfter _ hrecord
  obtain ⟨_, -, rfl⟩ := record_eq_ok.mp hrecord
  have hcopiedBytes : h₂.sweep.used = .ok h₂.copiedBytes := by
    obtain ⟨free, hl, -⟩ := hc.moving.laid
    exact hl.used_eq
  rw [hcopiedBytes] at husedAfter
  cases husedAfter
  have hleft : ∀ part : List Reference, part ⊆ order →
      part.map h₂.sweep.footprint = part.map h₂.footprint := fun part hpart =>
    List.map_congr_left fun q hq => by
      rw [footprint, h₂.sweep_extent ((hp.copied q).mpr (hpart hq)), footprint]
  have hall := hleft order (List.Subset.refl order)
  have hregion₂ : h₂.pool.region.size = h.config.halfSize := by rw [hc.frame.region, hregion]
  have hstart₂ : h₂.pool.region.start = h.spare.start := by rw [hc.frame.region, hstart]
  refine ⟨order, hv, fun q => (h₂.sweep_occupied q).trans (hp.copied q), hc.tally.trans hp.copies,
    hused, hcopiedBytes, hp.bytes.trans (congrArg List.sum hall.symm), hall.trans ?_,
    fun {pre r post} hsplit => ?_, ?_, ?_, ?_, ?_, ?_, ?_, ?_⟩
  · rw [hp.granted, hregion₂, hfootprint]
  · have hmem := (hp.copied _).mpr (hsplit ▸ List.mem_append_right _ List.mem_cons_self)
    refine (h₂.sweep_get? hmem).trans ((hp.placed hsplit).trans ?_)
    rw [hstart₂, ← hleft pre (hsplit ▸ List.subset_append_left pre (r :: post))]
    rfl
  · rw [← hregion₂, ← hstart₂]
    exact hc.moving.listing_eq hp.bumps
  · exact ((Table.keepIf_eq _ _).2.2.trans hc.frame.slots).trans (congrArg Table.size htable)
  · exact hp.initial.trans (congrArg Table.initial htable)
  · exact hp.capacity.trans (congrArg Table.capacity htable)
  · exact hc.frame.active.trans hactive
  · exact hc.frame.spare.trans hspare
  · exact hc.frame.config.trans hconfig


structure Compact (h : Heap) (s : Store) (roots order : List Reference) : Prop where
  sound : h.Sound s
  visits : Visits s (roots, []) ([], order)
  countable : Countable s roots
  granted : grants h.config.halfSize (order.map h.footprint) = order.map h.footprint

variable {col col' : Collection}

theorem Compact.not_blocked (hc : h.Compact s roots order) :
    ¬Blocked s roots h.config.halfSize h.footprint := by
  rintro ⟨r, pending, visited, hv, hlive, hnew, hroom⟩
  obtain ⟨rest, rfl⟩ := Visits.next hc.visits hv hlive hnew
  have hgranted := hc.granted
  have hle := sum_grants_le h.config.halfSize ((visited ++ [r] ++ rest).map h.footprint)
  rw [hgranted] at hle
  rw [List.append_assoc, List.map_append] at hgranted hle
  rw [grants_eq_of_append hgranted] at hroom
  simp only [List.map_append, List.sum_append, List.map_singleton, List.sum_singleton] at hle
  omega

theorem Compact.collect (hc : h.Compact s roots order) :
    h.Collects roots fun col h' => ∃ s', h.Collected s roots col h' s' ∧
      h.Arranged s roots col h' order ∧ order.map h'.footprint = order.map h.footprint := by
  have hends := hc.sound.collect_arranges roots
  rcases hc.sound.collect_completes hc.countable with ⟨a, h', hrun⟩ | hoverflow
  · cases a with
    | error e => exact absurd (hends.bad hrun) hc.not_blocked
    | ok col =>
      obtain ⟨s', hcol⟩ := (hc.sound.collect roots).good hrun
      obtain ⟨order', harr⟩ := hends.good hrun
      obtain rfl := Visits.unique hc.visits harr.visits
      exact .inl ⟨col, h', hrun, s', hcol, harr, harr.granted.trans hc.granted⟩
  · exact .inr hoverflow

theorem Collected.held_eq (hcol : h.Collected s roots col h' s') {q : Reference}
    (hq : s.Reaches roots q) : s'.held q = s.held q := by
  obtain ⟨c, hc⟩ := (hcol.reached q).mpr hq
  rw [Store.held, Store.held, Store.content_of hc, hcol.content q c hc]

theorem Collected.content_eq (hcol : h.Collected s roots col h' s') {q : Reference}
    (hq : h'.Occupied q) : s'.content q = s.content q := by
  obtain ⟨c, hc⟩ := hcol.sound.occupied_iff.mp hq
  rw [Store.content_of hc, hcol.content q c hc]

theorem Collected.reaches (hcol : h.Collected s roots col h' s') {q : Reference}
    (hq : s'.Reaches roots q) : s.Reaches roots q := by
  induction hq with
  | root hmem hlive => exact .root hmem hlive
  | edge hr hmem hlive ih => exact .edge ih (hcol.held_eq ih ▸ hmem) hlive

theorem Collected.countable (hcol : h.Collected s roots col h' s') : Countable s' roots := by
  refine ⟨fun q hq => ?_, fun q hlive => ?_⟩
  · obtain ⟨c, hc⟩ := (hcol.reached q).mpr (hcol.reaches hq)
    exact ⟨c.content, Store.content_of hc⟩
  · cases hq : s' q with
    | some c =>
      rw [← hcol.count q c hq, ← hcol.sound.count hq]
      exact Memory.linkAt_lt ..
    | none =>
      have hnot : ¬s.Reaches roots q := fun hreach => by
        obtain ⟨c, hc⟩ := (hcol.reached q).mpr hreach
        rw [hq] at hc
        cases hc
      have hroots : roots.count q = 0 :=
        List.count_eq_zero.mpr fun hmem => hnot (.root hmem hlive)
      have hedges : edges s'.held q = 0 := edges.eq_zero fun r _ hmem => by
        cases hr : s' r with
        | none =>
          rw [Store.held, Store.content, hr] at hmem
          cases hmem
        | some c =>
          have hreach := (hcol.reached r).mp ⟨c, hr⟩
          exact hnot (.edge hreach (hcol.held_eq hreach ▸ hmem) hlive)
      rw [hroots, hedges]
      decide

theorem Collected.compact (hcol : h.Collected s roots col h' s')
    (harr : h.Arranged s roots col h' order) : h'.Compact s' roots order := by
  refine ⟨hcol.sound, harr.visits.congr fun q hq => ?_, hcol.countable, ?_⟩
  · obtain ⟨c, hc⟩ := hcol.sound.occupied_iff.mp ((harr.occupied q).mpr hq)
    exact hcol.held_eq ((hcol.reached q).mp ⟨c, hc⟩)
  · rw [harr.config, harr.granted, grants_grants]

/-- The same values lie in the other half, each where it lay in this one. -/
structure Swapped (h h' : Heap) : Prop where
  occupied : ∀ r, h'.Occupied r ↔ h.Occupied r
  keeps : ∀ r, h.Occupied r → h.Keeps h' r
  refcount : ∀ r, h.Occupied r → h'.refcount r = h.refcount r
  extent : ∀ r, h'.extent r = h.extent r
  moved : ∃ offset : Int, (offset = h.config.halfSize ∨ offset = -h.config.halfSize) ∧
    ∀ r a, h.deref r = .ok a → ∃ b : Nat, h'.deref r = .ok b ∧ (b : Int) = a + offset

/-- The same values lie in the same places, and the same is free. -/
structure SamePlaces (h h' : Heap) : Prop where
  table : h'.table = h.table
  refcount : ∀ r, h.Occupied r → h'.refcount r = h.refcount r
  listing : h'.pool.listing = h.pool.listing
  active : h'.active = h.active

/-- The heaps that two collections leave which visit the same values in the same order. -/
structure Parallel (start start' : Nat) (h h' : Heap) (s s' : Store) : Prop where
  content : ∀ q, s'.content q = s.content q
  count : ∀ q, s'.count q = s.count q
  extent : ∀ q, h'.extent q = h.extent q
  apart : ∀ q, (h.table.get? q = none ∧ h'.table.get? q = none) ∨
    ∃ n, h.table.get? q = some (start + n) ∧ h'.table.get? q = some (start' + n)

theorem Arranged.parallel {k k' : Heap} {s₁ s₂ s₁' s₂' : Store}
    (hcol : h.Collected s₁ roots col k s₁') (harr : h.Arranged s₁ roots col k order)
    (hcol' : h'.Collected s₂ roots col' k' s₂') (harr' : h'.Arranged s₂ roots col' k' order)
    (hsame : order.map k'.footprint = order.map k.footprint)
    (hcontent : ∀ q ∈ order, s₂.content q = s₁.content q) :
    Parallel h.spare.start h'.spare.start k k' s₁' s₂' := by
  have hfootprint := List.map_inj_left.mp hsame
  have hvacant : ∀ q, q ∉ order → s₁' q = none ∧ s₂' q = none := fun q hq =>
    ⟨Option.eq_none_iff_forall_ne_some.mpr fun c hc =>
        hq ((harr.occupied q).mp (hcol.sound.occupied_iff.mpr ⟨c, hc⟩)),
      Option.eq_none_iff_forall_ne_some.mpr fun c hc =>
        hq ((harr'.occupied q).mp (hcol'.sound.occupied_iff.mpr ⟨c, hc⟩))⟩
  have hnone : ∀ q, q ∉ order → k.table.get? q = none ∧ k'.table.get? q = none := fun q hq =>
    ⟨hcol.sound.get?_eq_none (hvacant q hq).1, hcol'.sound.get?_eq_none (hvacant q hq).2⟩
  have hcells : ∀ q ∈ order, ∃ c c', s₁' q = some c ∧ s₂' q = some c' ∧
      c'.content = c.content := by
    intro q hq
    obtain ⟨c, hc⟩ := hcol.sound.occupied_iff.mp ((harr.occupied q).mpr hq)
    obtain ⟨c', hc'⟩ := hcol'.sound.occupied_iff.mp ((harr'.occupied q).mpr hq)
    have heq := hcol'.content q c' hc'
    rw [hcontent q hq, hcol.content q c hc, Option.some_inj] at heq
    exact ⟨c, c', hc, hc', heq.symm⟩
  have hcontent' : ∀ q, s₂'.content q = s₁'.content q := by
    intro q
    by_cases hq : q ∈ order
    · obtain ⟨c, c', hc, hc', heq⟩ := hcells q hq
      rw [Store.content_of hc, Store.content_of hc', heq]
    · rw [Store.content, Store.content, (hvacant q hq).1, (hvacant q hq).2]
  have hheld : s₂'.held = s₁'.held := by
    funext q
    rw [Store.held, Store.held, hcontent' q]
  refine ⟨hcontent', fun q => ?_, fun q => ?_, fun q => ?_⟩
  · by_cases hq : q ∈ order
    · obtain ⟨c, c', hc, hc', -⟩ := hcells q hq
      rw [Store.count_eq hc, Store.count_eq hc', hcol.count q c hc, hcol'.count q c' hc', hheld]
    · rw [Store.count, Store.count, (hvacant q hq).1, (hvacant q hq).2]
  · by_cases hq : q ∈ order
    · obtain ⟨c, c', hc, hc', -⟩ := hcells q hq
      have heq := hfootprint q hq
      rw [hcol.sound.footprint_eq hc, hcol'.sound.footprint_eq hc'] at heq
      rw [hcol.sound.extent_eq hc, hcol'.sound.extent_eq hc', heq]
    · rw [Heap.extent, Heap.extent, (hnone q hq).1, (hnone q hq).2]
      rfl
  -- A place is the sum of the footprints before it, and these are the same on both sides.
  · by_cases hq : q ∈ order
    · obtain ⟨pre, post, hsplit⟩ := List.append_of_mem hq
      refine .inr ⟨_, harr.placed hsplit, ?_⟩
      have hpre : pre.map k'.footprint = pre.map k.footprint :=
        List.map_congr_left fun p hp => hfootprint p (hsplit ▸ List.mem_append_left _ hp)
      rw [harr'.placed hsplit, hpre]
    · exact .inl (hnone q hq)

theorem Parallel.refcount {start start' : Nat} (hp : Parallel start start' h h' s s')
    (hs : h.Stored s) (hs' : h'.Stored s') (hr : h.Occupied r) :
    h'.refcount r = h.refcount r := by
  obtain ⟨c, hc⟩ := hs.occupied_iff.mp hr
  obtain ⟨c', hc', -⟩ := Store.content_eq_some.mp ((hp.content r).trans (Store.content_of hc))
  rw [hs.refcount_eq hc, hs'.refcount_eq hc', ← Store.count_eq hc, ← Store.count_eq hc', hp.count]

theorem Parallel.occupied {start start' : Nat} (hp : Parallel start start' h h' s s') :
    h'.Occupied r ↔ h.Occupied r := by
  rcases hp.apart r with ⟨hr, hr'⟩ | ⟨n, hr, hr'⟩ <;> simp [Occupied, hr, hr']

theorem Parallel.swapped (hp : Parallel h.active.start h.spare.start h h' s s') (hs : h.Sound s)
    (hcol : h.Collected s roots col h' s') : Swapped h h' := by
  refine ⟨fun r => hp.occupied, fun r hr => ?_,
    fun r hr => hp.refcount hs.toStored hcol.sound.toStored hr, hp.extent, ?_⟩
  · obtain ⟨c, hc⟩ := hcol.sound.occupied_iff.mp (hp.occupied.mpr hr)
    exact hcol.keeps hs hc
  · refine ⟨(h.spare.start : Int) - h.active.start, ?_, fun r a ha => ?_⟩
    · rcases hs.halved.halves with ⟨hactive, hspare⟩ | ⟨hactive, hspare⟩
      · exact .inl (by rw [hactive, hspare]; simp)
      · exact .inr (by rw [hactive, hspare]; simp)
    · obtain ⟨c, hc, rfl⟩ := hs.deref_eq_ok.mp ha
      rcases hp.apart r with ⟨hr, -⟩ | ⟨n, hr, hr'⟩
      · rw [hs.get?_eq hc] at hr
        cases hr
      · rw [hs.get?_eq hc, Option.some_inj] at hr
        obtain ⟨c', hc', haddr⟩ := hcol.sound.get?_eq_some.mp hr'
        refine ⟨c'.addr, hcol.sound.deref_eq hc', ?_⟩
        omega

theorem Parallel.samePlaces {k k' : Heap} {s₁ s₂ : Store} {start : Nat}
    (hp : Parallel start start k k' s₁ s₂) (hs : k.Sound s₁) (hs' : k'.Sound s₂)
    (hslots : k'.table.size = k.table.size) (hinitial : k'.table.initial = k.table.initial)
    (hcapacity : k'.table.capacity = k.table.capacity)
    (hlisting : k'.pool.listing = k.pool.listing) (hactive : k'.active = k.active) :
    SamePlaces k k' := by
  refine ⟨Table.ext_get? hs.small hslots (fun r => ?_) hinitial hcapacity,
    fun r hr => hp.refcount hs.toStored hs'.toStored hr, hlisting, hactive⟩
  rcases hp.apart r with ⟨hr, hr'⟩ | ⟨n, hr, hr'⟩
  · rw [hr, hr']
  · rw [hr, hr']

theorem Arranged.idle {k k' : Heap} {s₁ : Store} (harr : h.Arranged s roots col k order)
    (harr' : k.Arranged s₁ roots col' k' order)
    (hsame : order.map k'.footprint = order.map k.footprint) : col.Idle col' := by
  have hafter : col'.usedAfter = col.usedAfter := by rw [harr'.total, hsame, harr.total]
  have hbefore : col'.usedBefore = col.usedAfter :=
    (Except.ok.inj (harr.after.symm.trans harr'.before)).symm
  refine ⟨harr'.survivors.trans harr.survivors.symm, hbefore, hafter, ?_⟩
  rw [Collection.reclaimed, hbefore, hafter, Nat.sub_self]

end Heap

namespace Client

variable {rule : Client → Request → Bool} {c : Client} {col : Collection} {h' : Heap}

/-- A collection with the roots of the one before it finds all that was left and moves it to the
other half as it is; one more brings it back. -/
theorem Run.collect_repeats (hrun : Run rule c)
    (hcollect : (Heap.collect roots).runOn c.heap = .ok (.ok col, h')) :
    h'.Collects roots fun col₂ h₂ => col.Idle col₂ ∧ h'.Swapped h₂ ∧
      h₂.Collects roots fun _ h₃ => h'.SamePlaces h₃ := by
  obtain ⟨s, hs⟩ := hrun.consistent
  obtain ⟨s₁, hcol₁⟩ := (hs.collect roots).good hcollect
  obtain ⟨order, harr₁⟩ := (hs.collect_arranges roots).good hcollect
  have hcontent₁ : ∀ q ∈ order, s₁.content q = s.content q := fun q hq =>
    hcol₁.content_eq ((harr₁.occupied q).mpr hq)
  refine (hcol₁.compact harr₁).collect.imp ?_
  rintro col₂ h₂ - ⟨s₂, hcol₂, harr₂, hsame₂⟩
  have hcontent₂ : ∀ q ∈ order, s₂.content q = s₁.content q := fun q hq =>
    hcol₂.content_eq ((harr₂.occupied q).mpr hq)
  have hspare : h₂.spare = c.heap.spare := harr₂.spare.trans harr₁.active
  refine ⟨harr₁.idle harr₂ hsame₂, ?_, (hcol₂.compact harr₂).collect.imp ?_⟩
  · have hswap := harr₁.parallel hcol₁ hcol₂ harr₂ hsame₂ hcontent₁
    rw [← harr₁.active] at hswap
    exact hswap.swapped hcol₁.sound hcol₂
  · rintro col₃ h₃ - ⟨s₃, hcol₃, harr₃, hsame₃⟩
    have hback := harr₁.parallel hcol₁ hcol₃ harr₃ (hsame₃.trans hsame₂) fun q hq =>
      (hcontent₂ q hq).trans (hcontent₁ q hq)
    rw [hspare] at hback
    refine hback.samePlaces hcol₁.sound hcol₃.sound ?_ ?_ ?_ ?_ ?_
    · rw [harr₃.slots, harr₂.slots]
    · rw [harr₃.initial, harr₂.initial]
    · rw [harr₃.capacity, harr₂.capacity]
    · rw [harr₃.listing, harr₁.listing, harr₃.total, harr₁.total, hsame₃, hsame₂, hspare,
        harr₂.config, harr₁.config]
    · rw [harr₃.active, hspare, harr₁.active]

theorem sample_repeats : ∃ c col h', sample = some c ∧
    (Heap.collect sampleRoots).runOn c.heap = .ok (.ok col, h') ∧
      ∃ col₂ h₂ col₃ h₃, (Heap.collect sampleRoots).runOn h' = .ok (.ok col₂, h₂) ∧
        (Heap.collect sampleRoots).runOn h₂ = .ok (.ok col₃, h₃) ∧ col.Idle col₂ ∧
          h'.Swapped h₂ ∧ h'.SamePlaces h₃ := by
  obtain ⟨c, hc, col, h', hcollect⟩ := sample_collects
  have hsmall : sample.any (fun c => decide (c.heap.config.halfSize ≤ 112 ∧
      c.heap.stats.collections = 0 ∧ c.heap.stats.copiedBytes = 0 ∧
        c.heap.stats.reclaimedBytes = 0)) = true := by decide +kernel
  rw [hc, Option.any_some, decide_eq_true_eq] at hsmall
  obtain ⟨hhalf, hcollections, hcopied, hreclaimed⟩ := hsmall
  have hroomy {n : Nat} {h : Heap} (hconfig : h.config = c.heap.config) (hn : n < 3)
      (hw : h.stats.Within n h.config.halfSize) : h.stats.Roomy h.config.halfSize := by
    refine hw.roomy (Nat.lt_trans (Nat.succ_lt_succ hn) (by decide)) ?_
    exact Nat.lt_of_le_of_lt (Nat.mul_le_mul hn (hconfig ▸ hhalf)) (by decide)
  have hstart : c.heap.stats.Within 0 c.heap.config.halfSize :=
    ⟨Nat.le_of_eq hcollections, by omega, by omega⟩
  have hrun : Run allows c := Run.session hc
  obtain ⟨s, hs⟩ := hrun.consistent
  obtain ⟨s', hcol⟩ := (hs.collect _).good hcollect
  have hfirst := hs.collect_within hstart hcollect
  obtain ⟨col₂, h₂, hcollect₂, hidle, hswapped, hthird⟩ :=
    (hrun.collect_repeats hcollect).answers (hroomy hcol.config (by decide) hfirst)
  obtain ⟨s₂, hcol₂⟩ := (hcol.sound.collect _).good hcollect₂
  have hsecond := hcol.sound.collect_within hfirst hcollect₂
  obtain ⟨col₃, h₃, hcollect₃, hplaces⟩ :=
    hthird.answers (hroomy (hcol₂.config.trans hcol.config) (by decide) hsecond)
  exact ⟨c, col, h', hc, hcollect, col₂, h₂, col₃, h₃, hcollect₂, hcollect₃, hidle, hswapped,
    hplaces⟩

end Client
end CountedHeap
