import CountedHeap.Proofs.Counting
import CountedHeap.Proofs.Hashing

/-!
The ledger of a store. Between two requests the account is exact, every value has an owner or is
led to, and each array is either free, with an owner and nothing in it, or stands behind one list
or dict.
-/

namespace CountedHeap.Store

/-- How values stand between two requests: no array is seen by users, those in `arrays` are free,
a list has nothing behind its last element, and the arrays of a dict are the tables that it says. -/
structure Arranged (s : Store) (arrays owned : List Reference) : Prop where
  plain : ∀ {r q : Reference} {xs : List Reference}, s.content r = some (.array xs) → q ∈ xs →
    ¬s.IsArray q
  visible : ∀ q ∈ owned, ¬s.IsArray q
  blank : ∀ {r : Reference} {xs : List Reference}, r ∈ arrays → s.content r = some (.array xs) →
    Blank xs
  lists : ∀ {r v : Reference} {n : Nat}, s.content r = some (.list n v) →
    ∃ xs, s.content v = some (.array xs) ∧ Filled n xs
  dicts : ∀ {r k v : Reference} {n o : Nat}, s.content r = some (.dict n o k v) →
    ∃ ks vs, s.content k = some (.array ks) ∧ s.content v = some (.array vs) ∧
      Tabled s.content n o ks vs

structure Ledger (s : Store) (arrays owned : List Reference) : Prop
    extends Arranged s arrays owned where
  live : ∀ {q : Reference} {x : Content}, s.content q = some x → q.isLive = true
  exact : s.Exact [] (arrays ++ owned)
  positive : ∀ {q : Reference} {x : Content}, s.content q = some x → 0 < s.count q
  single : ∀ {q : Reference}, s.IsArray q → s.count q ≤ 1

variable {s s' : Store} {arrays arrays' owned owned' : List Reference} {r q v : Reference}
  {x : Content} {xs ys : List Reference}

theorem count_of_content_none (hr : s.content r = none) : s.count r = 0 :=
  count_of_none (Option.map_eq_none_iff.mp hr)

theorem exists_of_held (hq : q ∈ s.held r) : ∃ x, s.content r = some x ∧ q ∈ x.held := by
  cases hr : s.content r with
  | none =>
    rw [held_of_none hr] at hq
    exact absurd hq List.not_mem_nil
  | some x =>
    rw [held_of_content hr] at hq
    exact ⟨x, rfl, hq⟩

theorem count_held_array (hq : q.isLive = true) :
    (Content.array xs).held.count q = xs.count q := List.count_filter hq

theorem held_of_dead (hxs : Dead xs) : (Content.array xs).held = [] :=
  List.filter_eq_nil_iff.mpr fun q hq => by simp [hxs q hq]

theorem count_of_dead (hq : q.isLive = true) (hxs : Dead xs) : xs.count q = 0 := by
  refine List.count_eq_zero.mpr fun hmem => ?_
  rw [hxs q hmem] at hq
  cases hq

theorem count_singleton_of_dead (hq : q.isLive = true) (hr : r.isLive = false) :
    [r].count q = 0 :=
  count_of_dead hq fun _ hp => List.mem_singleton.mp hp ▸ hr

theorem count_set_slot {i : Nat} (hi : xs[i]? = some r) :
    (xs.set i v).count q + [r].count q = xs.count q + [v].count q := by
  have hone : ∀ p : Reference, [p].count q = (p == q).toNat := fun p => by
    rw [List.count_singleton]
    cases p == q <;> rfl
  rw [hone, hone]
  exact countP_set_slot hi

theorem Fewer.nothing : s.Fewer fun _ => none := nofun

theorem Fewer.update {kept : Store} {o : Option Content} (h : s.Fewer kept)
    (hr : kept.content r = none) (hcontent : s'.content = Function.update s.content r o) :
    s'.Fewer kept := by
  intro q x hx
  have hne : q ≠ r := by
    rintro rfl
    rw [hr] at hx
    cases hx
  rw [hcontent, Function.update_of_ne hne]
  exact h q x hx

theorem Fewer.overwrite {kept : Store} {changes : List (Reference × Option Content)}
    (h : s.Fewer kept) (hchanges : ∀ q ∈ changes.map Prod.fst, kept.content q = none)
    (hcontent : s'.content = overwrite s.content changes) : s'.Fewer kept := by
  intro q x hx
  rw [hcontent, overwrite_of_not_mem fun hq => ?_]
  · exact h q x hx
  · rw [hchanges q hq] at hx
    cases hx

theorem Fewer.content_none {kept : Store} (h : s.Fewer kept) (hr : s.content r = none) :
    kept.content r = none := by
  cases hk : kept.content r with
  | none => rfl
  | some x =>
    rw [h r x hk] at hr
    cases hr

theorem count_owner : (r :: owned).count q = [r].count q + owned.count q := by
  rw [List.count_cons, List.count_singleton, Nat.add_comm]

theorem count_erase_add (hr : r ∈ arrays) :
    (arrays.erase r).count q + [r].count q = arrays.count q := by
  rw [(List.perm_cons_erase hr).count_eq q, List.count_cons (l := arrays.erase r),
    List.count_singleton]

theorem count_update_succ {count : Reference → Nat} :
    Function.update count v (count v + 1) q = count q + [v].count q := by
  by_cases h : q = v
  · subst h
    rw [Function.update_self, List.count_singleton_self]
  · rw [Function.update_of_ne h, List.count_singleton, beq_false_of_ne (Ne.symm h)]
    rfl

theorem count_update_zero {count : Reference → Nat} (hv : count v = 1) :
    Function.update count v 0 q + [v].count q = count q := by
  by_cases hq : q = v
  · subst hq
    rw [Function.update_self, List.count_singleton_self, hv]
  · rw [Function.update_of_ne hq, List.count_singleton, beq_false_of_ne (Ne.symm hq)]
    rfl

theorem ne_of_content {y : Content} (hr : s.content r = some x) (hq : s.content q = some y)
    (hne : x ≠ y) : r ≠ q := by
  rintro rfl
  rw [hr, Option.some_inj] at hq
  exact hne hq

theorem ne_of_none (hr : s.content r = some x) (hq : s.content q = none) : r ≠ q := by
  rintro rfl
  rw [hq] at hr
  cases hr

theorem Fewer.isArray (h : s.Fewer s') (hq : s'.IsArray q) : s.IsArray q := by
  obtain ⟨xs, hxs⟩ := hq
  exact ⟨xs, h q _ hxs⟩

theorem Arranged.fewer (ha : s.Arranged arrays owned) (h : s.Fewer s')
    (hled : ∀ p q, q ∈ s'.held p → ∀ x, s.content q = some x → s'.content q = some x)
    (harrays : arrays' ⊆ arrays) (howned : ∀ q ∈ owned', ¬s.IsArray q) :
    s'.Arranged arrays' owned' := by
  refine ⟨fun hxs hq harr => ha.plain (h _ _ hxs) hq (h.isArray harr),
    fun q hq harr => howned q hq (h.isArray harr),
    fun hr hxs => ha.blank (harrays hr) (h _ _ hxs), fun {r v n} hr => ?_,
    fun {r k v n o} hr => ?_⟩
  · obtain ⟨xs, hxs, hfilled⟩ := ha.lists (h _ _ hr)
    have hheld : s'.held r = [v] := held_of_content hr
    exact ⟨xs, hled r v (by simp [hheld]) _ hxs, hfilled⟩
  · obtain ⟨ks, vs, hks, hvs, htabled⟩ := ha.dicts (h _ _ hr)
    have hheld : s'.held r = [v, k] := held_of_content hr
    have hks' := hled r k (by simp [hheld]) _ hks
    refine ⟨ks, vs, hks', hled r v (by simp [hheld]) _ hvs, htabled.congr fun q hq hlive => ?_⟩
    obtain ⟨x, -, hx, -⟩ := htabled.hashable q hq hlive
    have hkeys : s'.held k = (Content.array ks).held := held_of_content hks'
    rw [hx]
    exact hled k q (by rw [hkeys]; exact List.mem_filter.mpr ⟨hq, hlive⟩) x hx

theorem Exact.occupied (he : s.Exact [] owned) (hq : q.isLive = true)
    (hpos : 0 < owned.count q + edges s.held q) : ∃ x, s.content q = some x := by
  have hcount := he q hq
  rw [heldBut_nil] at hcount
  cases hx : s.content q with
  | none =>
    rw [count_of_content_none hx] at hcount
    omega
  | some x => exact ⟨x, rfl⟩

namespace Ledger

theorem empty : Ledger (fun _ => none) [] [] := by
  refine ⟨⟨nofun, nofun, nofun, nofun, nofun⟩, nofun, fun q _ => ?_, nofun, fun hq => ?_⟩
  · rw [edges.eq_zero fun r _ => ?_]
    · rfl
    · exact List.not_mem_nil
  · obtain ⟨xs, hxs⟩ := hq
    cases hxs

theorem count_eq (hl : s.Ledger arrays owned) (hq : q.isLive = true) :
    s.count q = arrays.count q + owned.count q + edges s.held q := by
  have hexact := hl.exact q hq
  rwa [heldBut_nil, List.count_append] at hexact

theorem isLive_of_held (hl : s.Ledger arrays owned) (hq : q ∈ s.held r) : r.isLive = true := by
  obtain ⟨x, hx, -⟩ := exists_of_held hq
  exact hl.live hx

theorem unknown (hl : s.Ledger arrays owned) (hr : s.content r = none) (hlive : r.isLive = true) :
    arrays.count r = 0 ∧ owned.count r = 0 ∧ edges s.held r = 0 := by
  have hcount := hl.count_eq hlive
  rw [count_of_content_none hr] at hcount
  omega

theorem not_held (hl : s.Ledger arrays owned) (hr : s.content r = none) (hlive : r.isLive = true)
    (q : Reference) : r ∉ s.held q := by
  intro hmem
  have hpos := edges.pos_of_mem (hl.isLive_of_held hmem) hmem
  have hzero := (hl.unknown hr hlive).2.2
  omega

theorem sole (hl : s.Ledger arrays owned) (hq : s.IsArray q) (hr : q ∈ s.held r) :
    arrays.count q = 0 ∧ owned.count q = 0 ∧ (s.held r).count q = 1 ∧
      ∀ p, q ∈ s.held p → p = r := by
  have hlive := hl.live hq.choose_spec
  have hcount := hl.count_eq hlive
  have hsingle := hl.single hq
  have hpos := List.count_pos_iff.mpr hr
  have hle := @edges.count_le s.held r q (hl.isLive_of_held hr)
  refine ⟨by omega, by omega, by omega, fun p hp => ?_⟩
  by_contra hne
  have htwo := edges.two_le (hl.isLive_of_held hp) (hl.isLive_of_held hr) hne hp hr
  omega

theorem free (hl : s.Ledger arrays owned) (hq : s.IsArray q) (hmem : q ∈ arrays) :
    arrays.count q = 1 ∧ ∀ r, q ∉ s.held r := by
  have hcount := hl.count_eq (hl.live hq.choose_spec)
  have hsingle := hl.single hq
  have hpos := List.count_pos_iff.mpr hmem
  refine ⟨by omega, fun r hr => ?_⟩
  have hedge := edges.pos_of_mem (hl.isLive_of_held hr) hr
  omega

theorem not_isArray (hl : s.Ledger arrays owned) (hq : q.isLive = false) : ¬s.IsArray q := by
  rintro ⟨xs, hxs⟩
  rw [hl.live hxs] at hq
  cases hq

theorem not_mem_of_held (hl : s.Ledger arrays owned) (hq : s.IsArray q) (hr : q ∈ s.held r) :
    q ∉ arrays := List.count_eq_zero.mp (hl.sole hq hr).1

theorem not_mem_erase (hl : s.Ledger arrays owned) (hq : s.IsArray q) (hmem : q ∈ arrays) :
    q ∉ arrays.erase q := by
  rw [← List.count_eq_zero, List.count_erase_self, (hl.free hq hmem).1]

theorem count_eq_one (hl : s.Ledger arrays owned) (hv : s.content v = some (.array xs)) :
    s.count v = 1 := Nat.le_antisymm (hl.single ⟨xs, hv⟩) (hl.positive hv)

theorem keys_ne_values {n o : Nat} {k : Reference} (hl : s.Ledger arrays owned)
    (hr : s.content r = some (.dict n o k v)) (hk : s.content k = some (.array xs)) : k ≠ v := by
  have hheld : s.held r = [v, k] := held_of_content hr
  have hone := (hl.sole ⟨xs, hk⟩ (r := r) (by simp [hheld])).2.2.1
  rintro rfl
  rw [hheld, List.count_cons_self, List.count_singleton_self] at hone
  cases hone

theorem filled {n : Nat} (hl : s.Ledger arrays owned) (hr : s.content r = some (.list n v))
    (hv : s.content v = some (.array xs)) : Filled n xs := by
  obtain ⟨ys, hys, hfilled⟩ := hl.lists hr
  rw [hv] at hys
  cases hys
  exact hfilled

theorem tabled {n o : Nat} {k : Reference} {ks vs : List Reference} (hl : s.Ledger arrays owned)
    (hr : s.content r = some (.dict n o k v)) (hk : s.content k = some (.array ks))
    (hv : s.content v = some (.array vs)) : Tabled s.content n o ks vs := by
  obtain ⟨us, ws, hus, hws, htabled⟩ := hl.dicts hr
  rw [hk] at hus
  rw [hv] at hws
  cases hus
  cases hws
  exact htabled

theorem congr (hl : s.Ledger arrays owned) (hcontent : s'.content = s.content)
    (hcount : s'.count = s.count) : s'.Ledger arrays owned := by
  have hfewer : s.Fewer s' := fun q x hx => by rwa [hcontent] at hx
  refine ⟨hl.toArranged.fewer hfewer (fun _ _ _ _ hx => by rwa [hcontent]) (fun _ h => h)
    hl.visible, fun hx => hl.live (hfewer _ _ hx), hl.exact.of_eq hcontent hcount fun _ _ => rfl,
    fun hx => ?_, fun hq => ?_⟩
  · rw [hcount]
    exact hl.positive (hfewer _ _ hx)
  · rw [hcount]
    exact hl.single (hfewer.isArray hq)

theorem perm (hl : s.Ledger arrays owned) (hp : owned.Perm owned') : s.Ledger arrays owned' := by
  refine ⟨⟨hl.plain, fun q hq => hl.visible q (hp.mem_iff.mpr hq), hl.blank, hl.lists, hl.dicts⟩,
    hl.live, hl.exact.of_eq rfl rfl fun q _ => ?_, hl.positive, hl.single⟩
  rw [List.count_append, List.count_append, hp.count_eq]

theorem retain (hl : s.Ledger arrays owned) (hr : ¬s.IsArray r) (hcontent : s'.content = s.content)
    (hcount : s'.count = Function.update s.count r (s.count r + 1)) :
    s'.Ledger arrays (r :: owned) := by
  have hfewer : s.Fewer s' := fun q x hx => by rwa [hcontent] at hx
  have hvisible : ∀ q ∈ r :: owned, ¬s.IsArray q := by
    intro q hq
    rcases List.mem_cons.mp hq with rfl | hq
    · exact hr
    · exact hl.visible q hq
  refine ⟨hl.toArranged.fewer hfewer (fun _ _ _ _ hx => by rwa [hcontent]) (fun _ h => h)
    hvisible, fun hx => hl.live (hfewer _ _ hx),
    hl.exact.revise (show s'.content = overwrite s.content [] from hcontent)
      (fun _ h => absurd h List.not_mem_nil) List.nodup_nil fun q _ => ?_, fun {q x} hx => ?_,
    fun {q} hq => ?_⟩
  · rw [hcount]
    by_cases hq : q = r
    · subst hq
      simp only [List.count_append, List.count_cons_self, List.map_nil, List.sum_nil,
        Function.update_self]
      omega
    · simp only [List.count_append, List.count_cons_of_ne (Ne.symm hq), List.map_nil, List.sum_nil,
        Function.update_of_ne hq]
  · have hpos := hl.positive (hfewer q x hx)
    rw [hcount]
    by_cases hq : q = r
    · subst hq
      rw [Function.update_self]
      omega
    · rwa [Function.update_of_ne hq]
  · have hne : q ≠ r := by
      rintro rfl
      exact hr (hfewer.isArray hq)
    rw [hcount, Function.update_of_ne hne]
    exact hl.single (hfewer.isArray hq)

theorem dropped {kept : Store} (hl : s.Ledger arrays (r :: owned))
    (hd : Heap.Dropping s kept (arrays ++ owned) [] s') : s'.Ledger arrays owned := by
  have hled : ∀ p q, q ∈ s'.held p → ∀ x, s.content q = some x → s'.content q = some x := by
    intro p q hq x hx
    obtain ⟨y, hy, -⟩ := exists_of_held hq
    have hpos := edges.pos_of_mem (hl.live (hd.fewer p y hy)) hq
    obtain ⟨z, hz⟩ := Exact.occupied (s := s') hd.exact (hl.live hx) (by omega)
    have hzx := hd.fewer q z hz
    rw [hx] at hzx
    rw [hz, ← hzx]
  refine ⟨hl.toArranged.fewer hd.fewer hled (fun _ h => h)
      fun q hq => hl.visible q (List.mem_cons_of_mem _ hq),
    fun hx => hl.live (hd.fewer _ _ hx), hd.exact, fun {q x} hx => ?_, fun {q} hq => ?_⟩
  · obtain ⟨c, hc, -⟩ := content_eq_some.mp hx
    rw [Store.count_eq hc]
    exact (hd.positive q c hc).resolve_right List.not_mem_nil
  · exact Nat.le_trans (hd.less q) (hl.single (hd.fewer.isArray hq))

end Ledger

structure Made (s s' : Store) (r : Reference) (x : Content) : Prop where
  content : s'.content = Function.update s.content r (some x)
  count : s'.count = Function.update s.count r 1
  array : ∀ xs, x = .array xs → Blank xs
  list : ∀ n v, x = .list n v → ∃ xs, s.content v = some (.array xs) ∧ Filled n xs
  dict : ∀ n o k v, x = .dict n o k v → ∃ ks vs, s.content k = some (.array ks) ∧
    s.content v = some (.array vs) ∧ Tabled s.content n o ks vs

namespace Made

variable {p : Reference} {y : Content} (hm : s.Made s' r x)
include hm

theorem self : s'.content r = some x := by rw [hm.content, Function.update_self]

theorem cases (hp : s'.content p = some y) : (p = r ∧ x = y) ∨ s.content p = some y := by
  rw [hm.content] at hp
  by_cases hpr : p = r
  · rw [hpr, Function.update_self, Option.some_inj] at hp
    exact .inl ⟨hpr, hp⟩
  · rw [Function.update_of_ne hpr] at hp
    exact .inr hp

theorem isArray (hq : q ≠ r) (harr : s'.IsArray q) : s.IsArray q := by
  obtain ⟨xs, hxs⟩ := harr
  exact ⟨xs, (hm.cases hxs).resolve_left fun h => hq h.1⟩

variable (hr : s.content r = none)
include hr

theorem still (hp : s.content p = some y) : s'.content p = some y := by
  rw [hm.content, Function.update_of_ne (ne_of_none hp hr), hp]

theorem count_eq : s'.count q = s.count q + [r].count q := by
  rw [hm.count, ← count_update_succ, count_of_content_none hr]

variable (hl : s.Ledger arrays owned) (hlive : r.isLive = true)
include hl hlive

theorem live (hp : s'.content p = some y) : p.isLive = true := by
  rcases hm.cases hp with ⟨rfl, -⟩ | hp
  · exact hlive
  · exact hl.live hp

theorem plain (hp : s'.content p = some (.array xs)) (hq : q ∈ xs) : ¬s'.IsArray q := by
  intro harr
  have hqlive := hm.live hr hl hlive harr.choose_spec
  rcases hm.cases hp with ⟨-, rfl⟩ | hp
  · rw [(hm.array xs rfl).dead q hq] at hqlive
    cases hqlive
  · have hheld : q ∈ s.held p := by
      rw [held_of_content hp]
      exact List.mem_filter.mpr ⟨hq, hqlive⟩
    have hne : q ≠ r := fun h => hl.not_held hr hlive p (h ▸ hheld)
    exact hl.plain hp hq (hm.isArray hne harr)

theorem visible (hq : (q = r ∧ x.kind ≠ .array) ∨ q ∈ owned) : ¬s'.IsArray q := by
  intro harr
  rcases hq with ⟨rfl, hkind⟩ | hq
  · obtain ⟨xs, hxs⟩ := harr
    rw [hm.self, Option.some_inj] at hxs
    exact hkind (hxs ▸ rfl)
  · have hne : q ≠ r := by
      rintro rfl
      exact List.count_eq_zero.mp (hl.unknown hr hlive).2.1 hq
    exact hl.visible q hq (hm.isArray hne harr)

theorem arranged (harrays : ∀ q ∈ arrays', q = r ∨ q ∈ arrays)
    (howned : ∀ q ∈ owned', (q = r ∧ x.kind ≠ .array) ∨ q ∈ owned) :
    s'.Arranged arrays' owned' where
  plain := hm.plain hr hl hlive
  visible q hq := hm.visible hr hl hlive (howned q hq)
  blank {p xs} hp hxs := by
    rcases hm.cases hxs with ⟨-, hx⟩ | hxs
    · exact hm.array xs hx
    · exact hl.blank ((harrays p hp).resolve_left (ne_of_none hxs hr)) hxs
  lists {p v n} hp := by
    have hshape : ∃ xs, s.content v = some (.array xs) ∧ Filled n xs := by
      rcases hm.cases hp with ⟨-, hx⟩ | hp
      · exact hm.list n v hx
      · exact hl.lists hp
    obtain ⟨xs, hxs, hfilled⟩ := hshape
    exact ⟨xs, hm.still hr hxs, hfilled⟩
  dicts {p k v n o} hp := by
    have hshape : ∃ ks vs, s.content k = some (.array ks) ∧ s.content v = some (.array vs) ∧
        Tabled s.content n o ks vs := by
      rcases hm.cases hp with ⟨-, hx⟩ | hp
      · exact hm.dict n o k v hx
      · exact hl.dicts hp
    obtain ⟨ks, vs, hks, hvs, htabled⟩ := hshape
    refine ⟨ks, vs, hm.still hr hks, hm.still hr hvs, htabled.congr fun q hq hqlive => ?_⟩
    obtain ⟨y, -, hy, -⟩ := htabled.hashable q hq hqlive
    rw [hy, hm.still hr hy]

end Made

theorem Ledger.make (hl : s.Ledger arrays owned) (hm : s.Made s' r x) (hr : s.content r = none)
    (hlive : r.isLive = true) (harrays : ∀ q ∈ arrays', q = r ∨ q ∈ arrays)
    (howned : ∀ q ∈ owned', (q = r ∧ x.kind ≠ .array) ∨ q ∈ owned)
    (hbalance : ∀ q, q.isLive = true → arrays'.count q + owned'.count q + x.held.count q =
      arrays.count q + owned.count q + [r].count q) : s'.Ledger arrays' owned' := by
  refine ⟨hm.arranged hr hl hlive harrays howned, hm.live hr hl hlive,
    hl.exact.revise (show s'.content = overwrite s.content [(r, some x)] from hm.content)
      (List.forall_mem_singleton.mpr hlive) (List.nodup_singleton _) fun q hq => ?_,
    fun {q y} hy => ?_, fun {q} hq => ?_⟩
  · have hbal := hbalance q hq
    have hheld : (s.held r).count q = 0 := by
      rw [held_of_none hr]
      rfl
    simp only [List.count_append, List.map_cons, List.map_nil, List.sum_cons, List.sum_nil,
      Option.elim, hheld, hm.count_eq hr]
    omega
  · rw [hm.count]
    rcases hm.cases hy with ⟨rfl, -⟩ | hy
    · rw [Function.update_self]
      exact Nat.one_pos
    · rw [Function.update_of_ne (ne_of_none hy hr)]
      exact hl.positive hy
  · rw [hm.count]
    by_cases hqr : q = r
    · rw [hqr, Function.update_self]
    · rw [Function.update_of_ne hqr]
      exact hl.single (hm.isArray hqr hq)

/-- Changes to lists, dicts and arrays that leave everything else alone, counts included. They are
complete: an array that is not free changes together with the value that it stands behind. -/
structure Revised (s s' : Store) (arrays : List Reference)
    (changes : List (Reference × Option Content)) : Prop where
  content : s'.content = overwrite s.content changes
  count : ∀ {q : Reference} {x : Content}, s'.content q = some x → s'.count q = s.count q
  nodup : (changes.map Prod.fst).Nodup
  kinds : ∀ e ∈ changes, ∃ x, s.content e.1 = some x ∧ x.hash? = none ∧
    ∀ y, e.2 = some y → y.kind = x.kind
  owners : ∀ e ∈ changes, s.IsArray e.1 → e.1 ∈ arrays ∨ ∃ d ∈ changes, e.1 ∈ s.held d.1
  plain : ∀ e ∈ changes, ∀ xs, e.2 = some (.array xs) → ∀ q ∈ xs, ¬s.IsArray q
  lists : ∀ e ∈ changes, ∀ n v, e.2 = some (.list n v) →
    ∃ xs, s'.content v = some (.array xs) ∧ Filled n xs
  dicts : ∀ e ∈ changes, ∀ n o k v, e.2 = some (.dict n o k v) →
    ∃ ks vs, s'.content k = some (.array ks) ∧ s'.content v = some (.array vs) ∧
      Tabled s.content n o ks vs

namespace Revised

variable {changes : List (Reference × Option Content)}

theorem unchanged (hv : s.Revised s' arrays changes) (hr : r ∉ changes.map Prod.fst) :
    s'.content r = s.content r := by rw [hv.content, overwrite_of_not_mem hr]

theorem changed (hv : s.Revised s' arrays changes) {e : Reference × Option Content}
    (he : e ∈ changes) : s'.content e.1 = e.2 := by rw [hv.content, overwrite_of_mem hv.nodup he]

theorem kind_eq (hv : s.Revised s' arrays changes) (hx : s'.content r = some x) :
    ∃ y, s.content r = some y ∧ x.kind = y.kind := by
  by_cases hr : r ∈ changes.map Prod.fst
  · obtain ⟨e, he, rfl⟩ := List.mem_map.mp hr
    obtain ⟨y, hy, -, hkind⟩ := hv.kinds e he
    rw [hv.changed he] at hx
    exact ⟨y, hy, hkind x hx⟩
  · rw [hv.unchanged hr] at hx
    exact ⟨x, hx, rfl⟩

theorem keys (hv : s.Revised s' arrays changes) {n : UInt64} (hx : s.content r = some x)
    (hn : x.hash? = some n) : s'.content r = s.content r := by
  refine hv.unchanged fun hr => ?_
  obtain ⟨e, he, rfl⟩ := List.mem_map.mp hr
  obtain ⟨y, hy, hnone, -⟩ := hv.kinds e he
  rw [hx] at hy
  cases hy
  rw [hn] at hnone
  cases hnone

theorem isArray (hv : s.Revised s' arrays changes) (hq : s'.IsArray q) : s.IsArray q := by
  obtain ⟨xs, hxs⟩ := hq
  obtain ⟨y, hy, hkind⟩ := hv.kind_eq hxs
  cases y with
  | array ys => exact ⟨ys, hy⟩
  | _ => cases hkind

theorem closed (hl : s.Ledger arrays owned) (hv : s.Revised s' arrays changes)
    (hr : r ∉ changes.map Prod.fst) (hq : q ∈ s.held r) (hqa : s.IsArray q) :
    s'.content q = s.content q := by
  refine hv.unchanged fun hmem => ?_
  obtain ⟨e, he, rfl⟩ := List.mem_map.mp hmem
  rcases hv.owners e he hqa with hfree | ⟨d, hd, hqd⟩
  · exact (hl.free hqa hfree).2 r hq
  · have heq := (hl.sole hqa hqd).2.2.2 r hq
    exact hr (heq ▸ List.mem_map_of_mem hd)

theorem arranged (hl : s.Ledger arrays owned) (hv : s.Revised s' arrays changes)
    (hvisible : ∀ q ∈ owned', ¬s.IsArray q)
    (hblank : ∀ q ∈ arrays', q ∈ arrays ∧ ∀ xs, (q, some (.array xs)) ∈ changes → Blank xs) :
    s'.Arranged arrays' owned' := by
  refine ⟨fun {p q xs} hp hq hqa => ?_, fun q hq hqa => hvisible q hq (hv.isArray hqa),
    fun {p xs} hp hxs => ?_, fun {p v n} hp => ?_, fun {p k v n o} hp => ?_⟩
  · by_cases hmem : p ∈ changes.map Prod.fst
    · obtain ⟨e, he, rfl⟩ := List.mem_map.mp hmem
      rw [hv.changed he] at hp
      exact hv.plain e he xs hp q hq (hv.isArray hqa)
    · rw [hv.unchanged hmem] at hp
      exact hl.plain hp hq (hv.isArray hqa)
  · obtain ⟨hfree, hdead⟩ := hblank p hp
    by_cases hmem : p ∈ changes.map Prod.fst
    · obtain ⟨⟨p, o⟩, he, rfl⟩ := List.mem_map.mp hmem
      rw [hv.changed he] at hxs
      subst hxs
      exact hdead xs he
    · rw [hv.unchanged hmem] at hxs
      exact hl.blank hfree hxs
  · by_cases hmem : p ∈ changes.map Prod.fst
    · obtain ⟨e, he, rfl⟩ := List.mem_map.mp hmem
      rw [hv.changed he] at hp
      exact hv.lists e he n v hp
    · rw [hv.unchanged hmem] at hp
      obtain ⟨xs, hxs, hfilled⟩ := hl.lists hp
      have hheld : s.held p = [v] := held_of_content hp
      have hv' := closed hl hv hmem (q := v) (by simp [hheld]) ⟨xs, hxs⟩
      exact ⟨xs, hv'.trans hxs, hfilled⟩
  · have hshape : ∃ ks vs, s'.content k = some (.array ks) ∧ s'.content v = some (.array vs) ∧
        Tabled s.content n o ks vs := by
      by_cases hmem : p ∈ changes.map Prod.fst
      · obtain ⟨e, he, rfl⟩ := List.mem_map.mp hmem
        rw [hv.changed he] at hp
        exact hv.dicts e he n o k v hp
      · rw [hv.unchanged hmem] at hp
        obtain ⟨ks, vs, hks, hvs, htabled⟩ := hl.dicts hp
        have hheld : s.held p = [v, k] := held_of_content hp
        have hk' := closed hl hv hmem (q := k) (by simp [hheld]) ⟨ks, hks⟩
        have hv' := closed hl hv hmem (q := v) (by simp [hheld]) ⟨vs, hvs⟩
        exact ⟨ks, vs, hk'.trans hks, hv'.trans hvs, htabled⟩
    obtain ⟨ks, vs, hks, hvs, htabled⟩ := hshape
    refine ⟨ks, vs, hks, hvs, htabled.congr fun q hq hlive => ?_⟩
    obtain ⟨y, m, hy, hm⟩ := htabled.hashable q hq hlive
    exact hv.keys hy hm

end Revised

theorem Ledger.revise {changes : List (Reference × Option Content)} (hl : s.Ledger arrays owned)
    (hv : s.Revised s' arrays changes) (hvisible : ∀ q ∈ owned', ¬s.IsArray q)
    (hblank : ∀ q ∈ arrays', q ∈ arrays ∧ ∀ xs, (q, some (.array xs)) ∈ changes → Blank xs)
    (hbalance : ∀ q, q.isLive = true → arrays'.count q + owned'.count q +
        (changes.map fun e => (e.2.elim [] Content.held).count q).sum + s.count q =
      arrays.count q + owned.count q + (changes.map fun e => (s.held e.1).count q).sum +
        s'.count q) : s'.Ledger arrays' owned' := by
  refine ⟨Revised.arranged hl hv hvisible hblank, fun {q x} hx => ?_,
    hl.exact.revise hv.content (fun e he => ?_) hv.nodup fun q hq => ?_, fun {q x} hx => ?_,
    fun {q} hq => ?_⟩
  · obtain ⟨y, hy, -⟩ := hv.kind_eq hx
    exact hl.live hy
  · obtain ⟨y, hy, -⟩ := hv.kinds e he
    exact hl.live hy
  · rw [List.count_append, List.count_append]
    exact hbalance q hq
  · obtain ⟨y, hy, -⟩ := hv.kind_eq hx
    rw [hv.count hx]
    exact hl.positive hy
  · rw [hv.count hq.choose_spec]
    exact hl.single (hv.isArray hq)

section Container

variable {y : Content} (hr : s.content r = some x) (hx : x.kind ≠ .array)
  (hkind : y.kind = x.kind) (hhash : x.hash? = none)
  (storage : List (Reference × Option (List Reference)))
  (hcontent : s'.content =
    overwrite s.content ((r, some y) :: storage.map fun e => (e.1, e.2.map .array)))
  (hcount : ∀ {q : Reference} {z : Content}, s'.content q = some z → s'.count q = s.count q)
  (hnodup : (storage.map Prod.fst).Nodup)
  (hstorage : ∀ e ∈ storage, s.IsArray e.1 ∧ (e.1 ∈ arrays ∨ e.1 ∈ x.held) ∧
    ∀ ys, e.2 = some ys → ∀ q ∈ ys, ¬s.IsArray q)
  (hlist : ∀ n v, y = .list n v → ∃ xs, s'.content v = some (.array xs) ∧ Filled n xs)
  (hdict : ∀ n o k v, y = .dict n o k v → ∃ ks vs, s'.content k = some (.array ks) ∧
    s'.content v = some (.array vs) ∧ Tabled s.content n o ks vs)
include hr hx hkind hhash hcontent hcount hnodup hstorage hlist hdict

theorem Revised.container :
    s.Revised s' arrays ((r, some y) :: storage.map fun e => (e.1, e.2.map .array)) := by
  have hplain : ¬s.IsArray r := by
    rintro ⟨xs, hxs⟩
    rw [hr, Option.some_inj] at hxs
    exact hx (hxs ▸ rfl)
  refine ⟨hcontent, hcount, ?_, ?_, ?_, ?_, ?_, ?_⟩
  · rw [List.map_cons, List.map_map, List.nodup_cons]
    refine ⟨fun hmem => ?_, hnodup⟩
    obtain ⟨e, he, rfl⟩ := List.mem_map.mp hmem
    exact hplain (hstorage e he).1
  all_goals rw [List.forall_mem_cons, List.forall_mem_map]
  · refine ⟨⟨x, hr, hhash, fun z hz => ?_⟩, fun e he => ?_⟩
    · cases hz
      exact hkind
    · obtain ⟨xs, hxs⟩ := (hstorage e he).1
      refine ⟨_, hxs, rfl, fun z hz => ?_⟩
      obtain ⟨ys, -, rfl⟩ := Option.map_eq_some_iff.mp hz
      rfl
  · refine ⟨fun harr => absurd harr hplain, fun e he _ => ?_⟩
    refine (hstorage e he).2.1.imp_right fun hheld => ⟨_, List.mem_cons_self, ?_⟩
    rwa [held_of_content hr]
  · refine ⟨fun xs hy => ?_, fun e he xs hxs q hq => ?_⟩
    · cases hy
      exact absurd hkind.symm hx
    · obtain ⟨ys, hys, heq⟩ := Option.map_eq_some_iff.mp hxs
      cases heq
      exact (hstorage e he).2.2 _ hys q hq
  · refine ⟨fun n v hy => hlist n v (Option.some_inj.mp hy), fun e he n v hxs => ?_⟩
    obtain ⟨ys, -, heq⟩ := Option.map_eq_some_iff.mp hxs
    cases heq
  · refine ⟨fun n o k v hy => hdict n o k v (Option.some_inj.mp hy), fun e he n o k v hxs => ?_⟩
    obtain ⟨ys, -, heq⟩ := Option.map_eq_some_iff.mp hxs
    cases heq

theorem Ledger.setContainer (hl : s.Ledger arrays owned) (hvisible : ∀ q ∈ owned', ¬s.IsArray q)
    (harrays : ∀ q ∈ arrays', q ∈ arrays ∧ q ∉ storage.map Prod.fst)
    (hbalance : ∀ q, q.isLive = true → arrays'.count q + owned'.count q + y.held.count q +
        (storage.map fun e => (e.2.getD []).count q).sum + s.count q =
      arrays.count q + owned.count q + x.held.count q +
        (storage.map fun e => (s.held e.1).count q).sum + s'.count q) :
    s'.Ledger arrays' owned' := by
  refine hl.revise (Revised.container hr hx hkind hhash storage hcontent hcount hnodup hstorage
    hlist hdict) hvisible (fun q hq => ⟨(harrays q hq).1, fun xs hmem => ?_⟩) fun q hq => ?_
  · rcases List.mem_cons.mp hmem with heq | hmem
    · cases heq
      exact absurd hkind.symm hx
    · obtain ⟨e, he, heq⟩ := List.mem_map.mp hmem
      have heq : e.1 = q := congrArg Prod.fst heq
      exact absurd (heq ▸ List.mem_map_of_mem he) (harrays q hq).2
  · have hbal := hbalance q hq
    have hnew : ((storage.map fun e => (e.1, e.2.map Content.array)).map fun e =>
        (e.2.elim [] Content.held).count q) = storage.map fun e => (e.2.getD []).count q := by
      rw [List.map_map]
      refine List.map_congr_left fun e _ => ?_
      show ((e.2.map Content.array).elim [] Content.held).count q = _
      cases e.2 with
      | none => rfl
      | some ys => exact count_held_array hq
    have hold : ((storage.map fun e => (e.1, e.2.map Content.array)).map fun e =>
        (s.held e.1).count q) = storage.map fun e => (s.held e.1).count q := by
      rw [List.map_map]
      rfl
    rw [List.map_cons, List.map_cons, List.sum_cons, List.sum_cons, hnew, hold,
      held_of_content hr]
    simp only [Option.elim]
    omega

end Container

namespace Ledger

section Storage

variable {n m o o' : Nat} {k k' v' : Reference} {ks vs : List Reference}

theorem makeScalar (hl : s.Ledger arrays owned) (hr : s.content r = none)
    (hlive : r.isLive = true) (hcontent : s'.content = Function.update s.content r (some x))
    (hcount : s'.count = Function.update s.count r 1) (hx : x.hash? ≠ none) :
    s'.Ledger arrays (r :: owned) := by
  refine hl.make ⟨hcontent, hcount, ?_, ?_, ?_⟩ hr hlive (fun q hq => .inr hq) (fun q hq => ?_)
    fun q _ => ?_
  · rintro xs rfl
    exact absurd rfl hx
  · rintro n v rfl
    exact absurd rfl hx
  · rintro n o k v rfl
    exact absurd rfl hx
  · refine (List.mem_cons.mp hq).imp_left fun heq => ⟨heq, fun hk => hx ?_⟩
    cases x with
    | array xs => rfl
    | _ => cases hk
  · have hheld : x.held = [] := by
      cases x with
      | list n v => exact absurd rfl hx
      | dict n o k v => exact absurd rfl hx
      | array xs => exact absurd rfl hx
      | _ => rfl
    rw [hheld, count_owner, List.count_nil]
    omega

theorem makeArray (hl : s.Ledger arrays owned) (hr : s.content r = none) (hlive : r.isLive = true)
    (hcontent : s'.content = Function.update s.content r (some (.array xs)))
    (hcount : s'.count = Function.update s.count r 1) (hxs : Blank xs) :
    s'.Ledger (r :: arrays) owned := by
  refine hl.make ⟨hcontent, hcount, fun ys hy => ?_, nofun, nofun⟩ hr hlive
    (fun q hq => List.mem_cons.mp hq) (fun q hq => .inr hq) fun q hq => ?_
  · cases hy
    exact hxs
  · rw [count_held_array hq, count_of_dead hq hxs.dead, count_owner]
    omega

theorem makeList (hl : s.Ledger arrays owned) (hr : s.content r = none) (hlive : r.isLive = true)
    (hcontent : s'.content = Function.update s.content r (some (.list 0 v)))
    (hcount : s'.count = Function.update s.count r 1) (hfree : v ∈ arrays)
    (hv : s.content v = some (.array xs)) : s'.Ledger (arrays.erase v) (r :: owned) := by
  refine hl.make ⟨hcontent, hcount, nofun, fun n u hx => ?_, nofun⟩ hr hlive
    (fun q hq => .inr (List.mem_of_mem_erase hq))
    (fun q hq => (List.mem_cons.mp hq).imp_left fun heq => ⟨heq, nofun⟩) fun q hq => ?_
  · cases hx
    exact ⟨xs, hv, Nat.zero_le _, nofun, hl.blank hfree hv⟩
  · have harrays := count_erase_add (q := q) hfree
    rw [count_owner]
    simp only [Content.held]
    omega

theorem makeDict {k : Reference} {ks vs : List Reference} (hl : s.Ledger arrays owned)
    (hr : s.content r = none) (hlive : r.isLive = true)
    (hcontent : s'.content = Function.update s.content r (some (.dict 0 0 k v)))
    (hcount : s'.count = Function.update s.count r 1) (hkfree : k ∈ arrays)
    (hvfree : v ∈ arrays.erase k) (hk : s.content k = some (.array ks))
    (hv : s.content v = some (.array vs)) (hpaired : vs.length = ks.length) :
    s'.Ledger ((arrays.erase k).erase v) (r :: owned) := by
  refine hl.make ⟨hcontent, hcount, nofun, nofun, fun n o p u hx => ?_⟩ hr hlive
    (fun q hq => .inr (List.mem_of_mem_erase (List.mem_of_mem_erase hq)))
    (fun q hq => (List.mem_cons.mp hq).imp_left fun heq => ⟨heq, nofun⟩) fun q hq => ?_
  · cases hx
    exact ⟨ks, vs, hk, hv, .of_blank (hl.blank hkfree hk)
      (hl.blank (List.mem_of_mem_erase hvfree) hv) hpaired⟩
  · have hkeys := count_erase_add (q := q) hkfree
    have hvalues := count_erase_add (q := q) hvfree
    have hheld : (Content.dict 0 0 k v).held.count q = [v].count q + [k].count q := count_owner
    rw [count_owner, hheld]
    omega

theorem discard (hl : s.Ledger arrays owned) (hv : s.content v = some (.array xs))
    (hfree : v ∈ arrays) (hcontent : s'.content = Function.update s.content v none)
    (hcount : s'.count = Function.update s.count v 0) : s'.Ledger (arrays.erase v) owned := by
  have hone := (hl.free ⟨xs, hv⟩ hfree).1
  have hrevised : s.Revised s' arrays [(v, none)] := by
    refine ⟨hcontent, fun {q x} hq => ?_, List.nodup_singleton _, ?_, ?_, ?_, ?_, ?_⟩
    · have hne : q ≠ v := by
        rintro rfl
        rw [hcontent, Function.update_self] at hq
        cases hq
      rw [hcount, Function.update_of_ne hne]
    · exact List.forall_mem_singleton.mpr ⟨_, hv, rfl, nofun⟩
    · exact List.forall_mem_singleton.mpr fun _ => .inl hfree
    · exact List.forall_mem_singleton.mpr nofun
    · exact List.forall_mem_singleton.mpr nofun
    · exact List.forall_mem_singleton.mpr nofun
  refine hl.revise hrevised hl.visible (fun r hr => ⟨List.mem_of_mem_erase hr, fun ys hmem => ?_⟩)
    fun q hq => ?_
  · cases List.mem_singleton.mp hmem
  · have hheld : (s.held v).count q = 0 := by
      rw [held_of_content hv, count_held_array hq]
      exact count_of_dead hq (hl.blank hfree hv).dead
    simp only [List.map_cons, List.map_nil, List.sum_cons, List.sum_nil, Option.elim, hheld,
      List.count_nil, hcount]
    by_cases hqv : q = v
    · subst hqv
      have hsingle := hl.single ⟨xs, hv⟩
      have hpos := hl.positive hv
      rw [Function.update_self, List.count_erase_self]
      omega
    · rw [Function.update_of_ne hqv, List.count_erase_of_ne hqv]

theorem setList (hl : s.Ledger arrays owned) (hr : s.content r = some (.list n v))
    (hv : s.content v = some (.array xs))
    (hcontent : s'.content = overwrite s.content [(r, some (.list m v)), (v, some (.array ys))])
    (hcount : s'.count = s.count) (hys : ∀ q ∈ ys, ¬s.IsArray q) (hfilled : Filled m ys)
    (hvisible : ∀ q ∈ owned', ¬s.IsArray q)
    (hbalance : ∀ q, q.isLive = true → owned'.count q + ys.count q = owned.count q + xs.count q) :
    s'.Ledger arrays owned' := by
  have hheld : v ∈ s.held r := mem_held_list hr
  have hne : v ≠ r := ne_of_content hv hr (by simp)
  have hself : s'.content v = some (.array ys) := by
    rw [hcontent, overwrite, Function.update_of_ne hne, overwrite, Function.update_self]
  refine hl.setContainer hr (by simp [Content.kind]) (y := .list m v) rfl rfl [(v, some ys)]
    hcontent (fun _ => by rw [hcount]) (List.nodup_singleton _) ?_ (fun n u hy => ?_) (by simp)
    hvisible (fun q hq => ⟨hq, ?_⟩) fun q hq => ?_
  · refine List.forall_mem_singleton.mpr ⟨⟨xs, hv⟩, .inr (List.mem_singleton.mpr rfl), ?_⟩
    rintro _ ⟨⟩
    exact hys
  · cases hy
    exact ⟨ys, hself, hfilled⟩
  · rw [List.map_singleton, List.mem_singleton]
    rintro rfl
    exact hl.not_mem_of_held ⟨xs, hv⟩ hheld hq
  · have hbal := hbalance q hq
    simp only [List.map_cons, List.map_nil, List.sum_cons, List.sum_nil, Option.getD,
      held_of_content hv, count_held_array hq, hcount]
    simp only [Content.held]
    omega

theorem moveList (hl : s.Ledger arrays owned) (hr : s.content r = some (.list n v))
    (hv : s.content v = some (.array xs)) (hg : s.content k = some (.array ks)) (hfree : k ∈ arrays)
    (hcontent : s'.content =
      overwrite s.content [(r, some (.list n k)), (v, none), (k, some (.array ys))])
    (hcount : s'.count = Function.update s.count v 0) (hys : ∀ q ∈ ys, ¬s.IsArray q)
    (hfilled : Filled n ys) (hbalance : ∀ q, q.isLive = true → ys.count q = xs.count q) :
    s'.Ledger (arrays.erase k) owned := by
  have hheld : v ∈ s.held r := mem_held_list hr
  have hnot : v ∉ arrays := hl.not_mem_of_held ⟨xs, hv⟩ hheld
  have hvr : v ≠ r := ne_of_content hv hr (by simp)
  have hkr : k ≠ r := ne_of_content hg hr (by simp)
  have hkv : k ≠ v := fun h => hnot (h ▸ hfree)
  have hgone : s'.content v = none := by
    rw [hcontent, overwrite, Function.update_of_ne hvr, overwrite, Function.update_self]
  have hself : s'.content k = some (.array ys) := by
    rw [hcontent, overwrite, Function.update_of_ne hkr, overwrite, Function.update_of_ne hkv,
      overwrite, Function.update_self]
  have hone := hl.count_eq_one hv
  refine hl.setContainer hr (by simp [Content.kind]) (y := .list n k) rfl rfl
    [(v, none), (k, some ys)] hcontent (fun {q z} hz => ?_) (by simp [hkv.symm]) ?_
    (fun m u hy => ?_) (by simp) hl.visible
    (fun q hq => ⟨List.mem_of_mem_erase hq, ?_⟩) fun q hq => ?_
  · have hne : q ≠ v := ne_of_none hz hgone
    rw [hcount, Function.update_of_ne hne]
  · rw [List.forall_mem_cons, List.forall_mem_singleton]
    refine ⟨⟨⟨xs, hv⟩, .inr (List.mem_singleton.mpr rfl), by simp⟩, ⟨ks, hg⟩, .inl hfree, ?_⟩
    rintro _ ⟨⟩
    exact hys
  · cases hy
    exact ⟨ys, hself, hfilled⟩
  · rw [List.map_cons, List.map_singleton, List.mem_pair]
    rintro (rfl | rfl)
    · exact hnot (List.mem_of_mem_erase hq)
    · exact hl.not_mem_erase ⟨ks, hg⟩ hfree hq
  · have hbal := hbalance q hq
    have harrays := count_erase_add (q := q) hfree
    have hcounts := count_update_zero (q := q) hone
    have hdead := count_of_dead hq (hl.blank hfree hg).dead
    simp only [List.map_cons, List.map_nil, List.sum_cons, List.sum_nil, Option.getD,
      held_of_content hv, held_of_content hg, count_held_array hq, hcount, List.count_nil]
    simp only [Content.held]
    omega

theorem setDict {ks' vs' : List Reference} (hl : s.Ledger arrays owned)
    (hr : s.content r = some (.dict n o k v)) (hk : s.content k = some (.array ks))
    (hv : s.content v = some (.array vs))
    (hcontent : s'.content = overwrite s.content
      [(r, some (.dict m o' k v)), (k, some (.array ks')), (v, some (.array vs'))])
    (hcount : s'.count = s.count) (hks : ∀ q ∈ ks', ¬s.IsArray q) (hvs : ∀ q ∈ vs', ¬s.IsArray q)
    (htabled : Tabled s.content m o' ks' vs') (hvisible : ∀ q ∈ owned', ¬s.IsArray q)
    (hbalance : ∀ q, q.isLive = true → owned'.count q + ks'.count q + vs'.count q =
      owned.count q + ks.count q + vs.count q) : s'.Ledger arrays owned' := by
  have hheld : s.held r = [v, k] := held_of_content hr
  have hkr : k ≠ r := ne_of_content hk hr (by simp)
  have hvr : v ≠ r := ne_of_content hv hr (by simp)
  have hkv : k ≠ v := hl.keys_ne_values hr hk
  have hkself : s'.content k = some (.array ks') := by
    rw [hcontent, overwrite, Function.update_of_ne hkr, overwrite, Function.update_self]
  have hvself : s'.content v = some (.array vs') := by
    rw [hcontent, overwrite, Function.update_of_ne hvr, overwrite, Function.update_of_ne hkv.symm,
      overwrite, Function.update_self]
  refine hl.setContainer hr (by simp [Content.kind]) (y := .dict m o' k v) rfl rfl
    [(k, some ks'), (v, some vs')] hcontent (fun _ => by rw [hcount]) (by simp [hkv]) ?_ (by simp)
    (fun n o k v hy => ?_) hvisible (fun q hq => ⟨hq, ?_⟩) fun q hq => ?_
  · rw [List.forall_mem_cons, List.forall_mem_singleton]
    refine ⟨⟨⟨ks, hk⟩, .inr (by simp [Content.held]), ?_⟩,
      ⟨vs, hv⟩, .inr (by simp [Content.held]), ?_⟩
    · rintro _ ⟨⟩
      exact hks
    · rintro _ ⟨⟩
      exact hvs
  · cases hy
    exact ⟨ks', vs', hkself, hvself, htabled⟩
  · rw [List.map_cons, List.map_singleton, List.mem_pair]
    rintro (rfl | rfl)
    · exact hl.not_mem_of_held ⟨ks, hk⟩ (r := r) (by simp [hheld]) hq
    · exact hl.not_mem_of_held ⟨vs, hv⟩ (r := r) (by simp [hheld]) hq
  · have hbal := hbalance q hq
    simp only [List.map_cons, List.map_nil, List.sum_cons, List.sum_nil, Option.getD,
      held_of_content hk, held_of_content hv, count_held_array hq, hcount]
    simp only [Content.held]
    omega

theorem moveDict {us ws nk nv : List Reference} (hl : s.Ledger arrays owned)
    (hr : s.content r = some (.dict n o k v)) (hk : s.content k = some (.array ks))
    (hv : s.content v = some (.array vs)) (hk' : s.content k' = some (.array us))
    (hv' : s.content v' = some (.array ws)) (hkfree : k' ∈ arrays) (hvfree : v' ∈ arrays)
    (hne : k' ≠ v')
    (hcontent : s'.content = overwrite s.content [(r, some (.dict m o' k' v')), (k, none),
      (v, none), (k', some (.array nk)), (v', some (.array nv))])
    (hcount : s'.count = Function.update (Function.update s.count k 0) v 0)
    (hnk : ∀ q ∈ nk, ¬s.IsArray q) (hnv : ∀ q ∈ nv, ¬s.IsArray q)
    (htabled : Tabled s.content m o' nk nv)
    (hbalance : ∀ q, q.isLive = true → nk.count q + nv.count q = ks.count q + vs.count q) :
    s'.Ledger ((arrays.erase k').erase v') owned := by
  have hheld : s.held r = [v, k] := held_of_content hr
  have hkr : k ≠ r := ne_of_content hk hr (by simp)
  have hvr : v ≠ r := ne_of_content hv hr (by simp)
  have hkr' : k' ≠ r := ne_of_content hk' hr (by simp)
  have hvr' : v' ≠ r := ne_of_content hv' hr (by simp)
  have hkv : k ≠ v := hl.keys_ne_values hr hk
  have hknot : k ∉ arrays := hl.not_mem_of_held ⟨ks, hk⟩ (r := r) (by simp [hheld])
  have hvnot : v ∉ arrays := hl.not_mem_of_held ⟨vs, hv⟩ (r := r) (by simp [hheld])
  have hkk : k' ≠ k := fun h => hknot (h ▸ hkfree)
  have hkv' : k' ≠ v := fun h => hvnot (h ▸ hkfree)
  have hvk : v' ≠ k := fun h => hknot (h ▸ hvfree)
  have hvv : v' ≠ v := fun h => hvnot (h ▸ hvfree)
  have hkgone : s'.content k = none := by
    rw [hcontent, overwrite, Function.update_of_ne hkr, overwrite, Function.update_self]
  have hvgone : s'.content v = none := by
    rw [hcontent, overwrite, Function.update_of_ne hvr, overwrite, Function.update_of_ne hkv.symm,
      overwrite, Function.update_self]
  have hkself : s'.content k' = some (.array nk) := by
    rw [hcontent, overwrite, Function.update_of_ne hkr', overwrite, Function.update_of_ne hkk,
      overwrite, Function.update_of_ne hkv', overwrite, Function.update_self]
  have hvself : s'.content v' = some (.array nv) := by
    rw [hcontent, overwrite, Function.update_of_ne hvr', overwrite, Function.update_of_ne hvk,
      overwrite, Function.update_of_ne hvv, overwrite, Function.update_of_ne hne.symm, overwrite,
      Function.update_self]
  have hkone := hl.count_eq_one hk
  have hvone : Function.update s.count k 0 v = 1 := by
    rw [Function.update_of_ne hkv.symm]
    exact hl.count_eq_one hv
  have hvmem : v' ∈ arrays.erase k' := (List.mem_erase_of_ne hne.symm).mpr hvfree
  refine hl.setContainer hr (by simp [Content.kind]) (y := .dict m o' k' v') rfl rfl
    [(k, none), (v, none), (k', some nk), (v', some nv)] hcontent (fun {q z} hz => ?_)
    (by simp [hkv, hkk.symm, hkv'.symm, hvk.symm, hvv.symm, hne]) ?_ (by simp)
    (fun n o k v hy => ?_) hl.visible
    (fun q hq => ⟨List.mem_of_mem_erase (List.mem_of_mem_erase hq), ?_⟩) fun q hq => ?_
  · have hqk : q ≠ k := ne_of_none hz hkgone
    have hqv : q ≠ v := ne_of_none hz hvgone
    rw [hcount, Function.update_of_ne hqv, Function.update_of_ne hqk]
  · simp only [List.mem_cons, List.not_mem_nil, or_false, forall_eq_or_imp, forall_eq]
    refine ⟨⟨⟨ks, hk⟩, .inr (by simp [Content.held]), by simp⟩,
      ⟨⟨vs, hv⟩, .inr (by simp [Content.held]), by simp⟩, ⟨⟨us, hk'⟩, .inl hkfree, ?_⟩,
      ⟨ws, hv'⟩, .inl hvfree, ?_⟩
    · rintro _ ⟨⟩
      exact hnk
    · rintro _ ⟨⟩
      exact hnv
  · cases hy
    exact ⟨nk, nv, hkself, hvself, htabled⟩
  · have hmem := List.mem_of_mem_erase hq
    simp only [List.map_cons, List.map_nil, List.mem_cons, List.not_mem_nil, or_false]
    rintro (rfl | rfl | rfl | rfl)
    · exact hknot (List.mem_of_mem_erase hmem)
    · exact hvnot (List.mem_of_mem_erase hmem)
    · exact hl.not_mem_erase ⟨us, hk'⟩ hkfree hmem
    · have hcount := (hl.free ⟨ws, hv'⟩ hvfree).1
      have hpos := List.count_pos_iff.mpr hq
      rw [List.count_erase_self, List.count_erase_of_ne hne.symm] at hpos
      omega
  · have hbal := hbalance q hq
    have harrays := count_erase_add (q := q) hkfree
    have harrays' := count_erase_add (q := q) hvmem
    have hcounts := count_update_zero (q := q) hkone
    have hcounts' := count_update_zero (q := q) hvone
    have hkdead := count_of_dead hq (hl.blank hkfree hk').dead
    have hvdead := count_of_dead hq (hl.blank hvfree hv').dead
    have hnew : (Content.dict m o' k' v').held.count q = [v'].count q + [k'].count q := count_owner
    have hold : (Content.dict n o k v).held.count q = [v].count q + [k].count q := count_owner
    simp only [List.map_cons, List.map_nil, List.sum_cons, List.sum_nil, Option.getD, hnew, hold,
      held_of_content hk, held_of_content hv, held_of_content hk', held_of_content hv',
      count_held_array hq, hcount, List.count_nil]
    omega

end Storage

end Ledger

end CountedHeap.Store
