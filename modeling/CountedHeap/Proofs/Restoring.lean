import CountedHeap.Proofs.Frames
import CountedHeap.Proofs.Survivors

/-!
What a failure leaves of a dict. The dict and its tables are all that an insertion changes, and
when the tables cannot grow before the key is in its slot, they are as they were: a table that has
grown has a free slot. A dict that is being made up is led to by nothing, so all that was new goes
with it.
-/

namespace CountedHeap

namespace Store

structure Around (s s' : Store) (dict : Reference) (taken : List Reference) : Prop where
  fresh : ∀ q ∈ s'.held dict, q ∈ s.held dict ∨ s.content q = none
  gone : ∀ q ∈ s.held dict, q ∈ s'.held dict ∨ s'.content q = none
  others : ∀ q, q ≠ dict → q ∉ s.held dict → q ∉ s'.held dict → s'.content q = s.content q
  count : ∀ q, s.content q ≠ none → q ∉ s.held dict → s'.count q = s.count q + taken.count q
  slots : ∀ t ∈ s'.held dict, ∀ q ∈ s'.held t, q ∈ taken ∨ ∃ t ∈ s.held dict, q ∈ s.held t

/-- A store in which something is being made up, beside what is kept: only arrays and the dict are
new, and nothing leads to the dict. -/
structure Within (s kept : Store) (dict : Reference) : Prop where
  values : ∀ {q x}, s.content q = some x → kept.content q = none → x.kind = .array ∨ q = dict
  loose : ∀ q, dict ∉ s.held q

variable {s s' s'' kept : Store} {dict q : Reference} {taken more arrays owned : List Reference}
  {n o : Nat} {k v : Reference}

theorem held_dict (hd : s.content dict = some (.dict n o k v)) : s.held dict = [v, k] :=
  held_of_content hd

namespace Around

theorem refl (s : Store) (dict : Reference) : Around s s dict [] where
  fresh _ hq := .inl hq
  gone _ hq := .inl hq
  others _ _ _ _ := rfl
  count _ _ _ := rfl
  slots t ht _ hq := .inr ⟨t, ht, hq⟩

theorem not_held (ha : Around s s' dict taken) (hq : s.content q ≠ none)
    (hold : q ∉ s.held dict) : q ∉ s'.held dict := fun hq' =>
  (ha.fresh q hq').elim hold hq

theorem elsewhere (ha : Around s s' dict taken) (hq : s.content q ≠ none) (hd : q ≠ dict)
    (hold : q ∉ s.held dict) : s'.content q = s.content q :=
  ha.others q hd hold (ha.not_held hq hold)

theorem trans (h₁ : Around s s' dict taken) (h₂ : Around s' s'' dict more)
    (hd : s'.content dict ≠ none) : Around s s'' dict (taken ++ more) where
  fresh q hq := by
    by_cases hold : q ∈ s.held dict
    · exact .inl hold
    by_cases hmid : q ∈ s'.held dict
    · exact h₁.fresh q hmid
    · have hnone := (h₂.fresh q hq).resolve_left hmid
      have hne : q ≠ dict := fun h => hd (h ▸ hnone)
      exact .inr (h₁.others q hne hold hmid ▸ hnone)
  gone q hq := by
    by_cases hnew : q ∈ s''.held dict
    · exact .inl hnew
    by_cases hmid : q ∈ s'.held dict
    · exact h₂.gone q hmid
    · have hnone := (h₁.gone q hq).resolve_left hmid
      have hne : q ≠ dict := fun h => hd (h ▸ hnone)
      exact .inr (h₂.others q hne hmid hnew ▸ hnone)
  others q hne hold hnew := by
    by_cases hmid : q ∈ s'.held dict
    · rw [(h₁.fresh q hmid).resolve_left hold, (h₂.gone q hmid).resolve_left hnew]
    · rw [h₂.others q hne hmid hnew, h₁.others q hne hold hmid]
  count q hq hold := by
    have hmid : s'.content q ≠ none := by
      by_cases hne : q = dict
      · exact hne ▸ hd
      · rwa [h₁.elsewhere hq hne hold]
    rw [h₂.count q hmid (h₁.not_held hq hold), h₁.count q hq hold, List.count_append, Nat.add_assoc]
  slots t ht q hq := by
    rcases h₂.slots t ht q hq with hmore | ⟨t', ht', hq'⟩
    · exact .inl (List.mem_append_right _ hmore)
    · exact (h₁.slots t' ht' q hq').imp_left (List.mem_append_left _)

theorem of_slots {n' o' : Nat} {ks vs us ws : List Reference}
    (hnodup : [dict, k, v].Nodup) (hd : s.content dict = some (.dict n o k v))
    (hk : s.content k = some (.array ks)) (hv : s.content v = some (.array vs))
    (hus : ∀ q ∈ us, q.isLive = true → q ∈ taken ∨ q ∈ ks)
    (hws : ∀ q ∈ ws, q.isLive = true → q ∈ taken ∨ q ∈ vs)
    (hcontent : s'.content = CountedHeap.overwrite s.content [(dict, some (.dict n' o' k v)),
      (k, some (.array us)), (v, some (.array ws))])
    (hcount : ∀ q, s'.count q = s.count q + taken.count q) : Around s s' dict taken := by
  have hd' : s'.content dict = some (.dict n' o' k v) := by
    rw [hcontent, CountedHeap.overwrite, Function.update_self]
  have hself : s'.held dict = s.held dict := by
    rw [held_dict hd, held_dict hd']
  have hmem : (List.map Prod.fst [(dict, some (Content.dict n' o' k v)),
    (k, some (.array us)), (v, some (.array ws))]).Nodup := hnodup
  have hk' : s'.held k = (Content.array us).held :=
    held_of_content (hcontent ▸ overwrite_of_mem hmem (e := (k, _)) (by simp))
  have hv' : s'.held v = (Content.array ws).held :=
    held_of_content (hcontent ▸ overwrite_of_mem hmem (e := (v, _)) (by simp))
  refine ⟨fun q hq => .inl (hself ▸ hq), fun q hq => .inl (hself ▸ hq), fun q hne hold _ => ?_,
    fun q _ _ => hcount q, fun t ht q hq => ?_⟩
  · rw [held_dict hd, List.mem_cons, List.mem_singleton, not_or] at hold
    rw [hcontent, overwrite_of_not_mem (by simp [hne, hold])]
  · rw [hself, held_dict hd, List.mem_cons, List.mem_singleton] at ht
    rw [held_dict hd]
    rcases ht with rfl | rfl
    · rw [hv', Content.held, List.mem_filter] at hq
      refine (hws q hq.1 hq.2).imp_right fun hq' => ⟨t, by simp, ?_⟩
      rw [held_of_content hv]
      exact List.mem_filter.mpr ⟨hq', hq.2⟩
    · rw [hk', Content.held, List.mem_filter] at hq
      refine (hus q hq.1 hq.2).imp_right fun hq' => ⟨t, by simp, ?_⟩
      rw [held_of_content hk]
      exact List.mem_filter.mpr ⟨hq', hq.2⟩

end Around

theorem Ledger.count_congr (hl : s.Ledger arrays owned) (hl' : s'.Ledger arrays owned)
    (hcontent : s'.content = s.content) : s'.count = s.count := by
  have hheld : s'.held = s.held := by
    funext q
    rw [held, held, hcontent]
  funext q
  cases hq : s.content q with
  | none => rw [count_of_content_none hq, count_of_content_none (hcontent ▸ hq)]
  | some x =>
    have hlive := hl.live hq
    rw [hl.count_eq hlive, hl'.count_eq hlive, hheld]

theorem Ledger.led_to (hl : s.Ledger arrays owned) (hk : kept.Ledger arrays owned)
    (hfewer : s.Fewer kept) {x : Content} (hq : s.content q = some x)
    (hnone : kept.content q = none) :
    ∃ p y, s.content p = some y ∧ kept.content p = none ∧ q ∈ y.held := by
  have hlive := hl.live hq
  have hcount := hl.count_eq hlive
  have hpos := hl.positive hq
  obtain ⟨harrays, howned, -⟩ := hk.unknown hnone hlive
  have hedge : ¬∀ r, r.isLive = true → q ∉ s.held r := fun h => by
    have hzero := edges.eq_zero h
    omega
  push Not at hedge
  obtain ⟨p, -, hp⟩ := hedge
  obtain ⟨y, hy, hmem⟩ := exists_of_held hp
  refine ⟨p, y, hy, ?_, hmem⟩
  by_contra hp₀
  obtain ⟨z, hz⟩ := Option.ne_none_iff_exists'.mp hp₀
  have heq := hfewer p z hz
  rw [hy, Option.some_inj] at heq
  exact hk.not_held hnone hlive p (held_of_content hz ▸ heq ▸ hmem)

theorem Ledger.within_new (hl : s.Ledger arrays owned) (hnone : s.content dict = none)
    (hlive : dict.isLive = true) {x : Content} (hx : dict ∉ x.held)
    (hcontent : s'.content = Function.update s.content dict (some x))
    (hnew : ∀ {q y}, s.content q = some y → kept.content q = none → y.kind = .array) :
    s'.Within kept dict := by
  refine ⟨fun {q y} hq hq₀ => ?_, fun q hq => ?_⟩
  · by_cases hne : q = dict
    · exact .inr hne
    · rw [hcontent, Function.update_of_ne hne] at hq
      exact .inl (hnew hq hq₀)
  · obtain ⟨y, hy, hmem⟩ := exists_of_held hq
    by_cases hne : q = dict
    · rw [hcontent, hne, Function.update_self, Option.some_inj] at hy
      exact hx (hy ▸ hmem)
    · rw [hcontent, Function.update_of_ne hne] at hy
      exact hl.not_held hnone hlive q (held_of_content hy ▸ hmem)

namespace Within

theorem less (hw : Within s kept dict) (hless : s.Fewer s') : Within s' kept dict where
  values hq hnone := hw.values (hless _ _ hq) hnone
  loose q hq := by
    obtain ⟨x, hx, hmem⟩ := exists_of_held hq
    exact hw.loose q (held_of_content (hless _ _ hx) ▸ hmem)

theorem around (hw : Within s kept dict) (ha : Around s s' dict taken)
    (hl' : s'.Ledger arrays owned) (hd' : s'.content dict = some (.dict n o k v))
    (htaken : dict ∉ taken) : Within s' kept dict := by
  obtain ⟨ks, vs, hk, hv, -⟩ := hl'.dicts hd'
  have htables : ∀ t ∈ s'.held dict, s'.IsArray t := fun t ht => by
    rw [held_dict hd', List.mem_cons, List.mem_singleton] at ht
    rcases ht with rfl | rfl
    exacts [⟨vs, hv⟩, ⟨ks, hk⟩]
  refine ⟨fun {q x} hq hnone => ?_, fun q hq => ?_⟩
  · by_cases hne : q = dict
    · exact .inr hne
    by_cases hnew : q ∈ s'.held dict
    · obtain ⟨xs, hxs⟩ := htables q hnew
      rw [hq] at hxs
      exact .inl (Option.some.inj hxs ▸ rfl)
    by_cases hold : q ∈ s.held dict
    · rw [(ha.gone q hold).resolve_left hnew] at hq
      cases hq
    · exact hw.values (ha.others q hne hold hnew ▸ hq) hnone
  · by_cases hne : q = dict
    · obtain ⟨xs, hxs⟩ := htables dict (hne ▸ hq)
      rw [hd'] at hxs
      cases hxs
    by_cases hnew : q ∈ s'.held dict
    · rcases ha.slots q hnew dict hq with h | ⟨t, -, ht⟩
      exacts [htaken h, hw.loose t ht]
    obtain ⟨x, hx, hmem⟩ := exists_of_held hq
    by_cases hold : q ∈ s.held dict
    · rw [(ha.gone q hold).resolve_left hnew] at hx
      cases hx
    · exact hw.loose q (held_of_content (ha.others q hne hold hnew ▸ hx) ▸ hmem)

theorem content_eq (hw : Within s kept dict) (hl : s.Ledger arrays owned)
    (hk : kept.Ledger arrays owned) (hfewer : s.Fewer kept) (hnone : kept.content dict = none) :
    s.content = kept.content := by
  have hdict : s.content dict = none := by
    by_contra h
    obtain ⟨x, hx⟩ := Option.ne_none_iff_exists'.mp h
    obtain ⟨p, y, hy, -, hmem⟩ := hl.led_to hk hfewer hx hnone
    exact hw.loose p (held_of_content hy ▸ hmem)
  funext q
  by_cases hq₀ : kept.content q = none
  · rw [hq₀]
    by_contra h
    obtain ⟨x, hx⟩ := Option.ne_none_iff_exists'.mp h
    obtain ⟨p, y, hy, hp₀, hmem⟩ := hl.led_to hk hfewer hx hq₀
    rcases hw.values hy hp₀ with hkind | rfl
    · cases y <;> cases hkind
      rcases hw.values hx hq₀ with hkind | rfl
      · cases x <;> cases hkind
        exact hl.plain hy (List.mem_filter.mp hmem).1 ⟨_, hx⟩
      · rw [hdict] at hx
        cases hx
    · rw [hdict] at hy
      cases hy
  · obtain ⟨x, hx⟩ := Option.ne_none_iff_exists'.mp hq₀
    rw [hx, hfewer q x hx]

end Within

end Store

namespace Heap

variable {h h' : Heap} {s s' kept : Store} {arrays owned : List Reference}
  {dict key value : Reference} {n o : Nat} {k v : Reference} {ks vs : List Reference} {x : Content}
  {hash : UInt64}

theorem Stored.unique (hs : h.Stored s) (hs' : h.Stored s') : s' = s := by
  funext q
  cases hq : s q with
  | none =>
    have hnone := hs.get?_eq_none hq
    rw [hs'.table, Option.map_eq_none_iff] at hnone
    exact hnone
  | some c =>
    obtain ⟨d, hd, haddr⟩ := hs'.get?_eq_some.mp (hs.get?_eq hq)
    have hcount : d.count = c.count := by
      rw [← hs'.count hd, haddr, hs.count hq]
    have hcontent : d.content = c.content := by
      have hc := hs.contents_eq_ok.mpr (Store.content_of hq)
      rw [hs'.contents_eq_ok, Store.content_of hd] at hc
      exact Option.some.inj hc
    rw [hd]
    cases c
    cases d
    simp_all

theorem Stored.refcount_of_content {r : Reference} (hs : h.Stored s) (hr : s.content r = some x) :
    h.refcount r = .ok (s.count r) := by
  obtain ⟨c, hc, -⟩ := Store.content_eq_some.mp hr
  rw [hs.refcount_eq hc, Store.count_eq hc]

theorem Stored.occupied_iff_content {r : Reference} (hs : h.Stored s) :
    h.Occupied r ↔ ∃ x, s.content r = some x := by
  rw [hs.occupied_iff, Store.content]
  cases s r <;> simp

namespace Regrown

variable {keys values : Reference} {us ws : List Reference}
  (hr : Regrown s s' dict n k v keys values ks vs us ws)
  (hd : s.content dict = some (.dict n o k v)) (hk : s.content k = some (.array ks))
  (hv : s.content v = some (.array vs))

include hr hd

include hk hv in
theorem around : s.Around s' dict [] := by
  obtain ⟨hd', hk', hv'⟩ := hr.standing
  have hmem : (List.map Prod.fst [(dict, some (Content.dict n n keys values)), (k, none),
    (v, none), (keys, some (.array us)), (values, some (.array ws))]).Nodup := hr.nodup
  refine ⟨fun q hq => ?_, fun q hq => ?_, fun q hne hold hnew => ?_, fun q hq hold => ?_,
    fun t ht q hq => ?_⟩
  · rw [Store.held_dict hd', List.mem_cons, List.mem_singleton] at hq
    exact .inr (hq.elim (· ▸ hr.unused.2) (· ▸ hr.unused.1))
  · rw [Store.held_dict hd, List.mem_cons, List.mem_singleton] at hq
    rw [hr.content]
    rcases hq with rfl | rfl
    · exact .inr (overwrite_of_mem hmem (e := (q, _)) (by simp))
    · exact .inr (overwrite_of_mem hmem (e := (q, _)) (by simp))
  · rw [Store.held_dict hd, List.mem_cons, List.mem_singleton, not_or] at hold
    rw [Store.held_dict hd', List.mem_cons, List.mem_singleton, not_or] at hnew
    rw [hr.content, overwrite_of_not_mem (by simp [hne, hold, hnew])]
  · rw [Store.held_dict hd, List.mem_cons, List.mem_singleton, not_or] at hold
    refine hr.count q ?_
    simp only [List.mem_cons, List.not_mem_nil, or_false, not_or]
    exact ⟨hold.2, hold.1, fun h => hq (h ▸ hr.unused.1), fun h => hq (h ▸ hr.unused.2)⟩
  · rw [Store.held_dict hd', List.mem_cons, List.mem_singleton] at ht
    rw [Store.held_dict hd]
    rcases ht with rfl | rfl
    · rw [Store.held_of_content hv', Content.held, List.mem_filter] at hq
      refine .inr ⟨v, by simp, ?_⟩
      rw [Store.held_of_content hv]
      exact List.mem_filter.mpr ⟨(hr.mem_old hq.2).2.mp hq.1, hq.2⟩
    · rw [Store.held_of_content hk', Content.held, List.mem_filter] at hq
      refine .inr ⟨k, by simp, ?_⟩
      rw [Store.held_of_content hk]
      exact List.mem_filter.mpr ⟨(hr.mem_old hq.2).1.mp hq.1, hq.2⟩

omit hd in
theorem roomy {minimum : Nat} (ht : Tabled s.content n o ks vs) (hmin : minimum ≠ 0)
    (hlength : us.length = max (ks.length * 2) minimum) : .null ∈ us := by
  have hold : ks.countP (·.isLive) ≤ ks.length := List.countP_le_length
  have hsize := ht.size_eq
  exact hr.tabled.null_mem (by omega)

end Regrown

def Restored (h : Heap) (s : Store) (h' : Heap) : Prop :=
  h'.Sound s ∧ Path ⟨h.Occupied, fun _ => False, True⟩ h h'

theorem Restored.refl (hs : h.Sound s) : Restored h s h := ⟨hs, .refl⟩

theorem dictGrow_restored (hs : h.Sound s) (hl : s.Ledger arrays owned) :
    (dictGrow dict).Ends h (fun _ _ => True)
      fun e h' => (∃ m, e = .outOfMemory m) ∧ Restored h s h' := by
  have hpath : (dictGrow dict).Ends h (fun _ _ => True)
      fun _ h' => Path ⟨h.Occupied, fun _ => False, True⟩ h h' := by
    simp only [dictGrow, Action.ends_bind, Action.ends_read, Action.ends_getFailure,
      Action.ends_liftFailure, Action.ends_ask, Action.ends_update, Action.ends_ofMemory]
    intro parts _ capacity _ room _
    refine ⟨fun entries _ => ?_, fun _ _ => .refl⟩
    exact (makeTables_traced hs (fun _ hq => hq) _).imp
      (fun _ _ _ _ _ _ _ _ _ _ _ _ _ _ _ => trivial) fun _ _ hp => hp
  exact ((dictGrow_regrows hs hl).and hpath).imp (fun _ _ _ => trivial)
    fun _ _ hb => ⟨hb.1.1, hb.1.2, hb.2⟩

section Inserting

variable (hx : s.content key = some x) (hn : x.hash? = some hash)
  (hd : s.content dict = some (.dict n o k v)) (hk : s.content k = some (.array ks))

include hx hn hd hk

theorem slotFor_settled (hs : h.Sound s) (hnull : .null ∈ ks) (attempts : Nat) :
    (slotFor dict hash key attempts).Ends h (fun _ h' => h' = h) fun _ _ => False := by
  cases attempts with
  | zero => simp only [slotFor, Action.ends_fault]
  | succ attempts =>
    refine slotFor_steps hs hx hn hd hk (fun _ _ => rfl) fun hfound => ?_
    rcases hfound _ hnull with ⟨h, -⟩ | ⟨h, -⟩
    · cases h
    · cases h

theorem slotFor_around (hs : h.Sound s) (hl : s.Ledger arrays owned)
    (hmin : h.config.dictMinCapacity ≠ 0) (attempts : Nat) :
    (slotFor dict hash key attempts).Ends h
      (fun _ h' => ∃ s', h'.Sound s' ∧ s.Around s' dict [])
      fun e h' => (∃ m, e = .outOfMemory m) ∧ Restored h s h' := by
  cases attempts with
  | zero => simp only [slotFor, Action.ends_fault]
  | succ attempts =>
    refine slotFor_steps hs hx hn hd hk (fun _ _ => ⟨s, hs, .refl s dict⟩) fun _ => ?_
    refine ((dictGrow_regrows hs hl).and (dictGrow_restored hs hl)).imp ?_ fun _ _ hb => hb.2
    rintro _ h₁ ⟨⟨s₁, hs₁, -, m, o', k', v', keys, values, ks', vs, us, ws, hd', hk', hv', hlength,
      hr⟩, -⟩
    cases hd.symm.trans hd'
    cases hk.symm.trans hk'
    obtain ⟨hself, hus, -⟩ := hr.standing
    have hnull := hr.roomy (hl.tabled hd hk hv') hmin hlength
    have hx₁ := hr.others_key hd hk hv' hx (by simp [hn])
    refine (slotFor_settled hx₁ hn hself hus hs₁ hnull attempts).imp ?_ fun _ _ hb => hb.elim
    rintro _ _ rfl
    exact ⟨s₁, hs₁, hr.around hd hk hv'⟩

theorem dictInsert_around (he : Editing h s kept arrays owned dict) (hvalue : Seen s value)
    (habsent : Absent s.content ks x) (hmin : h.config.dictMinCapacity ≠ 0) :
    (dictInsert dict hash key value).Ends h
      (fun _ h' => ∃ s', h'.Sound s' ∧ s.Around s' dict [key, value])
      fun e h' => (∃ m, e = .outOfMemory m) ∧ (Restored h s h' ∨
        ∃ s', Editing h' s' kept arrays owned dict ∧ s.Remaps s' dict (·.set x key value) ∧
          s.Around s' dict [key, value]) := by
  refine dictInsert_steps (((slotFor_ends he hx hn hd hk habsent maxGrowths).and
    (slotFor_around hx hn hd hk he.sound he.ledger hmin maxGrowths)).imp (fun _ _ hp => hp)
      fun _ _ hb => ⟨hb.2.1, .inl hb.2.2⟩) ?_
  rintro parts slot h₁ old h₂ capacity ⟨⟨s₁, us, he₁, hr, hmaps₁, hparts, hus, habsent₁, hfound⟩,
    s₁', hs₁', haround₁⟩ hget henter -
  obtain rfl := he₁.sound.unique hs₁'.toStored
  obtain ⟨s₂, vs, he₂, hmaps₂, hvs, hcontent₂, hcount₂⟩ := he₁.insert
    (hr.seen he.ledger hd hvalue) (hr.hashable hd hx hn) hn hparts hus habsent₁ hfound hget henter
  have hnodup : [dict, parts.keys, parts.values].Nodup := by
    simp [Store.ne_of_content hparts hus (by simp), Store.ne_of_content hparts hvs (by simp),
      he₁.ledger.keys_ne_values hparts hus]
  have hslots {xs : List Reference} {p : Reference} (hp : p ∈ [key, value]) (i : Nat) :
      ∀ q ∈ xs.set i p, q.isLive = true → q ∈ [key, value] ∨ q ∈ xs := fun q hq _ => by
    rcases List.mem_or_eq_of_mem_set hq with h | rfl
    exacts [.inr h, .inl hp]
  have haround₂ : s₁'.Around s₂ dict [key, value] :=
    .of_slots hnodup hparts hus hvs (hslots (by simp) slot) (hslots (by simp) slot) hcontent₂ hcount₂
  have haround : s.Around s₂ dict [key, value] := haround₁.trans haround₂ (by simp [hparts])
  have hd₂ : s₂.content dict ≠ none := by
    rw [hcontent₂, overwrite, Function.update_self]
    exact Option.some_ne_none _
  refine ⟨fun _ => (dictGrow_regrows he₂.sound he₂.ledger).imp ?_ ?_,
    fun _ => ⟨s₂, he₂.sound, haround⟩⟩
  · rintro _ h₈ ⟨s₃, hs₃, -, m, o', k', v', keys, values, ks', vs', us', ws', hd', hk', hv', -, hr'⟩
    exact ⟨s₃, hs₃, haround.trans (hr'.around hd' hk' hv') hd₂⟩
  · rintro e h₈ ⟨he, hs₃⟩
    exact ⟨he, .inr ⟨s₂, ⟨hs₃, he₂.ledger, he₂.fewer, he₂.unkept, he₂.tables⟩, hmaps₁.trans hmaps₂,
      haround⟩⟩

end Inserting

theorem dictSet_around (he : Editing h s kept arrays owned dict) (hvalue : Seen s value)
    (hmin : h.config.dictMinCapacity ≠ 0) :
    (dictSet dict key value).Ends h (fun _ _ => True)
      fun e h' => Restored h s h' ∨ (∃ m, e = .outOfMemory m) ∧ ∃ x s',
        s.content key = some x ∧ (∀ m, s.Maps dict m → m x = none) ∧
          Editing h' s' kept arrays owned dict ∧ s.Remaps s' dict (·.set x key value) ∧
            s.Around s' dict [key, value] := by
  refine dictSet_steps he.sound he.ledger (fun _ _ => .inl (.refl he.sound)) ?_
    fun _ _ _ _ _ _ _ _ => trivial
  rintro parts ks vs x hash ⟨hparts, hks, hvs, hx, hn⟩ habsent
  refine (dictInsert_around hx hn hparts hks he hvalue habsent hmin).imp (fun _ _ _ => trivial) ?_
  rintro e h' ⟨hmemory, hr | ⟨s', he', hmaps, haround⟩⟩
  · exact .inl hr
  · exact .inr ⟨hmemory, x, s', hx, fun m hm => (hm.tables hparts hks hvs).eq_none habsent, he',
      hmaps, haround⟩

theorem dictSet_within (he : Editing h s kept arrays owned dict)
    (hstands : Standing kept (arrays ++ owned)) (hvalue : Seen kept value)
    (hmin : h.config.dictMinCapacity ≠ 0) (hw : s.Within kept dict) :
    (dictSet dict key value).Ends h (fun _ h' => ∃ s', h'.Sound s' ∧ s'.Within kept dict)
      fun _ h' => ∃ s', h'.Sound s' ∧ s'.Within kept dict := by
  have hs := he.sound
  have hl := he.ledger
  have hseen := hvalue.mono he.fewer
  -- The value is one that was there before the dict was made.
  have hvd : value ≠ dict := by
    rintro rfl
    obtain ⟨x, hx, -⟩ := hvalue
    rw [he.unkept] at hx
    cases hx
  refine dictSet_steps hs hl (fun _ _ => ⟨s, hs, hw⟩) ?_ ?_
  · rintro parts ks vs x hash ⟨hparts, hks, hvs, hx, hn⟩ habsent
    have hkd : key ≠ dict := Store.ne_of_content hx hparts fun h => by
      rw [h] at hn
      cases hn
    have htaken : dict ∉ [key, value] := by simp [hkd.symm, hvd.symm]
    obtain ⟨m, hm⟩ := hl.exists_mapping hparts
    have haround := dictInsert_around hx hn hparts hks he hseen habsent hmin
    refine ((dictInsert_ends he hseen hx hn hparts hks habsent).and haround).imp ?_ ?_
    · rintro _ h' ⟨⟨s', he', hmaps⟩, s'', hs'', ha⟩
      obtain rfl := he'.sound.unique hs''.toStored
      obtain ⟨n', o', k', v', ks', vs', hd', -⟩ := hmaps m hm
      exact ⟨s'', hs'', hw.around ha he'.ledger hd' htaken⟩
    · rintro e h' ⟨-, -, ⟨hs', -⟩ | ⟨s', he', hmaps, ha⟩⟩
      · exact ⟨s, hs', hw⟩
      · obtain ⟨n', o', k', v', ks', vs', hd', -⟩ := hmaps m hm
        exact ⟨s', he'.sound, hw.around ha he'.ledger hd' htaken⟩
  · rintro parts ks vs x hash slot p old h₁ h₂ h₃ ⟨hparts, hks, hvs, -, -⟩ hp hplive - hold hret
      hset hrel
    obtain ⟨s₂, hs₂, hl₂, hcontent₂, hcount₂⟩ :=
      hs.replaceValue hl hseen hparts hks hvs hp hplive hold hret hset
    obtain ⟨s', hs', -, -, hless⟩ :=
      hs₂.release_ledger hl₂ (he.fewer.update (he.tables hparts).2 hcontent₂) hstands hrel
    have hdk := Store.ne_of_content hparts hks (by simp)
    have hdv := Store.ne_of_content hparts hvs (by simp)
    have hkv := hl.keys_ne_values hparts hks
    have hover : s₂.content = overwrite s.content [(dict, some (.dict parts.size parts.occupied
        parts.keys parts.values)), (parts.keys, some (.array ks)),
          (parts.values, some (.array (vs.set slot value)))] := by
      rw [← hparts, overwrite_self (by simp [hdk, hdv]), ← hks, overwrite_self (by simpa using hkv),
        hcontent₂]
      rfl
    have haround : s.Around s₂ dict [value] :=
      .of_slots (by simp [hdk, hdv, hkv]) hparts hks hvs (fun q hq _ => .inr hq) (fun q hq _ =>
        (List.mem_or_eq_of_mem_set hq).symm.imp (fun h => by simp [h]) id) hover hcount₂
    have hdict₂ : s₂.content dict = some (.dict parts.size parts.occupied parts.keys
        parts.values) := by
      rw [hcontent₂, Function.update_of_ne hdv, hparts]
    exact ⟨s', hs', (hw.around haround hl₂ hdict₂ (by simp [hvd.symm])).less hless⟩

section Making

variable {pairs : List (Reference × Reference)}

theorem setPairs_restored (he : Editing h s kept arrays (dict :: owned) dict)
    (hk : kept.Ledger arrays owned) (hseen : ∀ p ∈ pairs, Seen kept p.2)
    (hmin : h.config.dictMinCapacity ≠ 0) (hw : s.Within kept dict) :
    (pairs.forM fun p => (dictSet dict p.1 p.2).orUndo (·.release dict)).Ends h
      (fun _ h' => ∃ s', h'.Sound s' ∧ s'.Within kept dict)
      fun _ h' => ∃ s', h'.Sound s' ∧ s'.content = kept.content := by
  have hstands := standing_of_ledger hk
  have hstands' : Standing kept (arrays ++ dict :: owned) := hstands.mono fun q => by
    rw [List.count_append, List.count_append, Store.count_owner]
    omega
  induction pairs generalizing h s with
  | nil => exact Action.ends_pure.mpr ⟨s, he.sound, hw⟩
  | cons pair rest ih =>
    refine Action.ends_bind.mpr (Action.ends_orUndo.mpr ?_)
    have hvalue := hseen pair List.mem_cons_self
    have htraced : Traced ⟨fun _ => False, fun _ => False, True⟩ (dictSet dict pair.1 pair.2) h :=
      dictSet_traced False.elim (fun _ hf => hf.elim) he (hvalue.mono he.fewer)
    refine (((dictSet_ends he hstands' (hvalue.mono he.fewer)).and
      (dictSet_within he hstands' hvalue hmin hw)).and htraced).imp ?_ ?_
    · rintro _ h₁ ⟨⟨⟨s₁, he₁, -⟩, s₁', hs₁', hw₁⟩, hp⟩
      obtain rfl := he₁.sound.unique hs₁'.toStored
      have hmin₁ : h₁.config.dictMinCapacity ≠ 0 := by rwa [hp.config he.sound.consistent]
      exact ih he₁ (fun p hp => hseen p (List.mem_cons_of_mem _ hp)) hmin₁ hw₁
    · rintro e h₁ ⟨⟨hu, s₁', hs₁', hw₁⟩, -⟩ h₂ hrel
      obtain ⟨s₁, hs₁, hl₁, hfewer₁⟩ := he.balanced_unset hu
      obtain rfl := hs₁.unique hs₁'.toStored
      obtain ⟨s₂, hs₂, hl₂, hfewer₂, hless⟩ := hs₁.release_ledger hl₁ hfewer₁ hstands hrel
      exact ⟨s₂, hs₂, (hw₁.less hless).content_eq hl₂ hk hfewer₂ he.unkept⟩

theorem newDict_restored (hs : h.Sound s) (hl : s.Ledger arrays owned)
    (hseen : ∀ p ∈ pairs, Seen s p.2) (hmin : h.config.dictMinCapacity ≠ 0) :
    (newDict pairs).Ends h (fun r h' => ∃ s', h'.Sound s' ∧ s'.Within s r)
      fun _ h' => ∃ s', h'.Sound s' ∧ s'.content = s.content := by
  let sc : Scope := ⟨fun _ => False, fun _ => False, True⟩
  have hany : ∀ q, sc.fixed q → h.Occupied q := fun _ hf => hf.elim
  simp only [newDict, Action.ends_bind, Action.ends_getFailure, Action.ends_liftFailure,
    Action.ends_ofMemory, Action.ends_pure]
  intro room _
  refine ((makeTables_ends hs hl _).and (makeTables_traced hs hany _)).imp ?_
    fun _ _ hb => ⟨s, hb.1, rfl⟩
  rintro ⟨keys, values⟩ h₁ ⟨⟨s₁, hs₁, hl₁, hknone, hvnone, hne, hcontent₁, -⟩, hp₁, -⟩
  have ht₁ : Trail sc h s₁ h₁ := ⟨hp₁, hs₁.after⟩
  have hmake := Action.ends_orUndo.mp (overTables_ends hs₁ hl₁ hknone hvnone hne hcontent₁)
  refine Action.ends_orUndo.mpr ((hmake.and (ht₁.create (.dict _ _) hs₁ fun _ hf => hf.elim)).imp
    ?_ fun _ _ hb h₂ hrel => ?_)
  · rintro dict h₂ ⟨⟨s₂, he, hdnone, hlive, -, hcontent₂⟩, -, -, hp₂⟩
    have hmin₂ : h₂.config.dictMinCapacity ≠ 0 := by rwa [hp₂.config hs.consistent]
    have hw : s₂.Within s dict := by
      refine hl₁.within_new hdnone hlive ?_ hcontent₂ fun {q y} hq hq₀ => ?_
      · have hk₁ : s₁.content keys ≠ none := by
          rw [hcontent₁, overwrite, Function.update_self]
          exact Option.some_ne_none _
        have hv₁ : s₁.content values ≠ none := by
          rw [hcontent₁, overwrite, Function.update_of_ne hne.symm, overwrite, Function.update_self]
          exact Option.some_ne_none _
        simp only [Content.held, List.mem_cons, List.not_mem_nil, or_false, not_or]
        exact ⟨fun h => hv₁ (h ▸ hdnone), fun h => hk₁ (h ▸ hdnone)⟩
      · rw [hcontent₁] at hq
        simp only [overwrite, Function.update_apply] at hq
        split_ifs at hq
        · cases hq
          rfl
        · cases hq
          rfl
        · rw [hq₀] at hq
          cases hq
    exact setPairs_restored he hl hseen hmin₂ hw
  · obtain ⟨s', hs', -, hcontent'⟩ := hb.1 h₂ hrel
    exact ⟨s', hs', hcontent'⟩

theorem newList_restored (hs : h.Sound s) (elements : List Reference) :
    (newList elements).Ends h (fun _ _ => True) fun _ h' => h'.Sound s := by
  simp only [newList, Action.ends_bind, Action.ends_orUndo, Action.ends_update, Action.ends_pure]
  refine (hs.makeArray elements.length).imp (fun values h₁ hm => ?_) fun _ _ he => he ▸ hs
  obtain ⟨addr, hs₁⟩ := hm.sound
  refine (hs₁.makeList values).imp (fun _ _ _ _ _ _ _ => trivial) ?_
  rintro _ _ rfl h₂ hrel
  exact hm.releaseBlank (Store.held_of_dead (blank_replicate _).dead) hrel

end Making

end Heap

end CountedHeap
