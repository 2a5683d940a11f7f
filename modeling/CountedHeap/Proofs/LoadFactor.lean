import CountedHeap.Proofs.Failures

/-!
How full the tables of a dict become. A table grows as soon as half of its slots are in use, and one
growth is enough to have less than half of them in use again. The one exception are tables that begin
with a single slot: they are half full with two slots, and can be so with four.
-/

namespace CountedHeap

/-- So many of the slots of a table are in use, where no table has less room than the minimum. -/
structure LightLoad (minimum capacity occupied : Nat) : Prop where
  room : minimum ≤ capacity
  load : occupied * 2 < capacity ∨
    minimum = 1 ∧ (capacity = 2 ∨ capacity = 4) ∧ occupied * 2 = capacity

namespace LightLoad

variable {minimum capacity occupied size : Nat}

theorem start (hmin : minimum ≠ 0) (room : Nat) : LightLoad minimum (max room minimum) 0 :=
  ⟨le_max_right .., .inl (by omega)⟩

theorem occupied_lt (h : LightLoad minimum capacity occupied) (hmin : minimum ≠ 0) :
    occupied < capacity := by
  have hroom := h.room
  rcases h.load with hload | ⟨-, -, hload⟩ <;> omega

theorem lt_of_ne_one (h : LightLoad minimum capacity occupied) (hne : minimum ≠ 1) :
    occupied * 2 < capacity :=
  h.load.resolve_right fun hhalf => hne hhalf.1

theorem grow (h : LightLoad minimum capacity occupied) (hmin : minimum ≠ 0)
    (hsize : size ≤ occupied + 1) : LightLoad minimum (max (capacity * 2) minimum) size := by
  have hroom := h.room
  refine ⟨le_max_right .., ?_⟩
  rw [max_eq_left (by omega)]
  rcases h.load with hload | ⟨hone, hcapacity, hload⟩ <;> omega

end LightLoad

def Store.Light (s : Store) (minimum : Nat) (dict : Reference) : Prop :=
  ∀ n o k v ks, s.content dict = some (.dict n o k v) → s.content k = some (.array ks) →
    LightLoad minimum ks.length o

namespace Store

variable {s s' : Store} {arrays owned : List Reference} {minimum n o : Nat}
  {dict k v : Reference} {ks : List Reference}

theorem Light.of_content (h : LightLoad minimum ks.length o)
    (hd : s.content dict = some (.dict n o k v)) (hk : s.content k = some (.array ks)) :
    s.Light minimum dict := by
  intro n' o' k' v' ks' hd' hk'
  cases hd.symm.trans hd'
  cases hk.symm.trans hk'
  exact h

theorem Light.less (h : s.Light minimum dict) (hless : s.Fewer s') : s'.Light minimum dict :=
  fun _ _ _ _ _ hd hk => h _ _ _ _ _ (hless _ _ hd) (hless _ _ hk)

theorem content_slots {vs us ws : List Reference} {n' o' : Nat} (hl : s.Ledger arrays owned)
    (hd : s.content dict = some (.dict n o k v)) (hk : s.content k = some (.array ks))
    (hv : s.content v = some (.array vs))
    (hcontent : s'.content = overwrite s.content [(dict, some (.dict n' o' k v)),
      (k, some (.array us)), (v, some (.array ws))]) :
    s'.content dict = some (.dict n' o' k v) ∧ s'.content k = some (.array us) ∧
      s'.content v = some (.array ws) := by
  have hnodup : (List.map Prod.fst [(dict, some (Content.dict n' o' k v)), (k, some (.array us)),
      (v, some (.array ws))]).Nodup := by
    simp [ne_of_content hd hk (by simp), ne_of_content hd hv (by simp), hl.keys_ne_values hd hk]
  rw [hcontent]
  exact ⟨overwrite_of_mem hnodup (e := (dict, _)) (by simp),
    overwrite_of_mem hnodup (e := (k, _)) (by simp), overwrite_of_mem hnodup (e := (v, _)) (by simp)⟩

end Store

namespace Heap

def Light (h : Heap) (dict : Reference) : Prop :=
  ∃ s, h.Sound s ∧ s.Light h.config.dictMinCapacity dict

variable {h h' : Heap} {s kept : Store} {arrays owned : List Reference}
  {dict key value k v : Reference} {ks : List Reference} {x : Content} {hash : UInt64}
  {minimum n o : Nat}

theorem Light.store (hlight : h.Light dict) (hs : h.Sound s) :
    s.Light h.config.dictMinCapacity dict := by
  obtain ⟨t, ht, hlight⟩ := hlight
  rwa [hs.toStored.unique ht.toStored] at hlight

section Entries

variable (he : Editing h s kept arrays owned dict) (hconfig : h.config.dictMinCapacity = minimum)
  (hmin : minimum ≠ 0)

include he hconfig

theorem dictGrow_light (hd : s.content dict = some (.dict n o k v))
    (hk : s.content k = some (.array ks))
    (hgrow : LightLoad minimum (max (ks.length * 2) minimum) n) :
    (dictGrow dict).Ends h (fun _ h' => ∃ s', h'.Sound s' ∧ s'.Light minimum dict)
      fun e _ => ∃ m, e = .outOfMemory m := by
  refine (dictGrow_regrows he.sound he.ledger).imp ?_ fun _ _ hb => hb.1
  rintro _ h' ⟨s', hs', -, n', o', k', v', keys, values, ks', vs, us, ws, hd', hk', -, hlength, hr⟩
  cases hd.symm.trans hd'
  cases hk.symm.trans hk'
  obtain ⟨hself, hus, -⟩ := hr.standing
  rw [hconfig] at hlength
  exact ⟨s', hs', .of_content (hlength ▸ hgrow) hself hus⟩

include hmin

theorem dictInsert_light (hlight : s.Light minimum dict) (hvalue : Seen s value)
    (hx : s.content key = some x) (hn : x.hash? = some hash)
    (hd : s.content dict = some (.dict n o k v)) (hk : s.content k = some (.array ks))
    (habsent : Absent s.content ks x) :
    (dictInsert dict hash key value).Ends h
      (fun _ h' => ∃ s', h'.Sound s' ∧ s'.Light minimum dict) fun e _ => ∃ m, e = .outOfMemory m := by
  have hload := hlight _ _ _ _ _ hd hk
  obtain ⟨ks', vs, hks', -, htabled⟩ := he.ledger.dicts hd
  cases hk.symm.trans hks'
  have hnull := htabled.null_mem (hload.occupied_lt hmin)
  refine dictInsert_steps (((slotFor_ends he hx hn hd hk habsent maxGrowths).and
    (slotFor_settled hx hn hd hk he.sound hnull maxGrowths)).imp (fun _ _ hp => hp)
      fun _ _ hb => hb.2.elim) ?_
  rintro parts slot _ old h₂ capacity ⟨⟨s₁, us, he₁, -, -, hparts, hus, -, hfound⟩, rfl⟩ hget henter
    hcapacity
  obtain rfl := he₁.sound.toStored.unique he.sound.toStored
  cases hd.symm.trans hparts
  cases hk.symm.trans hus
  obtain ⟨s', vs', he', -, hvs', hcontent, -⟩ :=
    he.insert hvalue hx hn hd hk habsent hfound hget henter
  obtain ⟨hd', hk', hv'⟩ := Store.content_slots he.ledger hd hk hvs' hcontent
  have hsize' := (he'.ledger.tabled hd' hk' hv').size_le
  have hfresh : old.isNull.toNat ≤ 1 := Bool.toNat_le _
  obtain ⟨us, hus, rfl⟩ := he'.sound.arrayCapacity_eq_ok.mp hcapacity
  cases hk'.symm.trans hus
  have ht : Trail ⟨fun _ => False, fun _ => False, True⟩ _ s _ := .start he.sound
  have hdone := ht.enter id (kind_of_content hd) id id henter
  rw [← hdone.path.config he.sound.consistent] at hconfig
  refine ⟨fun _ => dictGrow_light he' hconfig hd' hk' ?_, fun hlt => ⟨s', he'.sound,
    .of_content ⟨?_, .inl (not_le.mp hlt)⟩ hd' hk'⟩⟩
  · rw [List.length_set]
    exact hload.grow hmin (by omega)
  · rw [List.length_set]
    exact hload.room

theorem dictSet_light (hlight : s.Light minimum dict) (hstands : Standing kept (arrays ++ owned))
    (hvalue : Seen s value) :
    (dictSet dict key value).Ends h (fun _ h' => ∃ s', h'.Sound s' ∧ s'.Light minimum dict)
      fun e h' => (∃ m, e = .outOfMemory m) ∨ h' = h := by
  have hs := he.sound
  have hl := he.ledger
  refine dictSet_steps hs hl (fun _ _ => .inr rfl) ?_ ?_
  · rintro parts ks vs x hash ⟨hparts, hks, -, hx, hn⟩ habsent
    exact (dictInsert_light he hconfig hmin hlight hvalue hx hn hparts hks habsent).imp
      (fun _ _ hg => hg) fun _ _ hb => .inl hb
  · rintro parts ks vs x hash slot p old h₁ h₂ h₃ ⟨hparts, hks, hvs, -, -⟩ hp hlive - hold hret hset
      hrel
    obtain ⟨s₂, hs₂, hl₂, hcontent₂, -⟩ :=
      hs.replaceValue hl hvalue hparts hks hvs hp hlive hold hret hset
    obtain ⟨s', hs', -, -, hless⟩ :=
      hs₂.release_ledger hl₂ (he.fewer.update (he.tables hparts).2 hcontent₂) hstands hrel
    have hd₂ : s₂.content dict = s.content dict := by
      rw [hcontent₂, Function.update_of_ne (Store.ne_of_content hparts hvs (by simp))]
    have hk₂ : s₂.content parts.keys = s.content parts.keys := by
      rw [hcontent₂, Function.update_of_ne (hl.keys_ne_values hparts hks)]
    have hload := hlight _ _ _ _ _ hparts hks
    exact ⟨s', hs', Store.Light.less (.of_content hload (hd₂.trans hparts) (hk₂.trans hks)) hless⟩

end Entries

theorem dictDelete_light (hs : h.Sound s) (hl : s.Ledger arrays owned)
    (hlight : s.Light minimum dict) :
    (dictDelete dict key).Ends h (fun _ h' => ∃ s', h'.Sound s' ∧ s'.Light minimum dict)
      fun _ h' => h' = h := by
  refine dictDelete_steps hs (fun _ _ => rfl) rfl ?_
  rintro parts ks vs x hash slot p old h₁ h₂ h₃ h₄ h₅ ⟨hparts, hks, hvs, -, -⟩ hkey hlive - hvalue
    hone hset hset' hstore hrel hrel'
  have hload := hlight _ _ _ _ _ hparts hks
  rw [← Nat.sub_add_cancel hone] at hparts
  obtain ⟨s₃, hs₃, hl₃, hover⟩ :=
    hs.removeEntry hl hparts hks hvs hkey hlive hvalue hset hset' hstore
  obtain ⟨hd₃, hk₃, -⟩ := Store.content_slots hl hparts hks hvs hover
  have hnothing : Anchored s₃ (fun _ => none) (old :: owned) := .nothing
  obtain ⟨s₄, hs₄, hl₄, -, hless₄⟩ :=
    hs₃.release_ledger hl₃ hnothing.fewer hnothing.standing hrel
  have hnothing₄ : Anchored s₄ (fun _ => none) owned := .nothing
  obtain ⟨s₅, hs₅, -, -, hless₅⟩ :=
    hs₄.release_ledger hl₄ hnothing₄.fewer hnothing₄.standing hrel'
  refine ⟨s₅, hs₅, Store.Light.less (.of_content ?_ hd₃ hk₃) (hless₄.trans hless₅)⟩
  rwa [List.length_set]

section Making

variable {pairs : List (Reference × Reference)} (hmin : minimum ≠ 0)

include hmin

theorem setPairs_light (he : Editing h s kept arrays (dict :: owned) dict)
    (hconfig : h.config.dictMinCapacity = minimum) (hstands : Standing kept (arrays ++ owned))
    (hseen : ∀ p ∈ pairs, Seen kept p.2) (hlight : s.Light minimum dict) :
    (pairs.forM fun p => (dictSet dict p.1 p.2).orUndo (·.release dict)).Ends h
      (fun _ h' => ∃ s', h'.Sound s' ∧ s'.Light minimum dict) fun _ _ => True := by
  have hstands' : Standing kept (arrays ++ dict :: owned) := hstands.mono fun q => by
    rw [List.count_append, List.count_append, Store.count_owner]
    omega
  induction pairs generalizing h s with
  | nil => exact Action.ends_pure.mpr ⟨s, he.sound, hlight⟩
  | cons pair rest ih =>
    refine Action.ends_bind.mpr (Action.ends_orUndo.mpr ?_)
    have hvalue := (hseen pair List.mem_cons_self).mono he.fewer
    have htraced : Traced ⟨fun _ => False, fun _ => False, True⟩ (dictSet dict pair.1 pair.2) h :=
      dictSet_traced False.elim (fun _ hf => hf.elim) he hvalue
    refine (((dictSet_ends he hstands' hvalue).and
      (dictSet_light he hconfig hmin hlight hstands' hvalue)).and htraced).imp ?_
        fun _ _ _ _ _ => trivial
    rintro _ h₁ ⟨⟨⟨s₁, he₁, -⟩, s₁', hs₁', hlight₁⟩, hp⟩
    obtain rfl := he₁.sound.toStored.unique hs₁'.toStored
    rw [← hp.config he.sound.consistent] at hconfig
    exact ih he₁ hconfig (fun p hpm => hseen p (List.mem_cons_of_mem _ hpm)) hlight₁

theorem newDict_light (hs : h.Sound s) (hl : s.Ledger arrays owned)
    (hconfig : h.config.dictMinCapacity = minimum) (hseen : ∀ p ∈ pairs, Seen s p.2) :
    (newDict pairs).Ends h (fun r h' => ∃ s', h'.Sound s' ∧ s'.Light minimum r)
      fun _ _ => True := by
  let sc : Scope := ⟨fun _ => False, fun _ => False, True⟩
  have hany : ∀ q, sc.fixed q → h.Occupied q := fun _ hf => hf.elim
  simp only [newDict, Action.ends_bind, Action.ends_getFailure, Action.ends_liftFailure,
    Action.ends_ofMemory, Action.ends_pure]
  intro room _
  rw [hconfig]
  refine ((makeTables_ends hs hl _).and (makeTables_traced hs hany _)).imp ?_ fun _ _ _ => trivial
  rintro ⟨keys, values⟩ h₁ ⟨⟨s₁, hs₁, hl₁, hknone, hvnone, hne, hcontent₁, -⟩, hp₁, -⟩
  have ht₁ : Trail sc h s₁ h₁ := ⟨hp₁, hs₁.after⟩
  have hmake := Action.ends_orUndo.mp (overTables_ends hs₁ hl₁ hknone hvnone hne hcontent₁)
  refine Action.ends_orUndo.mpr ((hmake.and (ht₁.create (.dict _ _) hs₁ fun _ hf => hf.elim)).imp
    ?_ fun _ _ _ _ _ => trivial)
  rintro dict h₂ ⟨⟨s₂, he, hdnone, -, -, hcontent₂⟩, -, -, hp₂⟩
  rw [← hp₂.config hs.consistent] at hconfig
  refine setPairs_light hmin he hconfig (standing_of_ledger hl) hseen ?_
  have hkeys := (content_tables hne hcontent₁).1
  have hd₂ : s₂.content dict = some (.dict 0 0 keys values) := by
    rw [hcontent₂, Function.update_self]
  have hk₂ : s₂.content keys = some (.array (.replicate (max room minimum) .null)) := by
    rw [hcontent₂, Function.update_of_ne (Store.ne_of_none hkeys hdnone), hkeys]
  refine .of_content ?_ hd₂ hk₂
  rw [List.length_replicate]
  exact .start hmin room

end Making

end Heap

namespace Client

open Heap

variable {c c' c₀ : Client} {q : Request} {qs : List Request} {d : Reference}

def starves (c : Client) (q : Request) : Bool :=
  match (c.attempt (.request q)).runOn c.heap with
  | .ok (.error (.outOfMemory _), _) => true
  | _ => false

/-- Requests that are allowed to a client that sees a value, and do not change it for want of
memory. -/
def feeds (d : Reference) (c : Client) (q : Request) : Bool :=
  holds d c q && !(q.target == some d && c.starves q)

theorem starves_of_runOn {m : OutOfMemory} {h' : Heap}
    (hrun : (c.attempt (.request q)).runOn c.heap = .ok (.error (.outOfMemory m), h')) :
    c.starves q = true := by
  rw [starves, hrun]

theorem Accounted.light_kept {m : Mapping} (hc : c.Accounted) (hm : c.heap.Maps d m)
    (hmin : c.heap.config.dictMinCapacity ≠ 0) (hlight : c.heap.Light d) (hq : feeds d c q = true)
    (hserve : c.serve q = .ok (some c')) (hsees : c'.sees d = true) : c'.heap.Light d := by
  obtain ⟨hholds, hfed⟩ := Bool.and_eq_true_iff.mp hq
  have hallowed := (Bool.and_eq_true_iff.mp hholds).2
  obtain ⟨s, hs, hl, -⟩ := hc.balanced
  obtain ⟨s', hs', -⟩ := (hc.serve hallowed hserve).balanced
  obtain ⟨n, o, k, v, ks, vs, hdict, hk, -⟩ := hm.store hs
  have hload := hlight.store hs
  have hconfig := hc.config_eq hallowed hserve
  rw [Heap.Light, hconfig]
  have hrich (ht : q.target = some d) {a : Except Failure Unit} {h' : Heap}
      (hrun : (c.attempt (.request q)).runOn c.heap = .ok (a, h')) :
      ∀ m, a ≠ .error (.outOfMemory m) := by
    rintro m rfl
    rw [ht, starves_of_runOn hrun] at hfed
    simp at hfed
  cases edits_of_serve hs.toStored hdict hallowed hserve with
  | @set _ _ _ a hset _ hvalue hrun =>
    have hmemory : ∀ m, a ≠ .error (.outOfMemory m) := by
      rcases hset with rfl | rfl
      · exact hrich rfl hrun
      · exact hrich rfl ((hs.assignItem_dict hdict).trans hrun)
    have hnothing : Anchored s (fun _ => none) (c.held ++ c.globals.references) := .nothing
    have hends := dictSet_light (hs.editing hl hnothing hdict) rfl hmin hload hnothing.standing
      (seen_of_sees hs hvalue) a _ hrun
    cases a with
    | ok _ => exact hends
    | error e =>
      rcases hends with ⟨m, rfl⟩ | heq
      · exact absurd rfl (hmemory m)
      · exact ⟨s, heq ▸ hs, hload⟩
  | @delete _ _ a hdelete hrun =>
    have hends := dictDelete_light hs hl hload a _ hrun
    cases a with
    | ok _ => exact hends
    | error e => exact ⟨s, hends ▸ hs, hload⟩
  | collect hrun =>
    obtain ⟨t, hcollected⟩ := (hs.collect _).good hrun
    exact ⟨t, hcollected.sound, hload.less hcollected.fewer⟩
  | elsewhere hcollect hd =>
    obtain ⟨hself, hkeys, -⟩ := hc.dict_elsewhere hs hs' hallowed hcollect hserve hdict hsees hd
    exact ⟨s', hs', .of_content (hload _ _ _ _ _ hdict hk) (hself.trans hdict) (hkeys.trans hk)⟩

theorem Accounted.stays_light {m : Mapping} (hc : c.Accounted) (hm : c.heap.Maps d m)
    (hmin : c.heap.config.dictMinCapacity ≠ 0) (hlight : c.heap.Light d)
    (hplay : c.play (feeds d) qs = some c') (hsees : c'.sees d = true) :
    c'.heap.Light d ∧ c'.heap.config = c.heap.config ∧ ∃ m, c'.heap.Maps d m := by
  induction qs generalizing c m with
  | nil =>
    cases hplay
    exact ⟨hlight, rfl, m, hm⟩
  | cons q rest ih =>
    obtain ⟨hq, c₁, hserve, hrest⟩ := play_cons hplay
    have hallowed := (Bool.and_eq_true_iff.mp (Bool.and_eq_true_iff.mp hq).1).2
    have hc₁ := hc.serve hallowed hserve
    have hconfig := hc.config_eq hallowed hserve
    have hsees₁ : c₁.sees d = true :=
      sees_of_play (play_of_imp (fun c q hq => (Bool.and_eq_true_iff.mp hq).1) hrest) hsees
    obtain ⟨m₁, -, hm₁⟩ := hc.remaps hm hallowed hserve hsees₁
    rw [← hconfig]
    exact ih hc₁ hm₁ (hconfig ▸ hmin) (hc.light_kept hm hmin hlight hq hserve hsees₁) hrest

theorem Run.new_light {pairs : List (Reference × Reference)} (hrun : Run allows c)
    (hq : c.allows (.newDict pairs) = true) (hserve : c.serve (.newDict pairs) = .ok (some c₀))
    (hheld : c₀.held = d :: c.held) : c₀.heap.Light d := by
  have hc := hrun.accounted
  obtain ⟨s, hs, hl, -⟩ := hc.balanced
  have hseen (p : Reference × Reference) (hp : p ∈ pairs) : Seen s p.2 :=
    seen_of_sees hs (Bool.and_eq_true_iff.mp (List.all_eq_true.mp hq p hp)).2
  rw [Heap.Light, hc.config_eq hq hserve]
  simp only [Client.serve, map_eq_ok, Option.some_inj, exists_eq_right] at hserve
  refine after_ends (P := fun c₀ => c₀.held = d :: c.held → ∃ s, c₀.heap.Sound s ∧ s.Light _ d)
    ((newDict_light hrun.dictMinCapacity_ne_zero hs hl rfl hseen).imp (fun r h' hlight hheld => ?_)
      fun _ h' _ hheld => absurd hheld.symm (List.cons_ne_self d c.held)) hserve hheld
  rwa [← (List.cons_eq_cons.mp hheld).1]

/-- A dict has more than half of its slots empty from when it is made for as long as the client
keeps it and it does not run out of memory, unless its tables may begin with a single slot. -/
theorem Run.dict_light {pairs : List (Reference × Reference)} (hrun : Run allows c)
    (hq : c.allows (.newDict pairs) = true) (hserve : c.serve (.newDict pairs) = .ok (some c₀))
    (hheld : c₀.held = d :: c.held) (hplay : c₀.play (feeds d) qs = some c')
    (hsees : c'.sees d = true) :
    ∃ p ks, c'.heap.dictParts d = .ok p ∧ c'.heap.contents p.keys = .ok (.array ks) ∧
      p.occupied + ks.count .null = ks.length ∧
        LightLoad c.heap.config.dictMinCapacity ks.length p.occupied ∧
          (c.heap.config.dictMinCapacity ≠ 1 → p.occupied * 2 < ks.length) := by
  have hc := hrun.accounted
  have hc₀ := hc.serve hq hserve
  have hconfig := hc.config_eq hq hserve
  have hbuilt := hc.builds hq hserve ⟨hheld, rfl⟩
  obtain ⟨hlight, hconfig', m, hm⟩ := hc₀.stays_light hbuilt
    (hconfig ▸ hrun.dictMinCapacity_ne_zero) (hrun.new_light hq hserve hheld) hplay hsees
  have hallows (c : Client) (q : Request) (hq : feeds d c q = true) : allows c q = true :=
    (Bool.and_eq_true_iff.mp (Bool.and_eq_true_iff.mp hq).1).2
  obtain ⟨s, hs, hl, -⟩ :=
    ((hrun.step hq hserve).play (play_of_imp hallows hplay)).accounted.balanced
  obtain ⟨n, o, k, v, ks, vs, hdict, hk, hv, -⟩ := hm.store hs
  have hload := hlight.store hs _ _ _ _ _ hdict hk
  rw [hconfig', hconfig] at hload
  exact ⟨⟨n, o, k, v⟩, ks, hs.dictParts_eq_ok.mpr hdict, hs.contents_eq_ok.mpr hk,
    (hl.tabled hdict hk hv).occupied_add_count, hload, hload.lt_of_ne_one⟩

def narrow : Option Client :=
  session allows { poolSize := 496, poison := false, dictMinCapacity := 1 } [.makeInteger 1]

def narrowEdits : List Request := [.dictSet (.ofIndex 3) (.ofIndex 0) (.ofIndex 0)]

theorem narrow_edited : ∃ c c₀ c' p, narrow = some c ∧ c.allows (.newDict []) = true ∧
    c.serve (.newDict []) = .ok (some c₀) ∧ c₀.held = .ofIndex 3 :: c.held ∧
      c₀.play (feeds (.ofIndex 3)) narrowEdits = some c' ∧ c'.sees (.ofIndex 3) = true ∧
        c'.heap.dictParts (.ofIndex 3) = .ok p ∧ p.occupied = 1 ∧
          c'.heap.arrayCapacity p.keys = .ok 2 := by
  have hall : (narrow.any fun c => (c.play allows [.newDict []]).any fun c₀ =>
      c₀.held == .ofIndex 3 :: c.held && (c₀.play (feeds (.ofIndex 3)) narrowEdits).any fun c' =>
        c'.sees (.ofIndex 3) && (c'.heap.dictParts (.ofIndex 3)).toOption.any fun p =>
          p.occupied == 1 && (c'.heap.arrayCapacity p.keys).toOption == some 2) = true := by
    decide +kernel
  obtain ⟨c, hc, hall⟩ := (Option.any_eq_true ..).mp hall
  obtain ⟨c₀, hplay₀, hall⟩ := (Option.any_eq_true ..).mp hall
  obtain ⟨hheld, hall⟩ := Bool.and_eq_true_iff.mp hall
  obtain ⟨c', hplay, hall⟩ := (Option.any_eq_true ..).mp hall
  obtain ⟨hsees, hall⟩ := Bool.and_eq_true_iff.mp hall
  obtain ⟨p, hp, hall⟩ := (Option.any_eq_true ..).mp hall
  obtain ⟨hoccupied, hcapacity⟩ := Bool.and_eq_true_iff.mp hall
  obtain ⟨hq, _, hserve, hdone⟩ := play_cons hplay₀
  cases hdone
  exact ⟨c, c₀, c', p, hc, hq, hserve, eq_of_beq hheld, hplay, hsees, toOption_eq_some.mp hp,
    eq_of_beq hoccupied, eq_ok_of_toOption hcapacity⟩

/-- With its first entry such a dict has two slots, and half of them are empty. -/
theorem narrow_half_full : ∃ c c₀ c' p, narrow = some c ∧ c.serve (.newDict []) = .ok (some c₀) ∧
    c₀.play (feeds (.ofIndex 3)) narrowEdits = some c' ∧ c'.heap.dictParts (.ofIndex 3) = .ok p ∧
      c'.heap.arrayCapacity p.keys = .ok 2 ∧ ¬p.occupied * 2 < 2 := by
  obtain ⟨c, c₀, c', p, hc, -, hserve, -, hplay, -, hp, hoccupied, hcapacity⟩ := narrow_edited
  exact ⟨c, c₀, c', p, hc, hserve, hplay, hp, hcapacity, by omega⟩

theorem narrow_light : ∃ c c₀ c', narrow = some c ∧ c.serve (.newDict []) = .ok (some c₀) ∧
    c₀.play (feeds (.ofIndex 3)) narrowEdits = some c' ∧
      ∃ p ks, c'.heap.dictParts (.ofIndex 3) = .ok p ∧ c'.heap.contents p.keys = .ok (.array ks) ∧
        p.occupied + ks.count .null = ks.length ∧
          LightLoad c.heap.config.dictMinCapacity ks.length p.occupied ∧
            (c.heap.config.dictMinCapacity ≠ 1 → p.occupied * 2 < ks.length) := by
  obtain ⟨c, c₀, c', p, hc, hq, hserve, hheld, hplay, hsees, -⟩ := narrow_edited
  exact ⟨c, c₀, c', hc, hserve, hplay, (Run.session hc).dict_light hq hserve hheld hplay hsees⟩

end Client

end CountedHeap
