import CountedHeap.Proofs.Accounts

/-!
The ledger of lists. Moving elements between slots leaves their counts alone and is complete only
at its end, so it is followed slot by slot and entered in one step.
-/

namespace CountedHeap

theorem Filled.shift {n index : Nat} {xs ys : List Reference} (h : Filled n xs) (hi : index < n)
    (hys : ∀ i, ys[i]? = if index ≤ i ∧ i < n - 1 then xs[i + 1]? else xs[i]?) :
    Filled (n - 1) (ys.set (n - 1) .null) := by
  have hfits := h.fits
  have hlast : ys[n - 1]? = xs[n - 1]? := (hys (n - 1)).trans (if_neg (by omega))
  have hlt := (List.getElem?_eq_some_iff.mp
    (hlast.trans (List.getElem?_eq_getElem (by omega)))).1
  refine ⟨by rw [List.length_set]; omega, fun q hq => ?_, fun q hq => ?_⟩
  · rw [List.take_set_of_le (Nat.le_refl _)] at hq
    obtain ⟨i, hq⟩ := List.mem_iff_getElem?.mp hq
    rw [List.getElem?_take] at hq
    split_ifs at hq with hin
    have hlive : ∀ j < n, xs[j]? = some q → q.isLive = true := fun j hj hq =>
      h.live q (List.mem_iff_getElem?.mpr ⟨j, by rw [List.getElem?_take, if_pos hj, hq]⟩)
    rw [hys i] at hq
    split_ifs at hq
    · exact hlive (i + 1) (by omega) hq
    · exact hlive i (by omega) hq
  · -- Behind the last element stands the empty slot, and then what stood there before.
    obtain ⟨j, hj⟩ := List.mem_iff_getElem?.mp hq
    rw [List.getElem?_drop] at hj
    rcases getElem?_set_some hj with ⟨-, rfl⟩ | ⟨hjne, hj⟩
    · rfl
    · rw [hys, if_neg (by omega)] at hj
      refine h.blank q (List.mem_iff_getElem?.mpr ⟨j - 1, ?_⟩)
      rw [List.getElem?_drop, ← hj]
      congr 1
      omega

theorem take_of_shift {n index : Nat} {xs ys : List Reference} (hi : index < n)
    (hys : ∀ i, ys[i]? = if index ≤ i ∧ i < n - 1 then xs[i + 1]? else xs[i]?) :
    ys.take (n - 1) = (xs.take n).eraseIdx index := by
  refine List.ext_getElem? fun i => ?_
  rw [List.getElem?_take, List.getElem?_eraseIdx, List.getElem?_take, List.getElem?_take, hys]
  split_ifs <;> first | rfl | omega

namespace Store.Ledger

variable {s s' : Store} {arrays owned : List Reference} {r v item old : Reference} {n i : Nat}
  {xs : List Reference}

theorem replaceElement (hl : s.Ledger arrays (item :: owned))
    (hr : s.content r = some (.list n v)) (hv : s.content v = some (.array xs)) (hin : i < n)
    (hi : xs[i]? = some old) (hlive : item.isLive = true)
    (hcontent : s'.content = Function.update s.content v (some (.array (xs.set i item))))
    (hcount : s'.count = s.count) : s'.Ledger arrays (old :: owned) := by
  have hself : s'.content = overwrite s.content
      [(r, some (.list n v)), (v, some (.array (xs.set i item)))] := by
    have hne : r ∉ [(v, some (Content.array (xs.set i item)))].map Prod.fst := by
      rw [List.map_singleton, List.mem_singleton]
      exact ne_of_content hr hv (by simp)
    rw [← hr, overwrite_self hne, hcontent]
    rfl
  refine hl.setList hr hv hself hcount (fun q hq => ?_) ((hl.filled hr hv).replace hin hlive)
    (fun q hq => ?_) fun q _ => ?_
  · rcases List.mem_or_eq_of_mem_set hq with hq | rfl
    · exact hl.plain hv hq
    · exact hl.visible q List.mem_cons_self
  · rcases List.mem_cons.mp hq with rfl | hq
    · exact hl.plain hv (List.mem_of_getElem? hi)
    · exact hl.visible q (List.mem_cons_of_mem _ hq)
  · have hslot := count_set_slot (v := item) (q := q) hi
    rw [count_owner (r := old), count_owner (r := item)]
    omega

theorem addElement (hl : s.Ledger arrays (item :: owned)) (hr : s.content r = some (.list n v))
    (hv : s.content v = some (.array xs)) (hn : n < xs.length) (hlive : item.isLive = true)
    (hcontent : s'.content =
      overwrite s.content [(r, some (.list (n + 1) v)), (v, some (.array (xs.set n item)))])
    (hcount : s'.count = s.count) : s'.Ledger arrays owned := by
  have hfilled := hl.filled hr hv
  refine hl.setList hr hv hcontent hcount (fun q hq => ?_) (hfilled.add hn hlive)
    (fun q hq => hl.visible q (List.mem_cons_of_mem _ hq)) fun q hq => ?_
  · rcases List.mem_or_eq_of_mem_set hq with hq | rfl
    · exact hl.plain hv hq
    · exact hl.visible q List.mem_cons_self
  · have hslot := count_set_slot (v := item) (q := q) (List.getElem?_eq_getElem hn)
    have hdead : [xs[n]].count q = 0 := by
      refine count_of_dead hq fun p hp => hfilled.blank.dead p ?_
      rw [List.mem_singleton.mp hp, List.drop_eq_getElem_cons hn]
      exact List.mem_cons_self
    rw [count_owner]
    omega

end Store.Ledger

structure Store.Enlarged (s s' : Store) (list : Reference) (size : Nat) (values room : Reference)
    (xs : List Reference) : Prop where
  unused : s.content room = none
  live : room.isLive = true
  content : s'.content = overwrite s.content [(list, some (.list size room)), (values, none),
    (room, some (.array (xs ++ List.replicate (max xs.length 1) .null)))]
  count : s'.count = Function.update (Function.update s.count room 1) values 0

namespace Store.Enlarged

variable {s s' : Store} {list values room q : Reference} {size : Nat} {xs arrays : List Reference}
  {owned : List Reference} {x : Content}

theorem list_eq (he : s.Enlarged s' list size values room xs) :
    s'.content list = some (.list size room) := by
  rw [he.content]
  exact Function.update_self ..

theorem other (he : s.Enlarged s' list size values room xs) (hq : s.content q = some x)
    (hlist : q ≠ list) (hvalues : q ≠ values) : s'.content q = some x := by
  rw [he.content, overwrite_of_not_mem, hq]
  simpa using ⟨hlist, hvalues, ne_of_none hq he.unused⟩

theorem room_eq (he : s.Enlarged s' list size values room xs) (hlist : s.content list = some x)
    {y : Content} (hvalues : s.content values = some y) :
    s'.content room = some (.array (xs ++ List.replicate (max xs.length 1) .null)) := by
  rw [he.content, overwrite, Function.update_of_ne (ne_of_none hlist he.unused).symm, overwrite,
    Function.update_of_ne (ne_of_none hvalues he.unused).symm]
  exact Function.update_self ..

theorem ledger (he : s.Enlarged s' list size values room xs) (hl : s.Ledger arrays owned)
    (hlist : s.content list = some (.list size values))
    (hvalues : s.content values = some (.array xs)) (hfull : xs.length = size) :
    s'.Ledger arrays owned := by
  have hblank := blank_replicate (max xs.length 1)
  obtain ⟨s₁, hcontent₁, hcount₁⟩ : ∃ s₁ : Store,
      s₁.content = Function.update s.content room
        (some (.array (List.replicate (max xs.length 1) .null))) ∧
      s₁.count = Function.update s.count room 1 :=
    ⟨s.set room ⟨0, 1, .array _⟩, content_set, count_set⟩
  have hl₁ := hl.makeArray he.unused he.live hcontent₁ hcount₁ hblank
  have hold : ∀ {q x}, s.content q = some x → s₁.content q = some x := fun hq => by
    rw [hcontent₁, Function.update_of_ne (ne_of_none hq he.unused), hq]
  have hroom : s₁.content room = some (.array (List.replicate (max xs.length 1) .null)) := by
    rw [hcontent₁, Function.update_self]
  have hcontent : s'.content = overwrite s₁.content [(list, some (.list size room)),
      (values, none), (room, some (.array (xs ++ List.replicate (max xs.length 1) .null)))] := by
    simp only [he.content, overwrite, hcontent₁, Function.update_idem]
  have hfilled := hl.filled hlist hvalues
  subst hfull
  have hfront : Filled xs.length (xs ++ List.replicate (max xs.length 1) .null) := by
    refine ⟨by rw [List.length_append]; exact Nat.le_add_right .., fun q hq => ?_, ?_⟩
    · rw [List.take_left] at hq
      exact hfilled.live q (by rwa [List.take_length])
    · rw [List.drop_left]
      exact hblank
  have hl' := hl₁.moveList (hold hlist) (hold hvalues) hroom List.mem_cons_self hcontent
    (hcount₁ ▸ he.count) (fun q hq => ?_) hfront fun q hq => ?_
  · rwa [List.erase_cons_head] at hl'
  · rcases List.mem_append.mp hq with hq | hq
    · exact hl₁.plain (hold hvalues) hq
    · exact hl₁.not_isArray (hblank.dead q hq)
  · rw [List.count_append, count_of_dead hq hblank.dead, Nat.add_zero]

end Store.Enlarged

namespace Heap

variable {h h' : Heap} {s kept : Store} {f : Reference → Option Content} {n : Reference → Nat}
  {source dest values list item subscript : Reference} {xs ys : List Reference}
  {arrays owned : List Reference} {index count : Nat}

theorem Tells.moveFrom (ht : h.Tells f n) (hne : source ≠ dest) (hxs : f source = some (.array xs))
    (hys : f dest = some (.array ys)) (hm : h.moveFrom source dest index count = .ok h') :
    ∃ xs' ys', h'.Tells (overwrite f [(source, some (.array xs')), (dest, some (.array ys'))]) n ∧
      (∀ i, xs'[i]? = if index ≤ i ∧ i < index + count then some .null else xs[i]?) ∧
      ∀ i, ys'[i]? = if index ≤ i ∧ i < index + count then xs[i]? else ys[i]? := by
  induction count generalizing h f xs ys index with
  | zero =>
    cases hm
    refine ⟨xs, ys, ?_, fun i => (if_neg (by omega)).symm, fun i => (if_neg (by omega)).symm⟩
    have hsame : overwrite f [(source, some (.array xs)), (dest, some (.array ys))] = f := by
      rw [← hxs, overwrite_self (by simpa using hne), ← hys, overwrite_self (by simp)]
      rfl
    rwa [hsame]
  | succ count ih =>
    simp only [Heap.moveFrom, bind_eq_ok] at hm
    obtain ⟨q, hget, h₁, hset, h₂, hclear, hrest⟩ := hm
    obtain ⟨xs₁, hxs₁, hq⟩ := ht.arrayGet hget
    rw [hxs] at hxs₁
    cases hxs₁
    obtain ⟨ys₁, hys₁, hlty, ht₁⟩ := ht.arraySet hset
    rw [hys] at hys₁
    cases hys₁
    obtain ⟨xs₁, hxs₁, hltx, ht₂⟩ := ht₁.arraySet hclear
    rw [Function.update_of_ne hne, hxs] at hxs₁
    cases hxs₁
    obtain ⟨xs', ys', ht', hx', hy'⟩ := ih ht₂ (Function.update_self ..)
      (by rw [Function.update_of_ne hne.symm, Function.update_self]) hrest
    refine ⟨xs', ys', ?_, fun i => ?_, fun i => ?_⟩
    · simp only [overwrite] at ht' ⊢
      rwa [Function.update_comm hne.symm, Function.update_idem, Function.update_comm hne,
        Function.update_idem] at ht'
    · rw [hx' i]
      by_cases hi : i = index
      · subst hi
        rw [if_neg (by omega), if_pos (by omega), List.getElem?_set_self hltx]
      · rw [List.getElem?_set_ne (Ne.symm hi)]
        split_ifs <;> first | rfl | omega
    · rw [hy' i]
      by_cases hi : i = index
      · subst hi
        rw [if_neg (by omega), if_pos (by omega), List.getElem?_set_self hlty, hq]
      · rw [List.getElem?_set_ne (Ne.symm hi), List.getElem?_set_ne (Ne.symm hi)]
        split_ifs <;> first | rfl | omega

theorem Tells.shiftFrom (ht : h.Tells f n) (hxs : f values = some (.array xs))
    (hm : h.shiftFrom values index count = .ok h') :
    ∃ ys, h'.Tells (Function.update f values (some (.array ys))) n ∧
      (∀ i, ys[i]? = if index ≤ i ∧ i < index + count then xs[i + 1]? else xs[i]?) ∧
      ∀ p q, xs[index]? = some p → ys[index + count]? = some q →
        ∀ r, ys.count r + [p].count r = xs.count r + [q].count r := by
  induction count generalizing h f xs index with
  | zero =>
    cases hm
    refine ⟨xs, ?_, fun i => (if_neg (by omega)).symm, fun p q hp hq r => ?_⟩
    · have hsame : Function.update f values (some (.array xs)) = f :=
        Function.update_eq_self_iff.mpr hxs.symm
      rwa [hsame]
    · rw [Nat.add_zero, hp] at hq
      cases hq
      rfl
  | succ count ih =>
    simp only [Heap.shiftFrom, bind_eq_ok] at hm
    obtain ⟨e, hget, h₁, hset, hrest⟩ := hm
    obtain ⟨xs₁, hxs₁, he⟩ := ht.arrayGet hget
    rw [hxs] at hxs₁
    cases hxs₁
    obtain ⟨xs₁, hxs₁, hlt, ht₁⟩ := ht.arraySet hset
    rw [hxs] at hxs₁
    cases hxs₁
    obtain ⟨ys, ht', hys, hcount⟩ := ih ht₁ (Function.update_self ..) hrest
    rw [Function.update_idem] at ht'
    refine ⟨ys, ht', fun i => ?_, fun p q hp hq r => ?_⟩
    · rw [hys i]
      by_cases hi : i = index
      · subst hi
        rw [if_neg (by omega), if_pos (by omega), List.getElem?_set_self hlt, he]
      · by_cases hin : index + 1 ≤ i ∧ i < index + 1 + count
        · rw [if_pos hin, if_pos (by omega), List.getElem?_set_ne (by omega)]
        · rw [if_neg hin, if_neg (by omega), List.getElem?_set_ne (Ne.symm hi)]
    · have hmoved : (xs.set index e)[index + 1]? = some e := by
        rw [List.getElem?_set_ne (by omega), he]
      have hrest := hcount e q hmoved (by rwa [Nat.add_right_comm]) r
      have hslot := Store.count_set_slot (v := e) (q := r) hp
      omega

theorem eq_append_drop {zs : List Reference}
    (h : ∀ i, ys[i]? = if i < xs.length then xs[i]? else zs[i]?) :
    ys = xs ++ zs.drop xs.length := by
  refine List.ext_getElem? fun i => ?_
  rw [h i, List.getElem?_append, List.getElem?_drop]
  split_ifs with hi
  · rfl
  · rw [Nat.add_sub_cancel' (Nat.le_of_not_lt hi)]

theorem Tells.moveAll (ht : h.Tells f n) (hne : source ≠ dest) (hxs : f source = some (.array xs))
    (hys : f dest = some (.array ys)) (hm : h.moveFrom source dest 0 xs.length = .ok h') :
    ∃ left, Dead left ∧ h'.Tells (overwrite f [(source, some (.array left)),
      (dest, some (.array (xs ++ ys.drop xs.length)))]) n := by
  obtain ⟨left, moved, ht', hleft, hmoved⟩ := ht.moveFrom hne hxs hys hm
  have happend : moved = xs ++ ys.drop xs.length := eq_append_drop fun i => by
    rw [hmoved i]
    simp only [Nat.zero_le, true_and, Nat.zero_add]
  refine ⟨left, fun q hq => ?_, happend ▸ ht'⟩
  obtain ⟨i, hi⟩ := List.mem_iff_getElem?.mp hq
  rw [hleft i] at hi
  split_ifs at hi with hin
  · cases hi
    rfl
  · have hlt := (List.getElem?_eq_some_iff.mp hi).1
    omega

theorem roomFor_enlarges (hs : h.Sound s) {size : Nat}
    (hlist : s.content list = some (.list size values))
    (hxs : s.content values = some (.array xs)) (hone : s.count values = 1)
    (hfull : xs.length = size) :
    (roomFor list ⟨size, values⟩).Ends h
      (fun room h' => ∃ s', h'.Sound s' ∧ s.Enlarged s' list size values room xs)
      fun e h' => h' = h ∧
        (Heap.makeArray (max (xs.length * 2) 1)).runOn h = .ok (.error e, h) := by
  subst hfull
  simp only [roomFor, Action.ends_bind, Action.ends_read, Action.ends_ite, Action.ends_liftM,
    Action.ends_update, Action.ends_pure, hs.arrayCapacity_eq_ok, Word.mul, Word.fit_eq_ok]
  rintro capacity ⟨xs', hxs', rfl⟩
  cases hxs.symm.trans hxs'
  refine ⟨?_, fun hno => absurd rfl hno⟩
  rintro - _ ⟨rfl, -⟩
  refine ((hs.makeArray _).and (Action.ends_runOn _ h)).imp ?_ fun e h₁ he => ⟨he.1, he.1 ▸ he.2⟩
  rintro grown h₁ ⟨hm, -⟩ h₂ hmove h₃ hrel h₄ hstore
  obtain ⟨hnone, s₁, hs₁, hcontent₁, hcount₁⟩ := hm.tells
  have hold : ∀ {q x}, s.content q = some x → q ≠ grown ∧ s₁.content q = some x := by
    intro q x hq
    have hne := Store.ne_of_none hq hnone
    rw [hcontent₁, Function.update_of_ne hne]
    exact ⟨hne, hq⟩
  obtain ⟨hvg, hv₁⟩ := hold hxs
  obtain ⟨hlg, hlist₁⟩ := hold hlist
  have hlv : list ≠ values := Store.ne_of_content hlist hxs (by simp)
  have hone₁ : s₁.count values = 1 := by rw [hcount₁, Function.update_of_ne hvg, hone]
  obtain ⟨left, hdead, ht₂⟩ := hs₁.tells.moveAll hvg hv₁
    (by rw [hcontent₁, Function.update_self]) hmove
  have ht₃ := ht₂.releaseBlank (Function.update_self ..) hone₁ (Store.held_of_dead hdead) hrel
  simp only [overwrite, Function.update_idem] at ht₃
  obtain ⟨s', hs', hcontent', hcount'⟩ := ht₃.storeListValues
    (by rw [Function.update_of_ne hlv, Function.update_of_ne hlg, hlist₁]) hstore
  refine ⟨s', hs', hnone, hm.live, ?_, hcount'.trans (by rw [hcount₁])⟩
  have hrest : max (xs.length * 2) 1 - xs.length = max xs.length 1 := by omega
  simp only [hcontent', hcontent₁, overwrite, Function.update_idem, List.drop_replicate, hrest]

theorem roomFor_spare (hs : h.Sound s) {size : Nat} (hxs : s.content values = some (.array xs))
    (hspare : xs.length ≠ size) :
    (roomFor list ⟨size, values⟩).runOn h = .ok (.ok values, h) := by
  have hcapacity : h.arrayCapacity values = .ok xs.length :=
    hs.arrayCapacity_eq_ok.mpr ⟨xs, hxs, rfl⟩
  rw [roomFor, Action.runOn_bind_ok (Action.runOn_read hcapacity), if_neg hspare.symm]
  rfl

theorem roomFor_ends (hs : h.Sound s) (hl : s.Ledger arrays owned) (hk : Anchored s kept owned)
    {parts : ListParts} (hparts : s.content list = some (.list parts.size parts.values)) :
    (roomFor list parts).Ends h
      (fun room h' => ∃ s', h'.Sound s' ∧ s'.Ledger arrays owned ∧ s'.Fewer kept ∧
        s'.content list = some (.list parts.size room) ∧ ∀ q, Seen s q → Seen s' q)
      fun _ h' => h' = h := by
  obtain ⟨xs, hxs, -⟩ := hl.lists hparts
  by_cases hfull : xs.length = parts.size
  · refine (roomFor_enlarges hs hparts hxs (hl.count_eq_one hxs) hfull).imp ?_ fun _ _ he => he.1
    rintro room h' ⟨s', hs', he⟩
    refine ⟨s', hs', he.ledger hl hparts hxs hfull, hk.fewer.overwrite ?_ he.content, he.list_eq,
      fun q hq => ?_⟩
    · simp [hk.fewer.content_none he.unused, hk.unkept hparts rfl, hk.unkept hxs rfl]
    · obtain ⟨x, hx, hkind⟩ := hq
      by_cases hlist : q = list
      · exact hlist ▸ ⟨_, he.list_eq, by simp [Content.kind]⟩
      · have hvalues : q ≠ parts.values :=
          Store.ne_of_content hx hxs fun heq => hkind (heq ▸ rfl)
        exact ⟨x, he.other hx hlist hvalues, hkind⟩
  · intro a h' hrun
    rw [roomFor_spare hs hxs hfull] at hrun
    cases hrun
    exact ⟨s, hs, hl, hk.fewer, hparts, fun _ hq => hq⟩

theorem Stored.listIndex_lt (hs : h.Stored s) {size : Nat}
    (hlist : s.content list = some (.list size values))
    (hi : h.listIndex list subscript = .ok (.ok index)) : index < size := by
  unfold listIndex at hi
  cases hv : h.value subscript with
  | error e =>
    rw [hv] at hi
    cases hi
  | ok v =>
    rw [hv] at hi
    cases v with
    | integer k =>
      cases hp : h.listParts list with
      | error e =>
        rw [hp] at hi
        cases hi
      | ok parts =>
        rw [hp] at hi
        have hparts := hs.listParts_eq_ok.mp hp
        rw [hlist] at hparts
        cases hparts
        generalize hn : (if k < 0 then k + Int64.ofNat parts.size else k) = m at hi
        have hrange : (if m < 0 || parts.size ≤ m.toNatClampNeg then
            (throw .listIndexRange : Query Failure Nat) else pure m.toNatClampNeg) =
              .ok (.ok index) := by
          rw [← hi, ← hn]
          rfl
        split_ifs at hrange with hout
        · cases hrange
        · cases hrange
          simp only [Bool.or_eq_true, decide_eq_true_eq, not_or] at hout
          omega
    | _ => cases hi

theorem listSubscript_balanced (hs : h.Sound s) (hl : s.Ledger arrays owned)
    (hk : s.Fewer kept) :
    (listSubscript list subscript).Ends h (fun r h' => h'.Balanced kept arrays (r :: owned))
      fun _ h' => h'.Balanced kept arrays owned := by
  simp only [listSubscript, Action.ends_bind, Action.ends_ask, Action.ends_read,
    Action.ends_update, Action.ends_pure]
  refine ⟨fun index _ element hget h' hret => ?_, fun _ _ => hs.balanced hl hk⟩
  simp only [listGet, throw_bind, guard_eq_ok, bind_eq_ok, hs.arrayGet_eq_ok] at hget
  obtain ⟨parts, -, -, xs, hxs, hi⟩ := hget
  exact hs.retained hl hk (hl.plain hxs (List.mem_of_getElem? hi)) hret

theorem Sound.replaceElement (hs : h.Sound s) (hl : s.Ledger arrays owned) (hitem : Seen s item)
    {size i : Nat} {old : Reference} (hlist : s.content list = some (.list size values))
    (hxs : s.content values = some (.array xs)) (hin : i < size) (hi : xs[i]? = some old)
    {h₁ : Heap} (hret : h.retain item = .ok h₁) (hset : h₁.arraySet values i item = .ok h') :
    ∃ s', h'.Sound s' ∧ s'.Ledger arrays (old :: owned) ∧
      s'.content = Function.update s.content values (some (.array (xs.set i item))) ∧
        s'.count = Function.update s.count item (s.count item + 1) := by
  obtain ⟨s₁, hs₁, hl₁, hcontent₁, hcount₁⟩ := hs.retain_balanced hl hitem.not_isArray hret
  rw [← hcontent₁] at hlist hxs
  obtain ⟨xs', hxs', -, s', hs', hcontent', hcount'⟩ := hs₁.tells.arraySet hset
  rw [hxs] at hxs'
  cases hxs'
  exact ⟨s', hs', hl₁.replaceElement hlist hxs hin hi (hitem.isLive hl) hcontent' hcount',
    hcontent₁ ▸ hcontent', hcount'.trans hcount₁⟩

theorem listAssign_balanced (hs : h.Sound s) (hl : s.Ledger arrays owned)
    (hk : Anchored s kept owned) (hitem : Seen s item) :
    (listAssign list subscript item).Ends h (fun _ h' => h'.Balanced kept arrays owned)
      fun _ h' => h'.Balanced kept arrays owned := by
  simp only [listAssign, Action.ends_bind, Action.ends_ask, Action.ends_read, Action.ends_update,
    hs.listParts_eq_ok, hs.arrayGet_eq_ok]
  refine ⟨?_, fun _ _ => hs.balanced hl hk.fewer⟩
  rintro index hindex parts hparts replaced ⟨xs, hxs, hi⟩ h₁ hret h₂ hset h₃ hrel
  obtain ⟨s₂, hs₂, hl₂, hcontent₂, -⟩ :=
    hs.replaceElement hl hitem hparts hxs (hs.listIndex_lt hparts hindex) hi hret hset
  exact hs₂.released hl₂ (hk.of_fewer (hk.fewer.update (hk.unkept hxs rfl) hcontent₂)) hrel

theorem Tells.addElement (ht : h.Tells f n) {m : Nat} (hlist : f list = some (.list m values))
    {h₁ h₂ : Heap} (hret : h.retain item = .ok h₁) (hset : h₁.arraySet values m item = .ok h₂)
    (hstore : h₂.storeField list Layout.listSizeOffset (m + 1) = .ok h') :
    ∃ xs, f values = some (.array xs) ∧ m < xs.length ∧
      h'.Tells (overwrite f [(list, some (.list (m + 1) values)),
        (values, some (.array (xs.set m item)))]) (Function.update n item (n item + 1)) := by
  obtain ⟨s, hs, rfl, rfl⟩ := ht
  obtain ⟨xs, hxs, hlt, ht₂⟩ := (hs.tells.retain hret).2.arraySet hset
  have hne : list ≠ values := Store.ne_of_content hlist hxs (by simp)
  have hbound := hs.arrayLength_lt hxs
  exact ⟨xs, hxs, hlt, ht₂.storeListSize ((Function.update_of_ne hne ..).trans hlist) (by omega)
    hstore⟩

theorem Sound.push (hs : h.Sound s) (hl : s.Ledger arrays owned) (hk : Anchored s kept owned)
    (hitem : Seen s item) {m : Nat} (hlist : s.content list = some (.list m values))
    {h₁ h₂ : Heap} (hret : h.retain item = .ok h₁)
    (hset : h₁.arraySet values m item = .ok h₂)
    (hstore : h₂.storeField list Layout.listSizeOffset (m + 1) = .ok h') :
    h'.Balanced kept arrays owned := by
  obtain ⟨xs, hxs, hlt, s', hs', hcontent', hcount'⟩ := hs.tells.addElement hlist hret hset hstore
  obtain ⟨s₁, -, hl₁, hcontent₁, hcount₁⟩ := hs.retain_balanced hl hitem.not_isArray hret
  have hl' : s'.Ledger arrays owned := hl₁.addElement (hcontent₁ ▸ hlist) (hcontent₁ ▸ hxs) hlt
    (hitem.isLive hl) (hcontent₁ ▸ hcontent') (hcount'.trans hcount₁.symm)
  refine hs'.balanced hl' (hk.fewer.overwrite ?_ hcontent')
  simp [hk.unkept hlist rfl, hk.unkept hxs rfl]

theorem listPush_balanced (hs : h.Sound s) (hl : s.Ledger arrays owned)
    (hk : Anchored s kept owned) (hitem : Seen s item) :
    (listPush list item).Ends h (fun _ h' => h'.Balanced kept arrays owned)
      fun _ h' => h'.Balanced kept arrays owned := by
  simp only [listPush, Action.ends_bind, Action.ends_read, hs.listParts_eq_ok]
  intro parts hparts
  refine (roomFor_ends hs hl hk hparts).imp ?_ fun _ _ he => he ▸ hs.balanced hl hk.fewer
  rintro room h₁ ⟨s₁, hs₁, hl₁, hfewer₁, hlist₁, hseen⟩
  simp only [Action.ends_update]
  intro h₂ hret h₃ hset h₄ hstore
  exact hs₁.push hl₁ (hk.of_fewer hfewer₁) (hseen item hitem) hlist₁ hret hset hstore

theorem Sound.removeElement (hs : h.Sound s) (hl : s.Ledger arrays owned) {size : Nat}
    {removed : Reference} (hlist : s.content list = some (.list size values))
    (hxs : s.content values = some (.array xs)) (hlt : index < size)
    (hi : xs[index]? = some removed)
    {h₁ h₂ : Heap} (hshift : h.shiftFrom values index (size - 1 - index) = .ok h₁)
    (hset : h₁.arraySet values (size - 1) .null = .ok h₂)
    (hstore : h₂.storeField list Layout.listSizeOffset (size - 1) = .ok h') :
    ∃ s' ys, h'.Sound s' ∧ s'.Ledger arrays (removed :: owned) ∧
      s'.content = overwrite s.content
        [(list, some (.list (size - 1) values)), (values, some (.array ys))] ∧
      s'.count = s.count ∧ ys.take (size - 1) = (xs.take size).eraseIdx index := by
  have hne : list ≠ values := Store.ne_of_content hlist hxs (by simp)
  have hsize := hs.listSize_lt hlist
  obtain ⟨ys, ht₁, hys, hcount⟩ := hs.tells.shiftFrom hxs hshift
  rw [Nat.add_sub_cancel' (by omega)] at hcount hys
  obtain ⟨ys', hys', hlast, ht₂⟩ := ht₁.arraySet hset
  rw [Function.update_self] at hys'
  cases hys'
  rw [Function.update_idem] at ht₂
  obtain ⟨s', hs', hcontent', hcount'⟩ := ht₂.storeListSize
    (by rw [Function.update_of_ne hne, hlist]) (by omega) hstore
  have hleft : (ys.set (size - 1) .null).take (size - 1) = (xs.take size).eraseIdx index := by
    rw [List.take_set_of_le (Nat.le_refl _), take_of_shift hlt hys]
  refine ⟨s', _, hs', hl.setList hlist hxs hcontent' hcount' (fun q hq => ?_)
    ((hl.filled hlist hxs).shift hlt hys) (fun q hq => ?_) fun q hq => ?_, hcontent', hcount',
    hleft⟩
  · rcases List.mem_or_eq_of_mem_set hq with hq | rfl
    · obtain ⟨i, hq⟩ := List.mem_iff_getElem?.mp hq
      rw [hys i] at hq
      split_ifs at hq <;> exact hl.plain hxs (List.mem_of_getElem? hq)
    · exact hl.not_isArray rfl
  · rcases List.mem_cons.mp hq with rfl | hq
    · exact hl.plain hxs (List.mem_of_getElem? hi)
    · exact hl.visible q hq
  · have hslot := Store.count_set_slot (v := .null) (q := q) (List.getElem?_eq_getElem hlast)
    have hmoved := hcount removed _ hi (List.getElem?_eq_getElem hlast) q
    have hnull : [Reference.null].count q = 0 := by
      refine Store.count_of_dead hq fun p hp => ?_
      rw [List.mem_singleton.mp hp]
      rfl
    rw [Store.count_owner]
    omega

theorem listDelete_balanced (hs : h.Sound s) (hl : s.Ledger arrays owned)
    (hk : Anchored s kept owned) :
    (listDelete list subscript).Ends h (fun _ h' => h'.Balanced kept arrays owned)
      fun _ h' => h'.Balanced kept arrays owned := by
  simp only [listDelete, Action.ends_bind, Action.ends_ask, Action.ends_read, Action.ends_update,
    hs.listParts_eq_ok, hs.arrayGet_eq_ok]
  refine ⟨?_, fun _ _ => hs.balanced hl hk.fewer⟩
  rintro index hindex parts hparts removed ⟨xs, hxs, hi⟩ h₁ hshift h₂ hset h₃ hstore h₄ hrel
  have hlt := hs.listIndex_lt hparts hindex
  obtain ⟨s₃, ys, hs₃, hl₃, hcontent₃, -⟩ :=
    hs.removeElement hl hparts hxs hlt hi hshift hset hstore
  refine hs₃.released hl₃ (hk.of_fewer (hk.fewer.overwrite ?_ hcontent₃)) hrel
  simp [hk.unkept hparts rfl, hk.unkept hxs rfl]

def pretend (s : Store) (r : Reference) (x : Content) : Store := s.set r ⟨0, s.count r, x⟩

theorem content_pretend {r : Reference} {x : Content} :
    (pretend s r x).content = Function.update s.content r (some x) := Store.content_set

theorem count_pretend {r : Reference} {x : Content} : (pretend s r x).count = s.count := by
  rw [pretend, Store.count_set]
  exact Function.update_eq_self ..

theorem placeFrom_ledger {elements : List Reference} (hs : h.Sound s)
    (hlist : s.content list = some (.list 0 values))
    (hl : (pretend s list (.list index values)).Ledger arrays owned) (hk : s.Fewer kept)
    (hunkept : kept.content values = none) (hseen : ∀ r ∈ elements, Seen s r)
    (hp : h.placeFrom values index elements = .ok h') :
    ∃ s', h'.Sound s' ∧ s'.content list = some (.list 0 values) ∧ s'.Fewer kept ∧
      (pretend s' list (.list (index + elements.length) values)).Ledger arrays owned := by
  -- The size of the list is stored last; until then the ledger is that of a store in which the
  -- list is as long as it has elements already.
  induction elements generalizing h s index with
  | nil =>
    cases hp
    exact ⟨s, hs, hlist, hk, hl⟩
  | cons r rest ih =>
    simp only [Heap.placeFrom, bind_eq_ok] at hp
    obtain ⟨h₁, hret, h₂, hset, hrest⟩ := hp
    obtain ⟨-, s₁, hs₁, hcontent₁, hcount₁⟩ := hs.tells.retain hret
    obtain ⟨xs, hxs, hlt, s₂, hs₂, hcontent₂, hcount₂⟩ := hs₁.tells.arraySet hset
    have hr : ¬(pretend s list (.list index values)).IsArray r := by
      rintro ⟨ys, hys⟩
      rw [content_pretend] at hys
      by_cases heq : r = list
      · rw [heq, Function.update_self] at hys
        cases hys
      · rw [Function.update_of_ne heq] at hys
        exact (hseen r List.mem_cons_self).not_isArray ⟨ys, hys⟩
    have hl₁ : (pretend s₁ list (.list index values)).Ledger arrays (r :: owned) := by
      refine hl.retain hr ?_ ?_
      · rw [content_pretend, content_pretend, hcontent₁]
      · rw [count_pretend, count_pretend, hcount₁]
    have hne : list ≠ values := by
      rw [← hcontent₁] at hlist
      exact Store.ne_of_content hlist hxs (by simp)
    have hlive : r.isLive = true := by
      obtain ⟨d, hd, -⟩ := Store.content_eq_some.mp (hseen r List.mem_cons_self).choose_spec.1
      exact hs.isLive hd
    have hl₂ : (pretend s₂ list (.list (index + 1) values)).Ledger arrays owned := by
      refine hl₁.addElement (r := list) (v := values) (n := index) ?_ ?_ hlt hlive ?_ ?_
      · rw [content_pretend, Function.update_self]
      · rw [content_pretend, Function.update_of_ne hne.symm, hxs]
      · simp only [content_pretend, hcontent₂, overwrite]
        rw [Function.update_comm hne, Function.update_idem]
      · rw [count_pretend, count_pretend, hcount₂]
    have hseen₂ : ∀ q ∈ rest, Seen s₂ q := by
      intro q hq
      obtain ⟨x, hx, hkind⟩ := hseen q (List.mem_cons_of_mem _ hq)
      have hqv : q ≠ values :=
        Store.ne_of_content hx (hcontent₁ ▸ hxs) fun heq => hkind (heq ▸ rfl)
      refine ⟨x, ?_, hkind⟩
      rw [hcontent₂, Function.update_of_ne hqv, hcontent₁, hx]
    have hlist₂ : s₂.content list = some (.list 0 values) := by
      rw [hcontent₂, Function.update_of_ne hne, hcontent₁, hlist]
    have hk₂ : s₂.Fewer kept := hk.update hunkept (hcontent₁ ▸ hcontent₂)
    obtain ⟨s', hs', hlist', hk', hl'⟩ := ih hs₂ hlist₂ hl₂ hk₂ hseen₂ hrest
    refine ⟨s', hs', hlist', hk', ?_⟩
    rwa [List.length_cons, Nat.add_comm rest.length, ← Nat.add_assoc]

theorem newList_balanced {elements : List Reference} (hs : h.Sound s) (hl : s.Ledger arrays owned)
    (hk : s.Fewer kept) (hseen : ∀ r ∈ elements, Seen s r) :
    (newList elements).Ends h (fun r h' => h'.Balanced kept arrays (r :: owned))
      fun _ h' => h'.Balanced kept arrays owned := by
  simp only [newList, Action.ends_bind, Action.ends_orUndo, Action.ends_update, Action.ends_pure]
  refine (hs.makeArray elements.length).imp (fun values h₁ hm => ?_)
    fun _ _ he => he ▸ hs.balanced hl hk
  obtain ⟨hnone, s₁, hs₁, hcontent₁, hcount₁⟩ := hm.tells
  have hl₁ := hl.makeArray hnone hm.live hcontent₁ hcount₁ (blank_replicate _)
  have hvalues : s₁.content values = some (.array (.replicate elements.length .null)) := by
    rw [hcontent₁, Function.update_self]
  have hs₁' : s₁.Fewer s := (Store.Fewer.refl s).update hnone hcontent₁
  refine (hs₁.makeList values).imp ?_ ?_
  · rintro list h₂ ⟨-, hm₂⟩ h₃ hplace h₄ hstore
    obtain ⟨hnone₂, s₂, hs₂, hcontent₂, hcount₂⟩ := hm₂.tells
    have hl₂ := hl₁.makeList hnone₂ hm₂.live hcontent₂ hcount₂ List.mem_cons_self hvalues
    rw [List.erase_cons_head] at hl₂
    have hlist₂ : s₂.content list = some (.list 0 values) := by
      rw [hcontent₂, Function.update_self]
    have hstart : (pretend s₂ list (.list 0 values)).Ledger arrays (list :: owned) := by
      refine hl₂.congr ?_ count_pretend
      rw [content_pretend, Function.update_eq_self_iff, hlist₂]
    have hs₂' : s₂.Fewer s := hs₁'.update (hs₁'.content_none hnone₂) hcontent₂
    have hk₂ : s₂.Fewer kept := hs₂'.trans hk
    have hseen₂ : ∀ r ∈ elements, Seen s₂ r := fun r hr =>
      (hseen r hr).mono hs₂'
    obtain ⟨s₃, hs₃, hlist₃, hk₃, hl₃⟩ := placeFrom_ledger hs₂ hlist₂ hstart hk₂
      (hk.content_none hnone) hseen₂ hplace
    have hlt := hs₁.arrayLength_lt hvalues
    rw [List.length_replicate] at hlt
    obtain ⟨s', hs', hcontent', hcount'⟩ := hs₃.tells.storeListSize hlist₃ hlt hstore
    rw [Nat.zero_add] at hl₃
    exact hs'.balanced (hl₃.congr (hcontent'.trans content_pretend.symm)
      (hcount'.trans count_pretend.symm))
      (hk₃.update (hk.content_none (hs₁'.content_none hnone₂)) hcontent')
  · rintro _ _ rfl h₂ hrel
    obtain ⟨s₂, hs₂, hl₂, hcontent₂⟩ := hs₁.releaseFree hl₁ hvalues List.mem_cons_self hrel
    rw [List.erase_cons_head] at hl₂
    exact hs₂.balanced hl₂ ((hs₁'.trans hk).update (hk.content_none hnone) hcontent₂)

end Heap
end CountedHeap
