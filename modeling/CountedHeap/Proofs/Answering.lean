import CountedHeap.Proofs.Limits
import CountedHeap.Proofs.OperatorAccounts
import CountedHeap.Proofs.Progress

/-!
Lists that answer. Each step of an operation finds the value that it is about, of the kind that it
takes it for, and a slot that it counts on is there. Between the steps the ledger need not balance,
so what is still there is followed in the contents and the counts alone.
-/

namespace CountedHeap

theorem Store.Ledger.element_there {s : Store} {arrays owned : List Reference}
    {list values : Reference} {size i : Nat} (hl : s.Ledger arrays owned)
    (hlist : s.content list = some (.list size values)) (hi : i < size) :
    ∃ xs q x, s.content values = some (.array xs) ∧ i < xs.length ∧ xs[i]? = some q ∧
      q.isLive = true ∧ s.content q = some x := by
  obtain ⟨xs, hxs, hfilled⟩ := hl.lists hlist
  have hlt : i < xs.length := Nat.lt_of_lt_of_le hi hfilled.fits
  have hlive : xs[i].isLive = true :=
    hfilled.live _ (List.mem_take_iff_getElem.mpr ⟨i, by omega, rfl⟩)
  have hheld : xs[i] ∈ s.held values := by
    rw [Store.held_of_content hxs]
    exact List.mem_filter.mpr ⟨List.getElem_mem hlt, hlive⟩
  obtain ⟨x, hx⟩ := hl.occupied_of_held hheld
  exact ⟨xs, xs[i], x, hxs, hlt, List.getElem?_eq_getElem hlt, hlive, hx⟩

theorem Store.Ledger.element_live {s : Store} {arrays owned : List Reference}
    {list values q : Reference} {xs : List Reference} {size i : Nat} (hl : s.Ledger arrays owned)
    (hlist : s.content list = some (.list size values))
    (hxs : s.content values = some (.array xs)) (hin : i < size) (hi : xs[i]? = some q) :
    q.isLive = true :=
  (hl.filled hlist hxs).live q (List.mem_iff_getElem?.mpr
    ⟨i, (List.getElem?_take_of_lt hin).trans hi⟩)

namespace Heap

variable {h h' : Heap} {s : Store} {f : Reference → Option Content} {n : Reference → Nat}
  {r q v list item values subscript : Reference} {x : Content} {xs : List Reference}
  {arrays owned : List Reference} {index count i : Nat}

theorem Stored.listParts_answers (hs : h.Stored s) {size : Nat}
    (hlist : s.content list = some (.list size values)) : h.listParts list = .ok ⟨size, values⟩ :=
  hs.listParts_eq_ok.mpr hlist

theorem Stored.arrayGet_answers (hs : h.Stored s) (hr : s.content r = some (.array xs))
    (hi : xs[i]? = some q) : h.arrayGet r i = .ok q :=
  hs.arrayGet_eq_ok.mpr ⟨xs, hr, hi⟩

theorem Stored.listIndex_answers (hs : h.Stored s) {size : Nat}
    (hlist : s.content list = some (.list size values))
    (hsub : Seen s subscript) :
    ∃ a, h.listIndex list subscript = .ok a := by
  obtain ⟨y, hy, -⟩ := hsub
  obtain ⟨c, hc, rfl⟩ := Store.content_eq_some.mp hy
  unfold listIndex
  rw [hs.value_eq hc]
  cases c.content with
  | integer k =>
    rw [hs.listParts_answers hlist]
    change ∃ a, (ite _ (throw .listIndexRange) (pure _) : Query Failure Nat) = .ok a
    split <;> split <;> exact ⟨_, rfl⟩
  | _ => exact ⟨_, rfl⟩

namespace Tells

theorem retain_answers (ht : h.Tells f n) (hr : f r = some x) (hn : n r + 1 < Word.limit) :
    ∃ h', h.retain r = .ok h' := by
  obtain ⟨s, hs, rfl, rfl⟩ := ht
  obtain ⟨c, hc, -⟩ := Store.content_eq_some.mp hr
  exact hs.retain_answers hc (Store.count_eq hc ▸ hn)

theorem arrayGet_answers (ht : h.Tells f n) (hr : f r = some (.array xs)) (hi : xs[i]? = some q) :
    h.arrayGet r i = .ok q := by
  obtain ⟨s, hs, rfl, -⟩ := ht
  exact hs.arrayGet_answers hr hi

theorem arraySet_answers (ht : h.Tells f n) (hr : f r = some (.array xs)) (hi : i < xs.length)
    (v : Reference) : ∃ h', h.arraySet r i v = .ok h' := by
  obtain ⟨s, hs, rfl, -⟩ := ht
  exact hs.arraySet_answers hr hi v

theorem arraySet_tells (ht : h.Tells f n) (hr : f r = some (.array xs)) (hi : i < xs.length)
    (v : Reference) : ∃ h', h.arraySet r i v = .ok h' ∧
      h'.Tells (Function.update f r (some (.array (xs.set i v)))) n := by
  obtain ⟨h', hset⟩ := ht.arraySet_answers hr hi v
  obtain ⟨xs', hxs', -, ht'⟩ := ht.arraySet hset
  cases hr.symm.trans hxs'
  exact ⟨h', hset, ht'⟩

theorem storeField_answers (ht : h.Tells f n) (hr : f r = some x) {offset : Nat}
    (hfits : offset + 8 ≤ x.room) (value : Nat) : ∃ h', h.storeField r offset value = .ok h' := by
  obtain ⟨s, hs, rfl, -⟩ := ht
  exact hs.storeField_answers hr hfits value

theorem storeReference_answers (ht : h.Tells f n) (hr : f r = some x) {offset : Nat}
    (hfits : offset + 4 ≤ x.room) (v : Reference) :
    ∃ h', h.storeReference r offset v = .ok h' := by
  obtain ⟨s, hs, rfl, -⟩ := ht
  exact hs.storeReference_answers hr hfits v

theorem placeFrom_answers {elements : List Reference} (ht : h.Tells f n)
    (hxs : f values = some (.array xs)) (hfit : index + elements.length ≤ xs.length)
    (hthere : ∀ r ∈ elements, ∃ x, f r = some x)
    (hn : ∀ r, n r + elements.length < Word.limit) :
    ∃ h' f' n', h.placeFrom values index elements = .ok h' ∧ h'.Tells f' n' ∧
      ∀ q, q ≠ values → f' q = f q := by
  induction elements generalizing h f n index xs with
  | nil => exact ⟨h, f, n, rfl, ht, fun _ _ => rfl⟩
  | cons r rest ih =>
    rw [List.length_cons] at hfit hn
    obtain ⟨x, hx⟩ := hthere r List.mem_cons_self
    obtain ⟨h₁, hret⟩ := ht.retain_answers hx (by have := hn r; omega)
    obtain ⟨h₂, hset, ht₂⟩ :=
      (ht.retain hret).2.arraySet_tells hxs (show index < xs.length by omega) r
    have hfit' : index + 1 + rest.length ≤ (xs.set index r).length := by
      rw [List.length_set]
      omega
    have hthere' : ∀ q ∈ rest,
        ∃ y, Function.update f values (some (.array (xs.set index r))) q = some y := by
      intro q hq
      obtain ⟨y, hy⟩ := hthere q (List.mem_cons_of_mem _ hq)
      by_cases heq : q = values
      · exact ⟨_, by rw [heq, Function.update_self]⟩
      · exact ⟨y, by rw [Function.update_of_ne heq, hy]⟩
    have hn' : ∀ q, Function.update n r (n r + 1) q + rest.length < Word.limit := by
      intro q
      have hq := hn q
      rw [Store.count_update_succ, List.count_singleton]
      split <;> omega
    obtain ⟨h', f', n', hrest, ht', hf'⟩ := ih ht₂ (Function.update_self ..) hfit' hthere' hn'
    refine ⟨h', f', n', by simp only [placeFrom, hret, hset, ok_bind, hrest], ht', fun q hq => ?_⟩
    rw [hf' q hq, Function.update_of_ne hq]

theorem shiftFrom_answers (ht : h.Tells f n) (hxs : f values = some (.array xs))
    (hfit : index + count < xs.length) : ∃ h', h.shiftFrom values index count = .ok h' := by
  induction count generalizing h f index xs with
  | zero => exact ⟨h, rfl⟩
  | succ count ih =>
    have hnext : xs[index + 1]? = some xs[index + 1] := List.getElem?_eq_getElem (by omega)
    have hget := ht.arrayGet_answers hxs hnext
    obtain ⟨h₁, hset, ht₁⟩ :=
      ht.arraySet_tells hxs (show index < xs.length by omega) xs[index + 1]
    have hfit' : index + 1 + count < (xs.set index xs[index + 1]).length := by
      rw [List.length_set]
      omega
    obtain ⟨h', hrest⟩ := ih ht₁ (Function.update_self ..) hfit'
    exact ⟨h', by simp only [Heap.shiftFrom, hget, hset, ok_bind, hrest]⟩

theorem moveFrom_answers {dest : Reference} {ys : List Reference} (ht : h.Tells f n)
    (hne : values ≠ dest) (hxs : f values = some (.array xs)) (hys : f dest = some (.array ys))
    (hfit : index + count ≤ xs.length) (hroom : index + count ≤ ys.length) :
    ∃ h', h.moveFrom values dest index count = .ok h' := by
  induction count generalizing h f index xs ys with
  | zero => exact ⟨h, rfl⟩
  | succ count ih =>
    have hget := ht.arrayGet_answers hxs (List.getElem?_eq_getElem (show index < xs.length by omega))
    obtain ⟨h₁, hset, ht₁⟩ := ht.arraySet_tells hys (show index < ys.length by omega) xs[index]
    obtain ⟨h₂, hclear, ht₂⟩ := ht₁.arraySet_tells (by rw [Function.update_of_ne hne, hxs])
      (show index < xs.length by omega) .null
    obtain ⟨h', hrest⟩ : ∃ h', h₂.moveFrom values dest (index + 1) count = .ok h' :=
      ih ht₂ (Function.update_self ..)
        (by rw [Function.update_of_ne hne.symm, Function.update_self])
        (by rw [List.length_set]; omega) (by rw [List.length_set]; omega)
    exact ⟨h', by simp only [Heap.moveFrom, hget, hset, hclear, ok_bind, hrest]⟩

theorem releaseBlank_answers (ht : h.Tells f n) (hr : f r = some x) (hone : n r = 1)
    (hheld : x.held = []) : ∃ h', h.release r = .ok h' := by
  obtain ⟨s, hs, rfl, rfl⟩ := ht
  obtain ⟨c, hc, rfl⟩ := Store.content_eq_some.mp hr
  rw [Store.count_eq hc] at hone
  obtain ⟨h₁, held, hgive⟩ := hs.giveUp_answers hc
  obtain ⟨d, hd, hs₁, hheld'⟩ := hs.giveUp hgive
  cases hc.symm.trans hd
  rw [if_pos hone, hheld] at hheld'
  obtain ⟨h', hdiscard⟩ := hs₁.discard_answers (r := r) Store.set_self
  have hpos : h.table.size ≠ 0 := by
    have hlt := Table.index_lt_size (hs.get?_eq hc)
    omega
  obtain ⟨deaths, hdeaths⟩ := Nat.exists_eq_succ_of_ne_zero hpos
  refine ⟨h', ?_⟩
  rw [Heap.release, hdeaths, releaseAll, runTasks, hgive, hheld', ok_bind]
  cases deaths <;>
    simp only [releaseAll, List.map_nil, List.nil_append, runTasks, hdiscard, ok_bind]

theorem addElement_answers {m : Nat} (ht : h.Tells f n) (hlist : f list = some (.list m values))
    (hxs : f values = some (.array xs)) (hm : m < xs.length) {h₁ : Heap}
    (hret : h.retain item = .ok h₁) :
    ∃ h₂ h', h₁.arraySet values m item = .ok h₂ ∧
      h₂.storeField list Layout.listSizeOffset (m + 1) = .ok h' := by
  obtain ⟨s, hs, rfl, rfl⟩ := ht
  have hne : list ≠ values := Store.ne_of_content hlist hxs (by simp)
  obtain ⟨h₂, hset, ht₂⟩ := (hs.tells.retain hret).2.arraySet_tells hxs hm item
  obtain ⟨h', hstore⟩ := ht₂.storeField_answers ((Function.update_of_ne hne ..).trans hlist)
    (by change 24 + 8 ≤ 40; decide) (m + 1)
  exact ⟨h₂, h', hset, hstore⟩

end Tells

theorem Sound.retain_overflow (hs : h.Sound s) (hr : s.content r = some x)
    (hmany : ¬s.count r + 1 < Word.limit) : h.retain r = .error .overflow := by
  obtain ⟨c, hc, -⟩ := Store.content_eq_some.mp hr
  rw [Store.count_eq hc] at hmany
  simp only [Heap.retain, hs.deref_eq hc, ok_bind, hs.countAt_eq hc, Word.add, Word.fit, if_neg hmany]
  rfl

section Lists

variable (hs : h.Sound s)
include hs

section Elements

variable {size : Nat} (hlist : s.content list = some (.list size values))
  (hxs : s.content values = some (.array xs))
include hlist hxs

section Places

variable (hi : xs[index]? = some q) (hindex : h.listIndex list subscript = .ok (.ok index))
include hi hindex

theorem Sound.listSubscript_eq (hin : index < size) : (listSubscript list subscript).runOn h =
    h.retain q >>= fun h' => pure (.ok q, h') := by
  have hget : h.listGet list index = .ok q := by
    simp only [listGet, hs.listParts_answers hlist, ok_bind, hin, if_true,
      hs.arrayGet_answers hxs hi]
  rw [listSubscript, Action.runOn_bind_ok (Action.runOn_ask hindex),
    Action.runOn_bind_ok (Action.runOn_read hget), Action.runOn_update_bind]
  rfl

theorem Sound.listAssign_eq : (listAssign list subscript item).runOn h = (do
    let h₁ ← h.retain item
    let h₂ ← h₁.arraySet values index item
    let h' ← h₂.release q
    return (.ok (), h')) := by
  rw [listAssign, Action.runOn_bind_ok (Action.runOn_ask hindex),
    Action.runOn_bind_ok (Action.runOn_read (hs.listParts_answers hlist)),
    Action.runOn_bind_ok (Action.runOn_read (hs.arrayGet_answers hxs hi))]
  simp only [Action.runOn_update_bind]
  rfl

theorem Sound.listDelete_eq : (listDelete list subscript).runOn h = (do
    let h₁ ← h.shiftFrom values index (size - 1 - index)
    let h₂ ← h₁.arraySet values (size - 1) .null
    let h₃ ← h₂.storeField list Layout.listSizeOffset (size - 1)
    let h' ← h₃.release q
    return (.ok (), h')) := by
  rw [listDelete, Action.runOn_bind_ok (Action.runOn_ask hindex),
    Action.runOn_bind_ok (Action.runOn_read (hs.listParts_answers hlist)),
    Action.runOn_bind_ok (Action.runOn_read (hs.arrayGet_answers hxs hi))]
  simp only [Action.runOn_update_bind]
  rfl

variable (hl : s.Ledger arrays owned) (hin : index < size)
include hl hin

theorem Sound.listAssign_runs (hitem : Seen s item) (hfew : s.count item + 1 < Word.limit) :
    ∃ (h₁ : Heap) (s₁ : Store) (h' : Heap),
      (listAssign list subscript item).runOn h = .ok (.ok (), h') ∧
        h₁.release q = .ok h' ∧ h₁.Sound s₁ ∧ s₁.Ledger arrays (q :: owned) ∧
        s₁.content = Function.update s.content values (some (.array (xs.set index item))) ∧
          s₁.count = Function.update s.count item (s.count item + 1) := by
  obtain ⟨h₀, hret⟩ := hs.tells.retain_answers hitem.choose_spec.1 hfew
  have hlt := (List.getElem?_eq_some_iff.mp hi).1
  obtain ⟨h₁, hset⟩ := (hs.tells.retain hret).2.arraySet_answers hxs hlt item
  obtain ⟨s₁, hs₁, hl₁, hcontent₁, hcount₁⟩ :=
    hs.replaceElement hl hitem hlist hxs hin hi hret hset
  obtain ⟨h', hrel⟩ := hs₁.release_answers hl₁ (hl.element_live hlist hxs hin hi)
  refine ⟨h₁, s₁, h', ?_, hrel, hs₁, hl₁, hcontent₁, hcount₁⟩
  rw [hs.listAssign_eq hlist hxs hi hindex, hret, ok_bind, hset, ok_bind, hrel]
  rfl

theorem Sound.listDelete_runs :
    ∃ (h₁ : Heap) (s₁ : Store) (ys : List Reference) (h' : Heap),
      (listDelete list subscript).runOn h = .ok (.ok (), h') ∧
      h₁.release q = .ok h' ∧ h₁.Sound s₁ ∧ s₁.Ledger arrays (q :: owned) ∧
        s₁.content = overwrite s.content
          [(list, some (.list (size - 1) values)), (values, some (.array ys))] ∧
        s₁.count = s.count ∧ ys.take (size - 1) = (xs.take size).eraseIdx index := by
  have hsize := (hl.filled hlist hxs).fits
  have hne : list ≠ values := Store.ne_of_content hlist hxs (by simp)
  obtain ⟨h₁, hshift⟩ : ∃ h₁, h.shiftFrom values index (size - 1 - index) = .ok h₁ :=
    hs.tells.shiftFrom_answers hxs (by omega)
  obtain ⟨ys, ht₁, hys, -⟩ := hs.tells.shiftFrom hxs hshift
  have hlast : size - 1 < ys.length := by
    have hend : ys[size - 1]? = xs[size - 1]? := (hys (size - 1)).trans (if_neg (by omega))
    exact (List.getElem?_eq_some_iff.mp
      (hend.trans (List.getElem?_eq_getElem (by omega)))).1
  obtain ⟨h₂, hset, ht₂⟩ := ht₁.arraySet_tells (Function.update_self ..) hlast .null
  rw [Function.update_idem] at ht₂
  obtain ⟨h₃, hstore⟩ : ∃ h₃, h₂.storeField list Layout.listSizeOffset (size - 1) = .ok h₃ :=
    ht₂.storeField_answers ((Function.update_of_ne hne ..).trans hlist)
      (by change 24 + 8 ≤ 40; decide) _
  obtain ⟨s₃, zs, hs₃, hl₃, hcontent₃, hcount₃, hzs⟩ :=
    hs.removeElement hl hlist hxs hin hi hshift hset hstore
  obtain ⟨h', hrel⟩ := hs₃.release_answers hl₃ (hl.element_live hlist hxs hin hi)
  refine ⟨h₃, s₃, zs, h', ?_, hrel, hs₃, hl₃, hcontent₃, hcount₃, hzs⟩
  rw [hs.listDelete_eq hlist hxs hi hindex, hshift, ok_bind, hset, ok_bind, hstore, ok_bind, hrel]
  rfl

end Places

theorem Sound.roomFor_faults {P : Fault → Prop} (hone : s.count values = 1)
    (hmake : xs.length = size → (Heap.makeArray (max (2 * size) 1)).Faults h P) :
    (roomFor list ⟨size, values⟩).Faults h P := by
  intro e he
  by_cases hfull : xs.length = size
  case neg =>
    rw [roomFor_spare hs hxs hfull] at he
    cases he
  subst hfull
  have hmake := hmake rfl
  rw [Nat.mul_comm] at hmake
  have hcapacity : h.arrayCapacity values = .ok xs.length :=
    hs.arrayCapacity_eq_ok.mpr ⟨xs, hxs, rfl⟩
  have hmul : Word.mul xs.length 2 = .ok (xs.length * 2) :=
    Word.fit_of_lt (hs.double_length_lt hxs)
  rw [roomFor, Action.runOn_bind_ok (Action.runOn_read hcapacity), if_pos rfl,
    Action.runOn_bind_ok (Action.runOn_liftM hmul)] at he
  refine Action.faults_bind hmake ((hs.makeArray _).imp ?_ fun _ _ _ => trivial) e he
  intro grown h₁ hm
  obtain ⟨hnone, s₁, hs₁, hcontent₁, hcount₁⟩ := hm.tells
  have hvg := Store.ne_of_none hxs hnone
  have hlv : list ≠ values := Store.ne_of_content hlist hxs (by simp)
  have hv₁ : s₁.content values = some (.array xs) := by
    rw [hcontent₁, Function.update_of_ne hvg, hxs]
  have hgrown : s₁.content grown = some (.array (.replicate (max (xs.length * 2) 1) .null)) := by
    rw [hcontent₁, Function.update_self]
  have hlist₁ : s₁.content list = some (.list xs.length values) := by
    rw [hcontent₁, Function.update_of_ne (Store.ne_of_none hlist hnone), hlist]
  obtain ⟨h₂, hmove⟩ : ∃ h₂, h₁.moveFrom values grown 0 xs.length = .ok h₂ :=
    hs₁.tells.moveFrom_answers hvg hv₁ hgrown (by omega) (by rw [List.length_replicate]; omega)
  obtain ⟨left, hdead, ht₂⟩ := hs₁.tells.moveAll hvg hv₁ hgrown hmove
  have hone₁ : s₁.count values = 1 := by rw [hcount₁, Function.update_of_ne hvg, hone]
  have hheld := Store.held_of_dead hdead
  obtain ⟨h₃, hrel⟩ := ht₂.releaseBlank_answers (Function.update_self ..) hone₁ hheld
  have ht₃ := ht₂.releaseBlank (Function.update_self ..) hone₁ hheld hrel
  simp only [overwrite, Function.update_idem] at ht₃
  obtain ⟨h₄, hstore⟩ : ∃ h₄, h₃.storeReference list Layout.listValuesOffset grown = .ok h₄ :=
    ht₃.storeReference_answers (x := .list xs.length values)
      (by rw [Function.update_of_ne hlv, Function.update_of_ne (Store.ne_of_none hlist hnone),
        hlist₁]) (by change 32 + 4 ≤ 40; decide) _
  refine Action.Completes.faults ?_
  simp only [Action.completes_bind, Action.completes_update, Action.ends_update, hmove, hrel,
    hstore, Except.ok.injEq, exists_eq', forall_eq', true_and, Action.completes_pure]

end Elements

variable (hl : s.Ledger arrays owned)
include hl

theorem Sound.rare_count_lt (hm : h.Moderate) (hrare : Rare (arrays ++ owned)) (q : Reference) :
    s.count q + 1 < Word.limit := by
  have hcount := hs.count_le hl hm hrare q
  simp only [Word.limit]
  omega

theorem Sound.rare_retain_answers (hm : h.Moderate) (hrare : Rare (arrays ++ owned))
    (hr : s.content r = some x) : ∃ h', h.retain r = .ok h' :=
  hs.tells.retain_answers hr (hs.rare_count_lt hl hm hrare r)

section Completing

variable {size : Nat} (hlist : s.content list = some (.list size values)) (hsub : Seen s subscript)
include hlist hsub

theorem Sound.listSubscript_completes (hm : h.Moderate) (hrare : Rare (arrays ++ owned)) :
    (listSubscript list subscript).Completes h := by
  obtain ⟨a, hindex⟩ := hs.listIndex_answers hlist hsub
  cases a with
  | error e => exact ⟨_, h, Action.runOn_bind_error (Action.runOn_ask hindex)⟩
  | ok index =>
    have hin := hs.listIndex_lt hlist hindex
    obtain ⟨xs, q, x, hxs, -, hi, -, hx⟩ := hl.element_there hlist hin
    obtain ⟨h', hret⟩ := hs.rare_retain_answers hl hm hrare hx
    exact ⟨_, h', by rw [hs.listSubscript_eq hlist hxs hi hindex hin, hret]; rfl⟩

theorem Sound.listAssign_completes (hm : h.Moderate) (hrare : Rare (arrays ++ owned))
    (hitem : Seen s item) : (listAssign list subscript item).Completes h := by
  obtain ⟨a, hindex⟩ := hs.listIndex_answers hlist hsub
  cases a with
  | error e => exact ⟨_, h, Action.runOn_bind_error (Action.runOn_ask hindex)⟩
  | ok index =>
    have hin := hs.listIndex_lt hlist hindex
    obtain ⟨xs, q, x, hxs, -, hi, -, -⟩ := hl.element_there hlist hin
    obtain ⟨-, -, h', hrun, -⟩ := hs.listAssign_runs hlist hxs hi hindex hl hin hitem
      (hs.rare_count_lt hl hm hrare item)
    exact ⟨_, h', hrun⟩

theorem Sound.listDelete_completes : (listDelete list subscript).Completes h := by
  obtain ⟨a, hindex⟩ := hs.listIndex_answers hlist hsub
  cases a with
  | error e => exact ⟨_, h, Action.runOn_bind_error (Action.runOn_ask hindex)⟩
  | ok index =>
    have hin := hs.listIndex_lt hlist hindex
    obtain ⟨xs, q, x, hxs, -, hi, -, -⟩ := hl.element_there hlist hin
    obtain ⟨-, -, -, h', hrun, -⟩ := hs.listDelete_runs hlist hxs hi hindex hl hin
    exact ⟨_, h', hrun⟩

end Completing

theorem Sound.newList_completes (hm : h.Moderate) (hrare : Rare (arrays ++ owned))
    {elements : List Reference} (hseen : ∀ r ∈ elements, Seen s r)
    (hlength : Layout.elementOffset elements.length + 8 < Word.limit) :
    (newList elements).Completes h := by
  simp only [newList, Action.completes_bind, Action.completes_orUndo, Action.ends_orUndo,
    Action.completes_update, Action.ends_update, Action.completes_pure, implies_true, and_true]
  refine ⟨hs.makeArray_completes hm hlength, ?_⟩
  have hmoderate := (.array elements.length : Creates True _).moderate hs hm
  refine ((hs.makeArray elements.length).and hmoderate).imp ?_ fun _ _ _ => trivial
  rintro values h₁ ⟨hmade, hm₁⟩
  obtain ⟨hnone, s₁, hs₁, hcontent₁, hcount₁⟩ := hmade.tells
  have hl₁ := hl.makeArray hnone hmade.live hcontent₁ hcount₁ (blank_replicate _)
  have hvalues : s₁.content values = some (.array (.replicate elements.length .null)) := by
    rw [hcontent₁, Function.update_self]
  have hmade₂ := hs₁.makeList values
  refine ⟨⟨hs₁.makeList_completes hm₁ hvalues, hmade₂.imp (fun _ _ _ => trivial) ?_⟩,
    hmade₂.imp ?_ fun _ _ _ => trivial⟩
  · rintro _ _ rfl
    exact hs₁.owned_release_answers hl₁ List.mem_cons_self hmade.live
  · rintro list h₂ ⟨-, hmade₂⟩
    obtain ⟨hnone₂, s₂, hs₂, hcontent₂, hcount₂⟩ := hmade₂.tells
    have hkept {q : Reference} {y : Content} (hq : s.content q = some y) :
        s₂.content q = some y := by
      have hq₁ : s₁.content q = some y := by
        rw [hcontent₁, Function.update_of_ne (Store.ne_of_none hq hnone), hq]
      rw [hcontent₂, Function.update_of_ne (Store.ne_of_none hq₁ hnone₂), hq₁]
    have hvalues₂ : s₂.content values = some (.array (.replicate elements.length .null)) := by
      rw [hcontent₂, Function.update_of_ne (Store.ne_of_none hvalues hnone₂), hvalues]
    have hlist₂ : s₂.content list = some (.list 0 values) := by
      rw [hcontent₂, Function.update_self]
    have hfit := hs₁.length_le hm₁ hvalues
    rw [List.length_replicate] at hfit
    have hcount (q : Reference) : s₂.count q + elements.length < Word.limit := by
      have hq := hs.count_le hl hm hrare q
      simp only [hcount₂, hcount₁, Function.update_apply, Word.limit]
      split_ifs <;> omega
    have hthere : ∀ r ∈ elements, ∃ x, s₂.content r = some x := fun r hr =>
      ⟨_, hkept (hseen r hr).choose_spec.1⟩
    obtain ⟨h₃, f, n, hplace, ht₃, hothers⟩ := hs₂.tells.placeFrom_answers hvalues₂
      (by rw [Nat.zero_add, List.length_replicate]) hthere hcount
    refine ⟨⟨h₃, hplace⟩, fun h₄ hplace' => ?_⟩
    cases hplace.symm.trans hplace'
    have hlist₃ : f list = some (.list 0 values) := by
      rw [hothers list (Store.ne_of_content hlist₂ hvalues₂ (by simp)), hlist₂]
    exact ht₃.storeField_answers hlist₃ (by change 24 + 8 ≤ 40; decide) _

end Lists

end Heap

end CountedHeap
