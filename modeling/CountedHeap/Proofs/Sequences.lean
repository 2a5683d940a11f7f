import CountedHeap.Proofs.DictAnswering
import CountedHeap.Proofs.Isolation
import CountedHeap.Proofs.Meanings
import CountedHeap.Proofs.Shapes

/-!
Lists as sequences. What a subscript does to a list it does to the sequence of its elements, and so
does adding one more. Elements that are moved keep their counts, in the array where they stand or to
a larger one; an element that gives way loses one count, after the one that comes has got its own.
-/

namespace CountedHeap

section Positions

variable {size k : Nat} {i j : Int64}

/-- Where among so many elements the one stands that a subscript means, if it means any. A negative
subscript counts from the end. -/
def position? (size : Nat) (i : Int64) : Option Nat :=
  let j := if 0 ≤ i.toInt then i.toInt else i.toInt + size
  if 0 ≤ j ∧ j < size then some j.toNat else none

theorem position?_lt (hk : position? size i = some k) : k < size := by
  simp only [position?] at hk
  split_ifs at hk <;> cases hk <;> omega

theorem toInt_fromEnd (hsize : size < 2 ^ 63) (i : Int64) :
    (if i < 0 then i + Int64.ofNat size else i).toInt =
      if 0 ≤ i.toInt then i.toInt else i.toInt + size := by
  have hle := i.le_toInt
  have hlt := i.toInt_lt
  simp only [Int64.lt_iff_toInt_lt, Int64.toInt_zero]
  split_ifs
  · omega
  · rw [Int64.toInt_add, Int64.toInt_ofNat_of_lt hsize, Int.bmod_eq_of_le (by omega) (by omega)]
  · rfl
  · omega

theorem position?_eq (hj : j.toInt = if 0 ≤ i.toInt then i.toInt else i.toInt + size) :
    position? size i =
      if j < 0 || size ≤ j.toNatClampNeg then none else some j.toNatClampNeg := by
  simp only [position?, ← hj, Int64.toNatClampNeg, Bool.or_eq_true, decide_eq_true_eq,
    Int64.lt_iff_toInt_lt, Int64.toInt_zero]
  split_ifs <;> first | rfl | omega

example : (position? 3 (-1), position? 3 (-3), position? 3 (-4), position? 3 Int64.minValue) =
    (some 2, some 0, none, none) := by decide

end Positions

namespace Heap

variable {h h' h₁ : Heap} {s s' s₁ : Store} {r q v list values sub item : Reference} {x : Content}
  {xs ys elements arrays owned gone made changed taken : List Reference} {size j : Nat}
  {i : Int64}

section Changes

/-- All that is different in another heap: what is gone and what is made, what may hold something
else, and that there is one count more for each time that something is taken. -/
structure Edited (h h' : Heap) (gone made changed taken : List Reference) : Prop where
  fresh : ∀ q ∈ made, ¬h.Occupied q
  occupied : ∀ q, h'.Occupied q ↔ q ∈ made ∨ (h.Occupied q ∧ q ∉ gone)
  contents : ∀ q x, q ∉ gone → q ∉ changed → h.contents q = .ok x → h'.contents q = .ok x
  refcount : ∀ q n, q ∉ gone → h.refcount q = .ok n → h'.refcount q = .ok (n + taken.count q)

/-- One count of a value goes. With the last one the value goes, and what is left is as it was;
otherwise nothing else is different. -/
structure Loses (h h' : Heap) (q : Reference) : Prop where
  release : h.release q = .ok h'
  counted : ∃ n, h.refcount q = .ok (n + 1)
  last : h.refcount q = .ok 1 → ¬h'.Occupied q
  kept : ∀ r x, h'.contents r = .ok x → h.contents r = .ok x
  more : ∀ n, h.refcount q = .ok (n + 2) → h'.refcount q = .ok (n + 1) ∧
    (∀ r, h'.Occupied r ↔ h.Occupied r) ∧ (∀ r x, h.contents r = .ok x → h'.contents r = .ok x) ∧
      ∀ r m, r ≠ q → h.refcount r = .ok m → h'.refcount r = .ok m

def Retainable (h : Heap) (q : Reference) : Prop :=
  ∃ n, h.refcount q = .ok n ∧ n + 1 < Word.limit

theorem Stored.refcount_eq_ok (hs : h.Stored s) {n : Nat} :
    h.refcount r = .ok n ↔ (∃ x, s.content r = some x) ∧ s.count r = n := by
  constructor
  · intro hr
    obtain ⟨a, hderef, -⟩ := bind_eq_ok.mp hr
    obtain ⟨c, hc, -⟩ := hs.deref_eq_ok.mp hderef
    rw [hs.refcount_eq hc, Except.ok.injEq] at hr
    exact ⟨⟨_, Store.content_of hc⟩, (Store.count_eq hc).trans hr⟩
  · rintro ⟨⟨x, hx⟩, rfl⟩
    exact hs.refcount_of_content hx

theorem Stored.retainable_iff (hs : h.Stored s) (hq : s.content q = some x) :
    h.Retainable q ↔ s.count q + 1 < Word.limit := by
  constructor
  · rintro ⟨n, hn, hlt⟩
    rwa [(hs.refcount_eq_ok.mp hn).2]
  · exact fun hlt => ⟨_, hs.refcount_of_content hq, hlt⟩

theorem Stored.edited (hs : h.Stored s) (hs' : h'.Stored s')
    (hmade : ∀ q ∈ made, s.content q = none ∧ s'.content q ≠ none)
    (hgone : ∀ q ∈ gone, s'.content q = none)
    (hchanged : ∀ q ∈ changed, q ∉ gone → (s'.content q = none ↔ s.content q = none))
    (hsame : ∀ q, q ∉ made → q ∉ gone → q ∉ changed → s'.content q = s.content q)
    (hcount : ∀ q x, q ∉ gone → s.content q = some x → s'.count q = s.count q + taken.count q) :
    Edited h h' gone made changed taken := by
  have hnew : ∀ {q x}, s.content q = some x → q ∉ made := fun hq hmem => by
    rw [(hmade _ hmem).1] at hq
    cases hq
  have hstays : ∀ q, q ∉ made → q ∉ gone → (s'.content q = none ↔ s.content q = none) := by
    intro q hnot hstill
    by_cases hq : q ∈ changed
    · exact hchanged q hq hstill
    · rw [hsame q hnot hstill hq]
  refine ⟨fun q hq hold => ?_, fun q => ?_, fun q x hstill hq hx => ?_, fun q n hstill hn => ?_⟩
  · obtain ⟨x, hx⟩ := hs.occupied_iff_content.mp hold
    exact hnew hx hq
  · rw [hs'.occupied_iff_content, hs.occupied_iff_content, ← Option.ne_none_iff_exists',
      ← Option.ne_none_iff_exists']
    by_cases hq : q ∈ made
    · exact iff_of_true (hmade q hq).2 (.inl hq)
    · by_cases hlost : q ∈ gone
      · simp [hq, hlost, hgone q hlost]
      · simp [hq, hlost, hstays q hq hlost]
  · have hx := hs.contents_eq_ok.mp hx
    exact hs'.contents_eq_ok.mpr ((hsame q (hnew hx) hstill hq).trans hx)
  · obtain ⟨⟨x, hx⟩, rfl⟩ := hs.refcount_eq_ok.mp hn
    refine hs'.refcount_eq_ok.mpr ⟨?_, hcount q x hstill hx⟩
    rw [← Option.ne_none_iff_exists', ne_eq, hstays q (hnew hx) hstill, hx]
    exact Option.some_ne_none x

theorem release_of_giveUp (hgive : h.giveUp r = .ok (h', none)) : h.release r = .ok h' := by
  unfold release
  cases h.table.size <;> simp only [releaseAll, runTasks, hgive, ok_bind]

theorem Sound.release_loses (hs : h.Sound s) (hl : s.Ledger arrays (q :: owned))
    (hlive : q.isLive = true) (hrel : h.release q = .ok h') :
    ∃ s', h'.Sound s' ∧ s'.Ledger arrays owned ∧ s.Fewer s' ∧ Loses h h' q := by
  obtain ⟨s', hs', hl', -, hfewer⟩ :=
    hs.release_ledger hl .nothing (Anchored.nothing (s := s)).standing hrel
  have hcount := hl.count_eq hlive
  rw [List.count_cons_self] at hcount
  obtain ⟨x, hx⟩ : ∃ x, s.content q = some x :=
    hl.exact.occupied hlive (by rw [List.count_append, List.count_cons_self]; omega)
  obtain ⟨c, hc, -⟩ := Store.content_eq_some.mp hx
  refine ⟨s', hs', hl', hfewer, hrel, ⟨s.count q - 1, ?_⟩, fun hone => ?_, fun r y hr => ?_,
    fun n hn => ?_⟩
  · exact hs.refcount_eq_ok.mpr ⟨⟨x, hx⟩, by omega⟩
  · obtain ⟨-, hone⟩ := hs.refcount_eq_ok.mp hone
    intro hleft
    obtain ⟨y, hy⟩ := hs'.occupied_iff_content.mp hleft
    have hpos := hl'.positive hy
    have hcount' := hl'.count_eq hlive
    have hedges := hfewer.edges_le (q := q)
    omega
  · exact hs.contents_eq_ok.mpr (hfewer r y (hs'.contents_eq_ok.mp hr))
  · obtain ⟨-, hn⟩ := hs.refcount_eq_ok.mp hn
    obtain ⟨h₁, o, hgive⟩ := hs.giveUp_answers hc
    obtain ⟨d, hd, hs₁, ho⟩ := hs.giveUp hgive
    cases hc.symm.trans hd
    rw [if_neg (by rw [← Store.count_eq hc]; omega)] at ho
    subst ho
    cases hrel.symm.trans (release_of_giveUp hgive)
    have hcontent : (s.set q { c with count := c.count - 1 }).content = s.content :=
      Store.content_set_same hc
    have hcounts : (s.set q { c with count := c.count - 1 }).count =
        Function.update s.count q (n + 1) := by
      rw [Store.count_set, ← Store.count_eq hc, hn]
      rfl
    refine ⟨?_, fun r => ?_, fun r y hr => ?_, fun r m hne hm => ?_⟩
    · exact hs₁.refcount_eq_ok.mpr ⟨⟨x, hcontent ▸ hx⟩, by rw [hcounts, Function.update_self]⟩
    · rw [hs₁.occupied_iff_content, hs.occupied_iff_content, hcontent]
    · exact hs₁.contents_eq_ok.mpr (hcontent ▸ hs.contents_eq_ok.mp hr)
    · obtain ⟨hthere, rfl⟩ := hs.refcount_eq_ok.mp hm
      exact hs₁.refcount_eq_ok.mpr
        ⟨hcontent ▸ hthere, by rw [hcounts, Function.update_of_ne hne]⟩

end Changes

section Surviving

theorem reached_there (hl : s'.Ledger arrays owned) (hfewer : s.Fewer s')
    (hq : s.Reaches (arrays ++ owned) q) : ∃ x, s.content q = some x ∧ s'.content q = some x := by
  suffices ∃ x, s'.content q = some x from this.imp fun x hx => ⟨hfewer q x hx, hx⟩
  induction hq with
  | root hmem hlive =>
    have hpos := List.count_pos_iff.mpr hmem
    exact hl.exact.occupied hlive (by omega)
  | @edge r q hr hheld hlive ih =>
    obtain ⟨x, hx⟩ := ih
    rw [Store.held_of_content (hfewer r x hx), ← Store.held_of_content hx] at hheld
    have hpos := edges.pos_of_mem hr.isLive hheld
    exact hl.exact.occupied hlive (by omega)

theorem reaches_list (hl : s.Ledger arrays owned)
    (hlist : s.content list = some (.list size values)) (hxs : s.content values = some (.array xs))
    (hsame : ∀ p, p ≠ list → p ≠ values → s'.held p = s.held p)
    (hreach : s.Reaches (arrays ++ owned) list) : s'.Reaches (arrays ++ owned) list := by
  obtain ⟨harrays, howned, -, hsole⟩ := hl.sole ⟨xs, hxs⟩ (Store.mem_held_list hlist)
  have hway : ∀ q, s.Reaches (arrays ++ owned) q →
      s'.Reaches (arrays ++ owned) list ∨ (q ≠ values ∧ s'.Reaches (arrays ++ owned) q) := by
    intro q hq
    induction hq with
    | root hmem hlive =>
      refine .inr ⟨?_, .root hmem hlive⟩
      rintro rfl
      have hpos := List.count_pos_iff.mpr hmem
      rw [List.count_append] at hpos
      omega
    | @edge r q hr hq hlive ih =>
      rcases ih with hdone | ⟨hrv, hr'⟩
      · exact .inl hdone
      · by_cases hrl : r = list
        · exact .inl (hrl ▸ hr')
        · refine .inr ⟨fun hqv => hrl (hsole r (hqv ▸ hq)), .edge hr' ?_ hlive⟩
          rwa [hsame r hrl hrv]
  exact (hway list hreach).elim id And.right

/-- A list comes to these elements, and then one count goes that it was led to by before. -/
structure Exchanges (h h' : Heap) (list : Reference) (elements changed taken : List Reference)
    (lost : Reference) : Prop where
  steps : ∃ h₁, Edited h h₁ [] [] changed taken ∧ h₁.items list = .ok elements ∧ Loses h₁ h' lost
  items : h'.items list = .ok elements

theorem Exchanges.undone (he : Exchanges h h' list elements changed [q] q)
    (hcount : ∃ n, h.refcount q = .ok (n + 1)) : Edited h h' [] [] changed [] := by
  obtain ⟨h₁, hedit, -, hloses⟩ := he.steps
  obtain ⟨n, hn⟩ := hcount
  have hmore : h₁.refcount q = .ok (n + 2) := by
    have hone := hedit.refcount q _ List.not_mem_nil hn
    rwa [List.count_singleton_self] at hone
  obtain ⟨hself, hoccupied, hcontents, hothers⟩ := hloses.more n hmore
  refine ⟨by simp, fun r => (hoccupied r).trans (hedit.occupied r), fun r x hr hr' hx =>
    hcontents r x (hedit.contents r x hr hr' hx), fun r m hr hm => ?_⟩
  by_cases hrq : r = q
  · rw [hrq, hn] at hm
    cases hm
    rw [hrq, hself]
    rfl
  · have hsame := hedit.refcount r m hr hm
    rw [List.count_singleton, if_neg (by simpa using Ne.symm hrq)] at hsame
    exact hothers r m hrq hsame

theorem Sound.exchanges (hs₁ : h₁.Sound s₁) (hl₁ : s₁.Ledger arrays (q :: owned))
    (hlive : q.isLive = true) (hrel : h₁.release q = .ok h')
    (hreach : s₁.Reaches (arrays ++ owned) list)
    (hlist : s₁.content list = some (.list size values))
    (hys : s₁.content values = some (.array ys)) (hedit : Edited h h₁ [] [] changed taken) :
    Exchanges h h' list (ys.take size) changed taken q := by
  obtain ⟨s', hs', hl', hfewer, hloses⟩ := hs₁.release_loses hl₁ hlive hrel
  obtain ⟨x, hx, hlist'⟩ := reached_there hl' hfewer hreach
  cases hlist.symm.trans hx
  obtain ⟨y, hy, hys'⟩ :=
    reached_there hl' hfewer (.edge hreach (Store.mem_held_list hlist) (hl₁.live hys))
  cases hys.symm.trans hy
  exact ⟨⟨h₁, hedit, hs₁.items_eq hlist hys, hloses⟩, hs'.items_eq hlist' hys'⟩

end Surviving

section Subscripts

/-- A subscript that no operation takes: each ends in the error and changes nothing. -/
structure Refuses (h : Heap) (list sub : Reference) (e : Failure) : Prop where
  get : (subscript list sub).runOn h = .ok (.error e, h)
  set : ∀ item, (assignItem list sub item).runOn h = .ok (.error e, h)
  delete : (deleteItem list sub).runOn h = .ok (.error e, h)

/-- An element is answered, and counted once more if its count has room for that. -/
structure ReadsElement (h : Heap) (list sub q : Reference) : Prop where
  answers : h.Retainable q → ∃ h', (subscript list sub).runOn h = .ok (.ok q, h') ∧
    Edited h h' [] [] [] [q]
  overflows : ¬h.Retainable q → (subscript list sub).runOn h = .error .overflow

/-- An item is counted and takes the place of an element, which loses a count after that. -/
structure ReplacesElement (h : Heap) (list sub : Reference) (elements : List Reference) (j : Nat)
    (q item : Reference) : Prop where
  answers : h.Retainable item → ∃ h', (assignItem list sub item).runOn h = .ok (.ok (), h') ∧
    Exchanges h h' list (elements.set j item) (h.storage list) [item] q
  itself : item = q → h.Retainable item → ∃ h',
    (assignItem list sub item).runOn h = .ok (.ok (), h') ∧
      Edited h h' [] [] (h.storage list) [] ∧ h'.items list = .ok elements
  overflows : ¬h.Retainable item → (assignItem list sub item).runOn h = .error .overflow

/-- An element goes, those behind it move down, and it loses a count after that. -/
def RemovesElement (h : Heap) (list sub : Reference) (elements : List Reference) (j : Nat)
    (q : Reference) : Prop :=
  ∃ h', (deleteItem list sub).runOn h = .ok (.ok (), h') ∧
    Exchanges h h' list (elements.eraseIdx j) (list :: h.storage list) [] q

variable (hs : h.Stored s) (hlist : s.content list = some (.list size values))
include hs hlist

theorem Stored.storage_list : h.storage list = [values] := by
  obtain ⟨c, hc, hx⟩ := Store.content_eq_some.mp hlist
  rw [storage, hs.value_eq hc, hx]
  rfl

theorem Stored.kindOf_list : h.kindOf list = .ok .list := hs.kindOf_eq_ok.mpr ⟨_, hlist, rfl⟩

theorem Stored.subscript_list :
    (subscript list sub).runOn h = (listSubscript list sub).runOn h := by
  rw [subscript, Action.runOn_bind_ok (Action.runOn_read (hs.kindOf_list hlist))]
  rfl

theorem Stored.assignItem_list :
    (assignItem list sub item).runOn h = (listAssign list sub item).runOn h := by
  rw [assignItem, Action.runOn_bind_ok (Action.runOn_read (hs.kindOf_list hlist))]
  rfl

theorem Stored.deleteItem_list :
    (deleteItem list sub).runOn h = (listDelete list sub).runOn h := by
  rw [deleteItem, Action.runOn_bind_ok (Action.runOn_read (hs.kindOf_list hlist))]
  rfl

theorem Stored.listIndex_integer (hsub : s.content sub = some (.integer i))
    (hsize : size < 2 ^ 63) :
    h.listIndex list sub = .ok ((position? size i).elim (.error .listIndexRange) .ok) := by
  obtain ⟨c, hc, hx⟩ := Store.content_eq_some.mp hsub
  rw [position?_eq (toInt_fromEnd hsize i), listIndex, hs.value_eq hc, hx,
    hs.listParts_answers hlist]
  change (ite _ (throw .listIndexRange) (pure _) : Query Failure Nat) = _
  split_ifs <;> rfl

omit hlist in
theorem Stored.listIndex_kind (hsub : s.content sub = some x) (hkind : x.kind ≠ .integer) :
    h.listIndex list sub = .ok (.error .listIndexKind) := by
  obtain ⟨c, hc, hx⟩ := Store.content_eq_some.mp hsub
  rw [listIndex, hs.value_eq hc, hx]
  cases x with
  | integer => exact absurd rfl hkind
  | _ => rfl

theorem Stored.refuses {e : Failure} (hindex : h.listIndex list sub = .ok (.error e)) :
    Refuses h list sub e where
  get := by
    rw [hs.subscript_list hlist]
    exact Action.runOn_bind_error (Action.runOn_ask hindex)
  set _ := by
    rw [hs.assignItem_list hlist]
    exact Action.runOn_bind_error (Action.runOn_ask hindex)
  delete := by
    rw [hs.deleteItem_list hlist]
    exact Action.runOn_bind_error (Action.runOn_ask hindex)

end Subscripts

section Elements

variable (hs : h.Sound s) (hlist : s.content list = some (.list size values))
  (hxs : s.content values = some (.array xs)) (hin : j < size) (hj : xs[j]? = some q)
  (hindex : h.listIndex list sub = .ok (.ok j))
include hs hlist hxs hin hj hindex

theorem Sound.readsElement (hq : s.content q = some x) : ReadsElement h list sub q := by
  refine ⟨fun hfew => ?_, fun hmany => ?_⟩ <;>
    rw [hs.subscript_list hlist, hs.listSubscript_eq hlist hxs hj hindex hin]
  · obtain ⟨h', hret⟩ := hs.tells.retain_answers hq ((hs.retainable_iff hq).mp hfew)
    obtain ⟨-, s', hs', hcontent', hcount'⟩ := hs.tells.retain hret
    refine ⟨h', by rw [hret]; rfl, hs.edited hs'.toStored (by simp) (by simp) (by simp)
      (fun p _ _ _ => by rw [hcontent']) fun p y _ _ => ?_⟩
    rw [hcount', Store.count_update_succ]
  · rw [hs.retain_overflow hq fun hfew => hmany ((hs.retainable_iff hq).mpr hfew)]
    rfl

variable (hl : s.Ledger arrays owned) (hreach : s.Reaches (arrays ++ owned) list)
include hl hreach

theorem Sound.replacesElement (hitem : Seen s item) :
    ReplacesElement h list sub (xs.take size) j q item := by
  obtain ⟨x, hx, -⟩ := id hitem
  have hne : list ≠ values := Store.ne_of_content hlist hxs (by simp)
  have hanswers : h.Retainable item → ∃ h',
      (assignItem list sub item).runOn h = .ok (.ok (), h') ∧
        Exchanges h h' list ((xs.take size).set j item) (h.storage list) [item] q := by
    intro hfew
    obtain ⟨h₁, s₁, h', hrun, hrel, hs₁, hl₁, hcontent₁, hcount₁⟩ :=
      hs.listAssign_runs hlist hxs hj hindex hl hin hitem ((hs.retainable_iff hx).mp hfew)
    have hsame : ∀ p, p ≠ values → s₁.content p = s.content p := fun p hp => by
      rw [hcontent₁, Function.update_of_ne hp]
    have hself : s₁.content values = some (.array (xs.set j item)) := by
      rw [hcontent₁, Function.update_self]
    have hreach₁ : s₁.Reaches (arrays ++ owned) list := reaches_list hl hlist hxs
      (fun p _ hp => by rw [Store.held, Store.held, hsame p hp]) hreach
    refine ⟨h', (hs.assignItem_list hlist).trans hrun, ?_⟩
    rw [← List.take_set, hs.storage_list hlist]
    refine hs₁.exchanges hl₁ (hl.element_live hlist hxs hin hj) hrel hreach₁
      ((hsame list hne).trans hlist) hself (hs.edited hs₁.toStored (by simp) (by simp) ?_ ?_ ?_)
    · simp [hself, hxs]
    · exact fun p _ _ hp => hsame p (by simpa using hp)
    · exact fun p y _ _ => by rw [hcount₁, Store.count_update_succ]
  refine ⟨hanswers, ?_, fun hmany => ?_⟩
  · rintro rfl hfew
    obtain ⟨h', hrun, hex⟩ := hanswers hfew
    have hpos := hl.positive hx
    have hcount : ∃ n, h.refcount item = .ok (n + 1) :=
      ⟨s.count item - 1, hs.refcount_eq_ok.mpr ⟨⟨x, hx⟩, by omega⟩⟩
    obtain ⟨hlt, heq⟩ :=
      List.getElem?_eq_some_iff.mp ((List.getElem?_take_of_lt hin).trans hj)
    have hback : (xs.take size).set j item = xs.take size := by
      calc (xs.take size).set j item = (xs.take size).set j (xs.take size)[j] := by rw [heq]
        _ = xs.take size := List.set_getElem_self hlt
    exact ⟨h', hrun, hex.undone hcount, hback ▸ hex.items⟩
  · rw [hs.assignItem_list hlist, hs.listAssign_eq hlist hxs hj hindex,
      hs.retain_overflow hx fun hfew => hmany ((hs.retainable_iff hx).mpr hfew)]
    rfl

theorem Sound.removesElement : RemovesElement h list sub (xs.take size) j q := by
  have hne : list ≠ values := Store.ne_of_content hlist hxs (by simp)
  obtain ⟨h₁, s₁, ys, h', hrun, hrel, hs₁, hl₁, hcontent₁, hcount₁, hys⟩ :=
    hs.listDelete_runs hlist hxs hj hindex hl hin
  have hsame : ∀ p, p ≠ list → p ≠ values → s₁.content p = s.content p := fun p hp hp' => by
    rw [hcontent₁, overwrite_of_not_mem]
    simpa using ⟨hp, hp'⟩
  have hself : s₁.content values = some (.array ys) := by
    rw [hcontent₁, overwrite, Function.update_of_ne hne.symm]
    exact Function.update_self ..
  have hlist₁ : s₁.content list = some (.list (size - 1) values) := by
    rw [hcontent₁]
    exact Function.update_self ..
  have hreach₁ : s₁.Reaches (arrays ++ owned) list := reaches_list hl hlist hxs
    (fun p hp hp' => by rw [Store.held, Store.held, hsame p hp hp']) hreach
  refine ⟨h', by rw [hs.deleteItem_list hlist, hrun], ?_⟩
  rw [← hys, hs.storage_list hlist]
  refine hs₁.exchanges hl₁ (hl.element_live hlist hxs hin hj) hrel hreach₁ hlist₁ hself
    (hs.edited hs₁.toStored (by simp) (by simp) ?_ ?_ ?_)
  · simp [hself, hlist₁, hxs, hlist]
  · intro p _ _ hp
    rw [List.mem_cons, List.mem_singleton, not_or] at hp
    exact hsame p hp.1 hp.2
  · exact fun p y _ _ => by rw [hcount₁, List.count_nil, Nat.add_zero]

end Elements

section Pushing

def listCapacity (h : Heap) (list : Reference) : Except Fault Nat := do
  let parts ← h.listParts list
  h.arrayCapacity parts.values

/-- A list has one element more, behind those that it had, and stands on the array that it stood on
or, where that was full, on a new one of twice the room. -/
structure Pushed (h h' : Heap) (list : Reference) (elements : List Reference) (item : Reference) :
    Prop where
  items : h'.items list = .ok (elements ++ [item])
  room : (∃ capacity, h.listCapacity list = .ok capacity ∧ elements.length < capacity ∧
      h'.listCapacity list = .ok capacity ∧ h'.storage list = h.storage list ∧
        Edited h h' [] [] (list :: h.storage list) [item]) ∨
    (h.listCapacity list = .ok elements.length ∧ ∃ grown,
      h'.listCapacity list = .ok (max (2 * elements.length) 1) ∧ h'.storage list = [grown] ∧
        Edited h h' (h.storage list) [grown] [list] [item])

/-- An element can be added as long as a larger array can be made where one is needed. -/
structure Pushes (h : Heap) (list : Reference) (elements : List Reference) (item : Reference) :
    Prop where
  ends : (listPush list item).Ends h (fun _ h' => Pushed h h' list elements item) fun e h' =>
    h' = h ∧ h.listCapacity list = .ok elements.length ∧
      (makeArray (max (2 * elements.length) 1)).runOn h = .ok (.error e, h)
  completes : h.Retainable item → (h.listCapacity list = .ok elements.length →
    (makeArray (max (2 * elements.length) 1)).Completes h) → (listPush list item).Completes h
  faults : (listPush list item).Faults h Fault.IsLimit

def Roomed (s s₁ : Store) (list : Reference) (size : Nat) (values room : Reference)
    (xs : List Reference) : Prop :=
  (xs.length ≠ size ∧ room = values ∧ s₁ = s) ∨
    (xs.length = size ∧ s.Enlarged s₁ list size values room xs)

variable {room : Reference}

theorem Stored.listCapacity_eq (hs : h.Stored s) (hlist : s.content list = some (.list size values))
    (hxs : s.content values = some (.array xs)) : h.listCapacity list = .ok xs.length := by
  rw [listCapacity, hs.listParts_answers hlist, ok_bind]
  exact hs.arrayCapacity_eq_ok.mpr ⟨xs, hxs, rfl⟩

namespace Roomed

variable (hr : Roomed s s₁ list size values room xs)
  (hlist : s.content list = some (.list size values)) (hxs : s.content values = some (.array xs))
include hr hlist hxs

theorem list_eq : s₁.content list = some (.list size room) := by
  rcases hr with ⟨-, rfl, rfl⟩ | ⟨-, he⟩
  · exact hlist
  · exact he.list_eq

theorem front (hfits : size ≤ xs.length) :
    ∃ ys, s₁.content room = some (.array ys) ∧ size < ys.length ∧ ys.take size = xs.take size ∧
      ys.length = if xs.length = size then max (2 * size) 1 else xs.length := by
  rcases hr with ⟨hspare, rfl, rfl⟩ | ⟨rfl, he⟩
  · exact ⟨xs, hxs, by omega, rfl, (if_neg hspare).symm⟩
  · refine ⟨_, he.room_eq hlist hxs, ?_, (List.take_left' rfl).trans List.take_length.symm, ?_⟩ <;>
      rw [List.length_append, List.length_replicate]
    · omega
    · rw [if_pos rfl]
      omega

theorem seen (hitem : Seen s item) :
    (∃ y, s₁.content item = some y) ∧ s₁.count item = s.count item := by
  obtain ⟨x, hx, hkind⟩ := hitem
  rcases hr with ⟨-, rfl, rfl⟩ | ⟨-, he⟩
  · exact ⟨⟨x, hx⟩, rfl⟩
  · have hvalues : item ≠ values := Store.ne_of_content hx hxs fun heq => hkind (heq ▸ rfl)
    have hroom : item ≠ room := Store.ne_of_none hx he.unused
    refine ⟨?_, by rw [he.count, Function.update_of_ne hvalues, Function.update_of_ne hroom]⟩
    by_cases heq : item = list
    · exact ⟨_, heq ▸ he.list_eq⟩
    · exact ⟨x, he.other hx heq hvalues⟩

end Roomed

section

variable (hs : h.Sound s) (hlist : s.content list = some (.list size values))
  (hxs : s.content values = some (.array xs)) (hone : s.count values = 1)
include hs hlist hxs hone

theorem roomFor_rooms : (roomFor list ⟨size, values⟩).Ends h
    (fun room h₁ => ∃ s₁, h₁.Sound s₁ ∧ Roomed s s₁ list size values room xs) fun e h' =>
      h' = h ∧ xs.length = size ∧
        (Heap.makeArray (max (2 * size) 1)).runOn h = .ok (.error e, h) := by
  by_cases hfull : xs.length = size
  · refine (roomFor_enlarges hs hlist hxs hone hfull).imp (fun room h₁ he => ?_) fun e h' he => ?_
    · obtain ⟨s₁, hs₁, he⟩ := he
      exact ⟨s₁, hs₁, .inr ⟨hfull, he⟩⟩
    · rw [hfull, Nat.mul_comm] at he
      exact ⟨he.1, hfull, he.2⟩
  · intro a h' hrun
    rw [roomFor_spare hs hxs hfull] at hrun
    cases hrun
    exact ⟨s, hs, .inl ⟨hfull, rfl, rfl⟩⟩

end

theorem Roomed.pushed (hr : Roomed s s₁ list size values room xs) (hs : h.Sound s)
    (hs' : h'.Sound s') (hlist : s.content list = some (.list size values))
    (hxs : s.content values = some (.array xs)) (hfits : size ≤ xs.length)
    (hys : s₁.content room = some (.array ys)) (hcontent : s'.content = overwrite s₁.content
      [(list, some (.list (size + 1) room)), (room, some (.array (ys.set size item)))])
    (hcount : s'.count = Function.update s₁.count item (s₁.count item + 1)) :
    Pushed h h' list (xs.take size) item := by
  obtain ⟨zs, hzs, hlt, hfront, hlength⟩ := hr.front hlist hxs hfits
  cases hys.symm.trans hzs
  have hlr : list ≠ room := Store.ne_of_content (hr.list_eq hlist hxs) hys (by simp)
  have hlist' : s'.content list = some (.list (size + 1) room) := by
    rw [hcontent]
    exact Function.update_self ..
  have hself : s'.content room = some (.array (ys.set size item)) := by
    rw [hcontent, overwrite, Function.update_of_ne hlr.symm]
    exact Function.update_self ..
  have hother : ∀ p, p ≠ list → p ≠ room → s'.content p = s₁.content p := fun p hp hp' => by
    rw [hcontent, overwrite_of_not_mem]
    simpa using ⟨hp, hp'⟩
  have hcounts : ∀ p, s'.count p = s₁.count p + [item].count p := fun p => by
    rw [hcount, Store.count_update_succ]
  have hsize : (xs.take size).length = size := List.length_take_of_le hfits
  refine ⟨?_, ?_⟩
  · rw [hs'.items_eq hlist' hself, List.take_add_one, List.take_set_of_le (Nat.le_refl _), hfront,
      List.getElem?_set_self hlt]
    rfl
  · have hcap' := hs'.listCapacity_eq hlist' hself
    rw [List.length_set, hlength] at hcap'
    rw [hsize, hs.storage_list hlist, hs'.storage_list hlist', hs.listCapacity_eq hlist hxs]
    rcases hr with ⟨hspare, rfl, rfl⟩ | ⟨hfull, he⟩
    · rw [if_neg hspare] at hcap'
      refine .inl ⟨_, rfl, by omega, hcap', rfl, hs.edited hs'.toStored (by simp) (by simp) ?_ ?_
        fun p _ _ _ => hcounts p⟩
      · simp [hlist', hself, hlist, hxs]
      · intro p _ _ hp
        rw [List.mem_cons, List.mem_singleton, not_or] at hp
        exact hother p hp.1 hp.2
    · rw [if_pos hfull] at hcap'
      have hvr : values ≠ room := Store.ne_of_none hxs he.unused
      have hvl : values ≠ list := Store.ne_of_content hxs hlist (by simp)
      refine .inr ⟨by rw [hfull], room, hcap', rfl, hs.edited hs'.toStored ?_ ?_ ?_ ?_ ?_⟩
      · simp [he.unused, hself]
      · rw [List.forall_mem_singleton, hother values hvl hvr, he.content, overwrite,
          Function.update_of_ne hvl]
        exact Function.update_self ..
      · simp [hlist', hlist]
      · intro p hp hp' hp''
        rw [List.mem_singleton] at hp hp' hp''
        rw [hother p hp'' hp, he.content, overwrite_of_not_mem]
        simpa using ⟨hp'', hp', hp⟩
      · intro p y hp hy
        rw [List.mem_singleton] at hp
        rw [hcounts, he.count, Function.update_of_ne hp,
          Function.update_of_ne (Store.ne_of_none hy he.unused)]

theorem Roomed.adds_faults {P : Fault → Prop} (hr : Roomed s s₁ list size values room xs)
    (hs₁ : h₁.Sound s₁) (hlist : s.content list = some (.list size values))
    (hxs : s.content values = some (.array xs)) (hfits : size ≤ xs.length) (hitem : Seen s item)
    (hmany : ¬s.count item + 1 < Word.limit → P .overflow) :
    (do
      Action.update (·.retain item)
      Action.update (·.arraySet room size item)
      Action.update (·.storeField list Layout.listSizeOffset (size + 1)) :
        Action OutOfMemory Unit).Faults h₁ P := by
  obtain ⟨⟨y, hy⟩, hcount⟩ := hr.seen hlist hxs hitem
  obtain ⟨ys, hys, hlt, -⟩ := hr.front hlist hxs hfits
  rw [← hcount] at hmany
  by_cases hfew : s₁.count item + 1 < Word.limit
  · obtain ⟨h₂, hret⟩ := hs₁.tells.retain_answers hy hfew
    obtain ⟨h₃, h₄, hset, hstore⟩ :=
      hs₁.tells.addElement_answers (hr.list_eq hlist hxs) hys hlt hret
    refine Action.Completes.faults ?_
    simp only [Action.completes_bind, Action.completes_update, Action.ends_update, hret, hset,
      hstore, Except.ok.injEq, exists_eq', forall_eq', and_self]
  · intro e he
    rw [Action.runOn_update_bind, hs₁.retain_overflow hy hfew, error_bind] at he
    cases he
    exact hmany hfew

section

variable (hs : h.Sound s) (hl : s.Ledger arrays owned)
  (hlist : s.content list = some (.list size values)) (hxs : s.content values = some (.array xs))
include hs hlist

theorem Sound.listPush_eq : (listPush list item).runOn h =
    (roomFor list ⟨size, values⟩ >>= fun room => do
      Action.update (·.retain item)
      Action.update (·.arraySet room size item)
      Action.update (·.storeField list Layout.listSizeOffset (size + 1))).runOn h :=
  Action.runOn_bind_ok (Action.runOn_read (hs.listParts_answers hlist))

include hl hxs

theorem Sound.listPush_faults {P : Fault → Prop} (hitem : Seen s item)
    (hmake : xs.length = size → (Heap.makeArray (max (2 * size) 1)).Faults h P)
    (hmany : ¬s.count item + 1 < Word.limit → P .overflow) : (listPush list item).Faults h P := by
  have hone := hl.count_eq_one hxs
  intro e he
  rw [hs.listPush_eq hlist] at he
  refine Action.faults_bind (hs.roomFor_faults hlist hxs hone hmake)
    ((roomFor_rooms hs hlist hxs hone).imp ?_ fun _ _ _ => trivial) e he
  rintro room h₁ ⟨s₁, hs₁, hr⟩
  exact hr.adds_faults hs₁ hlist hxs (hl.filled hlist hxs).fits hitem hmany

theorem Sound.pushes (hitem : Seen s item) : Pushes h list (xs.take size) item := by
  have hfits := (hl.filled hlist hxs).fits
  have hcap := hs.listCapacity_eq hlist hxs
  obtain ⟨x, hx, -⟩ := id hitem
  refine ⟨?_, fun hfew hmake => ?_, hs.listPush_faults hl hlist hxs hitem
    (fun _ => hs.makeArray_faults _) fun _ => .inl rfl⟩
  · rw [List.length_take_of_le hfits]
    intro a h' hrun
    rw [hs.listPush_eq hlist] at hrun
    revert a h'
    refine Action.ends_bind.mpr ((roomFor_rooms hs hlist hxs (hl.count_eq_one hxs)).imp ?_
      fun e h' he => ⟨he.1, he.2.1 ▸ hcap, he.2.2⟩)
    rintro room h₁ ⟨s₁, hs₁, hr⟩
    simp only [Action.ends_bind, Action.ends_update]
    intro h₂ hret h₃ hset h' hstore
    obtain ⟨ys, hys, -, s', hs', hcontent', hcount'⟩ :=
      hs₁.tells.addElement (hr.list_eq hlist hxs) hret hset hstore
    exact hr.pushed hs hs' hlist hxs hfits hys hcontent' hcount'
  · rw [List.length_take_of_le hfits, hcap, Except.ok.injEq] at hmake
    refine Action.completes_iff_faults.mpr (hs.listPush_faults hl hlist hxs hitem
      (fun hfull => (hmake hfull).faults) fun hmany => hmany ((hs.retainable_iff hx).mp hfew))

end

end Pushing

section Sequences

/-- A list with these elements behaves as the sequence of them: subscripts that mean none of its
elements are refused, the others read, replace or remove the one that they mean, and another element
can be added at the end. -/
structure Sequential (h : Heap) (list : Reference) (elements : List Reference) : Prop where
  kind : ∀ {sub x}, h.contents sub = .ok x → x.kind ≠ .integer → Refuses h list sub .listIndexKind
  range : ∀ {sub i}, h.contents sub = .ok (.integer i) → position? elements.length i = none →
    Refuses h list sub .listIndexRange
  reads : ∀ {sub i j}, h.contents sub = .ok (.integer i) →
    position? elements.length i = some j → ∃ q, elements[j]? = some q ∧ ReadsElement h list sub q
  replaces : ∀ {sub i j item}, h.contents sub = .ok (.integer i) →
    position? elements.length i = some j → h.Shows item →
      ∃ q, elements[j]? = some q ∧ ReplacesElement h list sub elements j q item
  removes : ∀ {sub i j}, h.contents sub = .ok (.integer i) →
    position? elements.length i = some j →
      ∃ q, elements[j]? = some q ∧ RemovesElement h list sub elements j q
  pushes : ∀ {item}, h.Shows item → Pushes h list elements item

theorem Stored.seen_of_shows (hs : h.Stored s) (hr : h.Shows r) : Seen s r := by
  obtain ⟨k, hk, hkind⟩ := hr
  obtain ⟨x, hx, rfl⟩ := hs.kindOf_eq_ok.mp hk
  exact ⟨x, hx, hkind⟩

theorem Sound.sequential (hs : h.Sound s) (hl : s.Ledger arrays owned)
    (hreach : s.Reaches (arrays ++ owned) list) (hitems : h.items list = .ok elements) :
    Sequential h list elements := by
  obtain ⟨size, values, hlist⟩ := hs.list_of_items hitems
  obtain ⟨xs, hxs, hfilled⟩ := hl.lists hlist
  cases hitems.symm.trans (hs.items_eq hlist hxs)
  have hsize : size < 2 ^ 63 := by
    have hlt := hs.double_length_lt hxs
    have hfits := hfilled.fits
    simp only [Word.limit] at hlt
    omega
  have hlength : (xs.take size).length = size := List.length_take_of_le hfilled.fits
  have hindex {sub i} (hsub : h.contents sub = .ok (.integer i)) :=
    hs.listIndex_integer hlist (hs.contents_eq_ok.mp hsub) hsize
  have hplace {sub i j} (hsub : h.contents sub = .ok (.integer i))
      (hj : position? (xs.take size).length i = some j) :
      j < size ∧ h.listIndex list sub = .ok (.ok j) := by
    rw [hlength] at hj
    exact ⟨position?_lt hj, by rw [hindex hsub, hj]; rfl⟩
  have hthere {j} (hin : j < size) :
      ∃ q x, (xs.take size)[j]? = some q ∧ xs[j]? = some q ∧ s.content q = some x := by
    obtain ⟨ys, q, x, hys, -, hj, -, hx⟩ := hl.element_there hlist hin
    cases hxs.symm.trans hys
    exact ⟨q, x, (List.getElem?_take_of_lt hin).trans hj, hj, hx⟩
  refine ⟨fun hsub hkind => ?_, fun hsub hj => ?_, fun hsub hj => ?_, fun hsub hj hitem => ?_,
    fun hsub hj => ?_, fun hitem => ?_⟩
  · exact hs.refuses hlist (hs.listIndex_kind (hs.contents_eq_ok.mp hsub) hkind)
  · rw [hlength] at hj
    exact hs.refuses hlist (by rw [hindex hsub, hj]; rfl)
  · obtain ⟨hin, hindex⟩ := hplace hsub hj
    obtain ⟨q, x, hq, hj, hx⟩ := hthere hin
    exact ⟨q, hq, hs.readsElement hlist hxs hin hj hindex hx⟩
  · obtain ⟨hin, hindex⟩ := hplace hsub hj
    obtain ⟨q, x, hq, hj, -⟩ := hthere hin
    exact ⟨q, hq, hs.replacesElement hlist hxs hin hj hindex hl hreach (hs.seen_of_shows hitem)⟩
  · obtain ⟨hin, hindex⟩ := hplace hsub hj
    obtain ⟨q, x, hq, hj, -⟩ := hthere hin
    exact ⟨q, hq, hs.removesElement hlist hxs hin hj hindex hl hreach⟩
  · exact hs.pushes hl hlist hxs (hs.seen_of_shows hitem)

end Sequences

end Heap

namespace Client

variable {c : Client} {list : Reference} {elements : List Reference}

/-- Whatever has been asked for, a list that an owned reference leads to behaves as the sequence of
its elements. -/
theorem Run.list_sequential (hrun : Run allows c)
    (hreach : c.heap.Reachable (c.arrays ++ (c.held ++ c.globals.references)) list)
    (hitems : c.heap.items list = .ok elements) : c.heap.Sequential list elements := by
  obtain ⟨s, hs, hl, -⟩ := hrun.accounted.balanced
  exact hs.sequential hl (hs.reachable_iff.mp hreach) hitems

def shelf : Option Client :=
  session allows { poolSize := 320, poison := false } [.makeInteger 1, .makeInteger 2,
    .newList [.ofIndex 0, .ofIndex 1]]

theorem shelf_sequential : ∃ c, shelf = some c ∧
    c.heap.Reachable (c.arrays ++ (c.held ++ c.globals.references)) (.ofIndex 3) ∧
      c.heap.items (.ofIndex 3) = .ok [.ofIndex 0, .ofIndex 1] ∧
        c.heap.Sequential (.ofIndex 3) [.ofIndex 0, .ofIndex 1] := by
  have hall : (shelf.any fun c => c.held.contains (.ofIndex 3) &&
      (c.heap.items (.ofIndex 3)).toOption == some [.ofIndex 0, .ofIndex 1]) = true := by
    decide +kernel
  obtain ⟨c, hc, hends⟩ := (Option.any_eq_true ..).mp hall
  rw [Bool.and_eq_true] at hends
  have hitems := eq_ok_of_toOption hends.2
  have hheld : Reference.ofIndex 3 ∈ c.arrays ++ (c.held ++ c.globals.references) :=
    List.mem_append_right _ (List.mem_append_left _ (List.contains_iff_mem.mp hends.1))
  have hreach : c.heap.Reachable (c.arrays ++ (c.held ++ c.globals.references)) (.ofIndex 3) :=
    .root hheld (by decide)
  exact ⟨c, hc, hreach, hitems, (Run.session hc).list_sequential hreach hitems⟩

end Client

end CountedHeap
