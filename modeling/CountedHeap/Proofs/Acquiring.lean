import CountedHeap.Proofs.Failures
import CountedHeap.Proofs.Sizes

/-!
Operations that answer a reference. What is answered is a value that has one owner more than before,
or a new one whose only owner is who asked for it; what is refused is refused for a cause of its
own, and leaves all as it was.
-/

namespace CountedHeap

def Command.MayRaise (h : Heap) (g : Globals) : Command → Failure → Prop
  | integer _, .outOfMemory _ | string _, .outOfMemory _ | list _, .outOfMemory _
  | dict _, .outOfMemory _ | dict _, .unhashable _ => True
  | assign name _, .assignSingleton bound | unbind name, .deleteSingleton bound =>
      bound = name ∧ Session.singletons.contains name = true
  | lookup name, .unboundName unbound | unbind name, .unboundName unbound =>
      unbound = name ∧ g.contains name = false
  | unary _ _, .outOfMemory _ | binary _ _ _, .outOfMemory _ => True
  | unary op r, .badUnary bad k => bad = op ∧ h.kindOf r = .ok k
  | binary op left right, .badBinary bad k k' =>
      bad = op ∧ h.kindOf left = .ok k ∧ h.kindOf right = .ok k'
  | binary op _ _, .divisionByZero => op = .divide ∨ op = .modulo
  | compare op _ _, .incomparable _ _ => op ≠ .equals
  | subscript r _, .listIndexKind | subscript r _, .listIndexRange
  | assignItem r _ _, .listIndexKind | assignItem r _ _, .listIndexRange
  | deleteItem r _, .listIndexKind | deleteItem r _, .listIndexRange => h.kindOf r = .ok .list
  | subscript r _, .missingKey | assignItem r _ _, .outOfMemory _
  | deleteItem r _, .missingKeyToDelete => h.kindOf r = .ok .dict
  | subscript r key, .unhashable k | assignItem r key _, .unhashable k
  | deleteItem r key, .unhashable k => h.kindOf r = .ok .dict ∧ h.kindOf key = .ok k
  | subscript r _, .notSubscriptable k | assignItem r _ _, .noItemAssignment k
  | deleteItem r _, .noItemDeletion k => h.kindOf r = .ok k
  | call name _ _, .noSuchFunction missing => missing = name ∧ Builtin.ofName? name = Option.none
  | call name args _, .takesNoArguments called given
  | call name args _, .takesOneArgument called given => called = name ∧ given = args.length
  | call _ args _, .noLength k => ∃ r ∈ args, h.kindOf r = .ok k
  | call _ _ _, .outOfMemory _ | call _ _ _, .outputFull => True
  | _, _ => False

namespace Heap

/-- A reference that was answered. Its value is counted once more, or is new and counted once. -/
structure NewlyOwned (h h' : Heap) (r : Reference) : Prop where
  live : r.isLive = true
  occupied : h'.Occupied r
  counted : (∃ n, h.refcount r = .ok n ∧ h'.refcount r = .ok (n + 1)) ∨
    (¬h.Occupied r ∧ h'.refcount r = .ok 1)

def Acquires (x : Action Failure Reference) (h : Heap) (cause : Failure → Prop) : Prop :=
  x.Ends h (fun r h' => NewlyOwned h h' r) fun e h' => cause e ∧ Unchanged h h'

variable {h h' h₁ : Heap} {s : Store} {f : Reference → Option Content} {n : Reference → Nat}
  {r values list : Reference} {x : Content} {cause : Failure → Prop}
  {arrays owned elements : List Reference} {g : Globals}

theorem throw_acquires {e : Failure} (he : cause e) : Acquires (throw e) h cause :=
  Action.ends_throw.mpr ⟨he, .refl h⟩

theorem Sound.retain_newlyOwned (hs : h.Sound s) (hret : h.retain r = .ok h') :
    NewlyOwned h h' r := by
  obtain ⟨c, hc, hs'⟩ := hs.retain hret
  exact ⟨hs.isLive hc, hs'.occupied_iff.mpr ⟨_, Store.set_self⟩,
    .inl ⟨c.count, hs.refcount_eq hc, hs'.refcount_eq Store.set_self⟩⟩

theorem Sound.retain_acquires (hs : h.Sound s) (r : Reference) :
    Acquires (do Action.update (·.retain r); return r) h cause := by
  simp only [Acquires, Action.ends_bind, Action.ends_update, Action.ends_pure]
  exact fun h' hret => hs.retain_newlyOwned hret

theorem newlyOwned_of_one {s' : Store} (hs : h.Sound s) (hs' : h'.Sound s')
    (hnone : s.content r = none) (hr : s'.content r = some x) (hone : s'.count r = 1) :
    NewlyOwned h h' r := by
  obtain ⟨c, hc, -⟩ := Store.content_eq_some.mp hr
  refine ⟨hs'.isLive hc, hs'.occupied_iff.mpr ⟨c, hc⟩, .inr ⟨fun hold => ?_, ?_⟩⟩
  · obtain ⟨y, hy⟩ := hs.occupied_iff_content.mp hold
    rw [hnone] at hy
    cases hy
  · rw [hs'.refcount_of_content hr, hone]

section Making

theorem Creates.acquires {y : Action OutOfMemory Reference} (hy : Creates True y) (hs : h.Sound s)
    (hcause : ∀ m, cause (.outOfMemory m)) : Acquires (liftM y) h cause := by
  have hy' : Creates (Scope.consts ⟨fun _ => False, fun _ => False, True⟩) y := hy
  refine Action.ends_ofMemory.mpr ((hy'.made hs).imp ?_ fun m h' he => ⟨hcause m, he ▸ .refl h⟩)
  rintro r h' ⟨x, hm, -⟩
  obtain ⟨hnone, s', hs', hcontent, hcount⟩ := hm.tells
  exact newlyOwned_of_one hs hs' hnone (by rw [hcontent, Function.update_self])
    (by rw [hcount, Function.update_self])

theorem Tells.placeFrom_counts {index size : Nat} (ht : h.Tells f n)
    (hlist : f list = some (.list size values)) (hp : h.placeFrom values index elements = .ok h') :
    ∃ f', h'.Tells f' (fun q => n q + elements.count q) ∧ f' list = some (.list size values) := by
  induction elements generalizing h f n index with
  | nil =>
    cases hp
    exact ⟨f, ht, hlist⟩
  | cons r rest ih =>
    simp only [placeFrom, bind_eq_ok] at hp
    obtain ⟨h₁, hret, h₂, hset, hrest⟩ := hp
    obtain ⟨xs, hxs, -, ht₂⟩ := (ht.retain hret).2.arraySet hset
    have hne : list ≠ values := fun heq => by
      rw [heq, hxs] at hlist
      cases hlist
    obtain ⟨f', ht', hlist'⟩ := ih ht₂ (by rw [Function.update_of_ne hne, hlist]) hrest
    refine ⟨f', ?_, hlist'⟩
    convert ht' using 2 with q
    rw [Store.count_update_succ, ← List.singleton_append, List.count_append]
    omega

variable (hs : h.Sound s)
include hs

theorem newList_owned (hseen : ∀ r ∈ elements, Seen s r) :
    (newList elements).Ends h (fun r h' => NewlyOwned h h' r) fun _ _ => True := by
  simp only [newList, Action.ends_bind, Action.ends_orUndo, Action.ends_update, Action.ends_pure]
  refine (hs.makeArray elements.length).imp (fun values h₁ hm => ?_) fun _ _ _ => trivial
  obtain ⟨hnone, s₁, hs₁, hcontent₁, hcount₁⟩ := hm.tells
  refine (hs₁.makeList values).imp (fun list h₂ => ?_) fun _ _ _ _ _ => trivial
  rintro ⟨-, hm₂⟩ h₃ hplace h' hstore
  obtain ⟨hnone₂, ht₂⟩ := hm₂.tells
  obtain ⟨f, ht₃, hlist₃⟩ := ht₂.placeFrom_counts (Function.update_self ..) hplace
  have hvalues : s₁.content values = some (.array (.replicate elements.length .null)) := by
    rw [hcontent₁, Function.update_self]
  have hlt := hs₁.arrayLength_lt hvalues
  rw [List.length_replicate] at hlt
  obtain ⟨s', hs', hcontent', hcount'⟩ := ht₃.storeListSize hlist₃ hlt hstore
  have hnone' : s.content list = none := by
    by_cases heq : list = values
    · rw [heq, hnone]
    · rwa [hcontent₁, Function.update_of_ne heq] at hnone₂
  have habsent : elements.count list = 0 := List.count_eq_zero.mpr fun hmem => by
    obtain ⟨x, hx, -⟩ := hseen list hmem
    rw [hnone'] at hx
    cases hx
  refine newlyOwned_of_one hs hs' hnone' (by rw [hcontent', Function.update_self]) ?_
  simp only [hcount', habsent, Function.update_self]

theorem newList_acquires (hseen : ∀ r ∈ elements, Seen s r) :
    Acquires (newList elements) h ((Command.list elements).MayRaise h g) :=
  Action.ends_ofMemory.mpr (((newList_owned hs hseen).and (newList_declines hs elements)).imp
    (fun _ _ hb => hb.1) fun _ _ hb => ⟨trivial, hb.2⟩)

theorem newDict_acquires {pairs : List (Reference × Reference)} (hl : s.Ledger arrays owned)
    (hmin : h.config.dictMinCapacity ≠ 0) (hseen : ∀ p ∈ pairs, Seen s p.1 ∧ Seen s p.2) :
    Acquires (newDict pairs) h ((Command.dict pairs).MayRaise h g) := by
  have hvalues : ∀ p ∈ pairs, Seen s p.2 := fun p hp => (hseen p hp).2
  refine ((((newDict_ends hs hl hvalues).and (newDict_restored hs hl hvalues hmin)).and
    (newDict_fails pairs h)).and (newDict_declines hs hl hmin hvalues)).imp ?_ ?_
  case refine_2 =>
    rintro e h' ⟨⟨-, ⟨m, rfl⟩ | ⟨k, rfl⟩⟩, hsame⟩ <;> exact ⟨trivial, hsame⟩
  rintro r h' ⟨⟨⟨⟨s', he, hmaps⟩, s'', hs'', hw⟩, -⟩, -⟩
  obtain rfl := he.sound.unique hs''.toStored
  obtain ⟨size, o, k, v, ks, vs, hd, -⟩ := hmaps fun p hp => (hseen p hp).1
  have hlive := he.ledger.live hd
  obtain ⟨harrays, howned, -⟩ := hl.unknown he.unkept hlive
  have hcount := he.ledger.count_eq hlive
  rw [edges.eq_zero fun p _ => hw.loose p, harrays, List.count_cons_self, howned] at hcount
  exact newlyOwned_of_one hs hs'' he.unkept hd hcount

end Making

section Reading

variable {index : Reference} {e : Failure}

theorem onIntegers_eq_error {op : BinaryOperator} {l r : Int64} :
    op.onIntegers l r = .error e ↔
      ((op = .divide ∨ op = .modulo) ∧ r = 0) ∧ e = .divisionByZero := by
  unfold BinaryOperator.onIntegers
  by_cases hr : r = 0 <;> cases op <;> simp [hr, eq_comm]

def IndexFailure (e : Failure) : Prop := e = .listIndexKind ∨ e = .listIndexRange

theorem listIndex_fails (hindex : h.listIndex list index = .ok (.error e)) : IndexFailure e := by
  rcases query_eq_error hindex with hvalue | ⟨value, -, hindex⟩
  · exact (query_lift_ne_error hvalue).elim
  cases value with
  | integer n =>
    rcases query_eq_error hindex with hparts | ⟨parts, -, hindex⟩
    · exact (query_lift_ne_error hparts).elim
    replace hindex : (ite _ (throw .listIndexRange) (pure _) : Query Failure Nat) =
      .ok (.error e) := hindex
    split_ifs at hindex <;> cases hindex <;> exact .inr rfl
  | _ =>
    cases hindex
    exact .inl rfl

variable (hs : h.Sound s)
include hs

theorem get_acquires (g : Globals) (name : String) :
    Acquires (g.get name) h ((Command.lookup name).MayRaise h g) := by
  unfold Globals.get
  cases hf : g.find? name with
  | none => exact throw_acquires ⟨rfl, by rw [Globals.contains, hf]; rfl⟩
  | some v => exact hs.retain_acquires v

theorem listSubscript_acquires (list index : Reference) :
    Acquires (listSubscript list index) h IndexFailure := by
  simp only [Acquires, listSubscript, Action.ends_bind, Action.ends_ask, Action.ends_read]
  exact ⟨fun _ _ element _ => Action.ends_bind.mp (hs.retain_acquires element),
    fun _ he => ⟨listIndex_fails he, .refl h⟩⟩

theorem dictGet_acquires (dict key : Reference) :
    Acquires (dictGet dict key) h fun e =>
      e = .missingKey ∨ ∃ k, h.kindOf key = .ok k ∧ e = .unhashable k := by
  simp only [Acquires, dictGet, Action.ends_bind, Action.ends_ask, Action.ends_read]
  refine ⟨fun hash _ parts _ slot _ => ?_, fun _ he => ⟨.inr (hash_fails he), .refl h⟩⟩
  cases slot with
  | none => exact throw_acquires (.inl rfl)
  | some slot =>
    simp only [Action.ends_bind, Action.ends_read]
    exact fun value _ => Action.ends_bind.mp (hs.retain_acquires value)

theorem subscript_acquires (r index : Reference) :
    Acquires (subscript r index) h ((Command.subscript r index).MayRaise h g) := by
  refine subscript_ends (fun k hk => ⟨hk, .refl h⟩) (fun hk => ?_) fun hk => ?_
  · refine (listSubscript_acquires hs r index).imp (fun _ _ h => h) ?_
    rintro e h' ⟨rfl | rfl, hsame⟩ <;> exact ⟨hk, hsame⟩
  · refine (dictGet_acquires hs r index).imp (fun _ _ h => h) ?_
    rintro e h' ⟨rfl | ⟨k, hkey, rfl⟩, hsame⟩
    · exact ⟨hk, hsame⟩
    · exact ⟨⟨hk, hkey⟩, hsame⟩

theorem unary_acquires (op : UnaryOperator) (r : Reference) :
    Acquires (unary op r) h ((Command.unary op r).MayRaise h g) :=
  unary_ends (fun _ hk => ⟨⟨rfl, hk⟩, .refl h⟩)
    fun n => (Creates.integer n).acquires hs fun _ => trivial

theorem binary_acquires (op : BinaryOperator) (left right : Reference) :
    Acquires (binary op left right) h ((Command.binary op left right).MayRaise h g) := by
  refine binary_ends (fun _ _ hk hk' => ⟨⟨rfl, hk, hk'⟩, .refl h⟩) (fun l r e hop => ?_)
    (fun n => (Creates.integer n).acquires hs fun _ => trivial)
    ((Creates.concatenation left right).acquires hs fun _ => trivial)
  obtain ⟨⟨hdivides, -⟩, rfl⟩ := onIntegers_eq_error.mp hop
  exact ⟨hdivides, .refl h⟩

end Reading

section Comparing

variable {e : Failure} {left right : Reference}

theorem length_fails (hlength : h.length r = .ok (.error e)) :
    ∃ k, h.kindOf r = .ok k ∧ e = .noLength k := by
  rcases query_eq_error hlength with hkind | ⟨k, hkind, hlength⟩
  · exact (query_lift_ne_error hkind).elim
  cases hk : h.lengthAs? k r with
  | some n =>
    rw [hk] at hlength
    exact (query_lift_ne_error hlength).elim
  | none =>
    rw [hk] at hlength
    cases hlength
    exact ⟨k, query_lift_eq_ok.mp hkind, rfl⟩

theorem orderFrom_fails {order : Reference → Reference → Query Failure Ordering}
    {P : Failure → Prop} (horder : ∀ a b e, order a b = .ok (.error e) → P e) {index count : Nat}
    (hfrom : h.orderFrom order left right index count = .ok (.error e)) : P e := by
  induction count generalizing index with
  | zero => cases hfrom
  | succ count ih =>
    rcases query_eq_error hfrom with ha | ⟨a, -, hfrom⟩
    · exact (query_lift_ne_error ha).elim
    rcases query_eq_error hfrom with hb | ⟨b, -, hfrom⟩
    · exact (query_lift_ne_error hb).elim
    rcases query_eq_error hfrom with hab | ⟨o, -, hfrom⟩
    · exact horder a b e hab
    cases o with
    | eq => exact ih hfrom
    | lt | gt => cases hfrom

def OrderFailure (e : Failure) : Prop := ∃ k k', e = .incomparable k k'

theorem orderUpTo_fails_of {depth : Nat}
    (hwithin : ∀ k, h.orderWithin depth k left right = .ok (.error e) → OrderFailure e)
    (horder : h.orderUpTo depth left right = .ok (.error e)) : OrderFailure e := by
  rcases query_eq_error horder with hk | ⟨k, -, horder⟩
  · exact (query_lift_ne_error hk).elim
  rcases query_eq_error horder with hk' | ⟨k', -, horder⟩
  · exact (query_lift_ne_error hk').elim
  by_cases hordered : (k = k' && k.isOrdered) = true
  · rw [if_pos hordered] at horder
    exact hwithin k horder
  · rw [if_neg hordered] at horder
    cases horder
    exact ⟨k, k', rfl⟩

theorem orderWithin_fails {depth : Nat} {k : Kind}
    (horder : h.orderWithin depth k left right = .ok (.error e)) : OrderFailure e := by
  induction depth generalizing k left right e with
  | zero => cases horder
  | succ depth ih =>
    cases k with
    | list =>
      rw [orderWithin_list] at horder
      rcases query_eq_error horder with hl | ⟨l, -, horder⟩
      · exact (query_lift_ne_error hl).elim
      rcases query_eq_error horder with hr | ⟨r, -, horder⟩
      · exact (query_lift_ne_error hr).elim
      rcases query_eq_error horder with hfrom | ⟨o, -, horder⟩
      · exact orderFrom_fails (fun _ _ _ => orderUpTo_fails_of fun _ => ih) hfrom
      · cases horder
    | dict =>
      cases horder
      exact ⟨_, _, rfl⟩
    | array | free => cases horder
    | _ =>
      rcases query_eq_error horder with hl | ⟨l, -, horder⟩
      · exact (query_lift_ne_error hl).elim
      rcases query_eq_error horder with hr | ⟨r, -, horder⟩
      · exact (query_lift_ne_error hr).elim
      cases horder

theorem compareBy_fails {op : Comparison} (hcompare : h.compareBy op left right = .ok (.error e)) :
    op ≠ .equals ∧ OrderFailure e := by
  unfold compareBy at hcompare
  split at hcompare
  case h_1 => exact (query_lift_ne_error hcompare).elim
  case h_2 hop =>
    rcases query_eq_error hcompare with horder | ⟨o, -, hcompare⟩
    · exact ⟨hop, orderUpTo_fails_of (fun _ => orderWithin_fails) horder⟩
    · cases hcompare

end Comparing

end Heap
end CountedHeap
