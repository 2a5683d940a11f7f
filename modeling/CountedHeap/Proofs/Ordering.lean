import CountedHeap.Proofs.Comparing

/-!
The order of values is that of what they mean. It is partial: a comparison of two sequences comes to
an end at the first two elements that are not equal, and that these have no order is an end as well.
So what one element is to the next one in order can be told of the sequences, too.
-/

namespace CountedHeap

/-- The order of two sequences is that of the first elements that differ, which need not have one,
or else that of their lengths. -/
def lexicographic {α β : Type} {m : Type → Type} [Monad m] (order : α → β → m Ordering) :
    List α → List β → m Ordering
  | [], [] => return .eq
  | [], _ :: _ => return .lt
  | _ :: _, [] => return .gt
  | a :: as, b :: bs => do
      match ← order a b with
      | .eq => lexicographic order as bs
      | o => return o

def reversed : Except Failure Ordering → Except Failure Ordering
  | .ok o => .ok o.swap
  | .error (.incomparable k l) => .error (.incomparable l k)
  | .error e => .error e

def Scalar.order : Scalar → Scalar → Except Failure Ordering
  | .none, .none => .ok .eq
  | .bool a, .bool b => .ok (compare a b)
  | .integer a, .integer b => .ok (compare a.toInt b.toInt)
  | .string a, .string b => .ok (compare a b)
  | x, y => .error (.incomparable x.content.kind y.content.kind)

mutual

/-- Dicts have no order, nor have values of different kinds. -/
def Meaning.order : Meaning → Meaning → Except Failure Ordering
  | .scalar x, .scalar y => x.order y
  | .list ms, .list ns => Meaning.orderAll ms ns
  | m, n => .error (.incomparable m.kind n.kind)

def Meaning.orderAll : List Meaning → List Meaning → Except Failure Ordering
  | [], [] => .ok .eq
  | [], _ :: _ => .ok .lt
  | _ :: _, [] => .ok .gt
  | m :: ms, n :: ns => do
      match ← m.order n with
      | .eq => Meaning.orderAll ms ns
      | o => return o

end

theorem Meaning.orderAll_eq (ms ns : List Meaning) :
    Meaning.orderAll ms ns = lexicographic Meaning.order ms ns := by
  induction ms generalizing ns with
  | nil => cases ns <;> rfl
  | cons m ms ih =>
    cases ns with
    | nil => rfl
    | cons n ns =>
      rw [Meaning.orderAll, lexicographic]
      cases m.order n with
      | error e => rfl
      | ok o =>
        cases o with
        | eq => exact ih ns
        | lt | gt => rfl

theorem Meaning.ind {P : Meaning → Prop} (scalar : ∀ x, P (.scalar x))
    (list : ∀ ms, (∀ m ∈ ms, P m) → P (.list ms)) (dict : ∀ f, P (.dict f)) (m : Meaning) : P m :=
  match m with
  | .scalar x => scalar x
  | .list ms => list ms fun m _ => Meaning.ind scalar list dict m
  | .dict f => dict f
termination_by sizeOf m

section Sequences

variable {α : Type} {order : α → α → Except Failure Ordering} {xs ys zs : List α} {o o' : Ordering}

theorem lexicographic_cons {a b : α} : lexicographic order (a :: xs) (b :: ys) =
    match order a b with
    | .ok .eq => lexicographic order xs ys
    | r => r := by
  rw [lexicographic]
  cases order a b with
  | error e => rfl
  | ok o => cases o <;> rfl

theorem lexicographic_swap (h : ∀ a ∈ xs, ∀ b, order b a = reversed (order a b)) :
    lexicographic order ys xs = reversed (lexicographic order xs ys) := by
  induction xs generalizing ys with
  | nil => cases ys <;> rfl
  | cons a xs ih =>
    cases ys with
    | nil => rfl
    | cons b ys =>
      have hrest := @ih ys fun c hc => h c (List.mem_cons_of_mem _ hc)
      rw [lexicographic_cons, lexicographic_cons, h a List.mem_cons_self b]
      cases order a b with
      | error e => cases e <;> rfl
      | ok o =>
        cases o with
        | eq => exact hrest
        | lt | gt => rfl

theorem eq_of_lexicographic (h : ∀ a ∈ xs, ∀ b, order a b = .ok .eq → a = b)
    (heq : lexicographic order xs ys = .ok .eq) : xs = ys := by
  induction xs generalizing ys with
  | nil =>
    cases ys with
    | nil => rfl
    | cons b ys => cases heq
  | cons a xs ih =>
    cases ys with
    | nil => cases heq
    | cons b ys =>
      rw [lexicographic_cons] at heq
      split at heq
      case h_1 hab =>
        rw [h a List.mem_cons_self b hab,
          ih (fun c hc => h c (List.mem_cons_of_mem _ hc)) heq]
      case h_2 hne => exact absurd heq hne

theorem lexicographic_self (h : ∀ a ∈ xs, ∀ o, order a a = .ok o → o = .eq)
    (hself : lexicographic order xs xs = .ok o) : o = .eq := by
  induction xs with
  | nil => exact (Except.ok.inj hself).symm
  | cons a xs ih =>
    rw [lexicographic_cons] at hself
    split at hself
    case h_1 => exact ih (fun c hc => h c (List.mem_cons_of_mem _ hc)) hself
    case h_2 hne => exact h a List.mem_cons_self o hself

theorem lexicographic_cons_eq_ok {a b : α} (ho : o ≠ .gt) :
    lexicographic order (a :: xs) (b :: ys) = .ok o ↔
      (order a b = .ok .eq ∧ lexicographic order xs ys = .ok o) ∨
        (order a b = .ok .lt ∧ o = .lt) := by
  rw [lexicographic_cons]
  cases order a b with
  | error e => simp
  | ok p => cases p <;> cases o <;> simp_all

theorem lexicographic_trans
    (h : ∀ a ∈ xs, ∀ b c o o', order a b = .ok o → order b c = .ok o' → o ≠ .gt → o' ≠ .gt →
      order a c = .ok (o.then o'))
    (hxy : lexicographic order xs ys = .ok o) (hyz : lexicographic order ys zs = .ok o')
    (ho : o ≠ .gt) (ho' : o' ≠ .gt) : lexicographic order xs zs = .ok (o.then o') := by
  induction xs generalizing ys zs with
  | nil =>
    cases ys with
    | nil =>
      cases hxy
      exact hyz
    | cons b ys =>
      cases hxy
      cases zs with
      | nil =>
        cases hyz
        exact absurd rfl ho'
      | cons c zs => rfl
  | cons a xs ih =>
    cases ys with
    | nil =>
      cases hxy
      exact absurd rfl ho
    | cons b ys =>
      cases zs with
      | nil =>
        cases hyz
        exact absurd rfl ho'
      | cons c zs =>
        have hhead := h a List.mem_cons_self b c
        have hrest := @ih ys zs fun d hd => h d (List.mem_cons_of_mem _ hd)
        -- The head decides, or it is equal and the tails decide.
        have hle : o.then o' ≠ .gt := by cases o <;> simp_all
        rw [lexicographic_cons_eq_ok hle]
        rcases (lexicographic_cons_eq_ok ho).mp hxy with ⟨hab, hxy⟩ | ⟨hab, rfl⟩
        · rcases (lexicographic_cons_eq_ok ho').mp hyz with ⟨hbc, hyz⟩ | ⟨hbc, rfl⟩
          · exact .inl ⟨hhead _ _ hab hbc (by decide) (by decide), hrest hxy hyz⟩
          · refine .inr ⟨hhead _ _ hab hbc (by decide) (by decide), ?_⟩
            cases o with
            | gt => exact absurd rfl ho
            | lt | eq => rfl
        · refine .inr ⟨?_, rfl⟩
          rcases (lexicographic_cons_eq_ok ho').mp hyz with ⟨hbc, -⟩ | ⟨hbc, -⟩
          · exact hhead _ _ hab hbc (by decide) (by decide)
          · exact hhead _ _ hab hbc (by decide) (by decide)

end Sequences

section Laws

variable {m n k : Meaning} {x y z : Scalar} {o o' : Ordering}

theorem then_of_compare {α : Type} [Ord α] [Std.TransOrd α] {a b c : α} (hab : compare a b ≠ .gt)
    (hbc : compare b c ≠ .gt) : compare a c = (compare a b).then (compare b c) := by
  cases h : compare a b with
  | gt => exact absurd h hab
  | lt =>
    cases h' : compare b c with
    | gt => exact absurd h' hbc
    | lt => exact Std.TransCmp.lt_trans h h'
    | eq => exact Std.TransCmp.lt_of_lt_of_eq h h'
  | eq => rw [Std.TransCmp.congr_left h]; rfl

namespace Scalar

theorem order_swap : y.order x = reversed (x.order y) := by
  cases x <;> cases y <;>
    first | rfl | exact congrArg Except.ok Std.OrientedOrd.eq_swap

theorem eq_of_order (h : x.order y = .ok .eq) : x = y := by
  cases x <;> cases y <;> simp_all [order, Int64.toInt_inj]

theorem order_self (h : x.order x = .ok o) : o = .eq := by
  cases x <;> simp_all [order]

theorem order_trans (hxy : x.order y = .ok o) (hyz : y.order z = .ok o') (ho : o ≠ .gt)
    (ho' : o' ≠ .gt) : x.order z = .ok (o.then o') := by
  cases x <;> cases y <;> cases hxy <;> cases z <;> cases hyz <;>
    first | rfl | exact congrArg Except.ok (then_of_compare ho ho')

end Scalar

namespace Meaning

theorem order_of_kinds (h : ¬(m.kind = n.kind && m.kind.isOrdered) = true) :
    m.order n = .error (.incomparable m.kind n.kind) := by
  cases m with
  | scalar x =>
    cases n with
    | scalar y => cases x <;> cases y <;> first | rfl | exact absurd rfl h
    | list | dict => rfl
  | list ms =>
    cases n with
    | list ns => exact absurd rfl h
    | scalar | dict => rfl
  | dict f => cases n <;> rfl

theorem order_swap : n.order m = reversed (m.order n) := by
  induction m using Meaning.ind generalizing n with
  | scalar x =>
    cases n with
    | scalar y => exact Scalar.order_swap
    | list | dict => rfl
  | list ms ih =>
    cases n with
    | list ns =>
      rw [order, order, orderAll_eq, orderAll_eq]
      exact lexicographic_swap fun m hm n => ih m hm
    | scalar | dict => rfl
  | dict f => cases n <;> rfl

theorem eq_of_order (h : m.order n = .ok .eq) : m = n := by
  induction m using Meaning.ind generalizing n with
  | scalar x =>
    cases n with
    | scalar y => exact congrArg scalar (Scalar.eq_of_order h)
    | list | dict => cases h
  | list ms ih =>
    cases n with
    | list ns =>
      rw [order, orderAll_eq] at h
      exact congrArg list (eq_of_lexicographic (fun m hm n => ih m hm) h)
    | scalar | dict => cases h
  | dict f => cases n <;> cases h

theorem order_self (h : m.order m = .ok o) : o = .eq := by
  induction m using Meaning.ind generalizing o with
  | scalar x => exact Scalar.order_self h
  | list ms ih =>
    rw [order, orderAll_eq] at h
    exact lexicographic_self (fun m hm o => ih m hm) h
  | dict f => cases h

theorem order_trans (hmn : m.order n = .ok o) (hnk : n.order k = .ok o') (ho : o ≠ .gt)
    (ho' : o' ≠ .gt) : m.order k = .ok (o.then o') := by
  induction m using Meaning.ind generalizing n k o o' with
  | scalar x =>
    cases n with
    | scalar y =>
      cases k with
      | scalar z => exact Scalar.order_trans hmn hnk ho ho'
      | list | dict => cases hnk
    | list | dict => cases hmn
  | list ms ih =>
    cases n with
    | list ns =>
      cases k with
      | list ks =>
        rw [order, orderAll_eq] at hmn hnk ⊢
        exact lexicographic_trans (fun m hm n k o o' => ih m hm) hmn hnk ho ho'
      | scalar | dict => cases hnk
    | scalar | dict => cases hmn
  | dict f => cases n <;> cases hmn

end Meaning

end Laws

namespace Heap

/-- Of values from which no way leads into a cycle, the order is that of what they mean. It can be
read from either side, agrees with equality where there is one, and makes one step of two that do
not go down, which is level only if both are. -/
structure ConsistentOrder (h : Heap) : Prop where
  answers : ∀ {a b}, h.Grounded a → h.Grounded b → ∃ r, h.order a b = .ok r
  meaning : ∀ {a b p q}, h.Grounded a → h.Grounded b → h.Denotes a p → h.Denotes b q →
    h.order a b = .ok (p.order q)
  swap : ∀ {a b r}, h.Grounded a → h.Grounded b → h.order a b = .ok r →
    h.order b a = .ok (reversed r)
  equal : ∀ {a b}, h.Grounded a → h.Grounded b → h.order a b = .ok (.ok .eq) →
    h.equal a b = .ok true
  of_equal : ∀ {a b o}, h.Grounded a → h.Grounded b → h.equal a b = .ok true →
    h.order a b = .ok (.ok o) → o = .eq
  trans : ∀ {a b c o o'}, h.Grounded a → h.Grounded b → h.Grounded c →
    h.order a b = .ok (.ok o) → h.order b c = .ok (.ok o') → o ≠ .gt → o' ≠ .gt →
      h.order a c = .ok (.ok (o.then o'))
  lists : ∀ {a b xs ys}, h.Grounded a → h.Grounded b → h.items a = .ok xs → h.items b = .ok ys →
    h.order a b = lexicographic h.order xs ys

variable {h : Heap} {s : Store} {arrays owned : List Reference} {a b u v : Reference}
  {n n' index count depth : Nat} {xs ys : List Reference} {p q : Meaning}

theorem Stored.orderFrom_eq (hs : h.Stored s) (hu : s.content u = some (.array xs))
    (hv : s.content v = some (.array ys)) (hn : n ≤ xs.length) (hn' : n' ≤ ys.length)
    {order : Reference → Reference → Query Failure Ordering} (hcount : index + count = min n n') :
    (do
      let o ← h.orderFrom order u v index count
      return o.then (compare n n') : Query Failure Ordering) =
        lexicographic order ((xs.take n).drop index) ((ys.take n').drop index) := by
  have hlength : (xs.take n).length = n := by rw [List.length_take, min_eq_left hn]
  have hlength' : (ys.take n').length = n' := by rw [List.length_take, min_eq_left hn']
  induction count generalizing index with
  | zero =>
    rw [orderFrom, pure_bind]
    rcases Nat.lt_trichotomy n n' with hlt | rfl | hlt
    · rw [List.drop_eq_nil_of_le (by omega), List.drop_eq_getElem_cons (by omega),
        Nat.compare_eq_lt.mpr hlt]
      rfl
    · rw [List.drop_eq_nil_of_le (by omega), List.drop_eq_nil_of_le (by omega),
        Nat.compare_eq_eq.mpr rfl]
      rfl
    · have hdone : (ys.take n').drop index = [] := List.drop_eq_nil_of_le (by omega)
      rw [hdone, List.drop_eq_getElem_cons (by omega), Nat.compare_eq_gt.mpr hlt]
      rfl
  | succ count ih =>
    have hp := List.getElem?_eq_getElem (show index < xs.length by omega)
    have hq := List.getElem?_eq_getElem (show index < ys.length by omega)
    have hxs : (xs.take n).drop index = xs[index] :: (xs.take n).drop (index + 1) := by
      rw [List.drop_eq_getElem_cons (by omega), List.getElem_take]
    have hys : (ys.take n').drop index = ys[index] :: (ys.take n').drop (index + 1) := by
      rw [List.drop_eq_getElem_cons (by omega), List.getElem_take]
    rw [orderFrom, hs.arrayGet_of_content hu hp, hs.arrayGet_of_content hv hq, query_lift,
      query_lift, bind_assoc, hxs, hys, lexicographic, ← ih (by omega)]
    refine bind_congr fun o => ?_
    cases o <;> rfl

theorem lexicographic_eq_ok {α β : Type} {order : α → α → Query Failure Ordering}
    {order' : β → β → Except Failure Ordering} {xs ys : List α} {ms ns : List β}
    (hms : ms.length = xs.length) (hns : ns.length = ys.length)
    (h : ∀ (i : Nat) x y m n, xs[i]? = some x → ys[i]? = some y → ms[i]? = some m →
      ns[i]? = some n → order x y = .ok (order' m n)) :
    lexicographic order xs ys = .ok (lexicographic order' ms ns) := by
  induction xs generalizing ys ms ns with
  | nil =>
    cases List.eq_nil_of_length_eq_zero hms
    cases ys <;> cases ns <;> first | rfl | cases hns
  | cons x xs ih =>
    obtain ⟨m, ms, rfl⟩ := List.exists_cons_of_length_eq_add_one hms
    cases ys with
    | nil =>
      cases List.eq_nil_of_length_eq_zero hns
      rfl
    | cons y ys =>
      obtain ⟨n, ns, rfl⟩ := List.exists_cons_of_length_eq_add_one hns
      have hrest := ih (Nat.succ.inj hms) (Nat.succ.inj hns) fun i => h (i + 1)
      rw [lexicographic, lexicographic, h 0 x y m n rfl rfl rfl rfl]
      cases order' m n with
      | error e => rfl
      | ok o =>
        cases o with
        | eq => exact hrest
        | lt | gt => rfl

namespace Stored

variable (hs : h.Stored s) (hl : s.Ledger arrays owned)

include hs in
theorem orderUpTo_scalar {x y : Scalar} (ha : s.content a = some x.content)
    (hb : s.content b = some y.content) : h.orderUpTo (depth + 1) a b = .ok (x.order y) := by
  obtain ⟨c, hc, hcx⟩ := Store.content_eq_some.mp ha
  obtain ⟨d, hd, hdy⟩ := Store.content_eq_some.mp hb
  have hv := hcx ▸ hs.value_eq hc
  have hw := hdy ▸ hs.value_eq hd
  rw [orderUpTo, hs.kindOf_eq_ok.mpr ⟨_, ha, rfl⟩, hs.kindOf_eq_ok.mpr ⟨_, hb, rfl⟩, query_lift,
    query_lift]
  cases x <;> cases y <;>
    simp only [Scalar.content, Content.kind, orderWithin, truth, integer, stringBytes, hv, hw,
      Content.value, ok_bind]
  case bool.bool p q => cases p <;> cases q <;> rfl
  all_goals rfl

include hs hl

theorem orderUpTo_denotes (haa : h.AcyclicFrom a) (hab : h.AcyclicFrom b) (hp : h.Denotes a p)
    (hq : h.Denotes b q) (hdepth : h.weight a ≤ depth) :
    h.orderUpTo depth a b = .ok (p.order q) := by
  induction depth generalizing a b p q with
  | zero => exact absurd (h.weight_pos a) (by omega)
  | succ depth ih =>
    have ha := hs.kindOf_of_denotes hp
    have hb := hs.kindOf_of_denotes hq
    by_cases hkinds : (p.kind = q.kind && p.kind.isOrdered) = true
    · cases hp with
      | @scalar _ x hx =>
        cases hq with
        | scalar hy => exact hs.orderUpTo_scalar (hs.contents_eq_ok.mp hx) (hs.contents_eq_ok.mp hy)
        | list | dict => cases x <;> cases hkinds
      | @list _ elements ms hitems hlength hall =>
        cases hq with
        | @scalar _ y => cases y <;> cases hkinds
        | @list _ elements' ns hitems' hlength' hall' =>
          obtain ⟨n, u, hlist⟩ := hs.list_of_items hitems
          obtain ⟨n', v, hlist'⟩ := hs.list_of_items hitems'
          obtain ⟨xs, hu, hxs⟩ := hl.lists hlist
          obtain ⟨ys, hv, hys⟩ := hl.lists hlist'
          cases hitems.symm.trans (hs.items_eq hlist hu)
          cases hitems'.symm.trans (hs.items_eq hlist' hv)
          have hparts : h.listParts a = .ok ⟨n, u⟩ := hs.listParts_eq_ok.mpr hlist
          have hparts' : h.listParts b = .ok ⟨n', v⟩ := hs.listParts_eq_ok.mpr hlist'
          rw [orderUpTo, ha, hb, query_lift, query_lift, if_pos hkinds]
          change h.orderWithin (depth + 1) .list a b = _
          rw [orderWithin_list, hparts, hparts', query_lift, query_lift,
            hs.orderFrom_eq hu hv hxs.fits hys.fits (Nat.zero_add _), Meaning.order,
            Meaning.orderAll_eq]
          refine lexicographic_eq_ok hlength hlength' fun i x y m n hx hy hm hn => ?_
          obtain ⟨hax, hlt, -⟩ := hs.below_element hl haa hlist hu (List.mem_of_getElem? hx)
          obtain ⟨hay, -⟩ := hs.below_element hl hab hlist' hv (List.mem_of_getElem? hy)
          exact ih hax hay (hall i x m hx hm) (hall' i y n hy hn) (by omega)
        | dict => cases hkinds
      | dict => simp [Meaning.kind, Kind.isOrdered] at hkinds
    · rw [orderUpTo, ha, hb, query_lift, query_lift, if_neg hkinds, Meaning.order_of_kinds hkinds]
      rfl

theorem order_denotes (ha : h.Grounded a) (hb : h.Grounded b) (hp : h.Denotes a p)
    (hq : h.Denotes b q) : h.order a b = .ok (p.order q) := by
  obtain ⟨x, hx, -⟩ := hs.shows_iff.mp ha.1
  exact hs.orderUpTo_denotes hl ha.2 hb.2 hp hq (hs.weight_le_nesting hl hx)

theorem meanings_of_items (ha : h.Grounded a) (hitems : h.items a = .ok xs) :
    ∃ ms, h.Denotes a (.list ms) ∧ ms.length = xs.length ∧ (∀ x ∈ xs, h.Grounded x) ∧
      ∀ (i : Nat) x m, xs[i]? = some x → ms[i]? = some m → h.Denotes x m := by
  obtain ⟨n, u, hlist⟩ := hs.list_of_items hitems
  obtain ⟨elements, hu, -⟩ := hl.lists hlist
  cases hitems.symm.trans (hs.items_eq hlist hu)
  obtain ⟨p, hp⟩ := hs.grounded_denotes hl ha
  obtain ⟨ms, rfl, hlength, hall⟩ := (hs.denotes_list hlist hu).mp hp
  refine ⟨ms, hp, hlength, fun x hx => ?_, hall⟩
  obtain ⟨hax, -, y, hy, hplain⟩ := hs.below_element hl ha.2 hlist hu hx
  exact ⟨hs.shows_of hy hplain, hax⟩

theorem consistentOrder : h.ConsistentOrder where
  answers ha hb := by
    obtain ⟨p, hp⟩ := hs.grounded_denotes hl ha
    obtain ⟨q, hq⟩ := hs.grounded_denotes hl hb
    exact ⟨_, hs.order_denotes hl ha hb hp hq⟩
  meaning ha hb hp hq := hs.order_denotes hl ha hb hp hq
  swap ha hb hab := by
    obtain ⟨p, hp⟩ := hs.grounded_denotes hl ha
    obtain ⟨q, hq⟩ := hs.grounded_denotes hl hb
    cases hab.symm.trans (hs.order_denotes hl ha hb hp hq)
    rw [hs.order_denotes hl hb ha hq hp, Meaning.order_swap]
  equal ha hb hab := by
    obtain ⟨p, hp⟩ := hs.grounded_denotes hl ha
    obtain ⟨q, hq⟩ := hs.grounded_denotes hl hb
    have hpq := Except.ok.inj ((hs.order_denotes hl ha hb hp hq).symm.trans hab)
    rw [← Meaning.eq_of_order hpq] at hq
    exact (hs.equal_eq_true_iff hl ha hb).mpr ⟨p, hp, hq⟩
  of_equal ha hb heq hab := by
    obtain ⟨p, hp, hq⟩ := (hs.equal_eq_true_iff hl ha hb).mp heq
    exact Meaning.order_self (Except.ok.inj ((hs.order_denotes hl ha hb hp hq).symm.trans hab))
  trans ha hb hc hab hbc ho ho' := by
    obtain ⟨p, hp⟩ := hs.grounded_denotes hl ha
    obtain ⟨q, hq⟩ := hs.grounded_denotes hl hb
    obtain ⟨t, ht⟩ := hs.grounded_denotes hl hc
    have hpq := Except.ok.inj ((hs.order_denotes hl ha hb hp hq).symm.trans hab)
    have hqt := Except.ok.inj ((hs.order_denotes hl hb hc hq ht).symm.trans hbc)
    rw [hs.order_denotes hl ha hc hp ht, Meaning.order_trans hpq hqt ho ho']
  lists ha hb hxs hys := by
    obtain ⟨ms, hp, hlength, hgrounded, hall⟩ := hs.meanings_of_items hl ha hxs
    obtain ⟨ns, hq, hlength', hgrounded', hall'⟩ := hs.meanings_of_items hl hb hys
    rw [hs.order_denotes hl ha hb hp hq, Meaning.order, Meaning.orderAll_eq]
    refine (lexicographic_eq_ok hlength hlength' fun i x y m n hx hy hm hn => ?_).symm
    exact hs.order_denotes hl (hgrounded x (List.mem_of_getElem? hx))
      (hgrounded' y (List.mem_of_getElem? hy)) (hall i x m hx hm) (hall' i y n hy hn)

end Stored

end Heap

namespace Client

variable {c : Client}

/-- Values are ordered consistently wherever a client gets to. -/
theorem Run.order_consistent (hrun : Run allows c) : c.heap.ConsistentOrder := by
  obtain ⟨s, hs, hl, -⟩ := hrun.accounted.balanced
  exact hs.consistentOrder hl

/-- The lists `[]`, `[None]` and `[[]]`. The first one is less than either of the others, which have
no order. -/
def ranked : Option Client :=
  session allows { poolSize := 512, poison := false, dictMinCapacity := 5 } [.makeNone,
    .newList [], .newList [.ofIndex 0], .newList [.ofIndex 2]]

theorem ranked_consistent : ∃ c, ranked = some c ∧ c.heap.ConsistentOrder ∧
    c.heap.Grounded (.ofIndex 2) ∧ c.heap.Grounded (.ofIndex 4) ∧ c.heap.Grounded (.ofIndex 6) ∧
      c.heap.order (.ofIndex 2) (.ofIndex 4) = .ok (.ok .lt) ∧
        c.heap.order (.ofIndex 2) (.ofIndex 6) = .ok (.ok .lt) ∧
          c.heap.order (.ofIndex 4) (.ofIndex 6) = .ok (.error (.incomparable .none .list)) := by
  have hall : (ranked.any fun c => c.heap.descends &&
      (c.heap.kindOf (.ofIndex 2)).toOption == some .list &&
        (c.heap.kindOf (.ofIndex 4)).toOption == some .list &&
          (c.heap.kindOf (.ofIndex 6)).toOption == some .list &&
            (c.heap.order (.ofIndex 2) (.ofIndex 4)).run.toOption == some (.ok .lt) &&
              (c.heap.order (.ofIndex 2) (.ofIndex 6)).run.toOption == some (.ok .lt) &&
                (c.heap.order (.ofIndex 4) (.ofIndex 6)).run.toOption ==
                  some (.error (.incomparable .none .list))) = true := by
    decide +kernel
  obtain ⟨c, hc, hends⟩ := (Option.any_eq_true ..).mp hall
  simp only [Bool.and_eq_true] at hends
  obtain ⟨⟨⟨⟨⟨⟨hdescends, hempty⟩, hnone⟩, hnested⟩, hless⟩, hless'⟩, hneither⟩ := hends
  obtain ⟨s, hs, -⟩ := (Run.session hc).accounted.balanced
  have hgrounded {r : Reference} (hr : c.heap.kindOf r = .ok .list) : c.heap.Grounded r :=
    ⟨⟨.list, hr, by decide⟩, fun q _ => hs.acyclic_of_descends hdescends q⟩
  exact ⟨c, hc, (Run.session hc).order_consistent, hgrounded (eq_ok_of_toOption hempty),
    hgrounded (eq_ok_of_toOption hnone), hgrounded (eq_ok_of_toOption hnested),
    eq_ok_of_toOption hless, eq_ok_of_toOption hless', eq_ok_of_toOption hneither⟩

end Client
end CountedHeap
