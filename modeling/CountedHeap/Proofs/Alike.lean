import CountedHeap.Heap.Order
import CountedHeap.Heap.Print
import CountedHeap.Proofs.Store

/-!
Heaps that hold the same. What a heap answers about a value depends on what the value leads to, not
on where that lies or how often it is counted, so two heaps that hold the same on a set of
references closed under edges answer alike there, faults included: a reference of the set may also
be one to no value in either.
-/

namespace CountedHeap

section Congruence

variable {α β ε : Type} {x : Except Fault α}

theorem except_congr {f g : α → Except Fault β} (h : ∀ a, x = .ok a → f a = g a) :
    (x >>= f) = (x >>= g) := by
  cases x with
  | ok a => exact h a rfl
  | error e => rfl

theorem query_congr {f g : α → Query ε β} (h : ∀ a, x = .ok a → f a = g a) :
    ((liftM x : Query ε α) >>= f) = (liftM x >>= g) := by
  cases x with
  | ok a => exact h a rfl
  | error e => rfl

theorem printer_ok_bind (a : α) (f : α → Printer β) :
    ((liftM (.ok a : Except Fault α) : Printer α) >>= f) = f a := rfl

theorem printer_error_bind (e : Fault) (f : α → Printer β) :
    ((liftM (.error e : Except Fault α) : Printer α) >>= f) = throw (.fault e) := rfl

theorem printer_congr {f g : α → Printer β} (h : ∀ a, x = .ok a → f a = g a) :
    ((liftM x : Printer α) >>= f) = (liftM x >>= g) := by
  cases x with
  | ok a => exact h a rfl
  | error e => rfl

end Congruence

namespace Heap

/-- Two heaps that hold the same on a set of references. -/
structure Alike (h h' : Heap) (s s' : Store) (p : Reference → Prop) : Prop where
  left : h.Stored s
  right : h'.Stored s'
  same : ∀ {r}, p r → s'.content r = s.content r
  closed : ∀ {r x q}, p r → s.content r = some x → q ∈ x.held → q.isLive = true → p q
  size : h.table.size = h'.table.size
  depth : h.config.maxPrintDepth = h'.config.maxPrintDepth

theorem deref_of_not_isLive {h : Heap} {r : Reference} (hr : r.isLive = false) :
    h.deref r = .error (.invalidReference r) := by
  rw [deref, hr]
  rfl

theorem Stored.deref_of_none {h : Heap} {s : Store} {r : Reference} (hs : h.Stored s)
    (hr : s r = none) : h.deref r = .error (if r.isLive && r.index < h.table.size then
      .releasedReference r else .invalidReference r) := by
  rw [deref, hs.get?_eq_none hr]
  split <;> rfl

structure SameSlots (h h' : Heap) (p : Reference → Prop) (t t' : Slots) : Prop where
  capacity : t.capacity = t'.capacity
  get : ∀ i, t.get h.memory i = t'.get h'.memory i
  closed : ∀ {i q}, t.get h.memory i = .ok q → q.isLive = true → p q

namespace Alike

variable {h h' : Heap} {s s' : Store} {p : Reference → Prop} {r : Reference}

theorem cells (ha : Alike h h' s s' p) (hr : r.isLive = true → p r) :
    (∃ e, h.deref r = .error e ∧ h'.deref r = .error e) ∨
      ∃ c c', s r = some c ∧ s' r = some c' ∧ c'.content = c.content := by
  by_cases hlive : r.isLive = true
  · have hsame := ha.same (hr hlive)
    cases hc : s r with
    | none =>
      have hc' : s' r = none := by
        rw [Store.content, Store.content, hc, Option.map_none, Option.map_eq_none_iff] at hsame
        exact hsame
      rw [ha.left.deref_of_none hc, ha.right.deref_of_none hc', ha.size]
      exact .inl ⟨_, rfl, rfl⟩
    | some c =>
      rw [Store.content_eq_some.mpr ⟨c, hc, rfl⟩] at hsame
      obtain ⟨c', hc', hcc⟩ := Store.content_eq_some.mp hsame
      exact .inr ⟨c, c', rfl, hc', hcc⟩
  · rw [Bool.not_eq_true] at hlive
    exact .inl ⟨_, deref_of_not_isLive hlive, deref_of_not_isLive hlive⟩

section Values

variable (ha : Alike h h' s s' p) (hr : r.isLive = true → p r)
include ha hr

theorem kindOf_eq : h.kindOf r = h'.kindOf r := by
  rcases ha.cells hr with ⟨e, he, he'⟩ | ⟨c, c', hc, hc', hcc⟩
  · rw [kindOf, kindOf, he, he', error_bind, error_bind]
  · rw [ha.left.kindOf_eq hc, ha.right.kindOf_eq hc', hcc]

theorem value_eq : (∃ e, h.value r = .error e ∧ h'.value r = .error e) ∨
    ∃ x a a', h.value r = .ok (Content.value a x) ∧ h'.value r = .ok (Content.value a' x) := by
  rcases ha.cells hr with ⟨e, he, he'⟩ | ⟨c, c', hc, hc', hcc⟩
  · refine .inl ⟨e, ?_, ?_⟩
    · rw [value, he, error_bind]
    · rw [value, he', error_bind]
  · exact .inr ⟨_, _, _, ha.left.value_eq hc, hcc ▸ ha.right.value_eq hc'⟩

theorem value_bind {α : Type} {f : Value → Except Fault α}
    (hf : ∀ x a a', f (Content.value a x) = f (Content.value a' x)) :
    (h.value r >>= f) = (h'.value r >>= f) := by
  rcases ha.value_eq hr with ⟨e, he, he'⟩ | ⟨x, a, a', hx, hx'⟩
  · rw [he, he']
  · rw [hx, hx']
    exact hf ..

theorem truth_eq : h.truth r = h'.truth r :=
  ha.value_bind hr fun x _ _ => by cases x <;> rfl

theorem integer_eq : h.integer r = h'.integer r :=
  ha.value_bind hr fun x _ _ => by cases x <;> rfl

theorem stringBytes_eq : h.stringBytes r = h'.stringBytes r :=
  ha.value_bind hr fun x _ _ => by cases x <;> rfl

theorem listParts_eq : h.listParts r = h'.listParts r :=
  ha.value_bind hr fun x _ _ => by cases x <;> rfl

theorem dictParts_eq : h.dictParts r = h'.dictParts r :=
  ha.value_bind hr fun x _ _ => by cases x <;> rfl

theorem listValues {l : ListParts} (hl : h.listParts r = .ok l) :
    l.values.isLive = true → p l.values := by
  have hx := ha.left.listParts_eq_ok.mp hl
  obtain ⟨c, hc, -⟩ := Store.content_eq_some.mp hx
  exact ha.closed (hr (ha.left.isLive hc)) hx (by simp [Content.held])

theorem dictTables {d : DictParts} (hd : h.dictParts r = .ok d) :
    (d.keys.isLive = true → p d.keys) ∧ (d.values.isLive = true → p d.values) := by
  have hx := ha.left.dictParts_eq_ok.mp hd
  obtain ⟨c, hc, -⟩ := Store.content_eq_some.mp hx
  have hp := hr (ha.left.isLive hc)
  exact ⟨ha.closed hp hx (by simp [Content.held]), ha.closed hp hx (by simp [Content.held])⟩

theorem slots_eq : (∃ e, h.slots r = .error e ∧ h'.slots r = .error e) ∨
    ∃ t t', h.slots r = .ok t ∧ h'.slots r = .ok t' ∧ SameSlots h h' p t t' := by
  rcases ha.cells hr with ⟨e, he, he'⟩ | ⟨c, c', hc, hc', hcc⟩
  · refine .inl ⟨e, ?_, ?_⟩
    · rw [slots, he, error_bind]
    · rw [slots, he', error_bind]
  · cases hx : c.content with
    | array xs =>
      rw [hx] at hcc
      refine .inr ⟨_, _, ha.left.slots_eq_ok.mpr ⟨c, xs, hc, hx, rfl⟩,
        ha.right.slots_eq_ok.mpr ⟨c', xs, hc', hcc, rfl⟩, rfl, fun i => ?_, ?_⟩
      · rw [memory_eq, memory_eq, ha.left.slotsGet_eq hc hx, ha.right.slotsGet_eq hc' hcc]
      · intro i q hq hqlive
        rw [memory_eq, ha.left.slotsGet_eq hc hx] at hq
        split at hq
        case h_1 hi =>
          cases hq
          refine ha.closed (hr (ha.left.isLive hc)) (Store.content_eq_some.mpr ⟨c, hc, hx⟩) ?_
            hqlive
          exact List.mem_filter.mpr ⟨List.mem_of_getElem? hi, hqlive⟩
        case h_2 => cases hq
    | _ =>
      refine .inl ⟨.notAnArray, ?_, ?_⟩
      · rw [slots, ha.left.deref_eq hc, ok_bind, ha.left.kindAt_eq hc, hx]
        rfl
      · rw [slots, ha.right.deref_eq hc', ok_bind, ha.right.kindAt_eq hc', hcc, hx]
        rfl

theorem arrayGet_eq (i : Nat) : h.arrayGet r i = h'.arrayGet r i := by
  rcases ha.slots_eq hr with ⟨e, he, he'⟩ | ⟨t, t', ht, ht', hsame⟩
  · rw [arrayGet, arrayGet, he, he', error_bind, error_bind]
  · rw [arrayGet, arrayGet, ht, ht']
    exact hsame.get i

theorem arrayElement {i : Nat} {q : Reference} (hq : h.arrayGet r i = .ok q) :
    q.isLive = true → p q := by
  obtain ⟨xs, hx, hi⟩ := ha.left.arrayGet_eq_ok.mp hq
  obtain ⟨c, hc, -⟩ := Store.content_eq_some.mp hx
  intro hlive
  exact ha.closed (hr (ha.left.isLive hc)) hx
    (List.mem_filter.mpr ⟨List.mem_of_getElem? hi, hlive⟩) hlive

end Values

theorem singletonHash_eq (ha : Alike h h' s s' p) (hr : r.isLive = true → p r) :
    h.singletonHash r = h'.singletonHash r := by
  simp only [singletonHash, ha.truth_eq hr]
  exact ha.value_bind hr fun x _ _ => by cases x <;> rfl

theorem hashAs?_eq (ha : Alike h h' s s' p) (hr : r.isLive = true → p r) (k : Kind) :
    h.hashAs? k r = h'.hashAs? k r := by
  cases k with
  | none | bool => exact congrArg some (ha.singletonHash_eq hr)
  | integer => simp only [hashAs?, ha.integer_eq hr]
  | string => simp only [hashAs?, ha.stringBytes_eq hr]
  | list | dict | array | free => rfl

theorem hash_eq (ha : Alike h h' s s' p) (hr : r.isLive = true → p r) : h.hash r = h'.hash r := by
  simp only [hash, ha.kindOf_eq hr, ha.hashAs?_eq hr]

theorem truthyAs_eq (ha : Alike h h' s s' p) (hr : r.isLive = true → p r) (k : Kind) :
    h.truthyAs k r = h'.truthyAs k r := by
  cases k with
  | none | bool => exact ha.truth_eq hr
  | integer => simp only [truthyAs, ha.integer_eq hr]
  | string => simp only [truthyAs, ha.stringBytes_eq hr]
  | list => simp only [truthyAs, ha.listParts_eq hr]
  | dict => simp only [truthyAs, ha.dictParts_eq hr]
  | array | free => rfl

theorem lengthAs?_eq (ha : Alike h h' s s' p) (hr : r.isLive = true → p r) (k : Kind) :
    h.lengthAs? k r = h'.lengthAs? k r := by
  cases k <;> simp only [lengthAs?, ha.stringBytes_eq hr, ha.listParts_eq hr, ha.dictParts_eq hr]

theorem length_eq (ha : Alike h h' s s' p) (hr : r.isLive = true → p r) :
    h.length r = h'.length r := by
  simp only [length, ha.kindOf_eq hr, ha.lengthAs?_eq hr]

section Order

variable {left right : Reference}

theorem orderFrom_eq (ha : Alike h h' s s' p) {order order' : Reference → Reference →
    Query Failure Ordering} (horder : ∀ a b, (a.isLive = true → p a) → (b.isLive = true → p b) →
      order a b = order' a b) (hl : left.isLive = true → p left)
    (hr : right.isLive = true → p right) (index count : Nat) :
    h.orderFrom order left right index count = h'.orderFrom order' left right index count := by
  induction count generalizing index with
  | zero => rfl
  | succ count ih =>
    simp only [orderFrom, ← ha.arrayGet_eq hl, ← ha.arrayGet_eq hr, ih]
    refine query_congr fun a haa => query_congr fun b hbb => ?_
    rw [horder a b (ha.arrayElement hl haa) (ha.arrayElement hr hbb)]

theorem orderWithin_eq (ha : Alike h h' s s' p) {depth : Nat} {k : Kind}
    (hl : left.isLive = true → p left) (hr : right.isLive = true → p right) :
    h.orderWithin depth k left right = h'.orderWithin depth k left right := by
  induction depth generalizing k left right with
  | zero => rfl
  | succ depth ih =>
    cases k with
    | none | bool => simp only [orderWithin, ha.truth_eq hl, ha.truth_eq hr]
    | integer => simp only [orderWithin, ha.integer_eq hl, ha.integer_eq hr]
    | string => simp only [orderWithin, ha.stringBytes_eq hl, ha.stringBytes_eq hr]
    | list =>
      simp only [orderWithin, ← ha.listParts_eq hl, ← ha.listParts_eq hr]
      refine query_congr fun l hll => query_congr fun r hrr => ?_
      rw [ha.orderFrom_eq ?_ (ha.listValues hl hll) (ha.listValues hr hrr)]
      intro a b haa hbb
      simp only [ha.kindOf_eq haa, ha.kindOf_eq hbb, ih haa hbb]
    | dict | array | free => rfl

theorem probe_eq {t t' : Slots} (ht : SameSlots h h' p t t')
    {same same' : Reference → Except Fault Bool}
    (hsame : ∀ a, (a.isLive = true → p a) → same a = same' a) (start : Nat) (skip : Bool)
    (index count : Nat) :
    h.probe same t start skip index count = h'.probe same' t' start skip index count := by
  induction count generalizing index with
  | zero => rfl
  | succ count ih =>
    simp only [probe, ← ht.capacity, ← ht.get, ih]
    refine except_congr fun a haa => ?_
    rw [hsame a (ht.closed haa)]

theorem findKeyBy_eq (ha : Alike h h' s s' p)
    {equal equal' : Reference → Reference → Except Fault Bool}
    (hequal : ∀ a b, (a.isLive = true → p a) → (b.isLive = true → p b) →
      equal a b = equal' a b) (hl : left.isLive = true → p left)
    (hr : right.isLive = true → p right) (hash : UInt64) (skip : Bool) :
    h.findKeyBy equal left hash right skip = h'.findKeyBy equal' left hash right skip := by
  rcases ha.slots_eq hl with ⟨e, he, he'⟩ | ⟨t, t', ht, ht', hsame⟩
  · rw [findKeyBy, findKeyBy, he, he', error_bind, error_bind]
  · simp only [findKeyBy, ht, ht', ok_bind, ← hsame.capacity,
      probe_eq hsame fun a haa => hequal right a hr haa]

theorem lookupBy_eq (ha : Alike h h' s s' p)
    {equal equal' : Reference → Reference → Except Fault Bool}
    (hequal : ∀ a b, (a.isLive = true → p a) → (b.isLive = true → p b) →
      equal a b = equal' a b) (hl : left.isLive = true → p left)
    (hr : right.isLive = true → p right) (hash : UInt64) :
    h.lookupBy equal left hash right = h'.lookupBy equal' left hash right := by
  simp only [lookupBy, ha.findKeyBy_eq hequal hl hr, ha.arrayGet_eq hl]

theorem equalFrom_eq (ha : Alike h h' s s' p)
    {equal equal' : Reference → Reference → Except Fault Bool}
    (hequal : ∀ a b, (a.isLive = true → p a) → (b.isLive = true → p b) →
      equal a b = equal' a b) (hl : left.isLive = true → p left)
    (hr : right.isLive = true → p right) (index count : Nat) :
    h.equalFrom equal left right index count = h'.equalFrom equal' left right index count := by
  induction count generalizing index with
  | zero => rfl
  | succ count ih =>
    simp only [equalFrom, ← ha.arrayGet_eq hl, ← ha.arrayGet_eq hr, ih]
    refine except_congr fun a haa => except_congr fun b hbb => ?_
    rw [hequal a b (ha.arrayElement hl haa) (ha.arrayElement hr hbb)]

theorem includedFrom_eq (ha : Alike h h' s s' p)
    {equal equal' : Reference → Reference → Except Fault Bool}
    (hequal : ∀ a b, (a.isLive = true → p a) → (b.isLive = true → p b) →
      equal a b = equal' a b) {l r : DictParts} (hl : l.values.isLive = true → p l.values)
    (hkeys : r.keys.isLive = true → p r.keys) (hvalues : r.values.isLive = true → p r.values)
    {t t' : Slots} (ht : SameSlots h h' p t t') (slot count : Nat) :
    h.includedFrom equal l r t slot count = h'.includedFrom equal' l r t' slot count := by
  induction count generalizing slot with
  | zero => rfl
  | succ count ih =>
    simp only [includedFrom, ← ht.get, ih]
    refine except_congr fun key hkey => ?_
    have hp := ht.closed hkey
    simp only [ha.hash_eq hp, ha.lookupBy_eq hequal hkeys hp, ← ha.arrayGet_eq hl,
      ← ha.arrayGet_eq hvalues]
    cases key.isLive with
    | false => rfl
    | true =>
      refine except_congr fun o _ => ?_
      cases o with
      | error e => rfl
      | ok hash =>
        refine except_congr fun found _ => ?_
        cases found with
        | none => rfl
        | some other =>
          refine except_congr fun a haa => except_congr fun b hbb => ?_
          rw [hequal a b (ha.arrayElement hl haa) (ha.arrayElement hvalues hbb)]

theorem equalWithin_eq (ha : Alike h h' s s' p) {depth : Nat} {k : Kind}
    (hl : left.isLive = true → p left) (hr : right.isLive = true → p right) :
    h.equalWithin depth k left right = h'.equalWithin depth k left right := by
  induction depth generalizing k left right with
  | zero => rfl
  | succ depth ih =>
    have hequal : ∀ a b, (a.isLive = true → p a) → (b.isLive = true → p b) →
        (do let k ← h.kindOf a
            if k = (← h.kindOf b) then h.equalWithin depth k a b else return false) =
        (do let k ← h'.kindOf a
            if k = (← h'.kindOf b) then h'.equalWithin depth k a b else return false) := by
      intro a b haa hbb
      simp only [ha.kindOf_eq haa, ha.kindOf_eq hbb, ih haa hbb]
    cases k with
    | none | bool => simp only [equalWithin, ha.truth_eq hl, ha.truth_eq hr]
    | integer => simp only [equalWithin, ha.integer_eq hl, ha.integer_eq hr]
    | string => simp only [equalWithin, ha.stringBytes_eq hl, ha.stringBytes_eq hr]
    | list =>
      simp only [equalWithin, ← ha.listParts_eq hl, ← ha.listParts_eq hr]
      refine except_congr fun l hll => except_congr fun r hrr => ?_
      rw [ha.equalFrom_eq hequal (ha.listValues hl hll) (ha.listValues hr hrr)]
    | dict =>
      simp only [equalWithin, ← ha.dictParts_eq hl, ← ha.dictParts_eq hr]
      refine except_congr fun l hll => except_congr fun r hrr => ?_
      obtain ⟨hkeys, hvalues⟩ := ha.dictTables hl hll
      obtain ⟨hkeys', hvalues'⟩ := ha.dictTables hr hrr
      rcases ha.slots_eq hkeys with ⟨e, he, he'⟩ | ⟨t, t', ht, ht', hsame⟩
      · rw [he, he', error_bind, error_bind]
      · simp only [ht, ht', ok_bind, ← hsame.capacity,
          ha.includedFrom_eq hequal hvalues hkeys' hvalues' hsame]
    | array | free => rfl

theorem orderAs_eq (ha : Alike h h' s s' p) (hl : left.isLive = true → p left)
    (hr : right.isLive = true → p right) (k : Kind) :
    h.orderAs k left right = h'.orderAs k left right := by
  simp only [orderAs, nesting, ha.size, ha.orderWithin_eq hl hr]

theorem order_eq (ha : Alike h h' s s' p) (hl : left.isLive = true → p left)
    (hr : right.isLive = true → p right) : h.order left right = h'.order left right := by
  simp only [order, ha.kindOf_eq hl, ha.kindOf_eq hr, ha.orderAs_eq hl hr]

theorem equalAs_eq (ha : Alike h h' s s' p) (hl : left.isLive = true → p left)
    (hr : right.isLive = true → p right) (k : Kind) :
    h.equalAs k left right = h'.equalAs k left right := by
  simp only [equalAs, nesting, ha.size, ha.equalWithin_eq hl hr]

theorem equal_eq (ha : Alike h h' s s' p) (hl : left.isLive = true → p left)
    (hr : right.isLive = true → p right) : h.equal left right = h'.equal left right := by
  simp only [equal, ha.kindOf_eq hl, ha.kindOf_eq hr, ha.equalAs_eq hl hr]

theorem compareBy_eq (ha : Alike h h' s s' p) (op : Comparison)
    (hl : left.isLive = true → p left) (hr : right.isLive = true → p right) :
    h.compareBy op left right = h'.compareBy op left right := by
  cases op <;> simp only [compareBy, ha.equal_eq hl hr, ha.order_eq hl hr]

end Order

section Print

variable {item item' : Reference → Printer Unit}

theorem writeElements_eq (ha : Alike h h' s s' p)
    (hitem : ∀ a, (a.isLive = true → p a) → item a = item' a) (hr : r.isLive = true → p r)
    (index count : Nat) :
    h.writeElements item r index count = h'.writeElements item' r index count := by
  induction count generalizing index with
  | zero => rfl
  | succ count ih =>
    have hstep : ((liftM (h.arrayGet r index) : Printer Reference) >>= fun a => do
          item a
          h'.writeElements item' r (index + 1) count) =
        ((liftM (h.arrayGet r index) : Printer Reference) >>= fun a => do
          item' a
          h'.writeElements item' r (index + 1) count) :=
      printer_congr fun a haa => by rw [hitem a (ha.arrayElement hr haa)]
    simp only [writeElements, ← ha.arrayGet_eq hr, ih, hstep]

theorem writeEntries_eq (ha : Alike h h' s s' p)
    (hitem : ∀ a, (a.isLive = true → p a) → item a = item' a) (hr : r.isLive = true → p r)
    {t t' : Slots} (ht : SameSlots h h' p t t') (first : Bool) (slot count : Nat) :
    h.writeEntries item t r first slot count = h'.writeEntries item' t' r first slot count := by
  induction count generalizing first slot with
  | zero => rfl
  | succ count ih =>
    simp only [writeEntries, ← ha.arrayGet_eq hr, ← ht.get, ih]
    refine printer_congr fun key hkey => ?_
    have hstep : ((liftM (h.arrayGet r slot) : Printer Reference) >>= fun value => do
          item key
          Printer.write ": "
          item value
          h'.writeEntries item' t' r false (slot + 1) count) =
        ((liftM (h.arrayGet r slot) : Printer Reference) >>= fun value => do
          item' key
          Printer.write ": "
          item' value
          h'.writeEntries item' t' r false (slot + 1) count) :=
      printer_congr fun value hvalue => by
        rw [hitem key (ht.closed hkey), hitem value (ha.arrayElement hr hvalue)]
    rw [hstep]

theorem writeAs_eq (ha : Alike h h' s s' p)
    (hitem : ∀ a, (a.isLive = true → p a) → item a = item' a) (hr : r.isLive = true → p r)
    (k : Kind) (quoted : Bool) : h.writeAs item k r quoted = h'.writeAs item' k r quoted := by
  cases k with
  | none | bool =>
    rcases ha.value_eq hr with ⟨e, he, he'⟩ | ⟨x, a, a', hx, hx'⟩
    · simp only [writeAs, he, he']
    · simp only [writeAs, hx, hx', printer_ok_bind]
      cases x <;> rfl
  | integer => simp only [writeAs, ha.integer_eq hr]
  | string => simp only [writeAs, ha.stringBytes_eq hr]
  | list =>
    simp only [writeAs, ← ha.listParts_eq hr]
    refine printer_congr fun l hl => ?_
    rw [ha.writeElements_eq hitem (ha.listValues hr hl)]
  | dict =>
    simp only [writeAs, ← ha.dictParts_eq hr]
    refine printer_congr fun d hd => ?_
    obtain ⟨hkeys, hvalues⟩ := ha.dictTables hr hd
    rcases ha.slots_eq hkeys with ⟨e, he, he'⟩ | ⟨t, t', ht, ht', hsame⟩
    · rw [he, he', printer_error_bind, printer_error_bind]
    · rw [ht, ht', printer_ok_bind, printer_ok_bind, hsame.capacity,
        ha.writeEntries_eq hitem hvalues hsame]
  | array | free => rfl

theorem writeNested_eq (ha : Alike h h' s s' p) (hr : r.isLive = true → p r) (depth : Nat)
    (quoted : Bool) : h.writeNested r depth quoted = h'.writeNested r depth quoted := by
  induction depth generalizing r quoted with
  | zero => rfl
  | succ depth ih =>
    simp only [writeNested, ← ha.kindOf_eq hr]
    refine printer_congr fun k _ => ?_
    exact ha.writeAs_eq (fun a haa => ih haa true) hr k quoted

theorem writeWithin_eq (ha : Alike h h' s s' p) (hr : r.isLive = true → p r) (k : Kind)
    (depth : Nat) (quoted : Bool) :
    h.writeWithin k r depth quoted = h'.writeWithin k r depth quoted :=
  ha.writeAs_eq (fun _ haa => ha.writeNested_eq haa depth true) hr k quoted

theorem display_eq (ha : Alike h h' s s' p) (hr : r.isLive = true → p r) :
    h.display r = h'.display r := by
  simp only [display, ha.depth, ha.writeNested_eq hr]

theorem repr_eq (ha : Alike h h' s s' p) (hr : r.isLive = true → p r) :
    h.repr r = h'.repr r := by
  simp only [repr, ha.depth, ha.writeNested_eq hr]

end Print
end Alike
end Heap
end CountedHeap
