import CountedHeap.Proofs.Cycles
import CountedHeap.Proofs.Lookups
import CountedHeap.Proofs.Progress
import Mathlib.Data.Set.Card

/-!
What values mean. None, a truth value, an integer and a string mean themselves, a list means the
sequence of what its elements mean, and a dict a finite map from keys to what their values mean. In
which slots the elements and entries of a container stand, and what else was in its tables before,
is no part of that. A value from which no way leads into a cycle has just one meaning.
-/

namespace CountedHeap

inductive Scalar
  | none
  | bool (b : Bool)
  | integer (n : Int64)
  | string (bytes : List UInt8)
  deriving DecidableEq

def Scalar.content : Scalar → Content
  | none => .none
  | bool b => .bool b
  | integer n => .integer n
  | string bytes => .string bytes

inductive Meaning
  | scalar (x : Scalar)
  | list (elements : List Meaning)
  /-- What keys are mapped to; most are mapped to nothing. -/
  | dict (entries : Scalar → Option Meaning)

theorem Scalar.content_inj {x y : Scalar} : x.content = y.content ↔ x = y := by
  cases x <;> cases y <;> simp [content]

theorem Content.hash?_ne_none {x : Content} : x.hash? ≠ Option.none ↔ ∃ y : Scalar, y.content = x := by
  constructor
  · intro hx
    cases x with
    | none => exact ⟨.none, rfl⟩
    | bool b => exact ⟨.bool b, rfl⟩
    | integer n => exact ⟨.integer n, rfl⟩
    | string bytes => exact ⟨.string bytes, rfl⟩
    | _ => exact absurd rfl hx
  · rintro ⟨y, rfl⟩
    cases y <;> exact Option.some_ne_none _

namespace Heap

def items (h : Heap) (r : Reference) : Except Fault (List Reference) := do
  let list ← h.listParts r
  let slots ← h.slots list.values
  return (← slots.references h.memory).take list.size

def pairs (h : Heap) (r : Reference) : Except Fault (List (Reference × Reference)) := do
  let dict ← h.dictParts r
  let keys ← (← h.slots dict.keys).references h.memory
  let values ← (← h.slots dict.values).references h.memory
  return (keys.zip values).filter (·.1.isLive)

inductive Denotes (h : Heap) : Reference → Meaning → Prop
  | scalar {r : Reference} {x : Scalar} (hr : h.contents r = .ok x.content) :
      h.Denotes r (.scalar x)
  | list {r : Reference} {elements : List Reference} {meanings : List Meaning}
      (hr : h.items r = .ok elements) (hlength : meanings.length = elements.length)
      (hall : ∀ (i : Nat) q m, elements[i]? = some q → meanings[i]? = some m → h.Denotes q m) :
      h.Denotes r (.list meanings)
  | dict {r : Reference} {entries : List (Reference × Reference)} {f : Scalar → Option Meaning}
      (hr : h.pairs r = .ok entries)
      (hkeys : ∀ x, (f x).isSome = true ↔ ∃ e ∈ entries, h.contents e.1 = .ok x.content)
      (hall : ∀ e ∈ entries, ∀ x m, h.contents e.1 = .ok x.content → f x = some m →
        h.Denotes e.2 m) : h.Denotes r (.dict f)

/-- From `r` no way leads into a cycle. -/
def AcyclicFrom (h : Heap) (r : Reference) : Prop :=
  ∀ q, Relation.ReflTransGen h.Edge r q → ¬Relation.TransGen h.Edge q q

variable {h : Heap} {s : Store} {arrays owned : List Reference} {r q k v : Reference}
  {x : Scalar} {m m' : Meaning} {n o : Nat} {xs ks vs : List Reference} {map : Mapping}

section Weight

theorem AcyclicFrom.edge (ha : h.AcyclicFrom r) (he : h.Edge r q) : h.AcyclicFrom q :=
  fun p hp => ha p (.head he hp)

def reach (h : Heap) (r : Reference) : Set Reference := {q | Relation.ReflTransGen h.Edge r q}

noncomputable def weight (h : Heap) (r : Reference) : Nat := (h.reach r).ncard

theorem weight_pos (h : Heap) (r : Reference) : 0 < h.weight r :=
  (Set.ncard_pos (Set.toFinite _)).mpr ⟨r, .refl⟩

theorem AcyclicFrom.weight_lt (ha : h.AcyclicFrom r) (he : h.Edge r q) :
    h.weight q < h.weight r := by
  refine Set.ncard_lt_ncard ⟨fun p hp => .head he hp, fun hback => ?_⟩ (Set.toFinite _)
  have hcycle : Relation.ReflTransGen h.Edge q r := hback .refl
  exact ha r .refl (.head' he hcycle)

theorem Stored.weight_le (hs : h.Stored s) (hl : s.Ledger arrays owned) (hr : h.Occupied r) :
    h.weight r ≤ h.table.size := by
  have hthere : ∀ q ∈ h.reach r, h.Occupied q := by
    intro q hq
    induction hq with
    | refl => exact hr
    | tail _ he _ =>
      obtain ⟨hheld, -⟩ := hs.edge_iff.mp he
      obtain ⟨y, hy⟩ := hl.occupied_of_held hheld
      obtain ⟨c, hc, -⟩ := Store.content_eq_some.mp hy
      exact hs.occupied_iff.mpr ⟨c, hc⟩
  have hslot : ∀ q ∈ h.reach r, q.isLive = true ∧ q.index < h.table.size := by
    intro q hq
    obtain ⟨a, ha⟩ := Option.ne_none_iff_exists'.mp (hthere q hq)
    exact ⟨Table.isLive_of_get? ha, Table.index_lt_size ha⟩
  calc h.weight r
      ≤ (Finset.range h.table.size : Set Nat).ncard := by
        refine Set.ncard_le_ncard_of_injOn Reference.index (fun q hq => ?_) ?_ (Set.toFinite _)
        · exact Finset.mem_coe.mpr (Finset.mem_range.mpr (hslot q hq).2)
        · exact fun p hp q hq heq => Reference.ext_index (hslot p hp).1 (hslot q hq).1 heq
    _ = h.table.size := by rw [Set.ncard_coe_finset, Finset.card_range]

end Weight

section Reading

theorem Stored.references_eq (hs : h.Stored s) (hv : s.content v = some (.array xs)) :
    ∃ slots, h.slots v = .ok slots ∧ slots.references h.memory = .ok xs := by
  obtain ⟨c, hc, hx⟩ := Store.content_eq_some.mp hv
  refine ⟨⟨c.addr, xs.length⟩, hs.slots_eq_ok.mpr ⟨c, xs, hc, hx, rfl⟩, ?_⟩
  have hroom := hs.room_le hc
  have hfields := (hs.holds hc).fields
  rw [hx] at hroom hfields
  exact Slots.references_eq hfields hroom

theorem Stored.items_eq (hs : h.Stored s) (hr : s.content r = some (.list n v))
    (hv : s.content v = some (.array xs)) : h.items r = .ok (xs.take n) := by
  obtain ⟨slots, hslots, hrefs⟩ := hs.references_eq hv
  have hparts : h.listParts r = .ok ⟨n, v⟩ := hs.listParts_eq_ok.mpr hr
  simp only [items, hparts, hslots, hrefs, ok_bind]
  rfl

theorem Stored.pairs_eq (hs : h.Stored s) (hr : s.content r = some (.dict n o k v))
    (hk : s.content k = some (.array ks)) (hv : s.content v = some (.array vs)) :
    h.pairs r = .ok ((ks.zip vs).filter (·.1.isLive)) := by
  obtain ⟨keys, hkeys, hkrefs⟩ := hs.references_eq hk
  obtain ⟨values, hvalues, hvrefs⟩ := hs.references_eq hv
  have hparts : h.dictParts r = .ok ⟨n, o, k, v⟩ := hs.dictParts_eq_ok.mpr hr
  simp only [pairs, hparts, hkeys, hkrefs, hvalues, hvrefs, ok_bind]
  rfl

theorem Stored.list_of_items (hs : h.Stored s) (hr : h.items r = .ok xs) :
    ∃ n v, s.content r = some (.list n v) := by
  simp only [items, bind_eq_ok] at hr
  obtain ⟨parts, hparts, -⟩ := hr
  exact ⟨_, _, hs.listParts_eq_ok.mp hparts⟩

theorem Stored.dict_of_pairs (hs : h.Stored s) {entries : List (Reference × Reference)}
    (hr : h.pairs r = .ok entries) : ∃ n o k v, s.content r = some (.dict n o k v) := by
  simp only [pairs, bind_eq_ok] at hr
  obtain ⟨parts, hparts, -⟩ := hr
  exact ⟨_, _, _, _, hs.dictParts_eq_ok.mp hparts⟩

theorem mem_pairs {e : Reference × Reference} :
    e ∈ (ks.zip vs).filter (·.1.isLive) ↔
      ∃ i : Nat, ks[i]? = some e.1 ∧ e.1.isLive = true ∧ vs[i]? = some e.2 := by
  rw [List.mem_filter, List.mem_iff_getElem?]
  simp only [List.getElem?_zip_eq_some]
  constructor
  · rintro ⟨⟨i, hk, hv⟩, hlive⟩
    exact ⟨i, hk, hlive, hv⟩
  · rintro ⟨i, hk, hlive, hv⟩
    exact ⟨⟨i, hk, hv⟩, hlive⟩

theorem Stored.mem_pairs_iff (hs : h.Stored s) (hmap : Tables s.content ks vs map)
    {e : Reference × Reference} :
    (e ∈ (ks.zip vs).filter (·.1.isLive) ∧ h.contents e.1 = .ok x.content) ↔
      map x.content = some e := by
  rw [mem_pairs, hs.contents_eq_ok, hmap x.content e]
  constructor
  · rintro ⟨⟨i, hk, hlive, hv⟩, hx⟩
    exact ⟨i, hk, hlive, hx, hv⟩
  · rintro ⟨i, hk, hlive, hx, hv⟩
    exact ⟨⟨i, hk, hlive, hv⟩, hx⟩

end Reading

section Denoting

theorem Stored.denotes_list (hs : h.Stored s) (hr : s.content r = some (.list n v))
    (hv : s.content v = some (.array xs)) :
    h.Denotes r m ↔ ∃ ms, m = .list ms ∧ ms.length = (xs.take n).length ∧
      ∀ (i : Nat) q m, (xs.take n)[i]? = some q → ms[i]? = some m → h.Denotes q m := by
  have hitems := hs.items_eq hr hv
  constructor
  · intro hd
    cases hd with
    | @scalar r x hx =>
      rw [hs.contents_eq_ok, hr] at hx
      cases x <;> cases hx
    | list hitems' hlength hall =>
      cases hitems.symm.trans hitems'
      exact ⟨_, rfl, hlength, hall⟩
    | dict hpairs =>
      obtain ⟨_, _, _, _, hr'⟩ := hs.dict_of_pairs hpairs
      rw [hr] at hr'
      cases hr'
  · rintro ⟨ms, rfl, hlength, hall⟩
    exact .list hitems hlength hall

theorem Stored.denotes_dict (hs : h.Stored s) (hmap : s.Maps r map) :
    h.Denotes r m ↔ ∃ f : Scalar → Option Meaning, m = .dict f ∧
      (∀ x, map x.content = none → f x = none) ∧
        ∀ x e, map x.content = some e → ∃ m, f x = some m ∧ h.Denotes e.2 m := by
  obtain ⟨n, o, k, v, ks, vs, hr, hk, hv, ht⟩ := hmap
  have hpairs := hs.pairs_eq hr hk hv
  have hmem {x : Scalar} {e : Reference × Reference} := hs.mem_pairs_iff ht (x := x) (e := e)
  constructor
  · intro hd
    cases hd with
    | @scalar r x hx =>
      rw [hs.contents_eq_ok, hr] at hx
      cases x <;> cases hx
    | list hitems =>
      obtain ⟨_, _, hr'⟩ := hs.list_of_items hitems
      rw [hr] at hr'
      cases hr'
    | @dict r entries f hpairs' hkeys hall =>
      cases hpairs.symm.trans hpairs'
      refine ⟨f, rfl, fun x hx => ?_, fun x e he => ?_⟩
      · rw [← Option.not_isSome_iff_eq_none, hkeys]
        rintro ⟨e, he, hcontent⟩
        rw [hmem.mp ⟨he, hcontent⟩] at hx
        cases hx
      · obtain ⟨he, hcontent⟩ := hmem.mpr he
        obtain ⟨m, hm⟩ := Option.isSome_iff_exists.mp ((hkeys x).mpr ⟨e, he, hcontent⟩)
        exact ⟨m, hm, hall e he x m hcontent hm⟩
  · rintro ⟨f, rfl, hnone, hsome⟩
    refine .dict hpairs (fun x => ⟨fun hx => ?_, ?_⟩) fun e he x m hx hm => ?_
    · cases hmap : map x.content with
      | none =>
        rw [hnone x hmap] at hx
        cases hx
      | some e => exact ⟨e, hmem.mpr hmap⟩
    · rintro ⟨e, he⟩
      obtain ⟨m, hm, -⟩ := hsome x e (hmem.mp he)
      rw [hm]
      rfl
    · obtain ⟨m', hm', hd⟩ := hsome x e (hmem.mp ⟨he, hx⟩)
      rw [hm, Option.some_inj] at hm'
      exact hm' ▸ hd

theorem Stored.denotes_scalar (hs : h.Stored s) (hr : s.content r = some x.content) :
    h.Denotes r m ↔ m = .scalar x := by
  constructor
  · intro hd
    cases hd with
    | scalar hx =>
      rw [hs.contents_eq_ok, hr, Option.some_inj, Scalar.content_inj] at hx
      rw [hx]
    | list hitems =>
      obtain ⟨_, _, hr'⟩ := hs.list_of_items hitems
      rw [hr] at hr'
      cases x <;> cases hr'
    | dict hpairs =>
      obtain ⟨_, _, _, _, hr'⟩ := hs.dict_of_pairs hpairs
      rw [hr] at hr'
      cases x <;> cases hr'
  · rintro rfl
    exact .scalar (hs.contents_eq_ok.mpr hr)

theorem Stored.denotes_unique (hs : h.Stored s) (hl : s.Ledger arrays owned)
    (hd : h.Denotes r m) (hd' : h.Denotes r m') : m = m' := by
  induction hd generalizing m' with
  | scalar hr => exact ((hs.denotes_scalar (hs.contents_eq_ok.mp hr)).mp hd').symm
  | @list r elements meanings hr hlength _ ih =>
    obtain ⟨n, v, hlist⟩ := hs.list_of_items hr
    obtain ⟨xs, hv, -⟩ := hl.lists hlist
    cases hr.symm.trans (hs.items_eq hlist hv)
    obtain ⟨ms, rfl, hlength', hall⟩ := (hs.denotes_list hlist hv).mp hd'
    refine congrArg _ (List.ext_getElem (hlength.trans hlength'.symm) fun i hi hi' => ?_)
    have hq := List.getElem?_eq_getElem (hlength ▸ hi)
    have hm := List.getElem?_eq_getElem hi'
    exact ih i _ _ hq (List.getElem?_eq_getElem hi) (hall i _ _ hq hm)
  | @dict r entries f hr hkeys _ ih =>
    obtain ⟨n, o, k, v, hdict⟩ := hs.dict_of_pairs hr
    obtain ⟨map, hmap⟩ := hl.exists_mapping hdict
    obtain ⟨g, rfl, hnone, hsome⟩ := (hs.denotes_dict hmap).mp hd'
    obtain ⟨ks, vs, hk, hv, -⟩ := hl.dicts hdict
    cases hr.symm.trans (hs.pairs_eq hdict hk hv)
    have hmem {x : Scalar} {e : Reference × Reference} :=
      hs.mem_pairs_iff (hmap.tables hdict hk hv) (x := x) (e := e)
    refine congrArg _ (funext fun x => ?_)
    cases hx : map x.content with
    | none =>
      rw [hnone x hx, ← Option.not_isSome_iff_eq_none, hkeys]
      rintro ⟨e, he⟩
      rw [hmem.mp he] at hx
      cases hx
    | some e =>
      obtain ⟨he, hcontent⟩ := hmem.mpr hx
      obtain ⟨m, hm⟩ := Option.isSome_iff_exists.mp ((hkeys x).mpr ⟨e, he, hcontent⟩)
      obtain ⟨m', hm', hd'⟩ := hsome x e hx
      rw [hm, hm', ih e he x m hcontent hm hd']

section Below

variable (hs : h.Stored s) (hl : s.Ledger arrays owned)

include hs hl

theorem Stored.below (ha : h.AcyclicFrom r) (hv : v ∈ s.held r)
    (harray : s.content v = some (.array xs)) (hq : q ∈ xs) (hlive : q.isLive = true) :
    h.AcyclicFrom q ∧ h.weight q < h.weight r ∧ ∃ y, s.content q = some y ∧ ¬s.IsArray q := by
  have hedge : h.Edge r v := hs.edge_iff.mpr ⟨hv, hl.live harray⟩
  have hheld : q ∈ s.held v := by
    rw [Store.held_of_content harray]
    exact List.mem_filter.mpr ⟨hq, hlive⟩
  have hedge' : h.Edge v q := hs.edge_iff.mpr ⟨hheld, hlive⟩
  obtain ⟨y, hy⟩ := hl.occupied_of_held hheld
  exact ⟨(ha.edge hedge).edge hedge', ((ha.edge hedge).weight_lt hedge').trans (ha.weight_lt hedge),
    y, hy, hl.plain harray hq⟩

theorem Stored.below_element (ha : h.AcyclicFrom r) (hr : s.content r = some (.list n v))
    (hv : s.content v = some (.array xs)) (hq : q ∈ xs.take n) :
    h.AcyclicFrom q ∧ h.weight q < h.weight r ∧ ∃ y, s.content q = some y ∧ ¬s.IsArray q :=
  hs.below hl ha (by simp [Store.held_of_content hr, Content.held]) hv (List.mem_of_mem_take hq)
    ((hl.filled hr hv).live q hq)

variable {e : Reference × Reference} {y : Content}

theorem Stored.below_value (ha : h.AcyclicFrom r) (hmap : s.Maps r map) (he : map y = some e) :
    h.AcyclicFrom e.2 ∧ h.weight e.2 < h.weight r ∧
      ∃ z, s.content e.2 = some z ∧ ¬s.IsArray e.2 := by
  obtain ⟨n, o, k, v, ks, vs, hr, hk, hv, ht⟩ := hmap
  obtain ⟨i, hi, hlive, -, hvalue⟩ := (ht y e).mp he
  exact hs.below hl ha (by simp [Store.held_of_content hr, Content.held]) hv
    (List.mem_of_getElem? hvalue) ((hl.tabled hr hk hv).toHashed.value_live hi hlive hvalue)

theorem Stored.exists_denotes (ha : h.AcyclicFrom r) (hr : s.content r = some y)
    (hplain : ¬s.IsArray r) : ∃ m, h.Denotes r m := by
  -- What a value leads to weighs less than the value, as it leads into no cycle.
  induction hw : h.weight r using Nat.strong_induction_on generalizing r y with
  | _ w ih =>
    subst hw
    have hbelow {q : Reference} (hq : h.AcyclicFrom q ∧ h.weight q < h.weight r ∧
        ∃ z, s.content q = some z ∧ ¬s.IsArray q) : ∃ m, h.Denotes q m := by
      obtain ⟨haq, hlt, z, hz, hqplain⟩ := hq
      exact ih _ hlt haq hz hqplain rfl
    cases y with
    | none => exact ⟨_, (hs.denotes_scalar (x := .none) hr).mpr rfl⟩
    | bool b => exact ⟨_, (hs.denotes_scalar (x := .bool b) hr).mpr rfl⟩
    | integer n => exact ⟨_, (hs.denotes_scalar (x := .integer n) hr).mpr rfl⟩
    | string bytes => exact ⟨_, (hs.denotes_scalar (x := .string bytes) hr).mpr rfl⟩
    | list n v =>
      obtain ⟨xs, hv, -⟩ := hl.lists hr
      have hall : ∀ q : Reference, ∃ m, q ∈ xs.take n → h.Denotes q m := fun q => by
        by_cases hq : q ∈ xs.take n
        · obtain ⟨m, hm⟩ := hbelow (hs.below_element hl ha hr hv hq)
          exact ⟨m, fun _ => hm⟩
        · exact ⟨.scalar .none, fun hmem => absurd hmem hq⟩
      choose f hf using hall
      refine ⟨_, (hs.denotes_list hr hv).mpr ⟨(xs.take n).map f, rfl, List.length_map _, ?_⟩⟩
      intro i q m hq hm
      rw [List.getElem?_map, hq, Option.map_some, Option.some_inj] at hm
      exact hm ▸ hf q (List.mem_of_getElem? hq)
    | dict n o k v =>
      obtain ⟨map, hmap⟩ := hl.exists_mapping hr
      have hall : ∀ e : Reference × Reference, ∃ m, ∀ x, map x = some e → h.Denotes e.2 m :=
        fun e => by
          by_cases he : ∃ x, map x = some e
          · obtain ⟨x, hx⟩ := he
            obtain ⟨m, hm⟩ := hbelow (hs.below_value hl ha hmap hx)
            exact ⟨m, fun _ _ => hm⟩
          · exact ⟨.scalar .none, fun x hx => absurd ⟨x, hx⟩ he⟩
      choose f hf using hall
      refine ⟨_, (hs.denotes_dict hmap).mpr
        ⟨fun x => (map x.content).map f, rfl, fun x hx => ?_, fun x e he => ⟨f e, ?_, hf e _ he⟩⟩⟩
      · simp only [hx, Option.map_none]
      · simp only [he, Option.map_some]
    | array slots => exact absurd ⟨slots, hr⟩ hplain

end Below

end Denoting

end Heap
end CountedHeap
