import CountedHeap.Proofs.Refcounts

/-!
The shapes of lists and dicts. Each stands on arrays of its own, and in these are elements that
users see, or the slots of a hash table in which every key is found.
-/

namespace CountedHeap

namespace Heap

def Shows (h : Heap) (r : Reference) : Prop := ∃ k, h.kindOf r = .ok k ∧ k ≠ .array

/-- An array with one owner, to which one edge leads. -/
structure Backing (h : Heap) (array : Reference) (slots : List Reference) : Prop where
  contents : h.contents array = .ok (.array slots)
  refcount : h.refcount array = .ok 1
  edge : ∃ out, h.table.entries.mapM (fun e => h.outgoing e.1) = .ok out ∧
    (out.map (·.count array)).sum = 1

/-- The slots of a list with so many elements. -/
structure ListShape (h : Heap) (size : Nat) (slots : List Reference) : Prop where
  fits : size ≤ slots.length
  elements : ∀ q ∈ slots.take size, h.Shows q
  rest : ∀ q ∈ slots.drop size, q = .null

/-- The slots of a dict with so many entries, and with so many key slots that are not empty. -/
structure DictShape (h : Heap) (size occupied : Nat) (keys values : List Reference) : Prop where
  paired : values.length = keys.length
  entries : ∀ {i : Nat} {k v : Reference}, keys[i]? = some k → values[i]? = some v →
    (k.isLive = true ∧ v.isLive = true) ∨ ((k = .null ∨ k = .tombstone) ∧ v = .null)
  shown : ∀ q ∈ keys ++ values, q.isLive = true → h.Shows q
  size_eq : keys.countP (·.isLive) = size
  occupied_eq : keys.countP (!·.isNull) = occupied
  hashable : ∀ k ∈ keys, k.isLive = true → ∃ n, h.hash k = .ok (.ok n)
  distinct : ∀ {i j : Nat} {k l : Reference}, keys[i]? = some k → keys[j]? = some l →
    k.isLive = true → l.isLive = true → i ≠ j → h.equal k l = .ok false
  way : ∀ {i : Nat} {k : Reference} {n : UInt64}, keys[i]? = some k → k.isLive = true →
    h.hash k = .ok (.ok n) → Way keys n i

structure Shaped (h : Heap) : Prop where
  lists : ∀ {r values : Reference} {size : Nat}, h.contents r = .ok (.list size values) →
    ∃ slots, h.Backing values slots ∧ h.ListShape size slots
  dicts : ∀ {r keys values : Reference} {size occupied : Nat},
    h.contents r = .ok (.dict size occupied keys values) →
      keys ≠ values ∧ ∃ ks vs, h.Backing keys ks ∧ h.Backing values vs ∧
        h.DictShape size occupied ks vs

variable {h : Heap} {s : Store} {arrays owned : List Reference} {r q v k : Reference}
  {xs ks vs : List Reference} {n o : Nat}

theorem Stored.shows_of (hs : h.Stored s) {x : Content} (hq : s.content q = some x)
    (harray : ¬s.IsArray q) : h.Shows q := by
  refine ⟨x.kind, hs.kindOf_eq_ok.mpr ⟨x, hq, rfl⟩, fun hkind => harray ?_⟩
  cases x with
  | array ys => exact ⟨ys, hq⟩
  | _ => cases hkind

theorem Stored.shows (hs : h.Stored s) (hl : s.Ledger arrays owned)
    (hr : s.content r = some (.array xs)) (hq : q ∈ xs) (hlive : q.isLive = true) : h.Shows q := by
  have hheld : q ∈ s.held r := by
    rw [Store.held_of_content hr]
    exact List.mem_filter.mpr ⟨hq, hlive⟩
  have hpos := edges.pos_of_mem (hl.isLive_of_held hheld) hheld
  obtain ⟨x, hx⟩ := hl.exact.occupied hlive (by omega)
  exact hs.shows_of hx (hl.plain hr hq)

theorem Stored.backing (hs : h.Stored s) (hl : s.Ledger arrays owned)
    (hv : s.content v = some (.array xs)) (hr : v ∈ s.held r) : h.Backing v xs := by
  have hcount := hl.count_eq (hl.live hv)
  rw [hl.count_eq_one hv, (hl.sole ⟨xs, hv⟩ hr).1, (hl.sole ⟨xs, hv⟩ hr).2.1] at hcount
  obtain ⟨c, hc, -⟩ := Store.content_eq_some.mp hv
  refine ⟨hs.contents_eq_ok.mpr hv, ?_, _, hs.entries_outgoing, ?_⟩
  · rw [hs.refcount_eq hc, ← Store.count_eq hc, hl.count_eq_one hv]
  · rw [← hs.edges_eq]
    omega

theorem Stored.listShape (hs : h.Stored s) (hl : s.Ledger arrays owned)
    (hv : s.content v = some (.array xs)) (hf : Filled n xs) : h.ListShape n xs :=
  ⟨hf.fits, fun q hq => hs.shows hl hv (List.mem_of_mem_take hq) (hf.live q hq), hf.blank⟩

theorem Stored.dictShape_of_shown (hs : h.Stored s) (ht : Tabled s.content n o ks vs)
    (hshown : ∀ q ∈ ks ++ vs, q.isLive = true → h.Shows q) : h.DictShape n o ks vs := by
  refine ⟨ht.paired, ht.entries, fun q hq hlive => hshown q hq hlive, ht.size_eq, ht.occupied_eq,
    fun p hp hlive => ?_, fun {i j p l} hp hq hplive hllive hne => ?_,
    fun {i p m} hp hlive hm => ?_⟩
  · obtain ⟨x, m, hx, hm⟩ := ht.hashable p hp hlive
    exact ⟨m, hs.hash_eq hx hm⟩
  · obtain ⟨x, m, hx, hm⟩ := ht.hashable p (List.mem_of_getElem? hp) hplive
    obtain ⟨y, -, hy, -⟩ := ht.hashable l (List.mem_of_getElem? hq) hllive
    obtain ⟨b, hb, hiff⟩ := hs.equal_eq hx hm hy
    cases b with
    | false => exact hb
    | true =>
      rw [hiff.mp rfl] at hy
      exact absurd (ht.distinct hp hq hplive hllive hx hy) hne
  · obtain ⟨x, hx, hn⟩ := hs.hash_eq_ok.mp hm
    exact ht.way hp hlive hx hn

theorem Stored.dictShape (hs : h.Stored s) (hl : s.Ledger arrays owned)
    (hk : s.content k = some (.array ks)) (hv : s.content v = some (.array vs))
    (ht : Tabled s.content n o ks vs) : h.DictShape n o ks vs := by
  refine hs.dictShape_of_shown ht fun q hq hlive => ?_
  rcases List.mem_append.mp hq with hq | hq
  · exact hs.shows hl hk hq hlive
  · exact hs.shows hl hv hq hlive

theorem Stored.tabled_of_dictShape (hs : h.Stored s) (hshape : h.DictShape n o ks vs) :
    Tabled s.content n o ks vs where
  paired := hshape.paired
  entries := hshape.entries
  hashable p hp hlive := by
    obtain ⟨m, hm⟩ := hshape.hashable p hp hlive
    obtain ⟨x, hx, hn⟩ := hs.hash_eq_ok.mp hm
    exact ⟨x, m, hx, hn⟩
  distinct {i j p l x} hp hl hplive hllive hx hy := by
    by_contra hne
    obtain ⟨m, hm⟩ := hshape.hashable p (List.mem_of_getElem? hp) hplive
    obtain ⟨x', hx', hn⟩ := hs.hash_eq_ok.mp hm
    cases hx.symm.trans hx'
    obtain ⟨b, hb, hiff⟩ := hs.equal_eq hx hn hy
    have hdiffer := hshape.distinct hp hl hplive hllive hne
    rw [hb, hiff.mpr rfl] at hdiffer
    cases hdiffer
  way hp hlive hx hn := hshape.way hp hlive (hs.hash_eq hx hn)
  size_eq := hshape.size_eq
  occupied_eq := hshape.occupied_eq

theorem Stored.shaped (hs : h.Stored s) (hl : s.Ledger arrays owned) : h.Shaped := by
  refine ⟨fun {r v n} hr => ?_, fun {r k v n o} hr => ?_⟩
  · have hr := hs.contents_eq_ok.mp hr
    have hheld : s.held r = [v] := Store.held_of_content hr
    obtain ⟨xs, hv, hfilled⟩ := hl.lists hr
    exact ⟨xs, hs.backing hl hv (r := r) (by simp [hheld]), hs.listShape hl hv hfilled⟩
  · have hr := hs.contents_eq_ok.mp hr
    have hheld : s.held r = [v, k] := Store.held_of_content hr
    obtain ⟨ks, vs, hk, hv, htabled⟩ := hl.dicts hr
    exact ⟨hl.keys_ne_values hr hk, ks, vs, hs.backing hl hk (r := r) (by simp [hheld]),
      hs.backing hl hv (r := r) (by simp [hheld]), hs.dictShape hl hk hv htabled⟩

end Heap

namespace Client

theorem Run.heap_shaped {c : Client} (hrun : Run allows c) : c.heap.Shaped := by
  obtain ⟨s, hs, hl, -⟩ := hrun.accounted.balanced
  exact hs.toStored.shaped hl

theorem household_shaped : ∃ c, household = some c ∧ c.heap.Shaped := by
  obtain ⟨c, hc⟩ := Option.isSome_iff_exists.mp household_isSome
  exact ⟨c, hc, (Run.session hc).heap_shaped⟩

end Client
end CountedHeap
