import CountedHeap.Proofs.Mapping

/-!
Lookups in hash tables. A search passes each slot at most once, so it comes to an answer; and the
answer is what the map says for which the table stands.
-/

namespace CountedHeap

variable {c : Reference → Option Content} {keys values : List Reference} {m : Mapping} {x : Content}
  {e : Reference × Reference}

def Legible (c : Reference → Option Content) (k : Reference) : Prop :=
  (∃ y, c k = some y) ∨ k = .null ∨ k = .tombstone

theorem Hashed.legible (ht : Hashed c keys values) {k : Reference} (hk : k ∈ keys) :
    Legible c k := by
  obtain ⟨i, hi⟩ := List.mem_iff_getElem?.mp hk
  have hlt : i < values.length := ht.paired ▸ (List.getElem?_eq_some_iff.mp hi).1
  rcases ht.entries hi (List.getElem?_eq_getElem hlt) with ⟨hlive, -⟩ | ⟨hdead, -⟩
  · obtain ⟨y, -, hy, -⟩ := ht.hashable k hk hlive
    exact .inl ⟨y, hy⟩
  · exact .inr hdead

theorem Hashed.value_live (ht : Hashed c keys values) {i : Nat} {k v : Reference}
    (hk : keys[i]? = some k) (hlive : k.isLive = true) (hv : values[i]? = some v) :
    v.isLive = true := by
  rcases ht.entries hk hv with ⟨-, hvlive⟩ | ⟨hdead, -⟩
  · exact hvlive
  · rcases hdead with rfl | rfl <;> cases hlive

namespace Heap.Stored

variable {h : Heap} {s : Store} {key table q : Reference} {hash : UInt64} {skip : Bool}

theorem stops_answers (hs : h.Stored s) (hx : s.content key = some x) (hn : x.hash? = some hash)
    (hq : Legible s.content q) :
    ∃ stop, (if q.isTombstone then pure !skip
      else if q.isNull then pure true else h.equal key q : Except Fault Bool) = .ok stop := by
  rcases hq with ⟨y, hy⟩ | rfl | rfl
  · obtain ⟨d, hd, -⟩ := Store.content_eq_some.mp hy
    have hlive := hs.isLive hd
    obtain ⟨b, hb, -⟩ := hs.equal_eq hx hn hy
    have htomb : ¬q.isTombstone = true := fun h => by
      rw [beq_iff_eq.mp h] at hlive
      cases hlive
    have hnull : ¬q.isNull = true := fun h => by
      rw [beq_iff_eq.mp h] at hlive
      cases hlive
    rw [if_neg htomb, if_neg hnull]
    exact ⟨b, hb⟩
  · exact ⟨true, rfl⟩
  · exact ⟨!skip, rfl⟩

theorem probe_answers (hs : h.Stored s) (hx : s.content key = some x) (hn : x.hash? = some hash)
    (hkeys : ∀ k ∈ keys, Legible s.content k) {d : Cell} (hd : s table = some d)
    (harray : d.content = .array keys) {start index count : Nat} (hsome : 0 < keys.length) :
    ∃ o, h.probe (h.equal key) ⟨d.addr, keys.length⟩ start skip index count = .ok o := by
  induction count generalizing index with
  | zero => exact ⟨none, rfl⟩
  | succ count ih =>
    have hlt : (start + index) % keys.length < keys.length := Nat.mod_lt _ hsome
    have hget : Slots.get ⟨d.addr, keys.length⟩ h.memory ((start + index) % keys.length) =
        .ok keys[(start + index) % keys.length] := by
      rw [memory_eq, hs.slotsGet_eq hd harray, List.getElem?_eq_getElem hlt]
    obtain ⟨stop, hstop⟩ := hs.stops_answers hx hn (hkeys _ (List.getElem_mem hlt))
    have hstep : h.probe (h.equal key) ⟨d.addr, keys.length⟩ start skip index (count + 1) =
        (if keys[(start + index) % keys.length].isTombstone then pure !skip
          else if keys[(start + index) % keys.length].isNull then pure true
            else h.equal key keys[(start + index) % keys.length] : Except Fault Bool) >>=
        fun stop => if stop then .ok (some ((start + index) % keys.length))
          else h.probe (h.equal key) ⟨d.addr, keys.length⟩ start skip (index + 1) count := by
      rw [probe, hget, ok_bind]
      split_ifs <;> rfl
    rw [hstep, hstop, ok_bind]
    cases stop with
    | true => exact ⟨_, rfl⟩
    | false => exact ih

theorem findKey_answers (hs : h.Stored s) (hx : s.content key = some x) {n : UInt64}
    (hn : x.hash? = some n) (htable : s.content table = some (.array keys))
    (hkeys : ∀ k ∈ keys, Legible s.content k) : ∃ o, h.findKey table hash key skip = .ok o := by
  obtain ⟨d, hd, harray⟩ := Store.content_eq_some.mp htable
  have hslots : h.slots table = .ok ⟨d.addr, keys.length⟩ :=
    hs.slots_eq_ok.mpr ⟨d, keys, hd, harray, rfl⟩
  rw [findKey, findKeyBy, hslots, ok_bind]
  split_ifs with hempty
  · exact ⟨none, rfl⟩
  · exact hs.probe_answers hx hn hkeys hd harray (Nat.pos_of_ne_zero hempty)

theorem lookup_answers (hs : h.Stored s) (hx : s.content key = some x) {n : UInt64}
    (hn : x.hash? = some n) (htable : s.content table = some (.array keys))
    (hkeys : ∀ k ∈ keys, Legible s.content k) : ∃ o, h.lookup table hash key = .ok o := by
  obtain ⟨found, hfound⟩ : ∃ o, h.findKey table hash key true = .ok o :=
    hs.findKey_answers hx hn htable hkeys
  rw [lookup, lookupBy, ← findKey, hfound, ok_bind]
  cases found with
  | none => exact ⟨none, rfl⟩
  | some slot =>
    obtain ⟨keys', htable', hstops⟩ := hs.findKey_eq_ok hx hn hfound
    rw [htable] at htable'
    cases htable'
    obtain ⟨-, -, -, ⟨k, hk, -⟩, -⟩ := hstops
    have hget : h.arrayGet table slot = .ok k := hs.arrayGet_eq_ok.mpr ⟨keys, htable, hk⟩
    exact ⟨_, bind_eq_ok.mpr ⟨k, hget, rfl⟩⟩

section Tables

variable (hs : h.Stored s) (hx : s.content key = some x) (hn : x.hash? = some hash)
  (htable : s.content table = some (.array keys)) (ht : Hashed s.content keys values)
  (hm : Tables s.content keys values m)

include hs hx hn htable ht hm

theorem lookup_of_mapped (he : m x = some e) :
    ∃ slot, h.lookup table hash key = .ok (some slot) ∧ keys[slot]? = some e.1 ∧
      e.1.isLive = true ∧ values[slot]? = some e.2 := by
  obtain ⟨i, hi, hlive, hcontent, hvalue⟩ := (hm x e).mp he
  obtain ⟨o, ho⟩ := hs.lookup_answers hx hn htable fun k hk => ht.legible hk
  obtain ⟨keys', htable', hsome, hnone⟩ := hs.lookup_eq_ok hx hn ho
  rw [htable] at htable'
  cases htable'
  cases o with
  | none => exact absurd hcontent (hnone rfl values ht _ (List.mem_of_getElem? hi) hlive)
  | some slot =>
    obtain ⟨k, hk, hklive, hkcontent⟩ := hsome slot rfl
    obtain rfl := ht.distinct hi hk hlive hklive hcontent hkcontent
    exact ⟨i, ho, hi, hlive, hvalue⟩

theorem lookup_of_unmapped (he : m x = none) : h.lookup table hash key = .ok none := by
  obtain ⟨o, ho⟩ := hs.lookup_answers hx hn htable fun k hk => ht.legible hk
  obtain ⟨keys', htable', hsome, -⟩ := hs.lookup_eq_ok hx hn ho
  rw [htable] at htable'
  cases htable'
  cases o with
  | none => exact ho
  | some slot =>
    obtain ⟨k, hk, hlive, hcontent⟩ := hsome slot rfl
    have hlt : slot < values.length := ht.paired ▸ (List.getElem?_eq_some_iff.mp hk).1
    have hmapped := (hm x (k, values[slot])).mpr
      ⟨slot, hk, hlive, hcontent, List.getElem?_eq_getElem hlt⟩
    rw [he] at hmapped
    cases hmapped

end Tables

end Heap.Stored
end CountedHeap
