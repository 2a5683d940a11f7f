import CountedHeap.Proofs.Meanings
import CountedHeap.Proofs.Shapes

/-!
Equality decides whether two values mean the same. The search for the keys of one dict in another
goes by their hashes, in whatever slots they stand; dicts of equal size of which one includes the
other have the same keys. Values from which no way leads into a cycle nest no deeper than there are
references, which is less than the depth that a comparison may have.
-/

namespace CountedHeap

def Meaning.kind : Meaning → Kind
  | scalar x => x.content.kind
  | list _ => .list
  | dict _ => .dict

def Mapping.Includes (map map' : Mapping) (P : Reference → Reference → Prop) : Prop :=
  ∀ x e, map x = some e → ∃ e', map' x = some e' ∧ P e.2 e'.2

theorem Mapping.Includes.keys_subset {map map' : Mapping} {P : Reference → Reference → Prop}
    {keys keys' : Finset Content} (hincludes : map.Includes map' P)
    (hkeys : ∀ x, x ∈ keys ↔ (map x).isSome = true)
    (hkeys' : ∀ x, x ∈ keys' ↔ (map' x).isSome = true) : keys ⊆ keys' := by
  intro x hx
  obtain ⟨e, he⟩ := Option.isSome_iff_exists.mp ((hkeys x).mp hx)
  obtain ⟨e', he', -⟩ := hincludes x e he
  exact (hkeys' x).mpr (Option.isSome_iff_exists.mpr ⟨e', he'⟩)

theorem Mapping.Includes.size_le {map map' : Mapping} {P : Reference → Reference → Prop}
    {n n' : Nat} (hincludes : map.Includes map' P) (hsize : map.HasSize n)
    (hsize' : map'.HasSize n') : n ≤ n' := by
  obtain ⟨keys, rfl, hkeys⟩ := hsize
  obtain ⟨keys', rfl, hkeys'⟩ := hsize'
  exact Finset.card_le_card (hincludes.keys_subset hkeys hkeys')

theorem Mapping.Includes.eq_none {map map' : Mapping} {P : Reference → Reference → Prop} {n : Nat}
    {x : Content} (hincludes : map.Includes map' P) (hsize : map.HasSize n)
    (hsize' : map'.HasSize n) (hx : map x = none) : map' x = none := by
  obtain ⟨keys, hcard, hkeys⟩ := hsize
  obtain ⟨keys', hcard', hkeys'⟩ := hsize'
  have heq : keys = keys' :=
    Finset.eq_of_subset_of_card_le (hincludes.keys_subset hkeys hkeys') (by omega)
  rw [← Option.not_isSome_iff_eq_none] at hx ⊢
  rw [← hkeys', ← heq, hkeys]
  exact hx

namespace Heap

def Decides (x : Except Fault Bool) (P : Prop) : Prop := ∃ b, x = .ok b ∧ (b = true ↔ P)

def SameMeaning (h : Heap) (a b : Reference) : Prop := ∃ m, h.Denotes a m ∧ h.Denotes b m

def Grounded (h : Heap) (r : Reference) : Prop := h.Shows r ∧ h.AcyclicFrom r

/-- Each value from which no way leads into a cycle has one meaning, and equality is that of
meanings. -/
structure StructuralEquality (h : Heap) : Prop where
  meaning : ∀ {a}, h.Grounded a → ∃! m, h.Denotes a m
  equal : ∀ {a b p q}, h.Grounded a → h.Grounded b → h.Denotes a p → h.Denotes b q →
    ∃ e, h.equal a b = .ok e ∧ (e = true ↔ p = q)
  refl : ∀ {a}, h.Grounded a → h.equal a a = .ok true
  symm : ∀ {a b}, h.Grounded a → h.Grounded b → h.equal a b = h.equal b a
  trans : ∀ {a b c}, h.Grounded a → h.Grounded b → h.Grounded c → h.equal a b = .ok true →
    h.equal b c = .ok true → h.equal a c = .ok true
  hash : ∀ {a b n}, h.Grounded a → h.Grounded b → h.equal a b = .ok true →
    h.hash a = .ok (.ok n) → h.hash b = .ok (.ok n)

def equalUpTo (h : Heap) (depth : Nat) (a b : Reference) : Except Fault Bool := do
  let k ← h.kindOf a
  if k = (← h.kindOf b) then h.equalWithin depth k a b else return false

theorem equalWithin_list (h : Heap) (depth : Nat) (a b : Reference) :
    h.equalWithin (depth + 1) .list a b = do
      let l ← h.listParts a
      let r ← h.listParts b
      if l.size = r.size then h.equalFrom (h.equalUpTo depth) l.values r.values 0 l.size
      else return false := rfl

theorem equalWithin_dict (h : Heap) (depth : Nat) (a b : Reference) :
    h.equalWithin (depth + 1) .dict a b = do
      let l ← h.dictParts a
      let r ← h.dictParts b
      if l.size = r.size then do
        let keys ← h.slots l.keys
        h.includedFrom (h.equalUpTo depth) l r keys 0 keys.capacity
      else return false := rfl

variable {h : Heap} {s : Store} {arrays owned : List Reference} {x y : Content} {m : Meaning}
  {a b q u v : Reference} {n n' o o' depth : Nat} {P Q : Prop} {r : Except Fault Bool}
  {xs ys ks vs : List Reference} {map map' : Mapping}

namespace Decides

theorem congr (hr : Decides r P) (hPQ : P ↔ Q) : Decides r Q := by
  obtain ⟨b, hb, hiff⟩ := hr
  exact ⟨b, hb, hiff.trans hPQ⟩

theorem of_true (hP : P) : Decides (.ok true) P := ⟨true, rfl, iff_of_true rfl hP⟩

theorem of_false (hP : ¬P) : Decides (.ok false) P :=
  ⟨false, rfl, iff_of_false Bool.false_ne_true hP⟩

theorem and {rest : Except Fault Bool} (hr : Decides r P) (hrest : P → Decides rest Q) :
    Decides (r >>= fun b => if b then rest else pure false) (P ∧ Q) := by
  obtain ⟨b, rfl, hiff⟩ := hr
  cases b with
  | true => exact (hrest (hiff.mp rfl)).congr (and_iff_right (hiff.mp rfl)).symm
  | false => exact .of_false fun hP => Bool.false_ne_true (hiff.mpr hP.1)

theorem ite {c : Prop} [Decidable c] (hr : c → Decides r P) :
    Decides (if c then r else pure false) (c ∧ P) := by
  by_cases hc : c
  · rw [if_pos hc]
    exact (hr hc).congr (and_iff_right hc).symm
  · rw [if_neg hc]
    exact .of_false fun hP => hc hP.1

end Decides

section Same

theorem SameMeaning.symm (hsame : h.SameMeaning a b) : h.SameMeaning b a := by
  obtain ⟨m, ha, hb⟩ := hsame
  exact ⟨m, hb, ha⟩

namespace Stored

theorem kindOf_of_denotes (hs : h.Stored s) (hd : h.Denotes a m) : h.kindOf a = .ok m.kind := by
  rw [hs.kindOf_eq_ok]
  cases hd with
  | scalar ha => exact ⟨_, hs.contents_eq_ok.mp ha, rfl⟩
  | list ha =>
    obtain ⟨n, v, hlist⟩ := hs.list_of_items ha
    exact ⟨_, hlist, rfl⟩
  | dict ha =>
    obtain ⟨n, o, k, v, hdict⟩ := hs.dict_of_pairs ha
    exact ⟨_, hdict, rfl⟩

theorem kind_eq_of_same (hs : h.Stored s) (hx : s.content a = some x) (hy : s.content b = some y)
    (hsame : h.SameMeaning a b) : x.kind = y.kind := by
  obtain ⟨m, ha, hb⟩ := hsame
  obtain ⟨x', hx', hkx⟩ := hs.kindOf_eq_ok.mp (hs.kindOf_of_denotes ha)
  obtain ⟨y', hy', hky⟩ := hs.kindOf_eq_ok.mp (hs.kindOf_of_denotes hb)
  cases hx.symm.trans hx'
  cases hy.symm.trans hy'
  exact hkx.trans hky.symm

variable (hs : h.Stored s) (hl : s.Ledger arrays owned)

include hs in
theorem same_scalar {z : Scalar} (hx : s.content a = some z.content) (hy : s.content b = some y) :
    h.SameMeaning a b ↔ y = z.content := by
  constructor
  · rintro ⟨m, ha, hb⟩
    obtain rfl := (hs.denotes_scalar hx).mp ha
    cases hb with
    | scalar hb =>
      rw [hs.contents_eq_ok, hy] at hb
      exact Option.some_inj.mp hb
  · rintro rfl
    exact ⟨_, (hs.denotes_scalar hx).mpr rfl, (hs.denotes_scalar hy).mpr rfl⟩

include hs hl

theorem same_list (ha : s.content a = some (.list n u)) (hb : s.content b = some (.list n' v))
    (hu : s.content u = some (.array xs)) (hv : s.content v = some (.array ys))
    (hmeaning : ∃ m, h.Denotes a m) :
    h.SameMeaning a b ↔ n = n' ∧
      ∀ i p q, i < n → xs[i]? = some p → ys[i]? = some q → h.SameMeaning p q := by
  have hlength : (xs.take n).length = n := by
    rw [List.length_take, min_eq_left (hl.filled ha hu).fits]
  have hlength' : (ys.take n').length = n' := by
    rw [List.length_take, min_eq_left (hl.filled hb hv).fits]
  constructor
  · rintro ⟨m, hma, hmb⟩
    obtain ⟨ms, rfl, hms, hall⟩ := (hs.denotes_list ha hu).mp hma
    obtain ⟨_, hm, hms', hall'⟩ := (hs.denotes_list hb hv).mp hmb
    cases hm
    have heq : n = n' := by omega
    subst heq
    refine ⟨rfl, fun i p q hi hp hq => ?_⟩
    have hm := List.getElem?_eq_getElem (show i < ms.length by omega)
    exact ⟨_, hall i p _ (by rw [List.getElem?_take_of_lt hi, hp]) hm,
      hall' i q _ (by rw [List.getElem?_take_of_lt hi, hq]) hm⟩
  · rintro ⟨rfl, hsame⟩
    obtain ⟨m, hma⟩ := hmeaning
    obtain ⟨ms, rfl, hms, hall⟩ := (hs.denotes_list ha hu).mp hma
    refine ⟨_, hma, (hs.denotes_list hb hv).mpr ⟨ms, rfl, by omega, fun i q m hq hm => ?_⟩⟩
    have hi : i < n := by
      have := (List.getElem?_eq_some_iff.mp hm).1
      omega
    have hp : (xs.take n)[i]? = some (xs.take n)[i] := List.getElem?_eq_getElem (by omega)
    obtain ⟨m', hmp, hmq⟩ := hsame i _ q hi (by rw [← hp, List.getElem?_take_of_lt hi])
      (by rw [← hq, List.getElem?_take_of_lt hi])
    cases hs.denotes_unique hl hmp (hall i _ m hp hm)
    exact hmq

theorem includes_of_denotes (hmap : s.Maps a map) (hmap' : s.Maps b map') (ha : h.Denotes a m)
    (hb : h.Denotes b m) : map.Includes map' h.SameMeaning := by
  obtain ⟨f, rfl, -, hsome⟩ := (hs.denotes_dict hmap).mp ha
  obtain ⟨_, hm, hnone', hsome'⟩ := (hs.denotes_dict hmap').mp hb
  cases hm
  intro x e he
  obtain ⟨hash, hhash⟩ := hmap.hashable hl he
  obtain ⟨z, rfl⟩ := Content.hash?_ne_none.mp (Option.ne_none_iff_exists'.mpr ⟨hash, hhash⟩)
  obtain ⟨m, hm, hme⟩ := hsome z e he
  cases he' : map' z.content with
  | none =>
    rw [hnone' z he'] at hm
    cases hm
  | some e' =>
    obtain ⟨m', hm', hme'⟩ := hsome' z e' he'
    cases hm.symm.trans hm'
    exact ⟨e', rfl, m, hme, hme'⟩

theorem same_dict {k k' : Reference} (ha : s.content a = some (.dict n o k u))
    (hb : s.content b = some (.dict n' o' k' v)) (hmap : s.Maps a map) (hmap' : s.Maps b map')
    (hmeaning : ∃ m, h.Denotes a m) :
    h.SameMeaning a b ↔ n = n' ∧ map.Includes map' h.SameMeaning := by
  have hsize := hmap.size hl ha
  have hsize' := hmap'.size hl hb
  constructor
  · rintro ⟨m, hma, hmb⟩
    have hincludes := hs.includes_of_denotes hl hmap hmap' hma hmb
    have hback := hs.includes_of_denotes hl hmap' hmap hmb hma
    exact ⟨le_antisymm (hincludes.size_le hsize hsize') (hback.size_le hsize' hsize), hincludes⟩
  · rintro ⟨rfl, hincludes⟩
    obtain ⟨m, hma⟩ := hmeaning
    obtain ⟨f, rfl, hnone, hsome⟩ := (hs.denotes_dict hmap).mp hma
    refine ⟨_, hma, (hs.denotes_dict hmap').mpr ⟨f, rfl, fun x hx => ?_, fun x e' he' => ?_⟩⟩
    · cases hx' : map x.content with
      | none => exact hnone x hx'
      | some e =>
        obtain ⟨e', he', -⟩ := hincludes _ e hx'
        rw [hx] at he'
        cases he'
    · cases hx : map x.content with
      | none =>
        rw [hincludes.eq_none hsize hsize' hx] at he'
        cases he'
      | some e =>
        obtain ⟨m, hm, hme⟩ := hsome x e hx
        obtain ⟨e'', he'', m', hme', hmq⟩ := hincludes _ e hx
        cases he'.symm.trans he''
        exact ⟨m, hm, hs.denotes_unique hl hme' hme ▸ hmq⟩

end Stored
end Same

section Loops

variable {equal : Reference → Reference → Except Fault Bool} {E : Reference → Reference → Prop}

namespace Stored

theorem arrayGet_of_content (hs : h.Stored s) (hu : s.content u = some (.array xs)) {i : Nat}
    (hi : xs[i]? = some q) : h.arrayGet u i = .ok q :=
  hs.arrayGet_eq_ok.mpr ⟨xs, hu, hi⟩

theorem equalFrom_decides (hs : h.Stored s) (hu : s.content u = some (.array xs))
    (hv : s.content v = some (.array ys)) {index count : Nat} (hxs : index + count ≤ xs.length)
    (hys : index + count ≤ ys.length)
    (hequal : ∀ i p q, i < index + count → xs[i]? = some p → ys[i]? = some q →
      Decides (equal p q) (E p q)) :
    Decides (h.equalFrom equal u v index count) (∀ i p q, index ≤ i → i < index + count →
      xs[i]? = some p → ys[i]? = some q → E p q) := by
  induction count generalizing index with
  | zero => exact .of_true fun i p q hle hlt => absurd hle (by omega)
  | succ count ih =>
    have hp := List.getElem?_eq_getElem (show index < xs.length by omega)
    have hq := List.getElem?_eq_getElem (show index < ys.length by omega)
    rw [equalFrom, hs.arrayGet_of_content hu hp, hs.arrayGet_of_content hv hq, ok_bind, ok_bind]
    refine ((hequal index _ _ (by omega) hp hq).and fun _ => ih (by omega) (by omega)
      fun i p q hi => hequal i p q (by omega)).congr ⟨?_, fun hall => ?_⟩
    · rintro ⟨hfirst, hrest⟩ i p q hle hlt hip hiq
      rcases hle.eq_or_lt with rfl | hlt'
      · cases hp.symm.trans hip
        cases hq.symm.trans hiq
        exact hfirst
      · exact hrest i p q hlt' (by omega) hip hiq
    · exact ⟨hall index _ _ le_rfl (by omega) hp hq,
        fun i p q hle hlt => hall i p q (by omega) (by omega)⟩

theorem equalUpTo_key (hs : h.Stored s) (hx : s.content a = some x) (hhash : x.hash? ≠ none) :
    h.equalUpTo (depth + 1) a = h.equal a := by
  obtain ⟨z, rfl⟩ := Content.hash?_ne_none.mp hhash
  have hkind : h.kindOf a = .ok z.content.kind := hs.kindOf_eq_ok.mpr ⟨_, hx, rfl⟩
  funext q
  rw [equal, equalUpTo, hkind]
  cases z <;> rfl

theorem lookupBy_key (hs : h.Stored s) (hx : s.content a = some x) (hhash : x.hash? ≠ none)
    (hash : UInt64) : h.lookupBy (h.equalUpTo (depth + 1)) u hash a = h.lookup u hash a := by
  simp only [lookup, lookupBy, findKeyBy, hs.equalUpTo_key hx hhash]

theorem includedFrom_decides (hs : h.Stored s) {l r : DictParts} {c : Cell}
    {ks' vs' : List Reference} (hk : s l.keys = some c) (hks : c.content = .array ks)
    (hvs : s.content l.values = some (.array vs)) (hht : Hashed s.content ks vs)
    (hmaps : Tables s.content ks vs map) (hk' : s.content r.keys = some (.array ks'))
    (hv' : s.content r.values = some (.array vs')) (hht' : Hashed s.content ks' vs')
    (hmaps' : Tables s.content ks' vs' map')
    (hequal : ∀ x e e', map x = some e → map' x = some e' →
      Decides (h.equalUpTo (depth + 1) e.2 e'.2) (E e.2 e'.2)) {slot count : Nat}
    (hcount : slot + count ≤ ks.length) :
    Decides (h.includedFrom (h.equalUpTo (depth + 1)) l r ⟨c.addr, ks.length⟩ slot count)
      (∀ i x e, slot ≤ i → i < slot + count → ks[i]? = some e.1 → map x = some e →
        ∃ e', map' x = some e' ∧ E e.2 e'.2) := by
  induction count generalizing slot with
  | zero => exact .of_true fun i x e hle hlt => absurd hlt (by omega)
  | succ count ih =>
    have hi := List.getElem?_eq_getElem (show slot < ks.length by omega)
    generalize ks[slot] = k at hi
    have hget : Slots.get ⟨c.addr, ks.length⟩ h.memory slot = .ok k := by
      rw [memory_eq, hs.slotsGet_eq hk hks, hi]
    have hrest : Decides (h.includedFrom (h.equalUpTo (depth + 1)) l r ⟨c.addr, ks.length⟩
        (slot + 1) count) _ := ih (by omega)
    rw [includedFrom, hget, ok_bind]
    -- A slot without a key adds nothing: no entry of the map stands in it.
    cases hlive : k.isLive with
    | false =>
      refine hrest.congr ⟨fun hall i x e hle hlt hik he => ?_,
        fun hall i x e hle hlt => hall i x e (by omega) (by omega)⟩
      rcases hle.eq_or_lt with rfl | hlt'
      · cases hi.symm.trans hik
        obtain ⟨-, -, hlive', -⟩ := (hmaps x e).mp he
        rw [hlive] at hlive'
        cases hlive'
      · exact hall i x e hlt' (by omega) hik he
    | true =>
      obtain ⟨x, hash, hx, hhash⟩ := hht.hashable k (List.mem_of_getElem? hi) hlive
      have hkey : x.hash? ≠ none := Option.ne_none_iff_exists'.mpr ⟨hash, hhash⟩
      obtain ⟨value, hvalue⟩ : ∃ value, vs[slot]? = some value :=
        ⟨_, List.getElem?_eq_getElem (by have := hht.paired; omega)⟩
      have hmapped : map x = some (k, value) := (hmaps x _).mpr ⟨slot, hi, hlive, hx, hvalue⟩
      have hrun : (h.hash k).run = .ok (.ok hash) := hs.hash_eq hx hhash
      rw [hrun, ok_bind]
      simp only [Bool.not_true, Bool.false_eq_true, if_false]
      rw [hs.lookupBy_key hx hkey]
      cases hother : map' x with
      | none =>
        rw [hs.lookup_of_unmapped hx hhash hk' hht' hmaps' hother, ok_bind]
        refine .of_false fun hall => ?_
        obtain ⟨e', he', -⟩ := hall slot x _ le_rfl (by omega) hi hmapped
        rw [hother] at he'
        cases he'
      | some e' =>
        obtain ⟨slot', hfound, -, -, hvalue'⟩ :=
          hs.lookup_of_mapped hx hhash hk' hht' hmaps' hother
        rw [hfound, ok_bind]
        dsimp only
        rw [hs.arrayGet_of_content hvs hvalue, hs.arrayGet_of_content hv' hvalue', ok_bind, ok_bind]
        refine ((hequal x _ e' hmapped hother).and fun _ => hrest).congr ⟨?_, fun hall => ⟨?_, ?_⟩⟩
        · rintro ⟨hfirst, hall⟩ i y e hle hlt hik he
          rcases hle.eq_or_lt with rfl | hlt'
          · cases hi.symm.trans hik
            obtain ⟨-, -, -, hy, -⟩ := (hmaps y e).mp he
            cases hx.symm.trans hy
            have hvalue : value = e.2 :=
              congrArg Prod.snd (Option.some_inj.mp (hmapped.symm.trans he))
            exact ⟨e', hother, hvalue ▸ hfirst⟩
          · exact hall i y e hlt' (by omega) hik he
        · obtain ⟨e'', he'', hE⟩ := hall slot x _ le_rfl (by omega) hi hmapped
          cases hother.symm.trans he''
          exact hE
        · exact fun i y e hle hlt => hall i y e (by omega) (by omega)

end Stored
end Loops

namespace Stored

variable (hs : h.Stored s) (hl : s.Ledger arrays owned)

include hs hl

theorem equalWithin_list_decides (ha : s.content a = some (.list n u))
    (hb : s.content b = some (.list n' v)) (hmeaning : ∃ m, h.Denotes a m)
    (hequal : ∀ p q, (∃ xs, s.content u = some (.array xs) ∧ p ∈ xs.take n) →
      (∃ ys, s.content v = some (.array ys) ∧ q ∈ ys.take n') →
        Decides (h.equalUpTo depth p q) (h.SameMeaning p q)) :
    Decides (h.equalWithin (depth + 1) .list a b) (h.SameMeaning a b) := by
  obtain ⟨xs, hu, hxs⟩ := hl.lists ha
  obtain ⟨ys, hv, hys⟩ := hl.lists hb
  have hparts : h.listParts a = .ok ⟨n, u⟩ := hs.listParts_eq_ok.mpr ha
  have hparts' : h.listParts b = .ok ⟨n', v⟩ := hs.listParts_eq_ok.mpr hb
  rw [equalWithin_list, hparts, hparts', ok_bind, ok_bind]
  refine (Decides.ite fun heq => ?_).congr (hs.same_list hl ha hb hu hv hmeaning).symm
  obtain rfl : n = n' := heq
  refine (hs.equalFrom_decides (E := h.SameMeaning) hu hv ((Nat.zero_add n).trans_le hxs.fits)
    ((Nat.zero_add n).trans_le hys.fits) fun i p q hi hp hq => ?_).congr ?_
  · rw [Nat.zero_add] at hi
    exact hequal p q ⟨xs, hu, List.mem_iff_getElem?.mpr ⟨i, by rw [List.getElem?_take_of_lt hi, hp]⟩⟩
      ⟨ys, hv, List.mem_iff_getElem?.mpr ⟨i, by rw [List.getElem?_take_of_lt hi, hq]⟩⟩
  · simp only [Nat.zero_le, Nat.zero_add, forall_const]

theorem equalWithin_dict_decides {k k' : Reference} (ha : s.content a = some (.dict n o k u))
    (hb : s.content b = some (.dict n' o' k' v)) (hmap : s.Maps a map) (hmap' : s.Maps b map')
    (hmeaning : ∃ m, h.Denotes a m) (hequal : ∀ x e e', map x = some e → map' x = some e' →
      Decides (h.equalUpTo (depth + 1) e.2 e'.2) (h.SameMeaning e.2 e'.2)) :
    Decides (h.equalWithin (depth + 2) .dict a b) (h.SameMeaning a b) := by
  obtain ⟨ks, vs, hk, hu, htabled⟩ := hl.dicts ha
  obtain ⟨ks', vs', hk', hv, htabled'⟩ := hl.dicts hb
  obtain ⟨c, hc, hks⟩ := Store.content_eq_some.mp hk
  have hparts : h.dictParts a = .ok ⟨n, o, k, u⟩ := hs.dictParts_eq_ok.mpr ha
  have hparts' : h.dictParts b = .ok ⟨n', o', k', v⟩ := hs.dictParts_eq_ok.mpr hb
  have hslots : h.slots k = .ok ⟨c.addr, ks.length⟩ :=
    hs.slots_eq_ok.mpr ⟨c, ks, hc, hks, rfl⟩
  have htables := hmap.tables ha hk hu
  rw [equalWithin_dict, hparts, hparts', ok_bind, ok_bind]
  refine (Decides.ite fun _ => ?_).congr (hs.same_dict hl ha hb hmap hmap' hmeaning).symm
  rw [hslots, ok_bind]
  refine (hs.includedFrom_decides (l := ⟨n, o, k, u⟩) (r := ⟨n', o', k', v⟩) hc hks hu
    htabled.toHashed htables hk' hv htabled'.toHashed (hmap'.tables hb hk' hv) hequal
    (Nat.zero_add _).le).congr ⟨fun hall x e he => ?_, fun hall i x e _ _ _ he => hall x e he⟩
  obtain ⟨i, hi, -⟩ := (htables x e).mp he
  exact hall i x e (Nat.zero_le i)
    (by rw [Nat.zero_add]; exact (List.getElem?_eq_some_iff.mp hi).1) hi he

theorem equalUpTo_decides (haa : h.AcyclicFrom a) (hab : h.AcyclicFrom b)
    (ha : s.content a = some x) (hb : s.content b = some y) (hplain : ¬s.IsArray a)
    (hdepth : h.weight a ≤ depth) : Decides (h.equalUpTo depth a b) (h.SameMeaning a b) := by
  induction depth generalizing a b x y with
  | zero => exact absurd (h.weight_pos a) (by omega)
  | succ depth ih =>
    by_cases hhash : x.hash? ≠ none
    · obtain ⟨z, rfl⟩ := Content.hash?_ne_none.mp hhash
      obtain ⟨hash, hn⟩ := Option.ne_none_iff_exists'.mp hhash
      have hdecides : Decides (h.equal a b) (y = z.content) := hs.equal_eq ha hn hb
      rw [hs.equalUpTo_key ha hhash]
      exact hdecides.congr (hs.same_scalar ha hb).symm
    have hmeaning := hs.exists_denotes hl haa ha hplain
    rw [equalUpTo, hs.kindOf_eq_ok.mpr ⟨x, ha, rfl⟩, hs.kindOf_eq_ok.mpr ⟨y, hb, rfl⟩, ok_bind,
      ok_bind]
    by_cases hkind : x.kind = y.kind
    · rw [if_pos hkind]
      cases x with
      | none | bool | integer | string => exact absurd (Option.some_ne_none _) hhash
      | array xs => exact absurd ⟨xs, ha⟩ hplain
      | list n u =>
        cases y <;> cases hkind
        refine hs.equalWithin_list_decides hl ha hb hmeaning ?_
        rintro p q ⟨xs, hu, hp⟩ ⟨ys, hv, hq⟩
        obtain ⟨hap, hlt, z, hz, hpplain⟩ := hs.below_element hl haa ha hu hp
        obtain ⟨haq, -, w, hw, -⟩ := hs.below_element hl hab hb hv hq
        exact ih hap haq hz hw hpplain (by omega)
      | dict n o k u =>
        cases y <;> cases hkind
        obtain ⟨map, hmap⟩ := hl.exists_mapping ha
        obtain ⟨map', hmap'⟩ := hl.exists_mapping hb
        -- the dict leads to its tables, so it takes one level more than they do
        obtain ⟨ks, vs, hk, -, -⟩ := hl.dicts ha
        have hkeys : h.Edge a k :=
          hs.edge_iff.mpr ⟨by simp [Store.held_of_content ha, Content.held], hl.live hk⟩
        have hlt := haa.weight_lt hkeys
        have hpos := h.weight_pos k
        obtain ⟨depth, rfl⟩ : ∃ d, depth = d + 1 := ⟨depth - 1, by omega⟩
        refine hs.equalWithin_dict_decides hl ha hb hmap hmap' hmeaning fun x e e' he he' => ?_
        obtain ⟨hae, hlt, z, hz, heplain⟩ := hs.below_value hl haa hmap he
        obtain ⟨hae', -, w, hw, -⟩ := hs.below_value hl hab hmap' he'
        exact ih hae hae' hz hw heplain (by omega)
    · rw [if_neg hkind]
      exact .of_false fun hsame => hkind (hs.kind_eq_of_same ha hb hsame)

omit hl in
theorem shows_iff : h.Shows a ↔ ∃ x, s.content a = some x ∧ ¬s.IsArray a := by
  constructor
  · rintro ⟨k, hk, hkind⟩
    obtain ⟨x, hx, rfl⟩ := hs.kindOf_eq_ok.mp hk
    refine ⟨x, hx, ?_⟩
    rintro ⟨xs, harray⟩
    cases hx.symm.trans harray
    exact hkind rfl
  · rintro ⟨x, hx, harray⟩
    exact hs.shows_of hx harray

theorem weight_le_nesting (hx : s.content a = some x) : h.weight a ≤ h.nesting := by
  obtain ⟨c, hc, -⟩ := Store.content_eq_some.mp hx
  calc h.weight a ≤ h.table.size := hs.weight_le hl (hs.occupied_iff.mpr ⟨c, hc⟩)
    _ ≤ h.table.size * h.table.size := Nat.le_mul_self _
    _ ≤ h.nesting := Nat.le_succ _

theorem equal_decides (ha : h.Grounded a) (hb : h.Grounded b) :
    Decides (h.equal a b) (h.SameMeaning a b) := by
  obtain ⟨hashown, haa⟩ := ha
  obtain ⟨hbshown, hab⟩ := hb
  obtain ⟨x, hx, hplain⟩ := hs.shows_iff.mp hashown
  obtain ⟨y, hy, -⟩ := hs.shows_iff.mp hbshown
  exact hs.equalUpTo_decides hl haa hab hx hy hplain (hs.weight_le_nesting hl hx)

theorem grounded_denotes (ha : h.Grounded a) : ∃ m, h.Denotes a m := by
  obtain ⟨x, hx, hplain⟩ := hs.shows_iff.mp ha.1
  exact hs.exists_denotes hl ha.2 hx hplain

theorem equal_eq_true_iff (ha : h.Grounded a) (hb : h.Grounded b) :
    h.equal a b = .ok true ↔ h.SameMeaning a b := by
  obtain ⟨e, he, hiff⟩ := hs.equal_decides hl ha hb
  rw [he, Except.ok.injEq, hiff]

theorem same_trans {c : Reference} (hab : h.SameMeaning a b) (hbc : h.SameMeaning b c) :
    h.SameMeaning a c := by
  obtain ⟨m, ha, hb⟩ := hab
  obtain ⟨m', hb', hc⟩ := hbc
  exact ⟨m, ha, hs.denotes_unique hl hb' hb ▸ hc⟩

theorem structuralEquality : h.StructuralEquality where
  meaning ha := by
    obtain ⟨m, hm⟩ := hs.grounded_denotes hl ha
    exact ⟨m, hm, fun m' hm' => hs.denotes_unique hl hm' hm⟩
  equal ha hb hp hq := by
    refine (hs.equal_decides hl ha hb).congr ⟨?_, ?_⟩
    · rintro ⟨m, hma, hmb⟩
      exact (hs.denotes_unique hl hp hma).trans (hs.denotes_unique hl hmb hq)
    · rintro rfl
      exact ⟨_, hp, hq⟩
  refl ha := by
    obtain ⟨m, hm⟩ := hs.grounded_denotes hl ha
    exact (hs.equal_eq_true_iff hl ha ha).mpr ⟨m, hm, hm⟩
  symm ha hb := by
    obtain ⟨e, he, hiff⟩ := hs.equal_decides hl ha hb
    obtain ⟨e', he', hiff'⟩ := hs.equal_decides hl hb ha
    rw [he, he', Bool.eq_iff_iff.mpr (hiff.trans (Iff.trans ⟨.symm, .symm⟩ hiff'.symm))]
  trans ha hb hc hab hbc :=
    (hs.equal_eq_true_iff hl ha hc).mpr (hs.same_trans hl
      ((hs.equal_eq_true_iff hl ha hb).mp hab) ((hs.equal_eq_true_iff hl hb hc).mp hbc))
  hash {a b n} ha hb hab hn := by
    obtain ⟨x, hx, hhash⟩ := hs.hash_eq_ok.mp hn
    obtain ⟨z, rfl⟩ := Content.hash?_ne_none.mp (Option.ne_none_iff_exists'.mpr ⟨n, hhash⟩)
    obtain ⟨y, hy, -⟩ := hs.shows_iff.mp hb.1
    obtain rfl := (hs.same_scalar hx hy).mp ((hs.equal_eq_true_iff hl ha hb).mp hab)
    exact hs.hash_eq hy hhash

end Stored

end Heap

namespace Client

variable {c : Client}

/-- Equality is structural wherever a client gets to. -/
theorem Run.equality_structural (hrun : Run allows c) : c.heap.StructuralEquality := by
  obtain ⟨s, hs, hl, -⟩ := hrun.accounted.balanced
  exact hs.structuralEquality hl

def mirrored : Option Client :=
  session allows { poolSize := 768, poison := false, dictMinCapacity := 5 } [.makeInteger 1,
    .makeInteger 6, .newDict [(.ofIndex 0, .ofIndex 1), (.ofIndex 1, .ofIndex 0)],
    .newDict [(.ofIndex 1, .ofIndex 0), (.ofIndex 0, .ofIndex 1)]]

theorem mirrored_equal : ∃ c, mirrored = some c ∧ c.heap.StructuralEquality ∧
    c.heap.Grounded (.ofIndex 4) ∧ c.heap.Grounded (.ofIndex 7) ∧
      c.heap.equal (.ofIndex 4) (.ofIndex 7) = .ok true := by
  have hall : (mirrored.any fun c => c.heap.descends &&
      (c.heap.kindOf (.ofIndex 4)).toOption == some .dict &&
        (c.heap.kindOf (.ofIndex 7)).toOption == some .dict &&
          (c.heap.equal (.ofIndex 4) (.ofIndex 7)).toOption == some true) = true := by
    decide +kernel
  obtain ⟨c, hc, hends⟩ := (Option.any_eq_true ..).mp hall
  simp only [Bool.and_eq_true] at hends
  obtain ⟨⟨⟨hdescends, hleft⟩, hright⟩, hequal⟩ := hends
  obtain ⟨s, hs, -⟩ := (Run.session hc).accounted.balanced
  have hgrounded {r : Reference} (hr : c.heap.kindOf r = .ok .dict) : c.heap.Grounded r :=
    ⟨⟨.dict, hr, by decide⟩, fun q _ => hs.acyclic_of_descends hdescends q⟩
  exact ⟨c, hc, (Run.session hc).equality_structural, hgrounded (eq_ok_of_toOption hleft),
    hgrounded (eq_ok_of_toOption hright), eq_ok_of_toOption hequal⟩

end Client
end CountedHeap
