import CountedHeap.Proofs.Ledger
import CountedHeap.Proofs.Operations

/-!
Heaps whose ledger balances. What a heap tells are the contents and the counts of its values; a
step changes them at one reference, and only they matter to the ledger.
-/

namespace CountedHeap.Heap

/-- The heap has values of these contents, with these counts. -/
def Tells (h : Heap) (content : Reference → Option Content) (count : Reference → Nat) : Prop :=
  ∃ s, h.Sound s ∧ s.content = content ∧ s.count = count

/-- A heap that has a ledger, and in which these values stand. -/
def Balanced (h : Heap) (kept : Store) (arrays owned : List Reference) : Prop :=
  ∃ s, h.Sound s ∧ s.Ledger arrays owned ∧ s.Fewer kept

structure Anchored (s kept : Store) (owned : List Reference) : Prop where
  fewer : s.Fewer kept
  scalar : ∀ {q : Reference} {x : Content}, kept.content q = some x → x.hash? ≠ none
  owner : ∀ {q : Reference} {x : Content}, kept.content q = some x → q ∈ owned

def Seen (s : Store) (r : Reference) : Prop := ∃ x, s.content r = some x ∧ x.kind ≠ .array

variable {h h' : Heap} {s s' kept : Store} {f : Reference → Option Content} {n : Reference → Nat}
  {r q v : Reference} {x : Content} {xs ys : List Reference} {arrays owned : List Reference}

theorem Sound.tells (hs : h.Sound s) : h.Tells s.content s.count := ⟨s, hs, rfl, rfl⟩

theorem Sound.releaseBlank (hs : h.Sound s) {c : Cell} (hc : s r = some c) (hone : c.count = 1)
    (hheld : c.content.held = []) (hrel : h.release r = .ok h') : h'.Sound (s.erase r) := by
  have hinv : TaskInvariant fun tasks h =>
      (tasks = [.release r] ∧ h.Sound s) ∨
        (tasks = [.discard r] ∧ h.Sound (s.set r { c with count := c.count - 1 })) ∨
          (tasks = [] ∧ h.Sound (s.erase r)) := by
    refine ⟨?_, ?_, ?_⟩
    · rintro p rest h₁ h₂ (⟨heq, -⟩ | ⟨heq, hs₁⟩ | ⟨heq, -⟩) hdiscard
      · cases heq
      · cases heq
        obtain ⟨-, -, hs₂⟩ := hs₁.discard hdiscard
        refine .inr (.inr ⟨rfl, ?_⟩)
        rwa [Store.erase, Store.set, Function.update_idem] at hs₂
      · cases heq
    · rintro p rest h₁ h₂ (⟨heq, hs₁⟩ | ⟨heq, -⟩ | ⟨heq, -⟩) hgive
      · cases heq
        obtain ⟨d, hd, -, ho⟩ := hs₁.giveUp hgive
        rw [hc] at hd
        cases hd
        rw [if_pos hone] at ho
        cases ho
      · cases heq
      · cases heq
    · rintro p rest h₁ h₂ held (⟨heq, hs₁⟩ | ⟨heq, -⟩ | ⟨heq, -⟩) hgive
      · cases heq
        obtain ⟨d, hd, hs₂, ho⟩ := hs₁.giveUp hgive
        rw [hc] at hd
        cases hd
        rw [if_pos hone, hheld] at ho
        cases ho
        exact .inr (.inl ⟨rfl, hs₂⟩)
      · cases heq
      · cases heq
  rcases hinv.releaseAll (.inl ⟨rfl, hs⟩) hrel with ⟨heq, -⟩ | ⟨heq, -⟩ | ⟨-, hs'⟩
  · cases heq
  · cases heq
  · exact hs'

namespace Tells

theorem retain (ht : h.Tells f n) (hret : h.retain r = .ok h') :
    (∃ x, f r = some x) ∧ h'.Tells f (Function.update n r (n r + 1)) := by
  obtain ⟨s, hs, rfl, rfl⟩ := ht
  obtain ⟨c, hr, hs'⟩ := hs.retain hret
  refine ⟨⟨_, Store.content_of hr⟩, _, hs', Store.content_set_same hr, ?_⟩
  rw [Store.count_set, Store.count_eq hr]

theorem of_set (hr : f r = some x) {y : Content} (ht : h.Tells f n)
    (hset : ∀ s c, h.Sound s → s r = some c → c.content = x →
      h'.Sound (s.set r { c with content := y })) :
    h'.Tells (Function.update f r (some y)) n := by
  obtain ⟨s, hs, rfl, rfl⟩ := ht
  obtain ⟨c, hc, hx⟩ := Store.content_eq_some.mp hr
  exact ⟨_, hset s c hs hc hx, Store.content_set, Store.count_set_same hc y⟩

theorem arrayGet (ht : h.Tells f n) {i : Nat} (hget : h.arrayGet r i = .ok q) :
    ∃ xs, f r = some (.array xs) ∧ xs[i]? = some q := by
  obtain ⟨s, hs, rfl, rfl⟩ := ht
  exact hs.arrayGet_eq_ok.mp hget

theorem arraySet (ht : h.Tells f n) {i : Nat} (hset : h.arraySet r i v = .ok h') :
    ∃ xs, f r = some (.array xs) ∧ i < xs.length ∧
      h'.Tells (Function.update f r (some (.array (xs.set i v)))) n := by
  obtain ⟨s, hs, rfl, rfl⟩ := ht
  obtain ⟨c, xs, hr, hx, hlt, hs'⟩ := hs.arraySet hset
  exact ⟨xs, Store.content_eq_some.mpr ⟨c, hr, hx⟩, hlt, _, hs', Store.content_set,
    Store.count_set_same hr _⟩

theorem setEntry (ht : h.Tells f n) {keys values p : Reference} {i : Nat} {ks vs : List Reference}
    (hne : keys ≠ values) (hks : f keys = some (.array ks)) (hvs : f values = some (.array vs))
    {h₁ : Heap} (hset : h.arraySet keys i p = .ok h₁) (hset' : h₁.arraySet values i q = .ok h') :
    h'.Tells (overwrite f [(keys, some (.array (ks.set i p))),
      (values, some (.array (vs.set i q)))]) n := by
  obtain ⟨ks', hks', -, ht₁⟩ := ht.arraySet hset
  rw [hks] at hks'
  cases hks'
  obtain ⟨vs', hvs', -, ht₂⟩ := ht₁.arraySet hset'
  rw [Function.update_of_ne hne.symm, hvs] at hvs'
  cases hvs'
  rwa [Function.update_comm hne] at ht₂

section Fields

variable {size occupied m : Nat} {keys values : Reference}

theorem storeListSize (ht : h.Tells f n) (hr : f r = some (.list size values))
    (hm : m < Word.limit) (hset : h.storeField r Layout.listSizeOffset m = .ok h') :
    h'.Tells (Function.update f r (some (.list m values))) n :=
  of_set hr ht fun _ _ hs hc hx => hs.storeListSize hc hx hm hset

theorem storeListValues (ht : h.Tells f n) (hr : f r = some (.list size values))
    (hset : h.storeReference r Layout.listValuesOffset v = .ok h') :
    h'.Tells (Function.update f r (some (.list size v))) n :=
  of_set hr ht fun _ _ hs hc hx => hs.storeListValues hc hx hset

theorem storeDictSize (ht : h.Tells f n) (hr : f r = some (.dict size occupied keys values))
    (hm : m < Word.limit) (hset : h.storeField r Layout.dictSizeOffset m = .ok h') :
    h'.Tells (Function.update f r (some (.dict m occupied keys values))) n :=
  of_set hr ht fun _ _ hs hc hx => hs.storeDictSize hc hx hm hset

theorem storeDictOccupied (ht : h.Tells f n) (hr : f r = some (.dict size occupied keys values))
    (hm : m < Word.limit) (hset : h.storeField r Layout.dictOccupiedOffset m = .ok h') :
    h'.Tells (Function.update f r (some (.dict size m keys values))) n :=
  of_set hr ht fun _ _ hs hc hx => hs.storeDictOccupied hc hx hm hset

theorem storeDictKeys (ht : h.Tells f n) (hr : f r = some (.dict size occupied keys values))
    (hset : h.storeReference r Layout.dictKeysOffset v = .ok h') :
    h'.Tells (Function.update f r (some (.dict size occupied v values))) n :=
  of_set hr ht fun _ _ hs hc hx => hs.storeDictKeys hc hx hset

theorem storeDictValues (ht : h.Tells f n) (hr : f r = some (.dict size occupied keys values))
    (hset : h.storeReference r Layout.dictValuesOffset v = .ok h') :
    h'.Tells (Function.update f r (some (.dict size occupied keys v))) n :=
  of_set hr ht fun _ _ hs hc hx => hs.storeDictValues hc hx hset

end Fields

theorem releaseBlank (ht : h.Tells f n) (hr : f r = some x) (hone : n r = 1) (hheld : x.held = [])
    (hrel : h.release r = .ok h') :
    h'.Tells (Function.update f r none) (Function.update n r 0) := by
  obtain ⟨s, hs, rfl, rfl⟩ := ht
  obtain ⟨c, hc, rfl⟩ := Store.content_eq_some.mp hr
  rw [Store.count_eq hc] at hone
  exact ⟨_, hs.releaseBlank hc hone hheld hrel, Store.content_erase, Store.count_erase⟩

end Tells

theorem Made.tells (hm : h.Made s r x) :
    s.content r = none ∧ h.Tells (Function.update s.content r (some x))
      (Function.update s.count r 1) := by
  obtain ⟨addr, hs⟩ := hm.sound
  refine ⟨?_, _, hs, Store.content_set, Store.count_set⟩
  rw [Store.content, hm.unused]
  rfl

theorem Made.releaseBlank (hm : h.Made s r x) (hheld : x.held = []) (hrel : h.release r = .ok h') :
    h'.Sound s := by
  obtain ⟨addr, hs⟩ := hm.sound
  have hs' := hs.releaseBlank Store.set_self rfl hheld hrel
  rwa [Store.erase, Store.set, Function.update_idem,
    Function.update_eq_self_iff.mpr hm.unused.symm] at hs'

theorem Seen.not_isArray (hr : Seen s r) : ¬s.IsArray r := by
  rintro ⟨xs, hxs⟩
  obtain ⟨x, hx, hkind⟩ := hr
  rw [hx, Option.some_inj] at hxs
  exact hkind (hxs ▸ rfl)

theorem Seen.isLive (hr : Seen s r) (hl : s.Ledger arrays owned) : r.isLive = true :=
  hl.live hr.choose_spec.1

theorem Seen.mono (hr : Seen kept r) (hk : s.Fewer kept) : Seen s r := by
  obtain ⟨x, hx, hkind⟩ := hr
  exact ⟨x, hk r x hx, hkind⟩

theorem Sound.balanced (hs : h.Sound s) (hl : s.Ledger arrays owned) (hk : s.Fewer kept) :
    h.Balanced kept arrays owned := ⟨s, hs, hl, hk⟩

theorem Sound.retain_balanced (hs : h.Sound s) (hl : s.Ledger arrays owned) (hr : ¬s.IsArray r)
    (hret : h.retain r = .ok h') :
    ∃ s', h'.Sound s' ∧ s'.Ledger arrays (r :: owned) ∧ s'.content = s.content ∧
      s'.count = Function.update s.count r (s.count r + 1) := by
  obtain ⟨-, s', hs', hcontent, hcount⟩ := hs.tells.retain hret
  exact ⟨s', hs', hl.retain hr hcontent hcount, hcontent, hcount⟩

theorem Sound.retained (hs : h.Sound s) (hl : s.Ledger arrays owned) (hk : s.Fewer kept)
    (hr : ¬s.IsArray r) (hret : h.retain r = .ok h') : h'.Balanced kept arrays (r :: owned) := by
  obtain ⟨s', hs', hl', hcontent, -⟩ := hs.retain_balanced hl hr hret
  exact hs'.balanced hl' fun q x hx => hcontent ▸ hk q x hx

theorem Sound.release_ledger (hs : h.Sound s) (hl : s.Ledger arrays (r :: owned))
    (hk : s.Fewer kept) (hstands : Standing kept (arrays ++ owned))
    (hrel : h.release r = .ok h') :
    ∃ s', h'.Sound s' ∧ s'.Ledger arrays owned ∧ s'.Fewer kept ∧ s.Fewer s' := by
  have hexact : s.Exact [] (r :: (arrays ++ owned)) := by
    refine hl.exact.of_eq rfl rfl fun q _ => ?_
    rw [List.count_cons, List.count_append, List.count_append, List.count_cons]
    omega
  obtain ⟨s', hs', hd⟩ := hs.release hexact
    (fun q c hq => Store.count_eq hq ▸ hl.positive (Store.content_of hq)) hstands hk hrel
  exact ⟨s', hs', hl.dropped hd, hd.keeps, hd.fewer⟩

theorem Sound.release_balanced (hs : h.Sound s) (hl : s.Ledger arrays (r :: owned))
    (hk : s.Fewer kept) (hstands : Standing kept (arrays ++ owned))
    (hrel : h.release r = .ok h') : h'.Balanced kept arrays owned := by
  obtain ⟨s', hs', hl', hk', -⟩ := hs.release_ledger hl hk hstands hrel
  exact ⟨s', hs', hl', hk'⟩

theorem Standing.mono {owned' : List Reference} (hk : Standing kept owned)
    (hle : ∀ q, owned.count q ≤ owned'.count q) : Standing kept owned' := fun q x hx =>
  Nat.lt_of_lt_of_le (hk q x hx) (Nat.add_le_add_right (hle q) _)

namespace Anchored

theorem nothing : Anchored s (fun _ => none) owned := ⟨nofun, nofun, nofun⟩

theorem standing (hk : Anchored s kept owned) : Standing kept (arrays ++ owned) := by
  intro q x hx
  have hpos := List.count_pos_iff.mpr (hk.owner hx)
  rw [List.count_append]
  omega

theorem unkept (hk : Anchored s kept owned) (hr : s.content r = some x) (hx : x.hash? = none) :
    kept.content r = none := by
  cases hkr : kept.content r with
  | none => rfl
  | some y =>
    have hy := hk.fewer r y hkr
    rw [hr, Option.some_inj] at hy
    exact absurd (hy ▸ hx) (hk.scalar hkr)

theorem of_fewer (hk : Anchored s kept owned) (hf : s'.Fewer kept) : Anchored s' kept owned :=
  ⟨hf, hk.scalar, hk.owner⟩

theorem of_content (hk : Anchored s kept owned) (hcontent : s'.content = s.content) :
    Anchored s' kept owned :=
  hk.of_fewer fun q x hx => hcontent ▸ hk.fewer q x hx

theorem mono {owned' : List Reference} (hk : Anchored s kept owned) (hsub : owned ⊆ owned') :
    Anchored s kept owned' := ⟨hk.fewer, hk.scalar, fun hx => hsub (hk.owner hx)⟩

end Anchored

theorem standing_of_ledger (hl : s.Ledger arrays owned) :
    Standing s (arrays ++ owned) := by
  intro q x hx
  have hcount := hl.count_eq (hl.live hx)
  have hpos := hl.positive hx
  rw [List.count_append]
  omega

theorem Sound.released (hs : h.Sound s) (hl : s.Ledger arrays (r :: owned))
    (hk : Anchored s kept owned) (hrel : h.release r = .ok h') : h'.Balanced kept arrays owned :=
  hs.release_balanced hl hk.fewer hk.standing hrel

theorem Made.scalar_balanced (hm : h.Made s r x) (hl : s.Ledger arrays owned) (hk : s.Fewer kept)
    (hx : x.hash? ≠ none) : h.Balanced kept arrays (r :: owned) := by
  obtain ⟨hnone, s', hs', hcontent, hcount⟩ := hm.tells
  exact hs'.balanced (hl.makeScalar hnone hm.live hcontent hcount hx)
    (hk.update (hk.content_none hnone) hcontent)

theorem Sound.releaseFree (hs : h.Sound s) (hl : s.Ledger arrays owned)
    (hr : s.content r = some (.array xs)) (hfree : r ∈ arrays) (hrel : h.release r = .ok h') :
    ∃ s', h'.Sound s' ∧ s'.Ledger (arrays.erase r) owned ∧
      s'.content = Function.update s.content r none := by
  have hheld := Store.held_of_dead (hl.blank hfree hr).dead
  obtain ⟨s', hs', hcontent, hcount⟩ := hs.tells.releaseBlank hr (hl.count_eq_one hr) hheld hrel
  exact ⟨s', hs', hl.discard hr hfree hcontent hcount, hcontent⟩

end CountedHeap.Heap
