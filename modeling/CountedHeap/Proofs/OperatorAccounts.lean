import CountedHeap.Heap.Operate
import CountedHeap.Proofs.Collecting
import CountedHeap.Proofs.DictAccounts
import CountedHeap.Proofs.ListAccounts

/-!
The ledger of what a client asks for: new values, operators, subscripts, and collections. A
collection makes up a new ledger, in which the roots are the only owners.
-/

namespace CountedHeap

namespace Heap

variable {h h' : Heap} {s s' kept : Store} {arrays owned owned' : List Reference}
  {r index item left right keys values : Reference}

def Owns {ε : Type} (x : Action ε Reference) (h : Heap) (kept : Store)
    (arrays owned : List Reference) : Prop :=
  x.Ends h (fun r h' => h'.Balanced kept arrays (r :: owned))
    fun _ h' => h'.Balanced kept arrays owned

def Settles {ε α : Type} (x : Action ε α) (h : Heap) (kept : Store)
    (arrays owned : List Reference) : Prop :=
  x.Ends h (fun _ h' => h'.Balanced kept arrays owned) fun _ h' => h'.Balanced kept arrays owned

section Making

variable (hs : h.Sound s) (hl : s.Ledger arrays owned) (hk : s.Fewer kept)

include hs hl hk

theorem makeNone_owns : Owns makeNone h kept arrays owned :=
  hs.makeNone.imp (fun _ _ hm => hm.scalar_balanced hl hk nofun) fun _ _ he =>
    he ▸ hs.balanced hl hk

theorem makeBool_owns (b : Bool) : Owns (makeBool b) h kept arrays owned :=
  (hs.makeBool b).imp (fun _ _ hm => hm.scalar_balanced hl hk nofun) fun _ _ he =>
    he ▸ hs.balanced hl hk

theorem makeInteger_owns (n : Int64) : Owns (makeInteger n) h kept arrays owned :=
  (hs.makeInteger n).imp (fun _ _ hm => hm.scalar_balanced hl hk nofun)
    fun _ _ he => he ▸ hs.balanced hl hk

theorem makeString_owns (bytes : List UInt8) : Owns (makeString bytes) h kept arrays owned :=
  (hs.makeString bytes).imp (fun _ _ hm => hm.scalar_balanced hl hk nofun)
    fun _ _ he => he ▸ hs.balanced hl hk

theorem makeConcatenation_owns (left right : Reference) :
    Owns (makeConcatenation left right) h kept arrays owned :=
  (hs.makeConcatenation left right).imp
    (fun _ _ ⟨_, _, _, _, hm⟩ => hm.scalar_balanced hl hk nofun) fun _ _ he =>
      he ▸ hs.balanced hl hk

theorem makeArray_balanced (capacity : Nat) :
    (makeArray capacity).Ends h (fun r h' => h'.Balanced kept (r :: arrays) owned)
      fun _ h' => h'.Balanced kept arrays owned := by
  refine (hs.makeArray capacity).imp (fun r h' hm => ?_) fun _ _ he => he ▸ hs.balanced hl hk
  obtain ⟨hnone, s', hs', hcontent, hcount⟩ := hm.tells
  exact hs'.balanced (hl.makeArray hnone hm.live hcontent hcount (blank_replicate _))
    (hk.update (hk.content_none hnone) hcontent)

theorem makeList_balanced (hfree : values ∈ arrays) :
    (makeList values).Ends h
      (fun r h' => h'.Balanced kept (arrays.erase values) (r :: owned))
      fun _ h' => h'.Balanced kept arrays owned := by
  refine (hs.makeList values).imp ?_ fun _ _ he => he ▸ hs.balanced hl hk
  rintro r h' ⟨⟨xs, hxs⟩, hm⟩
  obtain ⟨hnone, s', hs', hcontent, hcount⟩ := hm.tells
  exact hs'.balanced (hl.makeList hnone hm.live hcontent hcount hfree hxs)
    (hk.update (hk.content_none hnone) hcontent)

theorem makeDict_balanced (hkeys : keys ∈ arrays) (hvalues : values ∈ arrays.erase keys) :
    (makeDict keys values).Ends h
      (fun r h' => h'.Balanced kept ((arrays.erase keys).erase values) (r :: owned))
      fun _ h' => h'.Balanced kept arrays owned := by
  refine (hs.makeDict keys values).imp ?_ fun _ _ he => he ▸ hs.balanced hl hk
  rintro r h' ⟨⟨ks, vs, hks, hvs, hpaired⟩, hm⟩
  obtain ⟨hnone, s', hs', hcontent, hcount⟩ := hm.tells
  exact hs'.balanced
    (hl.makeDict hnone hm.live hcontent hcount hkeys hvalues hks hvs hpaired.symm)
    (hk.update (hk.content_none hnone) hcontent)

end Making

section Operators

theorem Owns.ofMemory {x : Action OutOfMemory Reference} (hx : Owns x h kept arrays owned) :
    Owns (liftM x : Action Failure Reference) h kept arrays owned := Action.ends_ofMemory.mpr hx

variable (hs : h.Sound s) (hl : s.Ledger arrays owned) (hk : Anchored s kept owned)

include hs hl hk

theorem unary_owns (op : UnaryOperator) (r : Reference) :
    Owns (unary op r) h kept arrays owned :=
  unary_ends (fun _ _ => hs.balanced hl hk.fewer)
    fun n => (makeInteger_owns hs hl hk.fewer n).ofMemory

theorem binary_owns (op : BinaryOperator) (left right : Reference) :
    Owns (binary op left right) h kept arrays owned := by
  have hsame : h.Balanced kept arrays owned := hs.balanced hl hk.fewer
  exact binary_ends (fun _ _ _ _ => hsame) (fun _ _ _ _ => hsame)
    (fun n => (makeInteger_owns hs hl hk.fewer n).ofMemory)
    (makeConcatenation_owns hs hl hk.fewer left right).ofMemory

theorem subscript_owns (r index : Reference) : Owns (subscript r index) h kept arrays owned :=
  subscript_ends (fun _ _ => hs.balanced hl hk.fewer)
    (fun _ => listSubscript_balanced hs hl hk.fewer) fun _ => dictGet_balanced hs hl hk.fewer

theorem assignItem_settles (r index : Reference) (hitem : Seen s item) :
    Settles (assignItem r index item) h kept arrays owned :=
  assignItem_ends (fun _ _ => hs.balanced hl hk.fewer)
    (fun _ => listAssign_balanced hs hl hk hitem) fun _ => dictSet_balanced hs hl hk hitem

theorem deleteItem_settles (r index : Reference) :
    Settles (deleteItem r index) h kept arrays owned :=
  deleteItem_ends (fun _ _ => hs.balanced hl hk.fewer) (fun _ => listDelete_balanced hs hl hk)
    fun _ => dictDelete_balanced hs hl hk

end Operators

theorem Collected.fewer {roots : List Reference} {col : Collection}
    (hc : h.Collected s roots col h' s') : s.Fewer s' := by
  intro q x hx
  obtain ⟨c, hq, rfl⟩ := Store.content_eq_some.mp hx
  exact hc.content q c hq

theorem Collected.ledger {roots : List Reference} {col : Collection}
    (hc : h.Collected s roots col h' s') (hl : s.Ledger arrays owned)
    (hroots : ∀ q ∈ roots, ¬s.IsArray q) (howned : ∀ q ∈ owned', ¬s.IsArray q)
    (hcount : ∀ q, q.isLive = true → owned'.count q = roots.count q) : s'.Ledger [] owned' := by
  have hfewer := hc.fewer
  have hreached : ∀ {q x}, s'.content q = some x → s.Reaches roots q := fun hx => by
    obtain ⟨c, hq, -⟩ := Store.content_eq_some.mp hx
    exact (hc.reached _).mp ⟨c, hq⟩
  have hled : ∀ p q, q ∈ s'.held p → ∀ x, s.content q = some x → s'.content q = some x := by
    intro p q hq x hx
    obtain ⟨y, hy, hyq⟩ := Store.exists_of_held hq
    rw [← Store.held_of_content (hfewer p y hy)] at hyq
    obtain ⟨c, hqc⟩ := (hc.reached q).mpr (.edge (hreached hy) hyq (hl.live hx))
    have hsame := hc.content q c hqc
    rw [hx, Option.some_inj] at hsame
    rw [Store.content_of hqc, ← hsame]
  have hexact : ∀ {q x}, s'.content q = some x → s'.count q = roots.count q + edges s'.held q := by
    intro q x hx
    obtain ⟨c, hq, -⟩ := Store.content_eq_some.mp hx
    rw [Store.count_eq hq, hc.count q c hq]
  refine ⟨hl.toArranged.fewer hfewer hled (List.nil_subset _) howned,
    fun hx => hl.live (hfewer _ _ hx), fun q hq => ?_, fun {q x} hx => ?_, fun {q} hq => ?_⟩
  · rw [Store.heldBut_nil, List.nil_append, hcount q hq]
    cases hx : s'.content q with
    | some x => exact hexact hx
    | none =>
      -- Nothing that is left leads to what is gone.
      have hgone : ¬s.Reaches roots q := fun hreach => by
        obtain ⟨c, hqc⟩ := (hc.reached q).mpr hreach
        rw [Store.content_of hqc] at hx
        cases hx
      have hroot : roots.count q = 0 := List.count_eq_zero.mpr fun hmem => hgone (.root hmem hq)
      have hedges : edges s'.held q = 0 := edges.eq_zero fun p _ hmem => hgone <| by
        obtain ⟨y, hy, hyq⟩ := Store.exists_of_held hmem
        rw [← Store.held_of_content (hfewer p y hy)] at hyq
        exact .edge (hreached hy) hyq hq
      rw [Store.count_of_content_none hx, hroot, hedges]
  · rw [hexact hx]
    cases hreached hx with
    | root hmem _ =>
      have hpos := List.count_pos_iff.mpr hmem
      omega
    | @edge p _ hp hmem _ =>
      obtain ⟨c, hpc⟩ := (hc.reached p).mpr hp
      have hheld : s'.held p = s.held p := by
        rw [Store.held_eq hpc, Store.held_of_content (hc.content p c hpc)]
      have hmem' : q ∈ s'.held p := hheld ▸ hmem
      have hpos := edges.pos_of_mem hp.isLive hmem'
      omega
  · obtain ⟨xs, hxs⟩ := hq
    have hroot : roots.count q = 0 := List.count_eq_zero.mpr fun hmem =>
      hroots q hmem (hfewer.isArray ⟨xs, hxs⟩)
    have hle := hfewer.edges_le (q := q)
    have hsingle := hl.single (hfewer.isArray ⟨xs, hxs⟩)
    have hcounted := hl.count_eq (hl.live (hfewer q _ hxs))
    rw [hexact hxs]
    omega

end Heap
end CountedHeap
