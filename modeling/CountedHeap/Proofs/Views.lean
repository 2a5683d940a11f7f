import CountedHeap.Heap.Dump
import CountedHeap.Proofs.TwinOperations

/-!
What can be seen of a heap: its accounts, its blocks, and every question that can be asked about
values, down to the text of a dump. The bytes themselves are no part of it, and neither is the
configuration. Two heaps that hold the same look the same.
-/

namespace CountedHeap.Heap

structure View where
  used : Except Fault Nat
  refsUsed : Nat
  stats : Stats
  active : Span
  freeBlocks : Except Fault (List Block)
  blocks : Except Fault (List Block)
  contains : Nat → Bool
  deref : Reference → Except Fault Nat
  referenceAt : Nat → Except Fault Reference
  refcount : Reference → Except Fault Nat
  kindOf : Reference → Except Fault Kind
  value : Reference → Except Fault Value
  describe : Reference → Except Fault String
  arrayGet : Reference → Nat → Except Fault Reference
  arrayCapacity : Reference → Except Fault Nat
  listGet : Reference → Nat → Except Fault Reference
  truthy : Reference → Except Fault Bool
  truthyAs : Kind → Reference → Except Fault Bool
  length : Reference → Query Failure Nat
  lengthAs : Kind → Reference → Option (Except Fault Nat)
  hash : Reference → Query Failure UInt64
  hashAs : Kind → Reference → Option (Except Fault UInt64)
  order : Reference → Reference → Query Failure Ordering
  orderAs : Kind → Reference → Reference → Query Failure Ordering
  equal : Reference → Reference → Except Fault Bool
  equalAs : Kind → Reference → Reference → Except Fault Bool
  compareBy : Comparison → Reference → Reference → Query Failure Bool
  findKey : Reference → UInt64 → Reference → Bool → Except Fault (Option Nat)
  display : Reference → Printer Unit
  repr : Reference → Printer Unit
  writeNested : Reference → Nat → Bool → Printer Unit
  writeWithin : Kind → Reference → Nat → Bool → Printer Unit
  dump : Printer Unit

def view (h : Heap) : View where
  used := h.used
  refsUsed := h.refsUsed
  stats := h.stats
  active := h.active
  freeBlocks := h.pool.freeBlocks
  blocks := h.pool.blocks
  contains := h.inActive
  deref := h.deref
  referenceAt := h.referenceAt
  refcount := h.refcount
  kindOf := h.kindOf
  value := h.value
  describe := h.describe
  arrayGet := h.arrayGet
  arrayCapacity := h.arrayCapacity
  listGet := h.listGet
  truthy := h.truthy
  truthyAs := h.truthyAs
  length := h.length
  lengthAs := h.lengthAs?
  hash := h.hash
  hashAs := h.hashAs?
  order := h.order
  orderAs := h.orderAs
  equal := h.equal
  equalAs := h.equalAs
  compareBy := h.compareBy
  findKey := h.findKey
  display := h.display
  repr := h.repr
  writeNested := h.writeNested
  writeWithin := h.writeWithin
  dump := h.dump

namespace Twins

variable {h h' : Heap} {s : Store} {r : Reference} (ht : Twins s h h')
include ht

theorem slotsGet_eq {t : Slots} (hv : h.value r = .ok (.array t)) (i : Nat) :
    t.get h.memory i = t.get h'.memory i := by
  obtain ⟨c, hc, hx⟩ := ht.left.value_eq_ok.mp hv
  cases hcontent : c.content with
  | array xs =>
    rw [hcontent] at hx
    cases hx
    rw [memory_eq, memory_eq, ht.left.slotsGet_eq hc hcontent, ht.right.slotsGet_eq hc hcontent]
  | _ =>
    rw [hcontent] at hx
    cases hx

theorem references_eq {t : Slots} (hv : h.value r = .ok (.array t)) :
    t.references h.memory = t.references h'.memory := by
  have hfrom (index count : Nat) :
      t.referencesFrom h.memory index count = t.referencesFrom h'.memory index count := by
    induction count generalizing index with
    | zero => rfl
    | succ count ih => simp only [Slots.referencesFrom, ht.slotsGet_eq hv, ih]
  exact hfrom 0 t.capacity

theorem describe_eq (r : Reference) : h.describe r = h'.describe r := by
  simp only [describe, ← ht.value_eq]
  refine except_congr fun v hv => ?_
  cases v with
  | array t => simp only [Value.describe, ht.references_eq hv]
  | _ => rfl

theorem dumpElements_eq {t : Slots} (hv : h.value r = .ok (.array t)) (index count : Nat) :
    h.dumpElements t index count = h'.dumpElements t index count := by
  induction count generalizing index with
  | zero => rfl
  | succ count ih => simp only [dumpElements, ht.slotsGet_eq hv, ih]

theorem dumpContents_eq (r : Reference) : h.dumpContents r = h'.dumpContents r := by
  simp only [dumpContents, ← ht.value_eq]
  refine printer_congr fun v hv => ?_
  cases v with
  | array t => simp only [ht.dumpElements_eq hv]
  | list | dict => rfl
  | _ => simp only [ht.alike.writeNested_eq fun _ => trivial]

theorem dumpBlock_eq (b : Block) : h.dumpBlock b = h'.dumpBlock b := by
  simp only [dumpBlock, ht.joined.table_eq, ht.dumpContents_eq]

theorem dump_eq : h.dump = h'.dump := by
  obtain ⟨free, hp⟩ := ht.joined.pools
  obtain ⟨blocks, htiles, hperm⟩ := hp.laid.tiled
  have hfrom (fuel start : Nat) (rest : List Nat)
      (hrest : Tiles h.pool.memory h.pool.region.stop start rest)
      (hmem : ∀ a ∈ rest, a ∈ free ++ h.table.addresses) :
      h.dumpFrom fuel start = h'.dumpFrom fuel start := by
    induction fuel generalizing start rest with
    | zero => rfl
    | succ fuel ih =>
      cases rest with
      | nil =>
        have hstop : h.pool.region.stop ≤ start := Nat.le_of_eq (Eq.symm hrest)
        rw [dumpFrom, dumpFrom, if_pos hstop, if_pos (hp.region ▸ hstop)]
      | cons a rest =>
        have hsame : h'.pool.visit a = h.pool.visit a := by
          simp only [Pool.visit, hp.region, hp.read_eq (hmem a List.mem_cons_self)]
        have hvisit := hp.laid.visit_of_tiles hrest
        obtain ⟨rfl, -, -, hrest⟩ := hrest
        have htail := ih _ rest hrest fun b hb => hmem b (List.mem_cons_of_mem _ hb)
        simp only [dumpFrom, hp.region, hsame, hvisit, printer_ok_bind, ht.dumpBlock_eq, htail]
  rw [dump, dump, hp.region]
  exact hfrom _ _ blocks htiles fun a ha => hperm.mem_iff.mpr ha

theorem view_eq : h.view = h'.view := by
  obtain ⟨free, hp⟩ := ht.joined.pools
  obtain ⟨_, _, hframe⟩ := ht.joined.frame
  have ha := ht.alike
  have hall {q : Reference} : q.isLive = true → True := fun _ => trivial
  rw [view, view, View.mk.injEq]
  refine ⟨ht.joined.used_eq, ?references, ?record, ?half, (hp.walk_eq _).symm, hp.blocks_eq.symm,
    hp.contains_eq.symm, funext ht.joined.deref_eq, ?reference, funext ht.refcount_eq,
    funext ht.kindOf_eq, funext ht.value_eq, funext ht.describe_eq,
    funext₂ ht.arrayGet_eq, funext ht.arrayCapacity_eq, funext₂ ht.listGet_eq, ?truth,
    funext₂ fun k _ => ha.truthyAs_eq hall k, funext fun _ => ha.length_eq hall,
    funext₂ fun k _ => ha.lengthAs?_eq hall k, funext ht.hash_eq,
    funext₂ fun k _ => ha.hashAs?_eq hall k, funext₂ fun _ _ => ha.order_eq hall hall,
    funext₃ fun k _ _ => ha.orderAs_eq hall hall k, funext₂ ht.equal_eq,
    funext₃ fun k _ _ => ha.equalAs_eq hall hall k,
    funext₃ fun op _ _ => ha.compareBy_eq op hall hall, ?found,
    funext fun _ => ha.display_eq hall, funext fun _ => ha.repr_eq hall,
    funext₃ fun _ depth quoted => ha.writeNested_eq hall depth quoted, ?written, ht.dump_eq⟩
  case references => rw [refsUsed, refsUsed, ht.joined.table_eq]
  case record => rw [hframe]
  case half => rw [hframe]
  case reference =>
    funext addr
    rw [referenceAt, referenceAt, ht.joined.table_eq]
  case truth =>
    funext r
    simp only [truthy, ht.kindOf_eq, ha.truthyAs_eq hall]
  case found =>
    funext keys hash key skip
    exact ht.findKey_eq keys hash key skip
  case written =>
    funext k r depth quoted
    exact ha.writeWithin_eq hall k depth quoted

end Twins
end CountedHeap.Heap
