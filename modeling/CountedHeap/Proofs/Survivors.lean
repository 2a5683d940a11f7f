import CountedHeap.Proofs.Alike
import CountedHeap.Proofs.Client

/-!
What a client finds after a collection: the values that its roots reach, as they were, each with a
count of the ways that lead to it.
-/

namespace CountedHeap

namespace Heap

def contents (h : Heap) (r : Reference) : Except Fault Content := do
  match ← h.value r with
  | .none => return .none
  | .bool b => return .bool b
  | .integer n => return .integer n
  | .string bytes => return .string bytes
  | .list size values => return .list size values
  | .dict size occupied keys values => return .dict size occupied keys values
  | .array slots => return .array (← slots.references h.memory)

/-- The references that a value leads to: the array of a list, the values and the keys of a dict, and
what stands in the slots of an array. -/
def outgoing (h : Heap) (r : Reference) : Except Fault (List Reference) := do
  return (← h.contents r).held

/-- How a reference is reached from roots by way of what values lead to. -/
inductive Reachable (h : Heap) (roots : List Reference) : Reference → Prop
  | root {r : Reference} (hr : r ∈ roots) (hlive : r.isLive = true) : h.Reachable roots r
  | edge {r q : Reference} {held : List Reference} (hr : h.Reachable roots r)
      (hheld : h.outgoing r = .ok held) (hq : q ∈ held) (hlive : q.isLive = true) :
      h.Reachable roots q

/-- A value is the same in another heap, and shown and asked there it answers the same. -/
structure Keeps (h h' : Heap) (r : Reference) : Prop where
  contents : ∃ x, h.contents r = .ok x ∧ h'.contents r = .ok x
  kind : ∃ k, h.kindOf r = .ok k ∧ h'.kindOf r = .ok k
  hash : h.hash r = h'.hash r
  length : h.length r = h'.length r
  display : h.display r = h'.display r
  repr : h.repr r = h'.repr r

/-- What the values that are left after a collection are, and where. -/
structure Survival (h : Heap) (roots : List Reference) (col : Collection) (h' : Heap) : Prop where
  occupied : ∀ r, h'.Occupied r ↔ h.Reachable roots r
  keeps : ∀ r, h'.Occupied r → h.Keeps h' r
  equal : ∀ l r, h'.Occupied l → h'.Occupied r → h.equal l r = h'.equal l r
  order : ∀ l r, h'.Occupied l → h'.Occupied r → h.order l r = h'.order l r
  compare : ∀ op l r, h'.Occupied l → h'.Occupied r → h.compareBy op l r = h'.compareBy op l r
  active : h'.active = h.spare
  moved : ∀ r a, h'.deref r = .ok a → h'.active.contains a = true
  survivors : col.survivors = h'.refsUsed

variable {h h' : Heap} {s s' : Store} {r : Reference} {roots : List Reference} {col : Collection}

theorem Stored.contents_eq (hs : h.Stored s) {c : Cell} (hr : s r = some c) :
    h.contents r = .ok c.content := by
  have hroom := hs.room_le hr
  obtain ⟨-, -, hfields⟩ := hs.holds hr
  rw [contents, hs.value_eq hr, ok_bind]
  cases hx : c.content with
  | array slots =>
    rw [hx] at hfields hroom
    simp only [Content.value, memory_eq, Slots.references_eq hfields hroom, ok_bind]
    rfl
  | _ => rfl

theorem Stored.contents_eq_ok (hs : h.Stored s) {x : Content} :
    h.contents r = .ok x ↔ s.content r = some x := by
  constructor
  · intro hx
    have hvalue := hx
    simp only [contents, bind_eq_ok, hs.value_eq_ok] at hvalue
    obtain ⟨-, ⟨c, hr, -⟩, -⟩ := hvalue
    rw [hs.contents_eq hr] at hx
    cases hx
    exact Store.content_eq_some.mpr ⟨c, hr, rfl⟩
  · intro hx
    obtain ⟨c, hr, rfl⟩ := Store.content_eq_some.mp hx
    exact hs.contents_eq hr

theorem Stored.outgoing_eq (hs : h.Stored s) {c : Cell} (hr : s r = some c) :
    h.outgoing r = .ok (s.held r) := by
  rw [outgoing, hs.contents_eq hr, ok_bind, Store.held_eq hr]
  rfl

theorem Stored.outgoing_eq_ok (hs : h.Stored s) {held : List Reference} :
    h.outgoing r = .ok held ↔ ∃ c, s r = some c ∧ c.content.held = held := by
  simp only [outgoing, bind_eq_ok, hs.contents_eq_ok, pure_eq_ok]
  constructor
  · rintro ⟨x, hx, rfl⟩
    obtain ⟨c, hr, rfl⟩ := Store.content_eq_some.mp hx
    exact ⟨c, hr, rfl⟩
  · rintro ⟨c, hr, rfl⟩
    exact ⟨c.content, Store.content_eq_some.mpr ⟨c, hr, rfl⟩, rfl⟩

theorem Stored.children_eq_outgoing (hs : h.Stored s) {addr : Nat} {k : Kind}
    (hr : h.deref r = .ok addr) (hk : h.kindAt addr = .ok k) :
    h.children addr k = h.outgoing r := by
  obtain ⟨c, hc, rfl⟩ := hs.deref_eq_ok.mp hr
  rw [hs.kindAt_eq hc] at hk
  cases hk
  rw [hs.children_eq hc, hs.outgoing_eq hc, Store.held_eq hc]

theorem Stored.entries_outgoing (hs : h.Stored s) :
    h.table.entries.mapM (fun e => h.outgoing e.1) =
      .ok (h.table.entries.map fun e => s.held e.1) := by
  refine mapM_eq_ok fun ⟨r, a⟩ he => ?_
  obtain ⟨c, hr, -⟩ := hs.get?_eq_some.mp ((Table.mem_entries hs.small).mp he)
  exact hs.outgoing_eq hr

theorem Sound.nodup_entries (hs : h.Sound s) : (h.table.entries.map Prod.fst).Nodup := by
  obtain ⟨free, hl⟩ := hs.laid
  have hnodup := (List.nodup_append.mp hl.nodup).2.1
  rw [← Table.map_entries] at hnodup
  refine List.Nodup.map_on (fun ⟨r, a⟩ ha ⟨q, b⟩ hb heq => ?_) hnodup.of_map
  rw [Table.mem_entries hs.small] at ha hb
  cases heq
  rw [ha] at hb
  cases hb
  rfl

theorem Stored.edges_eq (hs : h.Stored s) (q : Reference) :
    edges s.held q = ((h.table.entries.map fun e => s.held e.1).map (·.count q)).sum := by
  rw [edges.eq_entries hs.small fun r => hs.held_eq_nil, List.map_map]
  rfl

theorem Stored.reachable_iff (hs : h.Stored s) : h.Reachable roots r ↔ s.Reaches roots r := by
  constructor
  · intro hr
    induction hr with
    | root hr hlive => exact .root hr hlive
    | @edge r q held _ hheld hq hlive ih =>
      refine .edge ih ?_ hlive
      obtain ⟨c, hr, rfl⟩ := hs.outgoing_eq_ok.mp hheld
      rwa [Store.held_eq hr]
  · intro hr
    induction hr with
    | root hr hlive => exact .root hr hlive
    | @edge r q _ hq hlive ih =>
      cases hr : s r with
      | none =>
        rw [Store.held, Store.content, hr] at hq
        exact absurd hq List.not_mem_nil
      | some c => exact .edge ih (hs.outgoing_eq hr) hq hlive

theorem Collected.refcount_eq (hc : h.Collected s roots col h' s') :
    ∃ out, h'.table.entries.mapM (fun e => h'.outgoing e.1) = .ok out ∧
      ∀ r, h'.Occupied r → h'.refcount r = .ok (roots.count r + (out.map (·.count r)).sum) := by
  have hs := hc.sound.toStored
  refine ⟨_, hs.entries_outgoing, fun r hr => ?_⟩
  obtain ⟨c, hcell⟩ := hs.occupied_iff.mp hr
  rw [hs.refcount_eq hcell, hc.count r c hcell, hs.edges_eq]

theorem Collected.alike (hs : h.Sound s) (hc : h.Collected s roots col h' s') :
    Alike h h' s s' (s.Reaches roots) := by
  refine ⟨hs.toStored, hc.sound.toStored, fun {r} hr => ?_, fun {r x q} hr hx hq hlive => ?_,
    hc.slots.symm, by rw [hc.config]⟩
  · obtain ⟨c, hcell⟩ := (hc.reached r).mpr hr
    rw [hc.content r c hcell, Store.content_eq_some.mpr ⟨c, hcell, rfl⟩]
  · refine .edge hr ?_ hlive
    rw [Store.held, hx]
    exact hq

theorem Collected.keeps (hs : h.Sound s) (hc : h.Collected s roots col h' s') {c : Cell}
    (hr : s' r = some c) : h.Keeps h' r := by
  have ha := hc.alike hs
  have hreach : r.isLive = true → s.Reaches roots r := fun _ => (hc.reached r).mp ⟨c, hr⟩
  obtain ⟨d, hd, hdc⟩ := Store.content_eq_some.mp (hc.content r c hr)
  have hs' := hc.sound.toStored
  exact ⟨⟨_, hdc ▸ hs.contents_eq hd, hs'.contents_eq hr⟩,
    ⟨_, hdc ▸ hs.kindOf_eq hd, hs'.kindOf_eq hr⟩, ha.hash_eq hreach, ha.length_eq hreach,
    ha.display_eq hreach, ha.repr_eq hreach⟩

theorem Collected.survival (hs : h.Sound s) (hc : h.Collected s roots col h' s') :
    h.Survival roots col h' := by
  have hs' := hc.sound
  have ha := hc.alike hs
  have hreach : ∀ r, h'.Occupied r → r.isLive = true → s.Reaches roots r := fun r hr _ =>
    (hc.reached r).mp (hs'.occupied_iff.mp hr)
  refine ⟨fun r => ?_, fun r hr => ?_, fun l r hl hr => ?_, fun l r hl hr => ?_,
    fun op l r hl hr => ?_, hc.active, fun r a hr => ?_, hc.survivors⟩
  · rw [hs'.occupied_iff, hc.reached, hs.reachable_iff]
  · obtain ⟨c, hcell⟩ := hs'.occupied_iff.mp hr
    exact hc.keeps hs hcell
  · exact ha.equal_eq (hreach l hl) (hreach r hr)
  · exact ha.order_eq (hreach l hl) (hreach r hr)
  · exact ha.compareBy_eq op (hreach l hl) (hreach r hr)
  · obtain ⟨c, hcell, rfl⟩ := hs'.deref_eq_ok.mp hr
    have hb := hs'.bounds hcell
    have hroom := (hs'.holds hcell).header_le
    simp only [Block.headerSize] at hroom
    simp only [Span.contains, Bool.and_eq_true, decide_eq_true_eq]
    omega

end Heap

namespace Client

variable {rule : Client → Request → Bool} {c : Client} {roots : List Reference}
  {col : Collection} {h' : Heap}

theorem Run.collect_survival (hrun : Run rule c)
    (hcollect : (Heap.collect roots).runOn c.heap = .ok (.ok col, h')) :
    c.heap.Survival roots col h' := by
  obtain ⟨s, hs⟩ := hrun.consistent
  obtain ⟨s', hc⟩ := (hs.collect roots).good hcollect
  exact hc.survival hs

theorem sample_survival : ∃ c col h', sample = some c ∧
    (Heap.collect sampleRoots).runOn c.heap = .ok (.ok col, h') ∧
      c.heap.Survival sampleRoots col h' := by
  obtain ⟨c, hc, col, h', hcollect⟩ := sample_collects
  exact ⟨c, col, h', hc, hcollect, (Run.session hc).collect_survival hcollect⟩

/-- Whatever the counts were before a collection, they are the numbers of ways that lead to the
survivors. -/
theorem Run.collect_counts (hrun : Run rule c)
    (hcollect : (Heap.collect roots).runOn c.heap = .ok (.ok col, h')) :
    ∃ out, h'.table.entries.mapM (fun e => h'.outgoing e.1) = .ok out ∧
      ∀ r, h'.Occupied r → h'.refcount r = .ok (roots.count r + (out.map (·.count r)).sum) := by
  obtain ⟨s, hs⟩ := hrun.consistent
  obtain ⟨s', hc⟩ := (hs.collect roots).good hcollect
  exact hc.refcount_eq

theorem sample_counts : ∃ c col h', sample = some c ∧
    (Heap.collect sampleRoots).runOn c.heap = .ok (.ok col, h') ∧
      ∃ out, h'.table.entries.mapM (fun e => h'.outgoing e.1) = .ok out ∧
        ∀ r, h'.Occupied r →
          h'.refcount r = .ok (sampleRoots.count r + (out.map (·.count r)).sum) := by
  obtain ⟨c, hc, col, h', hcollect⟩ := sample_collects
  exact ⟨c, col, h', hc, hcollect, (Run.session hc).collect_counts hcollect⟩

end Client
end CountedHeap
