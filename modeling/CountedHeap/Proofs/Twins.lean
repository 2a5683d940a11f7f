import CountedHeap.Heap.Lists
import CountedHeap.Proofs.Alike
import CountedHeap.Proofs.Operations
import CountedHeap.Proofs.PoolTwins

/-!
Two heaps that hold the values of one store at the same places. They may differ in the bytes of
free payloads, in what an owner left unused of its block, and in whether they poison. Each step on
both has the same result and changes the store in the same way; a new value is filled in before
anything of it is read.
-/

namespace CountedHeap.Heap

/-- Heaps whose allocators are twins, and which differ in nothing else but whether they poison. -/
structure Joined (h h' : Heap) : Prop where
  pools : ∃ free, h.pool.Twins h'.pool free h.table.addresses
  frame : ∃ pool poison, h' = { h with pool, config := { h.config with poison } }

structure Twins (s : Store) (h h' : Heap) : Prop where
  left : h.Sound s
  right : h'.Sound s
  joined : h.Joined h'

def TwinsAfter (s : Store) (h h' : Heap) : Prop := ∃ s', Twins s' h h' ∧ s.Later s'

variable {h h' : Heap} {s : Store} {r q : Reference} {c : Cell}

theorem write_mirrored {R : Heap → Heap → Prop} {f f' : Memory → Except Fault Memory}
    (hf : Mirrored (fun n n' => R { h with pool := { h.pool with memory := n } }
      { h' with pool := { h'.pool with memory := n' } }) (f h.pool.memory) (f' h'.pool.memory)) :
    Mirrored R (h.write f) (h'.write f') :=
  hf.bind fun _ _ _ _ hR => Mirrored.pure_pure hR

namespace Joined

theorem table_eq (hj : h.Joined h') : h'.table = h.table := by
  obtain ⟨_, _, rfl⟩ := hj.frame
  rfl

theorem deref_eq (hj : h.Joined h') (r : Reference) : h.deref r = h'.deref r := by
  obtain ⟨free, hp⟩ := hj.pools
  have hsize := hp.headers.size_eq
  obtain ⟨_, _, rfl⟩ := hj.frame
  simp only [deref, memory] at hsize ⊢
  rw [hsize]

theorem used_eq (hj : h.Joined h') : h.used = h'.used := by
  obtain ⟨free, hp⟩ := hj.pools
  exact hp.used_eq.symm

theorem with_table {table : Table} {p p' : Pool} {free : List Nat} (hj : h.Joined h')
    (hp : p.Twins p' free table.addresses) :
    Joined { h with pool := p, table } { h' with pool := p', table } := by
  obtain ⟨_, b, rfl⟩ := hj.frame
  exact ⟨⟨free, hp⟩, p', b, rfl⟩

theorem with_memory {n n' : Memory} {free : List Nat} (hj : h.Joined h')
    (hp : Pool.Twins { h.pool with memory := n } { h'.pool with memory := n' } free
      h.table.addresses) :
    Joined { h with pool := { h.pool with memory := n } }
      { h' with pool := { h'.pool with memory := n' } } := by
  obtain ⟨_, b, rfl⟩ := hj.frame
  exact ⟨⟨free, hp⟩, _, b, rfl⟩

end Joined

namespace Twins

theorem alike (ht : Twins s h h') : Alike h h' s s fun _ => True := by
  obtain ⟨_, _, hframe⟩ := ht.joined.frame
  refine ⟨ht.left.toStored, ht.right.toStored, fun _ => rfl, fun _ _ _ _ => trivial, ?_, ?_⟩
  · rw [ht.joined.table_eq]
  · rw [hframe]

theorem after (ht : Twins s h h') : TwinsAfter s h h' := ⟨s, ht, .refl s⟩

section Reading

variable (ht : Twins s h h')
include ht

theorem kindOf_eq (r : Reference) : h.kindOf r = h'.kindOf r :=
  ht.alike.kindOf_eq fun _ => trivial

theorem listParts_eq (r : Reference) : h.listParts r = h'.listParts r :=
  ht.alike.listParts_eq fun _ => trivial

theorem dictParts_eq (r : Reference) : h.dictParts r = h'.dictParts r :=
  ht.alike.dictParts_eq fun _ => trivial

theorem arrayGet_eq (r : Reference) (i : Nat) : h.arrayGet r i = h'.arrayGet r i :=
  ht.alike.arrayGet_eq (fun _ => trivial) i

theorem hash_eq (r : Reference) : h.hash r = h'.hash r :=
  ht.alike.hash_eq fun _ => trivial

theorem equal_eq (l r : Reference) : h.equal l r = h'.equal l r :=
  ht.alike.equal_eq (fun _ => trivial) fun _ => trivial

theorem findKey_eq (keys : Reference) (hash : UInt64) (key : Reference) (skip : Bool) :
    h.findKey keys hash key skip = h'.findKey keys hash key skip :=
  ht.alike.findKeyBy_eq (fun a b _ _ => ht.equal_eq a b) (fun _ => trivial) (fun _ => trivial)
    hash skip

theorem lookup_eq (keys : Reference) (hash : UInt64) (key : Reference) :
    h.lookup keys hash key = h'.lookup keys hash key :=
  ht.alike.lookupBy_eq (fun a b _ _ => ht.equal_eq a b) (fun _ => trivial) (fun _ => trivial) hash

theorem value_eq (r : Reference) : h.value r = h'.value r := by
  rcases ht.alike.cells (r := r) fun _ => trivial with ⟨e, he, he'⟩ | ⟨c, -, hc, -⟩
  · rw [value, value, he, he', error_bind, error_bind]
  · rw [ht.left.value_eq hc, ht.right.value_eq hc]

theorem slots_eq (r : Reference) : h.slots r = h'.slots r := by
  rcases ht.alike.slots_eq (r := r) fun _ => trivial with ⟨e, he, he'⟩ | ⟨t, t', hs, hs', -⟩
  · rw [he, he']
  · obtain ⟨c, xs, hc, hx, rfl⟩ := ht.left.slots_eq_ok.mp hs
    rw [hs, ht.right.slots_eq_ok.mpr ⟨c, xs, hc, hx, rfl⟩]

theorem arrayCapacity_eq (r : Reference) : h.arrayCapacity r = h'.arrayCapacity r := by
  rw [arrayCapacity, arrayCapacity, ht.slots_eq]

theorem refcount_eq (r : Reference) : h.refcount r = h'.refcount r := by
  rcases ht.alike.cells (r := r) fun _ => trivial with ⟨e, he, he'⟩ | ⟨c, -, hc, -⟩
  · rw [refcount, refcount, he, he', error_bind, error_bind]
  · rw [ht.left.refcount_eq hc, ht.right.refcount_eq hc]

theorem deref_bind {β β' : Type} {S : β → β' → Prop} {f : Nat → Except Fault β}
    {g : Nat → Except Fault β'}
    (hfg : ∀ c, s r = some c → Mirrored S (f c.addr) (g c.addr)) :
    Mirrored S (h.deref r >>= f) (h'.deref r >>= g) := by
  refine Mirrored.bind_eq (ht.joined.deref_eq r) fun a ha => ?_
  obtain ⟨c, hc, rfl⟩ := ht.left.deref_eq_ok.mp ha
  exact hfg c hc

end Reading

theorem write (ht : Twins s h h') (hr : s r = some c) {f : Memory → Except Fault Memory}
    {count : Nat} {x : Content}
    (hsame : ∀ {known}, h.pool.memory.Same h'.pool.memory known →
      Mirrored (fun n n' => n.Same n' known) (f h.pool.memory) (f h'.pool.memory))
    (hrewrites : ∀ {m n : Memory}, m.Holds c.addr c.content → m.linkAt c.addr = c.count →
      f m = .ok n → m.Rewrites n c.addr count x) :
    Mirrored (Twins (s.set r ⟨c.addr, count, x⟩)) (h.write f) (h'.write f) := by
  obtain ⟨free, hp⟩ := ht.joined.pools
  refine write_mirrored ((hsame hp.headers).imp fun n n' hn hn' hs => ?_)
  have hl := hrewrites (ht.left.holds hr) (ht.left.count hr) hn
  have hr' := hrewrites (ht.right.holds hr) (ht.right.count hr) hn'
  have hmem := Table.mem_addresses_of_get? (ht.left.get?_eq hr)
  exact ⟨ht.left.rewrite hr hl, ht.right.rewrite hr hr',
    ht.joined.with_memory (hp.write hmem hl.changed hl.size_eq hs)⟩

end Twins

theorem stored_mirrored {m m' : Memory} {known : Nat → Prop} (hs : m.Same m' known)
    (addr width value : Nat) :
    Mirrored (fun n n' => n.Same n' known) (m.store addr width value)
      (m'.store addr width value) :=
  (hs.store addr width value).imp fun _ _ _ _ h => h.mono fun _ => .inl

namespace Twins

theorem setCountAt (ht : Twins s h h') (hr : s r = some c) {count : Nat}
    (hcount : count < Word.limit) :
    Mirrored (Twins (s.set r { c with count })) (h.setCountAt c.addr count)
      (h'.setCountAt c.addr count) :=
  ht.write hr (fun hs => stored_mirrored hs ..) fun hm _ hn => hm.setCount hcount hn

theorem retain (ht : Twins s h h') (r : Reference) :
    Mirrored (TwinsAfter s) (h.retain r) (h'.retain r) := by
  refine ht.deref_bind fun c hr => ?_
  simp only [ht.left.countAt_eq hr, ht.right.countAt_eq hr, ok_bind]
  refine Mirrored.bind_eq rfl fun n hn => ?_
  obtain ⟨rfl, hlt⟩ := Word.fit_eq_ok.mp hn
  exact (ht.setCountAt hr hlt).imp fun _ _ _ _ ht' => ⟨_, ht', .set hr rfl⟩

theorem giveUp (ht : Twins s h h') (r : Reference) :
    Mirrored (fun p p' => p'.2 = p.2 ∧ TwinsAfter s p.1 p'.1) (h.giveUp r) (h'.giveUp r) := by
  refine ht.deref_bind fun c hr => ?_
  have hlt : c.count < Word.limit := ht.left.count hr ▸ Memory.linkAt_lt ..
  simp only [ht.left.countAt_eq hr, ht.right.countAt_eq hr, ok_bind]
  by_cases hzero : c.count = 0
  · rw [if_pos hzero, if_pos hzero]
    exact Mirrored.pure_pure ⟨rfl, ht.after⟩
  · rw [if_neg hzero, if_neg hzero]
    refine (ht.setCountAt hr (Nat.lt_of_le_of_lt (Nat.sub_le ..) hlt)).bind ?_
    intro g g' _ _ ht'
    have hafter : TwinsAfter s g g' := ⟨_, ht', .set hr rfl⟩
    have hself : (s.set r { c with count := c.count - 1 }) r =
      some { c with count := c.count - 1 } := Store.set_self
    by_cases hone : 1 < c.count
    · rw [if_pos hone, if_pos hone]
      exact Mirrored.pure_pure ⟨rfl, hafter⟩
    · rw [if_neg hone, if_neg hone]
      have hkind := ht'.left.kindAt_eq hself
      have hkind' := ht'.right.kindAt_eq hself
      have hheld := ht'.left.children_eq hself
      have hheld' := ht'.right.children_eq hself
      simp only at hkind hkind' hheld hheld'
      rw [hkind, hkind', ok_bind, ok_bind, hheld, hheld']
      exact Mirrored.pure_pure ⟨rfl, hafter⟩

theorem discard (ht : Twins s h h') (r : Reference) :
    Mirrored (TwinsAfter s) (h.discard r) (h'.discard r) := by
  obtain ⟨free, hp⟩ := ht.joined.pools
  refine Mirrored.imp (R := Joined) (ht.deref_bind fun c hr => ?_) ?_
  · rw [ht.joined.table_eq]
    refine Mirrored.bind_eq rfl fun table hclear => ?_
    obtain ⟨-, hperm, -⟩ := Table.clear_eq (ht.left.get?_eq hr) hclear
    refine (hp.perm hperm.symm).free.bind fun p p' _ _ hp' => ?_
    exact Mirrored.pure_pure (ht.joined.with_table hp')
  · intro g g' hg hg' hj
    obtain ⟨c, hc, hs⟩ := ht.left.discard hg
    obtain ⟨-, -, hs'⟩ := ht.right.discard hg'
    exact ⟨_, ⟨hs, hs', hj⟩, .erase s r⟩

theorem arraySet (ht : Twins s h h') (r : Reference) (i : Nat) (v : Reference) :
    Mirrored (TwinsAfter s) (h.arraySet r i v) (h'.arraySet r i v) := by
  refine Mirrored.bind_eq (ht.slots_eq r) fun t hslots => ?_
  obtain ⟨c, xs, hr, hx, rfl⟩ := ht.left.slots_eq_ok.mp hslots
  by_cases hi : i < xs.length
  · simp only [hi, if_true]
    have hlater : s.Later (s.set r ⟨c.addr, c.count, .array (xs.set i v)⟩) :=
      .set hr (by rw [hx]; rfl)
    refine (ht.write hr (fun hs => stored_mirrored hs ..) fun hm hcount hn => ?_).imp
      fun _ _ _ _ ht' => ⟨_, ht', hlater⟩
    rw [hx] at hm
    rw [← hcount]
    exact hm.setSlot hi hn
  · simp only [hi, if_false]
    exact Mirrored.throw_throw _

theorem storeField (ht : Twins s h h') (hr : s r = some c) {offset n : Nat} {x : Content}
    (hrewrites : ∀ {m n' : Memory}, m.Holds c.addr c.content →
      m.store64 (c.addr + offset) n = .ok n' → m.Rewrites n' c.addr (m.linkAt c.addr) x) :
    Mirrored (Twins (s.set r { c with content := x })) (h.storeField r offset n)
      (h'.storeField r offset n) := by
  refine ht.deref_bind fun d hd => ?_
  rw [hr, Option.some_inj] at hd
  subst hd
  exact ht.write hr (fun hs => stored_mirrored hs ..) fun hm hcount hn =>
    hcount ▸ hrewrites hm hn

theorem storeReference (ht : Twins s h h') (hr : s r = some c) {offset : Nat} {v : Reference}
    {x : Content}
    (hrewrites : ∀ {m n' : Memory}, m.Holds c.addr c.content →
      m.storeInt32 (c.addr + offset) v.raw = .ok n' →
        m.Rewrites n' c.addr (m.linkAt c.addr) x) :
    Mirrored (Twins (s.set r { c with content := x })) (h.storeReference r offset v)
      (h'.storeReference r offset v) := by
  refine ht.deref_bind fun d hd => ?_
  rw [hr, Option.some_inj] at hd
  subst hd
  exact ht.write hr (fun hs => stored_mirrored hs ..) fun hm hcount hn =>
    hcount ▸ hrewrites hm hn

end Twins

namespace TwinsAfter

variable {s' : Store}

theorem next (ha : TwinsAfter s h h') {x y : Except Fault Heap}
    (hstep : ∀ s', Twins s' h h' → Mirrored (TwinsAfter s') x y) :
    Mirrored (TwinsAfter s) x y := by
  obtain ⟨s', ht, hl⟩ := ha
  refine (hstep s' ht).imp fun g g' _ _ hafter => ?_
  obtain ⟨s'', ht', hl'⟩ := hafter
  exact ⟨s'', ht', hl.trans hl'⟩

theorem retain (ha : TwinsAfter s h h') (r : Reference) :
    Mirrored (TwinsAfter s) (h.retain r) (h'.retain r) := ha.next fun _ ht => ht.retain r

theorem arraySet (ha : TwinsAfter s h h') (r : Reference) (i : Nat) (v : Reference) :
    Mirrored (TwinsAfter s) (h.arraySet r i v) (h'.arraySet r i v) :=
  ha.next fun _ ht => ht.arraySet r i v

theorem giveUp (ha : TwinsAfter s h h') (r : Reference) :
    Mirrored (fun p p' => p'.2 = p.2 ∧ TwinsAfter s p.1 p'.1) (h.giveUp r) (h'.giveUp r) := by
  obtain ⟨s', ht, hl⟩ := ha
  refine (ht.giveUp r).imp fun p p' _ _ hp => ?_
  obtain ⟨heq, s'', ht', hl'⟩ := hp
  exact ⟨heq, s'', ht', hl.trans hl'⟩

theorem discard (ha : TwinsAfter s h h') (r : Reference) :
    Mirrored (TwinsAfter s) (h.discard r) (h'.discard r) := ha.next fun _ ht => ht.discard r

section Tasks

variable {next : List Task → Heap → Except Fault Heap}

theorem runTasks (hnext : ∀ {tasks h h'}, TwinsAfter s h h' →
      Mirrored (TwinsAfter s) (next tasks h) (next tasks h'))
    (ha : TwinsAfter s h h') (tasks : List Task) :
    Mirrored (TwinsAfter s) (runTasks next tasks h) (runTasks next tasks h') := by
  induction tasks generalizing h h' with
  | nil => exact ha
  | cons task rest ih =>
    cases task with
    | discard r => exact (ha.discard r).bind fun _ _ _ _ ha' => ih ha'
    | release r =>
      refine (ha.giveUp r).bind ?_
      rintro ⟨g, _⟩ ⟨g', held⟩ - - ⟨rfl, ha'⟩
      cases held with
      | none => exact ih ha'
      | some held => exact hnext ha'

theorem releaseAll (ha : TwinsAfter s h h') (deaths : Nat) (tasks : List Task) :
    Mirrored (TwinsAfter s) (releaseAll deaths tasks h) (releaseAll deaths tasks h') := by
  induction deaths generalizing h h' tasks with
  | zero => exact runTasks (fun _ => Mirrored.throw_throw _) ha tasks
  | succ deaths ih =>
    show Mirrored _ (Heap.runTasks (Heap.releaseAll deaths) tasks h) _
    exact runTasks (fun {tasks _ _} ha' => ih ha' tasks) ha tasks

end Tasks

theorem release (ha : TwinsAfter s h h') (r : Reference) :
    Mirrored (TwinsAfter s) (h.release r) (h'.release r) := by
  have htable := ha.choose_spec.1.joined.table_eq
  rw [Heap.release, Heap.release, htable]
  exact ha.releaseAll _ _

theorem placeFrom (ha : TwinsAfter s h h') (values : Reference) (index : Nat)
    (elements : List Reference) :
    Mirrored (TwinsAfter s) (h.placeFrom values index elements)
      (h'.placeFrom values index elements) := by
  induction elements generalizing h h' index with
  | nil => exact ha
  | cons r rest ih =>
    refine (ha.retain r).bind fun g g' _ _ ha' => ?_
    exact (ha'.arraySet values index r).bind fun _ _ _ _ ha'' => ih ha'' (index + 1)

theorem arrayGet_eq (ha : TwinsAfter s h h') (r : Reference) (i : Nat) :
    h.arrayGet r i = h'.arrayGet r i := ha.choose_spec.1.arrayGet_eq r i

theorem moveFrom (ha : TwinsAfter s h h') (source dest : Reference) (index count : Nat) :
    Mirrored (TwinsAfter s) (h.moveFrom source dest index count)
      (h'.moveFrom source dest index count) := by
  induction count generalizing h h' index with
  | zero => exact ha
  | succ count ih =>
    refine Mirrored.bind_eq (ha.arrayGet_eq ..) fun v _ => ?_
    refine (ha.arraySet dest index v).bind fun g g' _ _ ha' => ?_
    exact (ha'.arraySet source index .null).bind fun _ _ _ _ ha'' => ih ha'' (index + 1)

theorem shiftFrom (ha : TwinsAfter s h h') (values : Reference) (index count : Nat) :
    Mirrored (TwinsAfter s) (h.shiftFrom values index count)
      (h'.shiftFrom values index count) := by
  induction count generalizing h h' index with
  | zero => exact ha
  | succ count ih =>
    refine Mirrored.bind_eq (ha.arrayGet_eq ..) fun v _ => ?_
    exact (ha.arraySet values index v).bind fun _ _ _ _ ha' => ih ha' (index + 1)

theorem store {k : Kind} {f : Heap → Except Fault Heap} (ha : TwinsAfter s h h')
    (hx : ∀ x, s.content r = some x → x.kind = k)
    (hdead : ∀ g e, g.deref r = .error e → f g = .error e)
    (hset : ∀ s' c, Twins s' h h' → s' r = some c → c.content.kind = k →
      ∃ x, x.kind = k ∧ Mirrored (Twins (s'.set r { c with content := x })) (f h) (f h')) :
    Mirrored (TwinsAfter s) (f h) (f h') := by
  obtain ⟨s', ht, hl⟩ := ha
  rcases ht.alike.cells (r := r) fun _ => trivial with ⟨e, he, he'⟩ | ⟨c, -, hc, -⟩
  · exact Mirrored.of_error (hdead h e he) (hdead h' e he')
  · obtain ⟨x, hr, hk⟩ := hl r c.content (Store.content_eq_some.mpr ⟨c, hc, rfl⟩)
    have hck := hk.symm.trans (hx x hr)
    obtain ⟨x', hk', hm⟩ := hset s' c ht hc hck
    exact hm.imp fun _ _ _ _ ht' => ⟨_, ht', hl.trans (.set hc (hck.trans hk'.symm))⟩

section Fields

variable {n : Nat} {v : Reference} (ha : TwinsAfter s h h')
include ha

theorem storeListSize (hx : ∀ x, s.content r = some x → x.kind = .list) (hn : n < Word.limit) :
    Mirrored (TwinsAfter s) (h.storeField r Layout.listSizeOffset n)
      (h'.storeField r Layout.listSizeOffset n) :=
  ha.store (f := (·.storeField r Layout.listSizeOffset n)) hx
    (fun g e he => by simp only [storeField, he, error_bind]) fun s' c ht hc hk => by
    obtain ⟨size, values, hlist⟩ := Content.list_of_kind hk
    exact ⟨_, rfl, ht.storeField hc fun hm hs => (hlist ▸ hm).setListSize hn hs⟩

theorem storeListValues (hx : ∀ x, s.content r = some x → x.kind = .list) :
    Mirrored (TwinsAfter s) (h.storeReference r Layout.listValuesOffset v)
      (h'.storeReference r Layout.listValuesOffset v) :=
  ha.store (f := (·.storeReference r Layout.listValuesOffset v)) hx
    (fun g e he => by simp only [storeReference, he, error_bind]) fun s' c ht hc hk => by
    obtain ⟨size, values, hlist⟩ := Content.list_of_kind hk
    exact ⟨_, rfl, ht.storeReference hc fun hm hs => (hlist ▸ hm).setListValues hs⟩

theorem storeDictSize (hx : ∀ x, s.content r = some x → x.kind = .dict) (hn : n < Word.limit) :
    Mirrored (TwinsAfter s) (h.storeField r Layout.dictSizeOffset n)
      (h'.storeField r Layout.dictSizeOffset n) :=
  ha.store (f := (·.storeField r Layout.dictSizeOffset n)) hx
    (fun g e he => by simp only [storeField, he, error_bind]) fun s' c ht hc hk => by
    obtain ⟨size, occupied, keys, values, hdict⟩ := Content.dict_of_kind hk
    exact ⟨_, rfl, ht.storeField hc fun hm hs => (hdict ▸ hm).setDictSize hn hs⟩

theorem storeDictOccupied (hx : ∀ x, s.content r = some x → x.kind = .dict)
    (hn : n < Word.limit) :
    Mirrored (TwinsAfter s) (h.storeField r Layout.dictOccupiedOffset n)
      (h'.storeField r Layout.dictOccupiedOffset n) :=
  ha.store (f := (·.storeField r Layout.dictOccupiedOffset n)) hx
    (fun g e he => by simp only [storeField, he, error_bind]) fun s' c ht hc hk => by
    obtain ⟨size, occupied, keys, values, hdict⟩ := Content.dict_of_kind hk
    exact ⟨_, rfl, ht.storeField hc fun hm hs => (hdict ▸ hm).setDictOccupied hn hs⟩

theorem storeDictKeys (hx : ∀ x, s.content r = some x → x.kind = .dict) :
    Mirrored (TwinsAfter s) (h.storeReference r Layout.dictKeysOffset v)
      (h'.storeReference r Layout.dictKeysOffset v) :=
  ha.store (f := (·.storeReference r Layout.dictKeysOffset v)) hx
    (fun g e he => by simp only [storeReference, he, error_bind]) fun s' c ht hc hk => by
    obtain ⟨size, occupied, keys, values, hdict⟩ := Content.dict_of_kind hk
    exact ⟨_, rfl, ht.storeReference hc fun hm hs => (hdict ▸ hm).setDictKeys hs⟩

theorem storeDictValues (hx : ∀ x, s.content r = some x → x.kind = .dict) :
    Mirrored (TwinsAfter s) (h.storeReference r Layout.dictValuesOffset v)
      (h'.storeReference r Layout.dictValuesOffset v) :=
  ha.store (f := (·.storeReference r Layout.dictValuesOffset v)) hx
    (fun g e he => by simp only [storeReference, he, error_bind]) fun s' c ht hc hk => by
    obtain ⟨size, occupied, keys, values, hdict⟩ := Content.dict_of_kind hk
    exact ⟨_, rfl, ht.storeReference hc fun hm hs => (hdict ▸ hm).setDictValues hs⟩

end Fields
end TwinsAfter
end CountedHeap.Heap
