import CountedHeap.Proofs.Twins

/-!
New values on both heaps. The block that is handed out is the same, and so is its reference; what
it held before, be it a pattern or the rest of a value that was freed, is nowhere read while its
fields are filled in.
-/

namespace CountedHeap.Heap

structure FreshTwins (s : Store) (r : Reference) (k : Kind) (size addr : Nat) (h h' : Heap) :
    Prop where
  left : h.Fresh s r k size addr
  right : h'.Fresh s r k size addr
  joined : h.Joined h'

structure MadeTwins (s : Store) (r : Reference) (x : Content) (h h' : Heap) : Prop where
  unused : s r = none
  live : r.isLive = true
  twins : ∃ addr, Twins (s.set r ⟨addr, 1, x⟩) h h'

variable {h h' : Heap} {s : Store} {r : Reference} {x : Content} {k : Kind} {size addr : Nat}

theorem Joined.made (hj : h.Joined h') (hm : h.Made s r x) (hm' : h'.Made s r x) :
    MadeTwins s r x h h' := by
  obtain ⟨addr, hs⟩ := hm.sound
  obtain ⟨addr', hs'⟩ := hm'.sound
  have hget := hs.get?_eq Store.set_self
  have hget' := hs'.get?_eq Store.set_self
  rw [hj.table_eq, hget, Option.some_inj] at hget'
  subst hget'
  exact ⟨hm.unused, hm.live, addr, hs, hs', hj⟩

theorem MadeTwins.after (hm : MadeTwins s r x h h') :
    ∃ s', TwinsAfter s' h h' ∧ s'.content r = some x ∧
      ∀ q y, s.content q = some y → s'.content q = some y := by
  obtain ⟨addr, ht⟩ := hm.twins
  exact ⟨_, ht.after, Store.content_set_self, fun _ _ => content_set_of_unused hm.unused⟩

theorem Joined.adopt (hj : h.Joined h') {p p' : Pool} {free : List Nat}
    (hp : p.Twins p' free (addr :: h.table.addresses)) (k : Kind) :
    Mirrored (fun x x' => x'.1 = x.1 ∧ x.2.Joined x'.2) (h.adopt k addr p)
      (h'.adopt k addr p') := by
  have hmem : addr ∈ addr :: h.table.addresses := List.mem_cons_self
  have hroom := (hp.laid.bounds (List.mem_append_right free hmem)).2.2.1
  refine Mirrored.bind_eq (hp.read_eq (by simp)).symm fun b _ => ?_
  split
  case isFalse => exact Mirrored.throw_throw _
  case isTrue =>
    refine (hp.headers.store addr 4 k.tag).bind fun m₁ m₁' h₁ _ hs₁ => ?_
    refine (hs₁.store (addr + Block.auxOffset) 4 0).bind fun m₂ m₂' h₂ _ hs₂ => ?_
    refine (hs₂.store (addr + Layout.countOffset) 8 1).bind fun m₃ m₃' h₃ _ hs₃ => ?_
    obtain ⟨hc, hsize⟩ := changedIn_of_stamp hroom h₁ h₂ h₃
    have hstamped := hp.write hmem hc hsize (hs₃.mono fun i hi => .inl (.inl (.inl hi)))
    refine (hstamped.writePattern hmem).bind fun q q' _ _ hq => ?_
    rw [hj.table_eq]
    refine Mirrored.bind_eq rfl fun a ha => ?_
    obtain ⟨-, -, -, hperm, -⟩ := Table.assign_eq (r := a.1) (u := a.2) ha
    exact Mirrored.pure_pure ⟨rfl, hj.with_table (hq.perm hperm.symm)⟩

theorem Twins.make (ht : Twins s h h') (k : Kind) (size : Nat) :
    (make k size).Mirrors h h' (fun r g g' => ∃ addr, FreshTwins s r k size addr g g')
      fun _ g g' => g = h ∧ g' = h' := by
  obtain ⟨free, hp⟩ := ht.joined.pools
  have hjoined : (Heap.make k size).Mirrors h h' (fun _ g g' => g.Joined g') fun _ _ _ => True := by
    by_cases hfree : k = .free
    · subst hfree
      exact Mirrored.throw_throw _
    · show Mirrored _ (if k = .free then throw Fault.freeKind else _) (if k = .free then _ else _)
      rw [if_neg hfree, if_neg hfree]
      refine (hp.alloc hp.headers size).bind fun a a' _ _ ha => ?_
      obtain ⟨e, rfl, rfl⟩ | ⟨⟨addr, p⟩, ⟨_, p'⟩, rfl, rfl, rfl, -, free', hp'⟩ := ha.ends
      · exact Mirrored.pure_pure ⟨rfl, trivial⟩
      · refine (ht.joined.adopt hp' k).bind fun x x' _ _ hx => ?_
        exact Mirrored.pure_pure ⟨congrArg Except.ok hx.1.symm, hx.2⟩
  refine (hjoined.and_ends (ht.left.make k size) (ht.right.make k size)).imp ?_ ?_
  · rintro r g g' ⟨hj, ⟨addr, hf⟩, addr', hf'⟩
    have heq : some addr = some addr' := by
      have hget := congrFun hf.table r
      have hget' := congrFun hf'.table r
      rw [Function.update_self] at hget hget'
      rw [← hget, ← hget', hj.table_eq]
    cases heq
    exact ⟨addr, hf, hf', hj⟩
  · exact fun _ _ _ hbad => hbad.2

theorem FreshTwins.fillIn (hf : FreshTwins s r k size addr h h')
    {f : Nat → Memory → Except Fault Memory}
    (hsame : ∀ {known}, h.pool.memory.Same h'.pool.memory known →
      Mirrored (fun n n' => n.Same n' known) (f addr h.pool.memory) (f addr h'.pool.memory))
    (hin : ∀ n, f addr h.pool.memory = .ok n → h.pool.memory.ChangedIn n addr (addr + size) ∧
      n.sizeAt addr = h.pool.memory.sizeAt addr) :
    (fillIn r f).Mirrors h h' (fun _ g g' => g.Joined g') fun _ _ _ => True := by
  obtain ⟨free, hp⟩ := hf.joined.pools
  have hget : h.table.get? r = some addr := by rw [hf.left.table, Function.update_self]
  refine Action.mirrors_update (Mirrored.bind_eq (hf.joined.deref_eq r) fun a ha => ?_)
  rw [hf.left.deref_eq ha]
  refine write_mirrored ((hsame hp.headers).imp fun n n' hn _ hs => ?_)
  obtain ⟨hc, hsize⟩ := hin n hn
  have hroom := hf.left.room
  exact hf.joined.with_memory (hp.write (Table.mem_addresses_of_get? hget)
    (hc.mono (Nat.le_refl _) (by omega)) hsize hs)

theorem changedIn_payload {m n : Memory} {hi : Nat} (hhi : hi ≤ size)
    (hc : m.ChangedIn n (addr + Block.headerSize) (addr + hi)) :
    m.ChangedIn n addr (addr + size) ∧ n.sizeAt addr = m.sizeAt addr :=
  ⟨hc.mono (by omega) (by omega), Memory.sizeAt_of_header (hc.header_eq (.inl (Nat.le_refl _)))⟩

theorem Twins.makeFilled (ht : Twins s h h') {f : Nat → Memory → Except Fault Memory}
    (hsame : ∀ {addr m m' known}, Memory.Same m m' known →
      Mirrored (fun n n' => n.Same n' known) (f addr m) (f addr m'))
    (hin : ∀ {addr m n}, f addr m = .ok n →
      m.ChangedIn n addr (addr + size) ∧ n.sizeAt addr = m.sizeAt addr) :
    (do let r ← Heap.make k size; Heap.fillIn r f; return r : Action OutOfMemory Reference).Mirrors
      h h' (fun _ g g' => g.Joined g') fun _ _ _ => True := by
  refine Action.mirrors_bind ((ht.make k size).imp ?_ fun _ _ _ _ => trivial)
  rintro r g g' ⟨addr, hf⟩
  refine Action.mirrors_bind ((hf.fillIn hsame fun _ => hin).imp ?_ fun _ _ _ hbad => hbad)
  exact fun _ _ _ hj => Action.mirrors_pure hj

theorem mirrors_made {y : Action OutOfMemory Reference}
    (hy : y.Mirrors h h' (fun _ g g' => g.Joined g') fun _ _ _ => True)
    (hl : y.Ends h (fun r g => g.Made s r x) fun _ g => g = h)
    (hr : y.Ends h' (fun r g => g.Made s r x) fun _ g => g = h') :
    y.Mirrors h h' (fun r g g' => MadeTwins s r x g g') fun _ g g' => g = h ∧ g' = h' :=
  (hy.and_ends hl hr).imp (fun _ _ _ hm => hm.1.made hm.2.1 hm.2.2) fun _ _ _ hbad => hbad.2

namespace Twins

variable (ht : Twins s h h')
include ht

theorem makeNone :
    makeNone.Mirrors h h' (fun r g g' => MadeTwins s r .none g g') fun _ g g' => g = h ∧ g' = h' :=
  mirrors_made ((ht.make .none Block.headerSize).imp (fun _ _ _ hf => hf.choose_spec.joined)
    fun _ _ _ _ => trivial) ht.left.makeNone ht.right.makeNone

theorem makeBool (b : Bool) :
    (makeBool b).Mirrors h h' (fun r g g' => MadeTwins s r (.bool b) g g')
      fun _ g g' => g = h ∧ g' = h' := by
  refine mirrors_made (ht.makeFilled (fun hs => stored_mirrored hs ..) fun {addr m n} hn => ?_)
    (ht.left.makeBool b) (ht.right.makeBool b)
  have hc := Memory.store_changedIn hn
  simp only [Block.auxOffset, Block.headerSize] at hc ⊢
  refine ⟨hc.mono (by omega) (by omega), ?_⟩
  unfold Memory.sizeAt
  exact hc.number_eq (by simp only [Block.sizeOffset]; omega)

theorem makeInteger (n : Int64) :
    (makeInteger n).Mirrors h h' (fun r g g' => MadeTwins s r (.integer n) g g')
      fun _ g g' => g = h ∧ g' = h' :=
  mirrors_made (ht.makeFilled (fun hs => stored_mirrored hs ..) fun hn =>
      changedIn_payload (Nat.le_refl Layout.integerSize) (Memory.store_changedIn hn))
    (ht.left.makeInteger n) (ht.right.makeInteger n)

theorem makeString (bytes : List UInt8) :
    (makeString bytes).Mirrors h h' (fun r g g' => MadeTwins s r (.string bytes) g g')
      fun _ g g' => g = h ∧ g' = h' := by
  refine mirrors_made ?_ (ht.left.makeString bytes) (ht.right.makeString bytes)
  unfold Heap.makeString
  split
  · exact Action.mirrors_fault
  · refine Action.lift_bind fun size hsize => ?_
    obtain ⟨-, rfl⟩ := Layout.stringSize_eq_ok.mp hsize
    refine ht.makeFilled (fun hs => hs.put ..) fun {addr m n} hn => ?_
    have hc := Memory.put_changedIn hn
    rw [List.length_append, List.length_singleton, Nat.add_assoc, ← Nat.add_assoc _ bytes.length]
      at hc
    exact changedIn_payload (Nat.le_refl _) hc

end Twins

theorem emptySlots_mirrored {m m' : Memory} {known : Nat → Prop} (hs : m.Same m' known)
    (addr count : Nat) :
    Mirrored (fun n n' => n.Same n' known) (emptySlots m addr count) (emptySlots m' addr count) := by
  induction count generalizing m m' addr with
  | zero => exact hs
  | succ count ih => exact (stored_mirrored hs ..).bind fun _ _ _ _ hs' => ih hs' (addr + 4)

namespace Twins

variable (ht : Twins s h h')
include ht

theorem makeArray (capacity : Nat) :
    (makeArray capacity).Mirrors h h'
      (fun r g g' => MadeTwins s r (.array (.replicate capacity .null)) g g')
      fun _ g g' => g = h ∧ g' = h' := by
  refine mirrors_made (Action.lift_bind fun size hsize => ?_) (ht.left.makeArray capacity)
    (ht.right.makeArray capacity)
  obtain ⟨-, rfl⟩ := Layout.arraySize_eq_ok.mp hsize
  refine ht.makeFilled (fun hs => ?_) fun {addr m n} hn => ?_
  · exact (stored_mirrored hs ..).bind fun _ _ _ _ hs' => emptySlots_mirrored hs' ..
  · obtain ⟨m₁, hstore, hempty⟩ := bind_eq_ok.mp hn
    exact changedIn_payload (Nat.le_refl _) (changedIn_of_array hstore hempty)

theorem checkArray_bind {y : Action OutOfMemory Reference} (r : Reference)
    {good : Reference → Heap → Heap → Prop} {bad : OutOfMemory → Heap → Heap → Prop}
    (hy : y.Mirrors h h' good bad) :
    (checkArray r >>= fun _ => y).Mirrors h h' good bad := by
  refine Action.read_bind ?_ fun _ _ => hy
  rw [ht.kindOf_eq]

theorem makeList (values : Reference) :
    (makeList values).Mirrors h h' (fun r g g' => MadeTwins s r (.list 0 values) g g')
      fun _ g g' => g = h ∧ g' = h' := by
  refine mirrors_made (ht.checkArray_bind values ?_)
    ((ht.left.makeList values).imp (fun _ _ hm => hm.2) fun _ _ he => he)
    ((ht.right.makeList values).imp (fun _ _ hm => hm.2) fun _ _ he => he)
  refine ht.makeFilled (fun hs => ?_) fun {addr m n} hn => ?_
  · exact (stored_mirrored hs ..).bind fun _ _ _ _ hs' => stored_mirrored hs' ..
  · obtain ⟨m₁, hsize, hvalues⟩ := bind_eq_ok.mp hn
    exact changedIn_payload (Nat.le_refl Layout.listSize) (changedIn_of_list hsize hvalues)

theorem makeDict (keys values : Reference) :
    (makeDict keys values).Mirrors h h' (fun r g g' => MadeTwins s r (.dict 0 0 keys values) g g')
      fun _ g g' => g = h ∧ g' = h' := by
  refine mirrors_made (ht.checkArray_bind keys (ht.checkArray_bind values ?_))
    ((ht.left.makeDict keys values).imp (fun _ _ hm => hm.2) fun _ _ he => he)
    ((ht.right.makeDict keys values).imp (fun _ _ hm => hm.2) fun _ _ he => he)
  refine Action.read_bind (ht.arrayCapacity_eq keys) fun keyRoom _ => ?_
  refine Action.read_bind (ht.arrayCapacity_eq values) fun valueRoom _ => ?_
  split
  case isFalse => exact Action.mirrors_fault
  case isTrue =>
    refine ht.makeFilled (fun hs => ?_) fun {addr m n} hn => ?_
    · refine (stored_mirrored hs ..).bind fun _ _ _ _ hs₁ => ?_
      refine (stored_mirrored hs₁ ..).bind fun _ _ _ _ hs₂ => ?_
      exact (stored_mirrored hs₂ ..).bind fun _ _ _ _ hs₃ => stored_mirrored hs₃ ..
    · simp only [bind_eq_ok] at hn
      obtain ⟨m₁, hsize, m₂, hoccupied, m₃, hkeys, hvalues⟩ := hn
      exact changedIn_payload (Nat.le_refl Layout.dictSize)
        (changedIn_of_dict hsize hoccupied hkeys hvalues)

end Twins

theorem FreshTwins.same_string (hf : FreshTwins s r k size addr h h') {q : Reference} {c : Cell}
    {bytes : List UInt8} (hq : s q = some c) (hx : c.content = .string bytes) :
    h.pool.memory.Same h'.pool.memory fun i => c.addr + Layout.stringOffset ≤ i ∧
      i < c.addr + Layout.stringOffset + bytes.length := by
  obtain ⟨free, hp⟩ := hf.joined.pools
  have hl := (hf.left.holds hq).fields
  have hr := (hf.right.holds hq).fields
  rw [hx] at hl hr
  exact .of_bytesFrom hp.headers.size_eq
    ((bytesFrom_of_string hr).trans (bytesFrom_of_string hl).symm)

theorem Twins.makeConcatenation (ht : Twins s h h') (left right : Reference) :
    (makeConcatenation left right).Mirrors h h' (fun r g g' => ∃ x, MadeTwins s r x g g')
      fun _ g g' => g = h ∧ g' = h' := by
  have hjoined : (Heap.makeConcatenation left right).Mirrors h h' (fun _ g g' => g.Joined g')
      fun _ _ _ => True := by
    refine Action.read_bind (ht.alike.stringBytes_eq fun _ => trivial) fun x hx => ?_
    refine Action.read_bind (ht.alike.stringBytes_eq fun _ => trivial) fun y hy => ?_
    refine Action.lift_bind fun size hsize => ?_
    obtain ⟨-, rfl⟩ := Layout.stringSize_eq_ok.mp hsize
    refine Action.mirrors_bind ((ht.make .string _).imp ?_ fun _ _ _ _ => trivial)
    rintro r g g' ⟨addr, hf⟩
    refine Action.read_bind (hf.joined.deref_eq left) fun leftAddr hleft => ?_
    refine Action.read_bind (hf.joined.deref_eq right) fun rightAddr hright => ?_
    obtain ⟨c, hc, hxc⟩ := Store.content_eq_some.mp (ht.left.stringBytes_eq_ok.mp hx)
    obtain ⟨d, hd, hyd⟩ := Store.content_eq_some.mp (ht.left.stringBytes_eq_ok.mp hy)
    obtain rfl := hf.left.deref_old hc hleft
    obtain rfl := hf.left.deref_old hd hright
    refine Action.mirrors_bind ((hf.fillIn (fun {known} hs => ?_) fun n hn => ?_).imp ?_ ?_)
    · have hknown := (hs.or (hf.same_string hc hxc)).or (hf.same_string hd hyd)
      refine (hknown.copy _ fun i hlo hhi => ?_).bind fun m₁ m₁' _ _ h₁ => ?_
      · exact .inl (.inr ⟨hlo, hhi⟩)
      · refine (h₁.copy _ fun i hlo hhi => .inr ⟨hlo, hhi⟩).bind fun m₂ m₂' _ _ h₂ => ?_
        exact (h₂.put ..).imp fun _ _ _ _ h₃ => h₃.mono fun i hi => .inl (.inl hi)
    · have hcf := (hf.left.holds hc).fields
      have hdf := (hf.left.holds hd).fields
      have hdr := (hf.left.holds hd).room
      have hap := hf.left.apart hd
      have hroom := hf.left.room
      rw [hxc] at hcf
      rw [hyd] at hdf hdr
      simp only [Content.room] at hdr
      simp only [bind_eq_ok] at hn
      obtain ⟨m₁, h₁, m₂, h₂, h₃⟩ := hn
      have hch := (fields_of_copies hcf hdf (by omega) h₁ h₂ h₃).1
      rw [List.length_append] at hch
      exact changedIn_payload (Nat.le_refl _) hch
    · exact fun _ _ _ hj => Action.mirrors_pure hj
    · exact fun _ _ _ hbad => hbad
  refine (hjoined.and_ends (ht.left.makeConcatenation left right)
    (ht.right.makeConcatenation left right)).imp ?_ fun _ _ _ hbad => hbad.2
  rintro r g g' ⟨hj, ⟨x, y, hx, hy, hm⟩, x', y', hx', hy', hm'⟩
  rw [hx] at hx'
  rw [hy] at hy'
  cases hx'
  cases hy'
  exact ⟨_, hj.made hm hm'⟩

end CountedHeap.Heap
