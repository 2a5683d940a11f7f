import CountedHeap.Proofs.Hashing
import CountedHeap.Proofs.Operations
import Mathlib.Logic.Relation

/-!
Paths. What an operation does to a heap is a path of steps, of which each concerns one reference:
it changes a count, writes to a field or a slot, makes a value or takes one away. A value that a
path must not disturb is not written to, and while new values are made it is still there, so no
other value comes to stand in its place.
-/

namespace CountedHeap

def Kind.fields : Kind → List (Nat × Nat)
  | .list => [(Layout.listSizeOffset, 8), (Layout.listValuesOffset, 4)]
  | .dict => [(Layout.dictSizeOffset, 8), (Layout.dictOccupiedOffset, 8),
      (Layout.dictKeysOffset, 4), (Layout.dictValuesOffset, 4)]
  | _ => []

def Kind.isConstant : Kind → Bool
  | .none | .bool => true
  | _ => false

namespace Memory.Holds

variable {m n : Memory} {addr offset value : Nat} {x : Content}

theorem setField (h : m.Holds addr x) (hfield : (offset, 8) ∈ x.kind.fields)
    (hvalue : value < Word.limit) (hstore : m.store64 (addr + offset) value = .ok n) :
    ∃ y : Content, y.kind = x.kind ∧ m.Rewrites n addr (m.linkAt addr) y := by
  cases x with
  | list size values =>
    obtain rfl : offset = Layout.listSizeOffset := by simpa [Kind.fields, Content.kind] using hfield
    exact ⟨.list value values, rfl, h.setListSize hvalue hstore⟩
  | dict size occupied keys values =>
    have hoffset : offset = Layout.dictSizeOffset ∨ offset = Layout.dictOccupiedOffset := by
      simpa [Kind.fields, Content.kind] using hfield
    rcases hoffset with rfl | rfl
    · exact ⟨.dict value occupied keys values, rfl, h.setDictSize hvalue hstore⟩
    · exact ⟨.dict size value keys values, rfl, h.setDictOccupied hvalue hstore⟩
  | _ => exact absurd hfield List.not_mem_nil

theorem setReference {r : Reference} (h : m.Holds addr x) (hfield : (offset, 4) ∈ x.kind.fields)
    (hstore : m.storeInt32 (addr + offset) r.raw = .ok n) :
    ∃ y : Content, y.kind = x.kind ∧ m.Rewrites n addr (m.linkAt addr) y := by
  cases x with
  | list size values =>
    obtain rfl : offset = Layout.listValuesOffset := by
      simpa [Kind.fields, Content.kind] using hfield
    exact ⟨.list size r, rfl, h.setListValues hstore⟩
  | dict size occupied keys values =>
    have hoffset : offset = Layout.dictKeysOffset ∨ offset = Layout.dictValuesOffset := by
      simpa [Kind.fields, Content.kind] using hfield
    rcases hoffset with rfl | rfl
    · exact ⟨.dict size occupied r values, rfl, h.setDictKeys hstore⟩
    · exact ⟨.dict size occupied keys r, rfl, h.setDictValues hstore⟩
  | _ => exact absurd hfield List.not_mem_nil

end Memory.Holds

namespace Heap

def blockSize (h : Heap) (r : Reference) : Except Fault Nat := do
  return (← h.block (← h.deref r)).size

/-- A value of the same kind lies at the same address, in a block of the same size. -/
structure Placed (h h' : Heap) (r : Reference) : Prop where
  deref : h'.deref r = h.deref r
  blockSize : h'.blockSize r = h.blockSize r
  kindOf : h'.kindOf r = h.kindOf r

/-- The value is the same, and so is what stands in each slot of an array. -/
structure Intact (h h' : Heap) (r : Reference) : Prop extends Placed h h' r where
  value : h'.value r = h.value r
  arrayGet : ∀ i, h'.arrayGet r i = h.arrayGet r i

/-- The actions that make one value. None and the truth values may be excluded from them. -/
inductive Creates (consts : Prop) : Action OutOfMemory Reference → Prop
  | none (h : consts) : Creates consts makeNone
  | bool (h : consts) (b : Bool) : Creates consts (makeBool b)
  | integer (n : Int64) : Creates consts (makeInteger n)
  | string (bytes : List UInt8) : Creates consts (makeString bytes)
  | concatenation (left right : Reference) : Creates consts (makeConcatenation left right)
  | array (capacity : Nat) : Creates consts (makeArray capacity)
  | list (values : Reference) : Creates consts (makeList values)
  | dict (keys values : Reference) : Creates consts (makeDict keys values)

/-- What steps keep to. The references that are `fixed` keep their values, and of those only the
ones that are `edited` are written to; None and the truth values are made only where `consts`
says so. -/
structure Scope where
  fixed : Reference → Prop
  edited : Reference → Prop
  consts : Prop

/-- One step. A value is taken away when its count is zero. -/
inductive Step (sc : Scope) (h h' : Heap) : Prop
  | retain {r : Reference} (hret : h.retain r = .ok h')
  | giveUp {r : Reference} {held : Option (List Reference)} (hgive : h.giveUp r = .ok (h', held))
  | discard {r : Reference} (hzero : h.refcount r = .ok 0) (hdiscard : h.discard r = .ok h')
  | arraySet {r v : Reference} {i : Nat} (hr : sc.fixed r → sc.edited r)
      (hset : h.arraySet r i v = .ok h')
  | storeField {r : Reference} {k : Kind} {offset n : Nat} (hr : sc.fixed r → sc.edited r)
      (hk : h.kindOf r = .ok k) (hfield : (offset, 8) ∈ k.fields) (hn : n < Word.limit)
      (hset : h.storeField r offset n = .ok h')
  | storeReference {r v : Reference} {k : Kind} {offset : Nat} (hr : sc.fixed r → sc.edited r)
      (hk : h.kindOf r = .ok k) (hfield : (offset, 4) ∈ k.fields)
      (hset : h.storeReference r offset v = .ok h')
  | create {x : Action OutOfMemory Reference} {r : Reference} (hx : Creates sc.consts x)
      (hfixed : ∀ q, sc.fixed q → h.Occupied q) (hrun : x.runOn h = .ok (.ok r, h'))

theorem Creates.mono {consts consts' : Prop} {x : Action OutOfMemory Reference}
    (hx : Creates consts x) (h : consts → consts') : Creates consts' x := by
  cases hx with
  | none hconsts => exact .none (h hconsts)
  | bool hconsts b => exact .bool (h hconsts) b
  | integer n => exact .integer n
  | string bytes => exact .string bytes
  | concatenation left right => exact .concatenation left right
  | array capacity => exact .array capacity
  | list values => exact .list values
  | dict keys values => exact .dict keys values

theorem Step.rescope {sc sc' : Scope} {h h' : Heap} (hstep : Step sc h h')
    (hedited : ∀ q, sc'.fixed q → sc'.edited q) (hfixed : ∀ q, sc'.fixed q → h.Occupied q)
    (hconsts : sc.consts → sc'.consts) : Step sc' h h' := by
  cases hstep with
  | retain hret => exact .retain hret
  | giveUp hgive => exact .giveUp hgive
  | discard hzero hdiscard => exact .discard hzero hdiscard
  | arraySet _ hset => exact .arraySet (hedited _) hset
  | storeField _ hk hfield hn hset => exact .storeField (hedited _) hk hfield hn hset
  | storeReference _ hk hfield hset => exact .storeReference (hedited _) hk hfield hset
  | create hx _ hrun => exact .create (hx.mono hconsts) hfixed hrun

abbrev Path (sc : Scope) : Heap → Heap → Prop :=
  Relation.ReflTransGen (Step sc)

structure Steady (sc : Scope) (h : Heap) (s : Store) (h' : Heap) (s' : Store) :
    Prop where
  sound : h'.Sound s'
  addr : ∀ {q d}, sc.fixed q → s' q = some d → ∃ c, s q = some c ∧ d.addr = c.addr ∧
    h'.pool.memory.sizeAt d.addr = h.pool.memory.sizeAt c.addr ∧
      d.content.kind = c.content.kind ∧
        (¬sc.edited q ∨ c.content.hash? ≠ none → d.content = c.content)

variable {h h' : Heap} {s s' : Store} {r q v : Reference} {c : Cell}
  {sc : Scope}

section Rewriting

variable {n : Memory} {count : Nat} {x : Content}

theorem Sound.steady_rewrite (hs : h.Sound s) (hr : s r = some c)
    (hn : h.pool.memory.Rewrites n c.addr count x) (hkind : x.kind = c.content.kind)
    (hx : sc.fixed r → ¬sc.edited r ∨ c.content.hash? ≠ none → x = c.content) :
    Steady sc h s { h with pool := { h.pool with memory := n } }
      (s.set r ⟨c.addr, count, x⟩) := by
  refine ⟨hs.rewrite hr hn, fun {q d} hq hd => ?_⟩
  rcases Store.set_eq_some.mp hd with ⟨rfl, rfl⟩ | ⟨hne, hd⟩
  · exact ⟨c, hr, rfl, hn.size_eq, hkind, hx hq⟩
  · refine ⟨d, hd, rfl, ?_, rfl, fun _ => rfl⟩
    have hap := hs.apart hr hd (Ne.symm hne)
    exact Memory.sizeAt_of_header ((hs.holds hd).header_congr fun i hlo hhi =>
      hn.changed.byte_eq i (by omega))

theorem Stored.setCountAt_rewrites (hs : h.Stored s) (hr : s r = some c)
    (hcount : count < Word.limit) (hset : h.setCountAt c.addr count = .ok h') :
    ∃ n, { h with pool := { h.pool with memory := n } } = h' ∧
      h.pool.memory.Rewrites n c.addr count c.content := by
  obtain ⟨n, hstore, rfl⟩ := write_eq_ok.mp hset
  exact ⟨n, rfl, (hs.holds hr).setCount hcount hstore⟩

theorem Stored.arraySet_rewrites (hs : h.Stored s) {i : Nat} (hset : h.arraySet r i v = .ok h') :
    ∃ c xs n, s r = some c ∧ c.content = .array xs ∧
      { h with pool := { h.pool with memory := n } } = h' ∧
        h.pool.memory.Rewrites n c.addr c.count (.array (xs.set i v)) := by
  simp only [Heap.arraySet, bind_eq_ok, hs.slots_eq_ok, throw_bind, guard_eq_ok, write_eq_ok]
    at hset
  obtain ⟨_, ⟨c, xs, hr, hx, rfl⟩, hlt, n, hstore, rfl⟩ := hset
  refine ⟨c, xs, n, hr, hx, rfl, ?_⟩
  rw [← hs.count hr]
  exact (hs.holds_of hr hx).setSlot hlt hstore

theorem Stored.storeField_rewrites (hs : h.Stored s) {k : Kind} {offset m : Nat}
    (hk : h.kindOf r = .ok k) (hfield : (offset, 8) ∈ k.fields) (hm : m < Word.limit)
    (hset : h.storeField r offset m = .ok h') :
    ∃ c x n, s r = some c ∧ x.kind = c.content.kind ∧
      { h with pool := { h.pool with memory := n } } = h' ∧
        h.pool.memory.Rewrites n c.addr c.count x := by
  obtain ⟨y, hy, rfl⟩ := hs.kindOf_eq_ok.mp hk
  obtain ⟨c, hr, rfl⟩ := Store.content_eq_some.mp hy
  simp only [Heap.storeField, hs.deref_eq hr, ok_bind, write_eq_ok] at hset
  obtain ⟨n, hstore, rfl⟩ := hset
  obtain ⟨x, hkind, hn⟩ := (hs.holds hr).setField hfield hm hstore
  exact ⟨c, x, n, hr, hkind, rfl, hs.count hr ▸ hn⟩

theorem Stored.storeReference_rewrites (hs : h.Stored s) {k : Kind} {offset : Nat}
    (hk : h.kindOf r = .ok k) (hfield : (offset, 4) ∈ k.fields)
    (hset : h.storeReference r offset v = .ok h') :
    ∃ c x n, s r = some c ∧ x.kind = c.content.kind ∧
      { h with pool := { h.pool with memory := n } } = h' ∧
        h.pool.memory.Rewrites n c.addr c.count x := by
  obtain ⟨y, hy, rfl⟩ := hs.kindOf_eq_ok.mp hk
  obtain ⟨c, hr, rfl⟩ := Store.content_eq_some.mp hy
  simp only [Heap.storeReference, hs.deref_eq hr, ok_bind, write_eq_ok] at hset
  obtain ⟨n, hstore, rfl⟩ := hset
  obtain ⟨x, hkind, hn⟩ := (hs.holds hr).setReference hfield hstore
  exact ⟨c, x, n, hr, hkind, rfl, hs.count hr ▸ hn⟩

theorem Stored.hash?_of_fields (hs : h.Stored s) (hr : s r = some c) {k : Kind} {field : Nat × Nat}
    (hk : h.kindOf r = .ok k) (hfield : field ∈ k.fields) : c.content.hash? = none := by
  rw [hs.kindOf_eq hr, Except.ok.injEq] at hk
  subst hk
  cases hx : c.content with
  | list | dict => rfl
  | _ =>
    rw [hx] at hfield
    cases hfield

end Rewriting

theorem Steady.refl (hs : h.Sound s) : Steady sc h s h s :=
  ⟨hs, fun _ hd => ⟨_, hd, rfl, rfl, rfl, fun _ => rfl⟩⟩

theorem Steady.trans {h'' : Heap} {s'' : Store} (h₁ : Steady sc h s h' s')
    (h₂ : Steady sc h' s' h'' s'') : Steady sc h s h'' s'' := by
  refine ⟨h₂.sound, fun hq hd => ?_⟩
  obtain ⟨c, hc, haddr, hsize, hkind, hcontent⟩ := h₂.addr hq hd
  obtain ⟨b, hb, haddr', hsize', hkind', hcontent'⟩ := h₁.addr hq hc
  refine ⟨b, hb, haddr.trans haddr', hsize.trans hsize', hkind.trans hkind', fun he => ?_⟩
  have hback := hcontent' he
  exact (hcontent (hback ▸ he)).trans hback

theorem Sound.steady_discard (hs : h.Sound s) (hdiscard : h.discard r = .ok h') :
    Steady sc h s h' (s.erase r) := by
  obtain ⟨c, hr, hs'⟩ := hs.discard hdiscard
  refine ⟨hs', fun {q d} _ hd => ?_⟩
  obtain ⟨hne, hd⟩ := Store.erase_eq_some.mp hd
  refine ⟨d, hd, rfl, ?_, rfl, fun _ => rfl⟩
  simp only [Heap.discard, hs.deref_eq hr, ok_bind, bind_eq_ok, pure_eq_ok] at hdiscard
  obtain ⟨table, hclear, pool, hfree, rfl⟩ := hdiscard
  obtain ⟨free, hl⟩ := hs.laid
  obtain ⟨-, hperm, -⟩ := Table.clear_eq (hs.get?_eq hr) hclear
  obtain ⟨-, -, -, hc, -⟩ := (hl.perm hperm.symm).free hfree
  have hap := hs.apart hr hd (Ne.symm hne)
  exact Memory.sizeAt_of_header ((hs.holds hd).header_congr fun i hlo hhi =>
    hc.byte_eq i (by omega))

section Creating

variable {h₁ : Heap} {k : Kind} {size addr : Nat} {n : Memory} {x : Action OutOfMemory Reference}

structure Allotted (h : Heap) (s : Store) (size : Nat) (r : Reference) (h' : Heap) : Prop where
  config : h'.config = h.config
  stats : h'.stats = h.stats
  sizes : ∀ {q d}, s q = some d → h'.pool.memory.sizeAt d.addr = h.pool.memory.sizeAt d.addr
  block : ∃ addr free free' n, h'.table.get? r = some addr ∧ addr ∈ free ∧
    h.pool.Laid free h.table.addresses ∧ h'.pool.Laid free' (addr :: h.table.addresses) ∧
      h'.table.addresses.Perm (addr :: h.table.addresses) ∧ Pool.requestSize size = .ok n ∧
        Pool.Spent free free' n (h'.pool.memory.sizeAt addr) ∧
          Pool.Leaves h.pool.memory h'.pool.memory free free'

theorem Sound.make_allotted (hs : h.Sound s) (k : Kind) (size : Nat) :
    (Heap.make k size).Ends h
      (fun r h' => ∃ addr, h'.Fresh s r k size addr ∧ Allotted h s size r h') fun _ _ => True := by
  intro a h' hrun
  have hmake := hs.make k size a h' hrun
  cases a with
  | error e => trivial
  | ok r =>
    obtain ⟨addr, hf⟩ := hmake
    simp only [Heap.make, Action.runOn, ExceptT.run, ExceptT.mk, throw_bind, guard_not_eq_ok,
      bind_eq_ok] at hrun
    obtain ⟨-, e, halloc, hrun⟩ := hrun
    obtain ⟨free, hl⟩ := hs.laid
    cases e with
    | error e => cases hrun
    | ok e =>
      obtain ⟨addr', p⟩ := e
      simp only [bind_eq_ok, pure_eq_ok, Prod.mk.injEq, Prod.exists, Except.ok.injEq] at hrun
      obtain ⟨r', h'', hadopt, rfl, rfl⟩ := hrun
      obtain ⟨free', hl', hfree, -, -, ⟨n, hn, hspent, -⟩, -, -, hc, hleaves⟩ := hl.alloc halloc
      have hab := hl'.bounds (a := addr') (by simp)
      obtain ⟨m, table, hassign, rfl, hcm, hsize, -⟩ := adopt_eq hab.2.2.1 hadopt
      obtain ⟨-, -, hget, hperm, -⟩ := Table.assign_eq hassign
      have hself : table.get? r' = some addr' := by rw [hget, Function.update_self]
      have hother : ∀ b ∈ free' ++ addr' :: h.table.addresses, m.sizeAt b = p.memory.sizeAt b :=
        fun b hb => hl'.sizeAt_write (by simp) hcm hsize hb
      refine ⟨addr, hf, rfl, rfl, fun {q d} hd => ?_, addr', free, free', n, hself, hfree, hl,
        hl'.write List.mem_cons_self hcm hsize, hperm, hn, by rwa [hsize], fun b hb => ?_⟩
      · have hmem := Table.mem_addresses_of_get? (hs.get?_eq hd)
        refine (hother d.addr (by simp [hmem])).trans (Memory.sizeAt_of_header ?_)
        exact (hs.holds hd).header_congr fun i hlo hhi => hl.byte_eq hmem hc hlo hhi
      · rw [hother b (List.mem_append_left _ hb)]
        exact hleaves b hb

theorem Allotted.fill (ha : Allotted h s size r h₁) (hf : h₁.Fresh s r k size addr)
    (hc : h₁.pool.memory.ChangedIn n addr (addr + size))
    (hsize : n.sizeAt addr = h₁.pool.memory.sizeAt addr) :
    Allotted h s size r { h₁ with pool := { h₁.pool with memory := n } } := by
  obtain ⟨b, free, free', m, hget, hfree, hl, hl', hperm, hm, hspent, hleaves⟩ := ha.block
  obtain rfl : b = addr := by
    rw [hf.table, Function.update_self, Option.some_inj] at hget
    exact hget.symm
  have hroom := hf.room
  have hc' := hc.mono (Nat.le_refl _) (Nat.add_le_add_left hroom b)
  refine ⟨ha.config, ha.stats, fun {q d} hd => ?_, b, free, free', m, hget, hfree, hl,
    hl'.write List.mem_cons_self hc' hsize, hperm, hm, hsize.symm ▸ hspent, fun a ha => ?_⟩
  · have hap := hf.apart hd
    rw [← ha.sizes hd]
    exact Memory.sizeAt_of_header ((hf.holds hd).header_congr fun i hlo hhi =>
      hc.byte_eq i (by omega))
  · rw [hl'.sizeAt_write (by simp) hc' hsize (List.mem_append_left _ ha)]
    exact hleaves a ha

theorem Fresh.fillIn_allotted (hf : h₁.Fresh s r k size addr) (ha : Allotted h s size r h₁)
    {f : Nat → Memory → Except Fault Memory}
    (hfill : ∀ n, f addr h₁.pool.memory = .ok n →
      h₁.pool.memory.ChangedIn n (addr + Block.headerSize) (addr + size)) :
    (Heap.fillIn r f).Ends h₁ (fun _ h' => Allotted h s size r h') fun _ _ => True := by
  simp only [Heap.fillIn, Action.ends_update, bind_eq_ok, write_eq_ok]
  rintro h' ⟨a, hd, n, hn, rfl⟩
  rw [hf.deref_eq hd] at hn
  have hc := hfill n hn
  refine ha.fill hf (hc.mono (by omega) (Nat.le_refl _)) ?_
  unfold Memory.sizeAt
  exact hc.number_eq (by simp only [Block.sizeOffset, Block.headerSize]; omega)

theorem Sound.makeNone_allotted (hs : h.Sound s) :
    Heap.makeNone.Ends h (fun r h' => Allotted h s Block.headerSize r h') fun _ _ => True :=
  (hs.make_allotted _ _).imp (fun _ _ ⟨_, _, ha⟩ => ha) fun _ _ _ => trivial

theorem Sound.makeBool_allotted (hs : h.Sound s) (b : Bool) :
    (Heap.makeBool b).Ends h (fun r h' => Allotted h s Block.headerSize r h') fun _ _ => True := by
  simp only [Heap.makeBool, Action.ends_bind, Action.ends_pure]
  refine (hs.make_allotted _ _).imp ?_ fun _ _ _ => trivial
  rintro r h₁ ⟨addr, hf, ha⟩
  simp only [Heap.fillIn, Action.ends_update, bind_eq_ok, write_eq_ok]
  rintro h' ⟨a, hd, n, hn, rfl⟩
  rw [hf.deref_eq hd] at hn
  have hc := Memory.store_changedIn hn
  simp only [Block.auxOffset] at hc
  refine ha.fill hf (hc.mono (by omega) (by simp only [Block.headerSize]; omega)) ?_
  unfold Memory.sizeAt
  exact hc.number_eq (by simp only [Block.sizeOffset]; omega)

theorem Creates.allotted (hx : Creates sc.consts x) (hs : h.Sound s) :
    x.Ends h (fun r h' => ∃ size, Allotted h s size r h') fun _ _ => True := by
  have hmake {k : Kind} {size : Nat} {f : Nat → Memory → Except Fault Memory}
      (hfill : ∀ {m n addr}, f addr m = .ok n →
        m.ChangedIn n (addr + Block.headerSize) (addr + size)) :
      (do let r ← make k size; fillIn r f; return r : Action OutOfMemory Reference).Ends h
        (fun r h' => ∃ size, Allotted h s size r h') fun _ _ => True := by
    simp only [Action.ends_bind, Action.ends_pure]
    refine (hs.make_allotted k size).imp ?_ fun _ _ _ => trivial
    rintro r h' ⟨addr, hf, ha⟩
    exact (hf.fillIn_allotted ha fun n hn => hfill hn).imp (fun _ _ ha => ⟨_, ha⟩)
      fun _ _ _ => trivial
  cases hx with
  | none => exact hs.makeNone_allotted.imp (fun _ _ ha => ⟨_, ha⟩) fun _ _ _ => trivial
  | bool _ b => exact (hs.makeBool_allotted b).imp (fun _ _ ha => ⟨_, ha⟩) fun _ _ _ => trivial
  | integer n =>
    refine hmake fun hn => (Memory.store_changedIn hn).mono ?_ ?_
    · simp only [Layout.integerOffset, Block.headerSize]
      omega
    · simp only [Layout.integerOffset, Layout.integerSize, Block.headerSize]
      omega
  | string bytes =>
    simp only [makeString, Action.ends_bind, Action.ends_ite, Action.ends_fault,
      Action.ends_liftM, Layout.stringSize_eq_ok]
    refine ⟨fun _ => trivial, fun _ size hsize => ?_⟩
    obtain ⟨-, rfl⟩ := hsize
    simp only [← Action.ends_bind]
    refine hmake fun hn => (Memory.put_changedIn hn).mono ?_ ?_
    · simp only [Layout.stringOffset, Block.headerSize]
      omega
    · rw [List.length_append, List.length_singleton]
      omega
  | concatenation left right =>
    simp only [makeConcatenation, Action.ends_bind, Action.ends_read, Action.ends_pure,
      Action.ends_liftM, Layout.stringSize_eq_ok]
    rintro leftBytes - rightBytes - size ⟨-, rfl⟩
    refine (hs.make_allotted _ _).imp ?_ fun _ _ _ => trivial
    rintro r h' ⟨addr, hf, ha⟩ leftAddr - rightAddr -
    refine (hf.fillIn_allotted ha fun n hn => ?_).imp (fun _ _ ha => ⟨_, ha⟩) fun _ _ _ => trivial
    simp only [bind_eq_ok] at hn
    obtain ⟨m₁, hleft, m₂, hright, hzero⟩ := hn
    have hc₁ := Memory.copy_changedIn hleft
    have hc₂ := Memory.copy_changedIn hright
    have hc₃ := Memory.put_changedIn hzero
    rw [List.length_singleton] at hc₃
    simp only [Layout.stringOffset, Block.headerSize] at hc₁ hc₂ hc₃ ⊢
    exact ((hc₁.mono (by omega) (by omega)).trans (hc₂.mono (by omega) (by omega))).trans
      (hc₃.mono (by omega) (by omega))
  | array capacity =>
    simp only [makeArray, Action.ends_bind, Action.ends_liftM, Layout.arraySize_eq_ok]
    rintro size ⟨-, rfl⟩
    simp only [← Action.ends_bind]
    refine hmake fun hn => ?_
    obtain ⟨m, hstore, hempty⟩ := bind_eq_ok.mp hn
    exact changedIn_of_array hstore hempty
  | list values =>
    simp only [makeList, Action.ends_bind]
    refine (hs.checkArray values).imp ?_ fun _ _ _ => trivial
    rintro - _ ⟨rfl, -⟩
    simp only [← Action.ends_bind]
    refine hmake fun hn => ?_
    obtain ⟨m, hsize, hvalues⟩ := bind_eq_ok.mp hn
    exact changedIn_of_list hsize hvalues
  | dict keys values =>
    simp only [makeDict, Action.ends_bind]
    refine (hs.checkArray keys).imp ?_ fun _ _ _ => trivial
    rintro - _ ⟨rfl, -⟩
    refine (hs.checkArray values).imp ?_ fun _ _ _ => trivial
    rintro - _ ⟨rfl, -⟩
    simp only [Action.ends_read, Action.ends_ite]
    refine fun _ _ _ _ => ⟨fun _ => hmake fun hn => ?_, fun _ => ?_⟩
    rotate_left
    · simp only [Action.ends_bind, Action.ends_fault]
    simp only [bind_eq_ok] at hn
    obtain ⟨m₁, hsize, m₂, hoccupied, m₃, hkeys, hvalues⟩ := hn
    exact changedIn_of_dict hsize hoccupied hkeys hvalues

theorem Creates.made (hx : Creates sc.consts x) (hs : h.Sound s) :
    x.Ends h (fun r h' => ∃ y, h'.Made s r y ∧ (y.kind.isConstant = true → sc.consts))
      fun _ h' => h' = h := by
  have hmade {x : Action OutOfMemory Reference} {y : Content}
      (hy : y.kind.isConstant = true → sc.consts)
      (hmake : x.Ends h (fun r h' => h'.Made s r y) fun _ h' => h' = h) :
      x.Ends h (fun r h' => ∃ y, h'.Made s r y ∧ (y.kind.isConstant = true → sc.consts))
        fun _ h' => h' = h :=
    hmake.imp (fun _ _ hm => ⟨_, hm, hy⟩) fun _ _ he => he
  cases hx with
  | none hconsts => exact hmade (fun _ => hconsts) hs.makeNone
  | bool hconsts b => exact hmade (fun _ => hconsts) (hs.makeBool b)
  | integer n => exact hmade (fun hk => by cases hk) (hs.makeInteger n)
  | string bytes => exact hmade (fun hk => by cases hk) (hs.makeString bytes)
  | concatenation left right =>
    exact (hs.makeConcatenation left right).imp
      (fun _ _ ⟨_, _, _, _, hm⟩ => ⟨_, hm, fun hk => by cases hk⟩) fun _ _ he => he
  | array capacity => exact hmade (fun hk => by cases hk) (hs.makeArray capacity)
  | list values =>
    exact (hs.makeList values).imp (fun _ _ ⟨_, hm⟩ => ⟨_, hm, fun hk => by cases hk⟩)
      fun _ _ he => he
  | dict keys values =>
    exact (hs.makeDict keys values).imp (fun _ _ ⟨_, hm⟩ => ⟨_, hm, fun hk => by cases hk⟩)
      fun _ _ he => he

theorem Creates.steady (hx : Creates sc.consts x) (hs : h.Sound s)
    (hfixed : ∀ q, sc.fixed q → h.Occupied q) (hrun : x.runOn h = .ok (.ok r, h')) :
    ∃ s', Steady sc h s h' s' := by
  obtain ⟨y, hm, -⟩ := (hx.made hs).good hrun
  obtain ⟨_, ha⟩ := (hx.allotted hs).good hrun
  obtain ⟨addr, hs'⟩ := hm.sound
  refine ⟨_, hs', fun {q d} hq hd => ?_⟩
  obtain ⟨c, hc⟩ := hs.occupied_iff.mp (hfixed q hq)
  rw [Store.set_of_ne (Store.ne_of_unused hm.unused hc)] at hd
  exact ⟨d, hd, rfl, ha.sizes hd, rfl, fun _ => rfl⟩

end Creating

inductive Change (sc : Scope) (h : Heap) (s : Store) (h' : Heap) : Prop
  | none (heq : h = h')
  | rewrite {r : Reference} {c : Cell} {n : Memory} {count : Nat} {x : Content} (hr : s r = some c)
      (hn : h.pool.memory.Rewrites n c.addr count x) (hkind : x.kind = c.content.kind)
      (hx : sc.fixed r → ¬sc.edited r ∨ c.content.hash? ≠ none → x = c.content)
      (heq : { h with pool := { h.pool with memory := n } } = h')
  | discard {r : Reference} (hzero : h.refcount r = .ok 0) (hdiscard : h.discard r = .ok h')
  | create {x : Action OutOfMemory Reference} {r : Reference} (hx : Creates sc.consts x)
      (hfixed : ∀ q, sc.fixed q → h.Occupied q) (hrun : x.runOn h = .ok (.ok r, h'))

theorem Sound.change_setCountAt (hs : h.Sound s) (hr : s r = some c) {count : Nat}
    (hcount : count < Word.limit) (hset : h.setCountAt c.addr count = .ok h') :
    Change sc h s h' := by
  obtain ⟨n, rfl, hn⟩ := hs.setCountAt_rewrites hr hcount hset
  exact .rewrite hr hn rfl (fun _ _ => rfl) rfl

theorem Step.change (hstep : Step sc h h') (hs : h.Sound s) : Change sc h s h' := by
  cases hstep with
  | retain hret =>
    obtain ⟨c, hr, hlt, hset⟩ := hs.retain_eq hret
    exact hs.change_setCountAt hr hlt hset
  | giveUp hgive =>
    simp only [Heap.giveUp, bind_eq_ok, hs.deref_eq_ok] at hgive
    obtain ⟨_, ⟨c, hr, rfl⟩, count, hcount, hgive⟩ := hgive
    rw [hs.countAt_eq hr] at hcount
    cases hcount
    by_cases hzero : c.count = 0
    · simp only [hzero, if_true, pure_eq_ok, Prod.mk.injEq] at hgive
      exact .none hgive.1
    · simp only [if_neg hzero, bind_eq_ok] at hgive
      obtain ⟨h₁, hset, hgive⟩ := hgive
      have hlt : c.count < Word.limit := by
        rw [← hs.count hr]
        exact Memory.linkAt_lt ..
      have hchange : Change sc h s h₁ := hs.change_setCountAt hr (by omega) hset
      split at hgive
      · simp only [pure_eq_ok, Prod.mk.injEq] at hgive
        exact hgive.1 ▸ hchange
      · simp only [bind_eq_ok, pure_eq_ok, Prod.mk.injEq] at hgive
        obtain ⟨-, -, -, -, rfl, -⟩ := hgive
        exact hchange
  | discard hzero hdiscard => exact .discard hzero hdiscard
  | arraySet hr hset =>
    obtain ⟨c, xs, n, hc, hx, heq, hn⟩ := hs.arraySet_rewrites hset
    refine .rewrite hc hn (by rw [hx]; rfl) (fun hf he => ?_) heq
    exact he.elim (absurd (hr hf)) (absurd (by rw [hx]; rfl))
  | storeField hr hk hfield hm hset =>
    obtain ⟨c, x, n, hc, hkind, heq, hn⟩ := hs.storeField_rewrites hk hfield hm hset
    refine .rewrite hc hn hkind (fun hf he => ?_) heq
    exact he.elim (absurd (hr hf)) (absurd (hs.hash?_of_fields hc hk hfield))
  | storeReference hr hk hfield hset =>
    obtain ⟨c, x, n, hc, hkind, heq, hn⟩ := hs.storeReference_rewrites hk hfield hset
    refine .rewrite hc hn hkind (fun hf he => ?_) heq
    exact he.elim (absurd (hr hf)) (absurd (hs.hash?_of_fields hc hk hfield))
  | create hx hfixed hrun => exact .create hx hfixed hrun

theorem Step.steady (hstep : Step sc h h') (hs : h.Sound s) : ∃ s', Steady sc h s h' s' := by
  cases hstep.change hs with
  | none heq => exact ⟨s, heq ▸ .refl hs⟩
  | rewrite hr hn hkind hx heq => exact ⟨_, heq ▸ hs.steady_rewrite hr hn hkind hx⟩
  | discard _ hdiscard => exact ⟨_, hs.steady_discard hdiscard⟩
  | create hx hfixed hrun => exact hx.steady hs hfixed hrun

theorem Step.config_stats (hstep : Step sc h h') (hc : h.Consistent) :
    h'.config = h.config ∧ h'.stats = h.stats := by
  obtain ⟨s, hs⟩ := hc
  cases hstep.change hs with
  | none heq => exact heq ▸ ⟨rfl, rfl⟩
  | rewrite _ _ _ _ heq => exact heq ▸ ⟨rfl, rfl⟩
  | discard _ hdiscard =>
    simp only [Heap.discard, bind_eq_ok, pure_eq_ok] at hdiscard
    obtain ⟨_, -, table, -, pool, -, rfl⟩ := hdiscard
    exact ⟨rfl, rfl⟩
  | create hx _ hrun =>
    obtain ⟨_, ha⟩ := (hx.allotted hs).good hrun
    exact ⟨ha.config, ha.stats⟩

namespace Path

theorem steady (hp : Path sc h h') (hs : h.Sound s) :
    ∃ s', Steady sc h s h' s' := by
  induction hp with
  | refl => exact ⟨s, .refl hs⟩
  | tail _ hstep ih =>
    obtain ⟨s₁, hk₁⟩ := ih
    obtain ⟨s₂, hk₂⟩ := hstep.steady hk₁.sound
    exact ⟨s₂, hk₁.trans hk₂⟩

theorem consistent (hp : Path sc h h') (hc : h.Consistent) : h'.Consistent := by
  obtain ⟨s, hs⟩ := hc
  obtain ⟨s', hk⟩ := hp.steady hs
  exact ⟨s', hk.sound⟩

theorem config_stats (hp : Path sc h h') (hc : h.Consistent) :
    h'.config = h.config ∧ h'.stats = h.stats := by
  induction hp with
  | refl => exact ⟨rfl, rfl⟩
  | tail hp hstep ih =>
    have hlast := hstep.config_stats (consistent hp hc)
    exact ⟨hlast.1.trans ih.1, hlast.2.trans ih.2⟩

theorem config (hp : Path sc h h') (hc : h.Consistent) : h'.config = h.config :=
  (hp.config_stats hc).1

theorem stats (hp : Path sc h h') (hc : h.Consistent) : h'.stats = h.stats :=
  (hp.config_stats hc).2

end Path

theorem Stored.blockSize_eq (hs : h.Stored s) (hr : s r = some c) :
    h.blockSize r = .ok (h.pool.memory.sizeAt c.addr) := by
  have hread : h.block c.addr = .ok (h.pool.memory.header c.addr) :=
    Block.read_eq_ok.mpr ⟨hs.header_le hr, rfl⟩
  rw [blockSize, hs.deref_eq hr, ok_bind, hread, ok_bind]
  rfl

theorem Stored.arrayGet_eq (hs : h.Stored s) (hr : s r = some c) (i : Nat) :
    h.arrayGet r i = match c.content with
      | .array xs => match xs[i]? with
        | some q => .ok q
        | none => .error (.arrayIndex i xs.length)
      | _ => .error .notAnArray := by
  have hslots : ∀ xs, c.content = .array xs → h.slots r = .ok ⟨c.addr, xs.length⟩ := fun xs hx =>
    hs.slots_eq_ok.mpr ⟨c, xs, hr, hx, rfl⟩
  cases hx : c.content with
  | array xs =>
    rw [arrayGet, hslots xs hx, ok_bind]
    exact hs.slotsGet_eq hr hx i
  | _ =>
    have hkind := hs.kindAt_eq hr
    rw [hx] at hkind
    rw [arrayGet, slots, hs.deref_eq hr, ok_bind, hkind]
    rfl

theorem Steady.placed (hk : Steady sc h s h' s') (hs : h.Sound s) (hr : sc.fixed r)
    (hoccupied : h'.Occupied r) : Placed h h' r := by
  obtain ⟨d, hd⟩ := hk.sound.occupied_iff.mp hoccupied
  obtain ⟨c, hc, haddr, hsize, hkind, -⟩ := hk.addr hr hd
  refine ⟨?_, ?_, ?_⟩
  · rw [hk.sound.deref_eq hd, hs.deref_eq hc, haddr]
  · rw [hk.sound.blockSize_eq hd, hs.blockSize_eq hc, hsize]
  · rw [hk.sound.kindOf_eq hd, hs.kindOf_eq hc, hkind]

theorem Steady.intact (hk : Steady sc h s h' s') (hs : h.Sound s) (hr : sc.fixed r)
    (he : ¬sc.edited r) (hoccupied : h'.Occupied r) : Intact h h' r := by
  refine ⟨hk.placed hs hr hoccupied, ?_, fun i => ?_⟩ <;>
    obtain ⟨d, hd⟩ := hk.sound.occupied_iff.mp hoccupied <;>
    obtain ⟨c, hc, haddr, -, -, hcontent⟩ := hk.addr hr hd
  · rw [hk.sound.value_eq hd, hs.value_eq hc, haddr, hcontent (.inl he)]
  · rw [hk.sound.arrayGet_eq hd, hs.arrayGet_eq hc, hcontent (.inl he)]

theorem Sound.occupied_set (hs' : h'.Sound (s.set q c)) (hs : h.Sound s) (hr : h.Occupied r) :
    h'.Occupied r := by
  obtain ⟨d, hd⟩ := hs.occupied_iff.mp hr
  by_cases hrq : r = q
  · exact hs'.occupied_iff.mpr ⟨c, hrq ▸ Store.set_self⟩
  · exact hs'.occupied_iff.mpr ⟨d, (Store.set_of_ne hrq).trans hd⟩

theorem Step.occupied (hstep : Step sc h h') (hc : h.Consistent) (hr : h.Occupied r) :
    h'.Occupied r ∨ (h.refcount r = .ok 0 ∧ h.discard r = .ok h') := by
  obtain ⟨s, hs⟩ := hc
  cases hstep.change hs with
  | none heq => exact .inl (heq ▸ hr)
  | rewrite hq hn _ _ heq => exact .inl (heq ▸ (hs.rewrite hq hn).occupied_set hs hr)
  | @discard q hzero hdiscard =>
    by_cases hrq : r = q
    · subst hrq
      exact .inr ⟨hzero, hdiscard⟩
    · obtain ⟨c, -, hs'⟩ := hs.discard hdiscard
      obtain ⟨d, hd⟩ := hs.occupied_iff.mp hr
      exact .inl (hs'.occupied_iff.mpr ⟨d, (Store.erase_of_ne hrq).trans hd⟩)
  | create hx _ hrun =>
    obtain ⟨y, hm, -⟩ := (hx.made hs).good hrun
    obtain ⟨addr, hs'⟩ := hm.sound
    exact .inl (hs'.occupied_set hs hr)

theorem Path.discarded (hp : Path sc h h') (hc : h.Consistent) (hr : h.Occupied r)
    (hgone : ¬h'.Occupied r) : ∃ h₁ h₂, Path sc h h₁ ∧ h₁.refcount r = .ok 0 ∧
      h₁.discard r = .ok h₂ ∧ Path sc h₂ h' := by
  induction hp with
  | refl => exact absurd hr hgone
  | @tail h₁ h₂ hp hstep ih =>
    by_cases hr₁ : h₁.Occupied r
    · rcases hstep.occupied (Path.consistent hp hc) hr₁ with hr₂ | ⟨hzero, hdiscard⟩
      · exact absurd hr₂ hgone
      · exact ⟨h₁, h₂, hp, hzero, hdiscard, .refl⟩
    · obtain ⟨ha, hb, hpa, hzero, hdiscard, hpb⟩ := ih hr₁
      exact ⟨ha, hb, hpa, hzero, hdiscard, hpb.tail hstep⟩

end Heap

end CountedHeap
