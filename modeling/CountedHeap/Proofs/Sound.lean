import CountedHeap.Proofs.Allocation
import CountedHeap.Proofs.Store

/-!
A sound heap holds the values of a store in just those blocks of its active half that are taken,
and knows where both halves lie. Its owner may write to the count and the fields of a value; each
such write changes the store at one reference.
-/

namespace CountedHeap

structure Memory.Rewrites (m n : Memory) (addr count : Nat) (x : Content) : Prop where
  changed : m.ChangedIn n addr (addr + m.sizeAt addr)
  size_eq : n.sizeAt addr = m.sizeAt addr
  count_eq : n.linkAt addr = count
  holds : n.Holds addr x

namespace Memory

variable {m n : Memory} {addr count : Nat} {x : Content}

theorem Holds.setCount (h : m.Holds addr x) (hcount : count < Word.limit)
    (hstore : m.store64 (addr + Layout.countOffset) count = .ok n) :
    m.Rewrites n addr count x := by
  have hc := store_changedIn hstore
  have hroom := h.header_le
  simp only [Layout.countOffset, Block.linkOffset, Block.headerSize] at hc hroom
  have hsize : n.sizeAt addr = m.sizeAt addr := by
    unfold sizeAt
    exact hc.number_eq (.inl (Nat.le_refl _))
  refine ⟨hc.mono (by omega) (by omega), hsize, ?_, ?_⟩
  · unfold linkAt
    exact (number_store hstore).trans (Nat.mod_eq_of_lt hcount)
  · exact h.shift (Nat.le_of_eq hsize.symm) (fun i hi => hc.byte_eq _ (by omega))
      fun i hi _ => hc.byte_eq _ (by omega)

theorem Holds.setFields (h : m.Holds addr x) {x' : Content} {lo hi : Nat}
    (hc : m.ChangedIn n (addr + lo) (addr + hi)) (hlo : Block.headerSize ≤ lo)
    (hhi : hi ≤ m.sizeAt addr) (hkind : x'.kind = x.kind) (hroom : x'.room ≤ m.sizeAt addr)
    (hfields : n.Fields addr x') : m.Rewrites n addr (m.linkAt addr) x' := by
  simp only [Block.headerSize] at hlo
  have hsize : n.sizeAt addr = m.sizeAt addr := by
    unfold sizeAt
    exact hc.number_eq (by simp only [Block.sizeOffset]; omega)
  refine ⟨hc.mono (by omega) (by omega), hsize, ?_, ?_, ?_, hfields⟩
  · unfold linkAt
    exact hc.number_eq (by simp only [Block.linkOffset]; omega)
  · rw [hkind, ← h.tag]
    unfold tagAt
    exact hc.number_eq (by omega)
  · rw [hsize]
    exact hroom

theorem Holds.setSlot {xs : List Reference} (h : m.Holds addr (.array xs)) {i : Nat}
    {v : Reference} (hi : i < xs.length)
    (hstore : m.storeInt32 (addr + Layout.elementOffset i) v.raw = .ok n) :
    m.Rewrites n addr (m.linkAt addr) (.array (xs.set i v)) := by
  have hc := store_changedIn hstore
  have hroom := h.room
  simp only [Content.room, Layout.elementOffset, Layout.elementsOffset] at hc hroom
  rw [Nat.add_assoc] at hc
  refine h.setFields hc (by simp only [Block.headerSize]; omega) (by omega) rfl ?_ ⟨?_, ?_⟩
  · simp only [Content.room, List.length_set, Layout.elementOffset, Layout.elementsOffset]
    exact hroom
  · rw [List.length_set, ← h.fields.1]
    exact hc.number_eq (by simp only [Layout.capacityOffset]; omega)
  · intro j q hj
    by_cases hji : j = i
    · subst hji
      rw [List.getElem?_set_self hi, Option.some_inj] at hj
      rw [← hj]
      exact refAt_storeInt32 hstore
    · rw [List.getElem?_set_ne (Ne.symm hji)] at hj
      have hold := h.fields.2 j q hj
      rw [← hold]
      simp only [Layout.elementOffset, Layout.elementsOffset]
      exact hc.refAt_eq (by omega)

theorem Holds.setListSize {size size' : Nat} {values : Reference}
    (h : m.Holds addr (.list size values)) (hsize : size' < Word.limit)
    (hstore : m.store64 (addr + Layout.listSizeOffset) size' = .ok n) :
    m.Rewrites n addr (m.linkAt addr) (.list size' values) := by
  have hc := store_changedIn hstore
  have hroom := h.room
  rw [Nat.add_assoc] at hc
  simp only [Content.room, Layout.listSize, Layout.listSizeOffset] at hroom hc
  refine h.setFields hc (by decide) (by omega) rfl h.room ⟨?_, ?_⟩
  · exact (number_store hstore).trans (Nat.mod_eq_of_lt hsize)
  · rw [← h.fields.2]
    exact hc.refAt_eq (by simp only [Layout.listValuesOffset]; omega)

theorem Holds.setListValues {size : Nat} {values values' : Reference}
    (h : m.Holds addr (.list size values))
    (hstore : m.storeInt32 (addr + Layout.listValuesOffset) values'.raw = .ok n) :
    m.Rewrites n addr (m.linkAt addr) (.list size values') := by
  have hc := store_changedIn hstore
  have hroom := h.room
  rw [Nat.add_assoc] at hc
  simp only [Content.room, Layout.listSize, Layout.listValuesOffset] at hroom hc
  refine h.setFields hc (by decide) (by omega) rfl h.room ⟨?_, refAt_storeInt32 hstore⟩
  rw [← h.fields.1]
  exact hc.number_eq (by simp only [Layout.listSizeOffset]; omega)

section Dict

variable {size occupied size' : Nat} {keys values r : Reference}

theorem Holds.setDictSize (h : m.Holds addr (.dict size occupied keys values))
    (hsize : size' < Word.limit)
    (hstore : m.store64 (addr + Layout.dictSizeOffset) size' = .ok n) :
    m.Rewrites n addr (m.linkAt addr) (.dict size' occupied keys values) := by
  have hc := store_changedIn hstore
  have hroom := h.room
  obtain ⟨-, hoccupied, hkeys, hvalues⟩ := h.fields
  rw [Nat.add_assoc] at hc
  simp only [Content.room, Layout.dictSize, Layout.dictSizeOffset] at hroom hc
  refine h.setFields hc (by decide) (by omega) rfl h.room ⟨?_, ?_, ?_, ?_⟩
  · exact (number_store hstore).trans (Nat.mod_eq_of_lt hsize)
  · rw [← hoccupied]
    exact hc.number_eq (by simp only [Layout.dictOccupiedOffset]; omega)
  · rw [← hkeys]
    exact hc.refAt_eq (by simp only [Layout.dictKeysOffset]; omega)
  · rw [← hvalues]
    exact hc.refAt_eq (by simp only [Layout.dictValuesOffset]; omega)

theorem Holds.setDictOccupied (h : m.Holds addr (.dict size occupied keys values))
    (hsize : size' < Word.limit)
    (hstore : m.store64 (addr + Layout.dictOccupiedOffset) size' = .ok n) :
    m.Rewrites n addr (m.linkAt addr) (.dict size size' keys values) := by
  have hc := store_changedIn hstore
  have hroom := h.room
  obtain ⟨hold, -, hkeys, hvalues⟩ := h.fields
  rw [Nat.add_assoc] at hc
  simp only [Content.room, Layout.dictSize, Layout.dictOccupiedOffset] at hroom hc
  refine h.setFields hc (by decide) (by omega) rfl h.room ⟨?_, ?_, ?_, ?_⟩
  · rw [← hold]
    exact hc.number_eq (by simp only [Layout.dictSizeOffset]; omega)
  · exact (number_store hstore).trans (Nat.mod_eq_of_lt hsize)
  · rw [← hkeys]
    exact hc.refAt_eq (by simp only [Layout.dictKeysOffset]; omega)
  · rw [← hvalues]
    exact hc.refAt_eq (by simp only [Layout.dictValuesOffset]; omega)

theorem Holds.setDictKeys (h : m.Holds addr (.dict size occupied keys values))
    (hstore : m.storeInt32 (addr + Layout.dictKeysOffset) r.raw = .ok n) :
    m.Rewrites n addr (m.linkAt addr) (.dict size occupied r values) := by
  have hc := store_changedIn hstore
  have hroom := h.room
  obtain ⟨hold, hoccupied, -, hvalues⟩ := h.fields
  rw [Nat.add_assoc] at hc
  simp only [Content.room, Layout.dictSize, Layout.dictKeysOffset] at hroom hc
  refine h.setFields hc (by decide) (by omega) rfl h.room ⟨?_, ?_, refAt_storeInt32 hstore, ?_⟩
  · rw [← hold]
    exact hc.number_eq (by simp only [Layout.dictSizeOffset]; omega)
  · rw [← hoccupied]
    exact hc.number_eq (by simp only [Layout.dictOccupiedOffset]; omega)
  · rw [← hvalues]
    exact hc.refAt_eq (by simp only [Layout.dictValuesOffset]; omega)

theorem Holds.setDictValues (h : m.Holds addr (.dict size occupied keys values))
    (hstore : m.storeInt32 (addr + Layout.dictValuesOffset) r.raw = .ok n) :
    m.Rewrites n addr (m.linkAt addr) (.dict size occupied keys r) := by
  have hc := store_changedIn hstore
  have hroom := h.room
  obtain ⟨hold, hoccupied, hkeys, -⟩ := h.fields
  rw [Nat.add_assoc] at hc
  simp only [Content.room, Layout.dictSize, Layout.dictValuesOffset] at hroom hc
  refine h.setFields hc (by decide) (by omega) rfl h.room ⟨?_, ?_, ?_, refAt_storeInt32 hstore⟩
  · rw [← hold]
    exact hc.number_eq (by simp only [Layout.dictSizeOffset]; omega)
  · rw [← hoccupied]
    exact hc.number_eq (by simp only [Layout.dictOccupiedOffset]; omega)
  · rw [← hkeys]
    exact hc.refAt_eq (by simp only [Layout.dictKeysOffset]; omega)

end Dict

end Memory

namespace Heap

variable {h h' : Heap} {s : Store} {r : Reference} {c : Cell}

theorem Stored.put (hs : h.Stored s)
    (htable : h'.table.get? = Function.update h.table.get? r (some c.addr))
    (hsmall : h'.table.size ≤ 2 ^ 31) (hsize : h'.pool.memory.size = h.pool.memory.size)
    (hkeep : ∀ q d, s q = some d → q ≠ r → ∀ i, d.addr ≤ i →
      i < d.addr + h.pool.memory.sizeAt d.addr → h'.pool.memory.byte i = h.pool.memory.byte i)
    (hholds : h'.pool.memory.Holds c.addr c.content)
    (hcount : h'.pool.memory.linkAt c.addr = c.count)
    (hin : c.addr + h'.pool.memory.sizeAt c.addr ≤ h.pool.memory.size) (halign : 8 ∣ c.addr)
    (hapart : ∀ q d, s q = some d → q ≠ r →
      c.addr + h'.pool.memory.sizeAt c.addr ≤ d.addr ∨
        d.addr + h.pool.memory.sizeAt d.addr ≤ c.addr) : h'.Stored (s.set r c) := by
  have hheader : ∀ q d, s q = some d → q ≠ r →
      h'.pool.memory.header d.addr = h.pool.memory.header d.addr := fun q d hq hne =>
    (hs.holds hq).header_congr (hkeep q d hq hne)
  have hsizes : ∀ q d, s q = some d → q ≠ r →
      h'.pool.memory.sizeAt d.addr = h.pool.memory.sizeAt d.addr := fun q d hq hne =>
    Memory.sizeAt_of_header (hheader q d hq hne)
  refine ⟨?_, hsmall, ?_, ?_, ?_, ?_, ?_, ?_⟩
  · rw [hsize]
    exact hs.bound
  · rw [htable, hs.table]
    funext q
    by_cases hq : q = r
    · subst hq
      rw [Function.update_self, Store.set_self]
      rfl
    · rw [Function.update_of_ne hq, Store.set_of_ne hq]
  · intro q d hq
    rcases Store.set_eq_some.mp hq with ⟨rfl, rfl⟩ | ⟨hne, hq⟩
    · exact hholds
    · exact (hs.holds hq).congr (hkeep q d hq hne)
  · intro q d hq
    rcases Store.set_eq_some.mp hq with ⟨rfl, rfl⟩ | ⟨hne, hq⟩
    · exact hcount
    · rw [← hs.count hq]
      exact congrArg Block.link (hheader q d hq hne)
  · intro q d hq
    rw [hsize]
    rcases Store.set_eq_some.mp hq with ⟨rfl, rfl⟩ | ⟨hne, hq⟩
    · exact hin
    · rw [hsizes q d hq hne]
      exact hs.inside hq
  · intro q d hq
    rcases Store.set_eq_some.mp hq with ⟨rfl, rfl⟩ | ⟨hne, hq⟩
    · exact halign
    · exact hs.aligned hq
  · intro q p d e hq hp hne
    rcases Store.set_eq_some.mp hq with ⟨rfl, rfl⟩ | ⟨hqr, hsq⟩
    · rcases Store.set_eq_some.mp hp with ⟨rfl, rfl⟩ | ⟨hpr, hsp⟩
      · exact absurd rfl hne
      · rw [hsizes p e hsp hpr]
        exact hapart p e hsp hpr
    · rw [hsizes q d hsq hqr]
      rcases Store.set_eq_some.mp hp with ⟨rfl, rfl⟩ | ⟨hpr, hsp⟩
      · exact (hapart q d hsq hqr).symm
      · rw [hsizes p e hsp hpr]
        exact hs.apart hsq hsp hne

theorem Stored.rewrite (hs : h.Stored s) (hr : s r = some c) {n : Memory} {count : Nat}
    {x : Content} (hn : h.pool.memory.Rewrites n c.addr count x) :
    Stored { h with pool := { h.pool with memory := n } } (s.set r ⟨c.addr, count, x⟩) := by
  refine hs.put ?_ hs.small hn.changed.size_eq ?_ hn.holds hn.count_eq ?_
    (show 8 ∣ c.addr from hs.aligned hr) ?_
  · funext q
    by_cases hq : q = r
    · subst hq
      have hget := hs.get?_eq hr
      rw [Function.update_self]
      exact hget
    · rw [Function.update_of_ne hq]
  · intro q d hq hne i hlo hhi
    have hap := hs.apart hr hq (Ne.symm hne)
    exact hn.changed.byte_eq i (by omega)
  · show c.addr + n.sizeAt c.addr ≤ _
    rw [hn.size_eq]
    exact hs.inside hr
  · intro q d hq hne
    show c.addr + n.sizeAt c.addr ≤ _ ∨ _
    rw [hn.size_eq]
    exact hs.apart hr hq (Ne.symm hne)

theorem roundDown_halfSize (c : Config) :
    Word.roundDown c.halfSize Block.alignment = c.halfSize := by
  simp only [Config.halfSize, Word.roundDown_eight, Word.limit]
  omega

/-- The two halves of the pool, in one order or the other. -/
structure Halved (h : Heap) : Prop where
  halves : (h.active = ⟨0, h.config.halfSize⟩ ∧
      h.spare = ⟨h.config.halfSize, 2 * h.config.halfSize⟩) ∨
    (h.active = ⟨h.config.halfSize, 2 * h.config.halfSize⟩ ∧
      h.spare = ⟨0, h.config.halfSize⟩)
  inside : 2 * h.config.halfSize ≤ h.pool.memory.size
  region : h.pool.region = h.active
  roomy : Block.headerSize ≤ h.config.halfSize

/-- A heap in which every taken block is that of a value, and every value has one. -/
structure Sound (h : Heap) (s : Store) : Prop extends Stored h s where
  laid : ∃ free, h.pool.Laid free h.table.addresses
  halved : h.Halved

theorem Sound.rewrite (hs : h.Sound s) (hr : s r = some c) {n : Memory} {count : Nat}
    {x : Content} (hn : h.pool.memory.Rewrites n c.addr count x) :
    Sound { h with pool := { h.pool with memory := n } } (s.set r ⟨c.addr, count, x⟩) := by
  obtain ⟨free, hl⟩ := hs.laid
  have ha := Table.mem_addresses_of_get? (hs.get?_eq hr)
  refine ⟨hs.toStored.rewrite hr hn, ⟨free, hl.write ha hn.changed hn.size_eq⟩,
    hs.halved.halves, ?_, hs.halved.region, hs.halved.roomy⟩
  show _ ≤ n.size
  rw [hn.changed.size_eq]
  exact hs.halved.inside

theorem write_eq_ok {f : Memory → Except Fault Memory} :
    h.write f = .ok h' ↔
      ∃ n, f h.pool.memory = .ok n ∧ { h with pool := { h.pool with memory := n } } = h' := by
  simp [write]

theorem Stored.setCountAt (hs : h.Stored s) (hr : s r = some c) {count : Nat}
    (hcount : count < Word.limit) (hset : h.setCountAt c.addr count = .ok h') :
    h'.Stored (s.set r { c with count }) := by
  obtain ⟨n, hstore, rfl⟩ := write_eq_ok.mp hset
  exact hs.rewrite hr ((hs.holds hr).setCount hcount hstore)

theorem Stored.sizeAt_setCountAt (hs : h.Stored s) (hr : s r = some c) {count : Nat}
    (hcount : count < Word.limit) (hset : h.setCountAt c.addr count = .ok h') :
    h'.pool.memory.sizeAt c.addr = h.pool.memory.sizeAt c.addr := by
  obtain ⟨n, hstore, rfl⟩ := write_eq_ok.mp hset
  exact ((hs.holds hr).setCount hcount hstore).size_eq

theorem Sound.setCountAt (hs : h.Sound s) (hr : s r = some c) {count : Nat}
    (hcount : count < Word.limit) (hset : h.setCountAt c.addr count = .ok h') :
    h'.Sound (s.set r { c with count }) := by
  obtain ⟨n, hstore, rfl⟩ := write_eq_ok.mp hset
  exact hs.rewrite hr ((hs.holds hr).setCount hcount hstore)

theorem Stored.retain_eq (hs : h.Stored s) (hret : h.retain r = .ok h') :
    ∃ c, s r = some c ∧ c.count + 1 < Word.limit ∧ h.setCountAt c.addr (c.count + 1) = .ok h' := by
  simp only [retain, bind_eq_ok, hs.deref_eq_ok] at hret
  obtain ⟨_, ⟨c, hr, rfl⟩, count, hcount, next, hnext, hset⟩ := hret
  rw [hs.countAt_eq hr] at hcount
  cases hcount
  obtain ⟨rfl, hlt⟩ := Word.fit_eq_ok.mp hnext
  exact ⟨c, hr, hlt, hset⟩

theorem Stored.setCountAt_answers (hs : h.Stored s) (hr : s r = some c) (count : Nat) :
    ∃ h', h.setCountAt c.addr count = .ok h' := by
  have hhead := hs.header_le hr
  have hstore : h.pool.memory.store64 (c.addr + Layout.countOffset) count =
      .ok (h.pool.memory.setNumber (c.addr + Layout.countOffset) count 8) := by
    refine Memory.store_eq_ok.mpr ⟨?_, rfl⟩
    simp only [Layout.countOffset, Block.linkOffset, Block.headerSize] at *
    omega
  exact ⟨_, write_eq_ok.mpr ⟨_, hstore, rfl⟩⟩

theorem Stored.retain_answers (hs : h.Stored s) (hr : s r = some c)
    (hlt : c.count + 1 < Word.limit) : ∃ h', h.retain r = .ok h' := by
  simp only [retain, hs.deref_eq hr, ok_bind, hs.countAt_eq hr, Word.add, Word.fit_of_lt hlt]
  exact hs.setCountAt_answers hr _

theorem Sound.retain (hs : h.Sound s) (hret : h.retain r = .ok h') :
    ∃ c, s r = some c ∧ h'.Sound (s.set r { c with count := c.count + 1 }) := by
  obtain ⟨c, hr, hlt, hset⟩ := hs.retain_eq hret
  exact ⟨c, hr, hs.setCountAt hr hlt hset⟩

theorem Sound.arraySet (hs : h.Sound s) {i : Nat} {v : Reference}
    (hset : h.arraySet r i v = .ok h') :
    ∃ c xs, s r = some c ∧ c.content = .array xs ∧ i < xs.length ∧
      h'.Sound (s.set r { c with content := .array (xs.set i v) }) := by
  simp only [Heap.arraySet, bind_eq_ok, hs.slots_eq_ok, throw_bind, guard_eq_ok, write_eq_ok]
    at hset
  obtain ⟨_, ⟨c, xs, hr, hx, rfl⟩, hlt, n, hstore, rfl⟩ := hset
  refine ⟨c, xs, hr, hx, hlt, ?_⟩
  have hholds := hs.holds hr
  rw [hx] at hholds
  have hn := hs.rewrite hr (hholds.setSlot hlt hstore)
  rw [hs.count hr] at hn
  exact hn

theorem Sound.storeField (hs : h.Sound s) (hr : s r = some c) {offset v : Nat} {x : Content}
    (hn : ∀ n, h.pool.memory.store64 (c.addr + offset) v = .ok n →
      h.pool.memory.Rewrites n c.addr (h.pool.memory.linkAt c.addr) x)
    (hset : h.storeField r offset v = .ok h') : h'.Sound (s.set r { c with content := x }) := by
  simp only [Heap.storeField, hs.deref_eq hr, ok_bind, write_eq_ok] at hset
  obtain ⟨n, hstore, rfl⟩ := hset
  have hrw := hs.rewrite hr (hn n hstore)
  rw [hs.count hr] at hrw
  exact hrw

theorem Sound.storeReference (hs : h.Sound s) (hr : s r = some c) {offset : Nat} {v : Reference}
    {x : Content}
    (hn : ∀ n, h.pool.memory.storeInt32 (c.addr + offset) v.raw = .ok n →
      h.pool.memory.Rewrites n c.addr (h.pool.memory.linkAt c.addr) x)
    (hset : h.storeReference r offset v = .ok h') :
    h'.Sound (s.set r { c with content := x }) := by
  simp only [Heap.storeReference, hs.deref_eq hr, ok_bind, write_eq_ok] at hset
  obtain ⟨n, hstore, rfl⟩ := hset
  have hrw := hs.rewrite hr (hn n hstore)
  rw [hs.count hr] at hrw
  exact hrw

theorem Stored.holds_of (hs : h.Stored s) (hr : s r = some c) {x : Content} (hx : c.content = x) :
    h.pool.memory.Holds c.addr x := hx ▸ hs.holds hr

section Fields

variable {size occupied n : Nat} {keys values v : Reference}

theorem Sound.storeListSize (hs : h.Sound s) (hr : s r = some c)
    (hx : c.content = .list size values) (hn : n < Word.limit)
    (hset : h.storeField r Layout.listSizeOffset n = .ok h') :
    h'.Sound (s.set r { c with content := .list n values }) :=
  hs.storeField hr (fun _ hstore => (hs.holds_of hr hx).setListSize hn hstore) hset

theorem Sound.storeListValues (hs : h.Sound s) (hr : s r = some c)
    (hx : c.content = .list size values)
    (hset : h.storeReference r Layout.listValuesOffset v = .ok h') :
    h'.Sound (s.set r { c with content := .list size v }) :=
  hs.storeReference hr (fun _ hstore => (hs.holds_of hr hx).setListValues hstore) hset

theorem Sound.storeDictSize (hs : h.Sound s) (hr : s r = some c)
    (hx : c.content = .dict size occupied keys values) (hn : n < Word.limit)
    (hset : h.storeField r Layout.dictSizeOffset n = .ok h') :
    h'.Sound (s.set r { c with content := .dict n occupied keys values }) :=
  hs.storeField hr (fun _ hstore => (hs.holds_of hr hx).setDictSize hn hstore) hset

theorem Sound.storeDictOccupied (hs : h.Sound s) (hr : s r = some c)
    (hx : c.content = .dict size occupied keys values) (hn : n < Word.limit)
    (hset : h.storeField r Layout.dictOccupiedOffset n = .ok h') :
    h'.Sound (s.set r { c with content := .dict size n keys values }) :=
  hs.storeField hr (fun _ hstore => (hs.holds_of hr hx).setDictOccupied hn hstore) hset

theorem Sound.storeDictKeys (hs : h.Sound s) (hr : s r = some c)
    (hx : c.content = .dict size occupied keys values)
    (hset : h.storeReference r Layout.dictKeysOffset v = .ok h') :
    h'.Sound (s.set r { c with content := .dict size occupied v values }) :=
  hs.storeReference hr (fun _ hstore => (hs.holds_of hr hx).setDictKeys hstore) hset

theorem Sound.storeDictValues (hs : h.Sound s) (hr : s r = some c)
    (hx : c.content = .dict size occupied keys values)
    (hset : h.storeReference r Layout.dictValuesOffset v = .ok h') :
    h'.Sound (s.set r { c with content := .dict size occupied keys v }) :=
  hs.storeReference hr (fun _ hstore => (hs.holds_of hr hx).setDictValues hstore) hset

end Fields

end Heap
end CountedHeap
