import CountedHeap.Proofs.Alignment
import CountedHeap.Proofs.Content
import CountedHeap.Proofs.Table

/-!
A heap seen as a store: a map from references to the address, the count and the contents of their
values. What a heap answers depends on its store only, and a step of a heap changes its store at
one reference.
-/

namespace CountedHeap

structure Cell where
  addr : Nat
  count : Nat
  content : Content

abbrev Store := Reference → Option Cell

namespace Store

def content (s : Store) (r : Reference) : Option Content := (s r).map Cell.content

def set (s : Store) (r : Reference) (c : Cell) : Store := Function.update s r (some c)

def erase (s : Store) (r : Reference) : Store := Function.update s r none

variable {s : Store} {r q : Reference} {c d : Cell} {x : Content}

theorem content_eq_some : s.content r = some x ↔ ∃ c, s r = some c ∧ c.content = x :=
  Option.map_eq_some_iff

@[simp]
theorem set_self : s.set r c r = some c := Function.update_self ..

theorem set_of_ne (h : q ≠ r) : s.set r c q = s q := Function.update_of_ne h ..

theorem ne_of_unused (hr : s r = none) (hq : s q = some c) : q ≠ r := by
  rintro rfl
  rw [hr] at hq
  cases hq

@[simp]
theorem erase_self : s.erase r r = none := Function.update_self ..

theorem erase_of_ne (h : q ≠ r) : s.erase r q = s q := Function.update_of_ne h ..

theorem set_eq_some :
    s.set r c q = some d ↔ (q = r ∧ c = d) ∨ (q ≠ r ∧ s q = some d) := by
  by_cases h : q = r
  · subst h
    simp
  · simp [set_of_ne h, h]

theorem erase_eq_some : s.erase r q = some d ↔ q ≠ r ∧ s q = some d := by
  by_cases h : q = r
  · subst h
    simp
  · simp [erase_of_ne h, h]

theorem content_set_of_ne (h : q ≠ r) : (s.set r c).content q = s.content q := by
  rw [content, set_of_ne h]
  rfl

theorem content_set_self : (s.set r c).content r = some c.content := by
  rw [content, set_self]
  rfl

@[simp]
theorem content_set : (s.set r c).content = Function.update s.content r (some c.content) := by
  funext q
  by_cases hq : q = r
  · subst hq
    rw [content_set_self, Function.update_self]
  · rw [content_set_of_ne hq, Function.update_of_ne hq]

theorem content_set_same (hr : s r = some c) {a n : Nat} :
    (s.set r ⟨a, n, c.content⟩).content = s.content := by
  rw [content_set]
  refine Function.update_eq_self_iff.mpr ?_
  rw [content, hr]
  rfl

end Store

namespace Heap

@[simp]
theorem memory_eq (h : Heap) : h.memory = h.pool.memory := rfl

theorem deref_of_get? {h : Heap} {r : Reference} {addr : Nat} (hget : h.table.get? r = some addr)
    (hin : addr < h.pool.memory.size) (haligned : 8 ∣ addr) : h.deref r = .ok addr := by
  have hlt := Table.index_lt_size hget
  have halign : Word.isAligned addr Block.alignment = .ok true := by
    rw [Word.isAligned_eq_ok, beq_iff_eq]
    exact Nat.mod_eq_zero_of_dvd haligned
  simp only [deref, Table.isLive_of_get? hget, hlt, decide_true, Bool.and_self, if_true, hget,
    memory_eq, hin, halign, ok_bind]
  rfl

def Occupied (h : Heap) (r : Reference) : Prop := h.table.get? r ≠ none

/-- The values of a heap are those of a store, and their blocks lie apart. -/
structure Stored (h : Heap) (s : Store) : Prop where
  bound : h.pool.memory.size ≤ Memory.maxSize
  small : h.table.size ≤ 2 ^ 31
  table : h.table.get? = fun r => (s r).map Cell.addr
  holds : ∀ {r c}, s r = some c → h.pool.memory.Holds c.addr c.content
  count : ∀ {r c}, s r = some c → h.pool.memory.linkAt c.addr = c.count
  inside : ∀ {r c}, s r = some c → c.addr + h.pool.memory.sizeAt c.addr ≤ h.pool.memory.size
  aligned : ∀ {r c}, s r = some c → 8 ∣ c.addr
  apart : ∀ {r q c d}, s r = some c → s q = some d → r ≠ q →
    c.addr + h.pool.memory.sizeAt c.addr ≤ d.addr ∨ d.addr + h.pool.memory.sizeAt d.addr ≤ c.addr

namespace Stored

variable {h : Heap} {s : Store} {r q : Reference} {c : Cell} {x : Content}

theorem get?_eq (hs : h.Stored s) (hr : s r = some c) : h.table.get? r = some c.addr := by
  simp only [hs.table, hr, Option.map_some]

theorem get?_eq_none (hs : h.Stored s) (hr : s r = none) : h.table.get? r = none := by
  simp only [hs.table, hr, Option.map_none]

theorem get?_eq_some (hs : h.Stored s) {a : Nat} :
    h.table.get? r = some a ↔ ∃ c, s r = some c ∧ c.addr = a := by
  rw [hs.table]
  exact Option.map_eq_some_iff

theorem occupied_iff (hs : h.Stored s) : h.Occupied r ↔ ∃ c, s r = some c := by
  rw [Occupied, hs.table, ne_eq, Option.map_eq_none_iff]
  exact Option.ne_none_iff_exists'

theorem isLive (hs : h.Stored s) (hr : s r = some c) : r.isLive = true :=
  Table.isLive_of_get? (hs.get?_eq hr)

theorem room_le (hs : h.Stored s) (hr : s r = some c) :
    c.addr + c.content.room ≤ h.pool.memory.size := by
  have hin := hs.inside hr
  have hroom := (hs.holds hr).room
  omega

theorem header_le (hs : h.Stored s) (hr : s r = some c) :
    c.addr + Block.headerSize ≤ h.pool.memory.size := by
  have hroom := hs.room_le hr
  have hhead := c.content.headerSize_le_room
  omega

theorem deref_eq (hs : h.Stored s) (hr : s r = some c) : h.deref r = .ok c.addr := by
  have hhead := hs.header_le hr
  simp only [Block.headerSize] at hhead
  exact deref_of_get? (hs.get?_eq hr) (by omega) (hs.aligned hr)

theorem deref_eq_ok (hs : h.Stored s) {a : Nat} :
    h.deref r = .ok a ↔ ∃ c, s r = some c ∧ c.addr = a := by
  constructor
  · intro hd
    cases hr : s r with
    | none =>
      have hget := hs.get?_eq_none hr
      simp only [deref, throw_bind, guard_eq_ok, hget, throw_eq_ok, and_false] at hd
    | some c =>
      rw [hs.deref_eq hr] at hd
      cases hd
      exact ⟨c, rfl, rfl⟩
  · rintro ⟨c, hr, rfl⟩
    exact hs.deref_eq hr

theorem kindAt_eq (hs : h.Stored s) (hr : s r = some c) : h.kindAt c.addr = .ok c.content.kind := by
  have hread : h.block c.addr = .ok (h.pool.memory.header c.addr) :=
    Block.read_eq_ok.mpr ⟨hs.header_le hr, rfl⟩
  have htag : (h.pool.memory.header c.addr).tag = c.content.kind.tag := (hs.holds hr).tag
  simp only [kindAt, hread, ok_bind, htag, Kind.ofTag?_tag]
  rfl

theorem countAt_eq (hs : h.Stored s) (hr : s r = some c) : h.countAt c.addr = .ok c.count := by
  have hhead := hs.header_le hr
  have hcount := hs.count hr
  unfold Memory.linkAt at hcount
  simp only [Block.headerSize] at hhead
  rw [countAt, Memory.load64, Memory.load_eq_ok]
  refine ⟨?_, hcount⟩
  simp only [memory_eq, Layout.countOffset, Block.linkOffset]
  omega

theorem kindOf_eq (hs : h.Stored s) (hr : s r = some c) : h.kindOf r = .ok c.content.kind := by
  rw [kindOf, hs.deref_eq hr, ok_bind, hs.kindAt_eq hr]

theorem refcount_eq (hs : h.Stored s) (hr : s r = some c) : h.refcount r = .ok c.count := by
  rw [refcount, hs.deref_eq hr, ok_bind, hs.countAt_eq hr]

theorem value_eq (hs : h.Stored s) (hr : s r = some c) :
    h.value r = .ok (c.content.value c.addr) := by
  have hhead := hs.header_le hr
  have hroom := hs.room_le hr
  have hin := hs.inside hr
  have hbound := hs.bound
  have hread : h.block c.addr = .ok (h.pool.memory.header c.addr) :=
    Block.read_eq_ok.mpr ⟨hhead, rfl⟩
  obtain ⟨-, hsize, hfields⟩ := hs.holds hr
  simp only [value, hs.deref_eq hr, hs.kindAt_eq hr, ok_bind, memory_eq]
  cases hx : c.content with
  | none => rfl
  | bool b =>
    rw [hx] at hfields
    simp only [Content.kind, hread, ok_bind, pure_eq_ok, Content.value, Value.bool.injEq]
    exact hfields
  | integer n =>
    rw [hx] at hfields hroom
    simp only [Content.kind, Memory.loadInt64, bind_eq_ok, Memory.load_eq_ok, pure_eq_ok,
      Content.value]
    exact ⟨n, ⟨_, ⟨by exact hroom, rfl⟩, hfields⟩, rfl⟩
  | string bytes =>
    rw [hx] at hfields hroom hsize
    obtain ⟨hbytes, hzero⟩ := hfields
    simp only [Content.room, Layout.stringOffset, Block.headerSize] at hroom hsize
    have hstop : (h.pool.memory.header c.addr).stop =
        .ok (c.addr + h.pool.memory.sizeAt c.addr) := by
      refine Word.fit_of_lt ?_
      simp only [Memory.header_addr, Memory.header_size, Memory.maxSize, Word.limit] at *
      omega
    simp only [Content.kind, hread, ok_bind, hstop, bind_eq_ok, Memory.slice_eq_ok, pure_eq_ok,
      Content.value, Value.string.injEq, Layout.stringOffset, Block.headerSize] at hbytes ⊢
    refine ⟨_, ⟨⟨by omega, hin⟩, rfl⟩, ?_⟩
    -- The zero byte behind the string ends it, whatever stands in the rest of the block.
    rw [show c.addr + h.pool.memory.sizeAt c.addr - (c.addr + 24) = (bytes.length + 1) +
        (h.pool.memory.sizeAt c.addr - 24 - (bytes.length + 1)) by omega,
      Memory.bytesFrom_add, hbytes, List.append_assoc, List.takeWhile_append_of_pos]
    · simp
    · intro b hb
      exact bne_iff_ne.mpr fun h0 => hzero (h0 ▸ hb)
  | list size values =>
    rw [hx] at hfields hroom
    obtain ⟨hlen, hvalues⟩ := hfields
    simp only [Content.room, Layout.listSize] at hroom
    simp only [Content.kind, Memory.load64, bind_eq_ok, Memory.load_eq_ok, pure_eq_ok,
      Memory.loadInt32_eq_ok, Content.value, Layout.listSizeOffset, Layout.listValuesOffset]
      at hlen hvalues ⊢
    exact ⟨size, ⟨by omega, hlen⟩, _, ⟨by omega, rfl⟩, by rw [← hvalues]⟩
  | dict size occupied keys values =>
    rw [hx] at hfields hroom
    obtain ⟨hlen, hoccupied, hkeys, hvalues⟩ := hfields
    simp only [Content.room, Layout.dictSize] at hroom
    simp only [Content.kind, Memory.load64, bind_eq_ok, Memory.load_eq_ok, pure_eq_ok,
      Memory.loadInt32_eq_ok, Content.value, Layout.dictSizeOffset, Layout.dictOccupiedOffset,
      Layout.dictKeysOffset, Layout.dictValuesOffset] at hlen hoccupied hkeys hvalues ⊢
    exact ⟨size, ⟨by omega, hlen⟩, occupied, ⟨by omega, hoccupied⟩, _, ⟨by omega, rfl⟩, _,
      ⟨by omega, rfl⟩, by rw [← hkeys, ← hvalues]⟩
  | array slots =>
    rw [hx] at hfields hroom
    simp only [Content.room, Layout.elementOffset, Layout.elementsOffset] at hroom
    simp only [Content.kind, Slots.read, Memory.load64, bind_eq_ok, Memory.load_eq_ok, pure_eq_ok,
      Content.value, Layout.capacityOffset]
    exact ⟨_, ⟨slots.length, ⟨by omega, hfields.1⟩, rfl⟩, rfl⟩

theorem children_eq (hs : h.Stored s) (hr : s r = some c) :
    h.children c.addr c.content.kind = .ok c.content.held := by
  have hroom := hs.room_le hr
  obtain ⟨-, -, hfields⟩ := hs.holds hr
  cases hx : c.content with
  | none | bool _ | integer _ | string _ => rfl
  | list size values =>
    rw [hx] at hfields hroom
    obtain ⟨-, hvalues⟩ := hfields
    simp only [Content.room, Layout.listSize] at hroom
    simp only [Content.kind, children, Content.held, bind_eq_ok, pure_eq_ok,
      Memory.loadInt32_eq_ok, memory_eq, Layout.listValuesOffset] at hvalues ⊢
    exact ⟨_, ⟨by omega, rfl⟩, by rw [← hvalues]⟩
  | dict size occupied keys values =>
    rw [hx] at hfields hroom
    obtain ⟨-, -, hkeys, hvalues⟩ := hfields
    simp only [Content.room, Layout.dictSize] at hroom
    simp only [Content.kind, children, Content.held, bind_eq_ok, pure_eq_ok,
      Memory.loadInt32_eq_ok, memory_eq, Layout.dictKeysOffset, Layout.dictValuesOffset]
      at hkeys hvalues ⊢
    exact ⟨_, ⟨by omega, rfl⟩, _, ⟨by omega, rfl⟩, by rw [← hkeys, ← hvalues]⟩
  | array slots =>
    rw [hx] at hfields hroom
    have hread := Slots.references_eq hfields hroom
    simp only [Content.room, Layout.elementOffset, Layout.elementsOffset] at hroom
    simp only [Content.kind, children, Content.held, Slots.read, Memory.load64, bind_eq_ok,
      Memory.load_eq_ok, pure_eq_ok, memory_eq, Layout.capacityOffset]
    exact ⟨_, ⟨slots.length, ⟨by omega, hfields.1⟩, rfl⟩, slots, hread, rfl⟩

theorem kindOf_eq_ok (hs : h.Stored s) {k : Kind} :
    h.kindOf r = .ok k ↔ ∃ x, s.content r = some x ∧ x.kind = k := by
  simp only [kindOf, bind_eq_ok, hs.deref_eq_ok, Store.content_eq_some]
  constructor
  · rintro ⟨_, ⟨c, hr, rfl⟩, hk⟩
    rw [hs.kindAt_eq hr] at hk
    cases hk
    exact ⟨_, ⟨c, hr, rfl⟩, rfl⟩
  · rintro ⟨_, ⟨c, hr, rfl⟩, rfl⟩
    exact ⟨_, ⟨c, hr, rfl⟩, hs.kindAt_eq hr⟩

theorem value_eq_ok (hs : h.Stored s) {v : Value} :
    h.value r = .ok v ↔ ∃ c, s r = some c ∧ c.content.value c.addr = v := by
  constructor
  · intro hv
    have hd := hv
    simp only [value, bind_eq_ok] at hd
    obtain ⟨_, hd, -⟩ := hd
    obtain ⟨c, hr, -⟩ := hs.deref_eq_ok.mp hd
    rw [hs.value_eq hr] at hv
    cases hv
    exact ⟨c, hr, rfl⟩
  · rintro ⟨c, hr, rfl⟩
    exact hs.value_eq hr

theorem stringBytes_eq_ok (hs : h.Stored s) {bytes : List UInt8} :
    h.stringBytes r = .ok bytes ↔ s.content r = some (.string bytes) := by
  simp only [stringBytes, bind_eq_ok, hs.value_eq_ok, Store.content_eq_some]
  constructor
  · rintro ⟨_, ⟨c, hr, rfl⟩, hn⟩
    cases hx : c.content <;> simp_all [Content.value]
  · rintro ⟨c, hr, hx⟩
    exact ⟨_, ⟨c, hr, by rw [hx]⟩, rfl⟩

theorem listParts_eq_ok (hs : h.Stored s) {p : ListParts} :
    h.listParts r = .ok p ↔ s.content r = some (.list p.size p.values) := by
  simp only [listParts, bind_eq_ok, hs.value_eq_ok, Store.content_eq_some]
  constructor
  · rintro ⟨_, ⟨c, hr, rfl⟩, hp⟩
    cases hx : c.content <;> simp_all [Content.value]
    cases hp
    exact ⟨rfl, rfl⟩
  · rintro ⟨c, hr, hx⟩
    exact ⟨_, ⟨c, hr, by rw [hx]⟩, rfl⟩

theorem dictParts_eq_ok (hs : h.Stored s) {p : DictParts} :
    h.dictParts r = .ok p ↔ s.content r = some (.dict p.size p.occupied p.keys p.values) := by
  simp only [dictParts, bind_eq_ok, hs.value_eq_ok, Store.content_eq_some]
  constructor
  · rintro ⟨_, ⟨c, hr, rfl⟩, hp⟩
    cases hx : c.content <;> simp_all [Content.value]
    cases hp
    exact ⟨rfl, rfl, rfl, rfl⟩
  · rintro ⟨c, hr, hx⟩
    exact ⟨_, ⟨c, hr, by rw [hx]⟩, rfl⟩

theorem slots_eq_ok (hs : h.Stored s) {t : Slots} :
    h.slots r = .ok t ↔
      ∃ c xs, s r = some c ∧ c.content = .array xs ∧ t = ⟨c.addr, xs.length⟩ := by
  simp only [slots, bind_eq_ok, hs.deref_eq_ok, throw_bind, guard_eq_ok]
  constructor
  · rintro ⟨_, ⟨c, hr, rfl⟩, k, hk, rfl, hread⟩
    rw [hs.kindAt_eq hr] at hk
    obtain ⟨-, -, hfields⟩ := hs.holds hr
    cases hx : c.content with
    | array xs =>
      rw [hx] at hfields
      simp only [Slots.read, Memory.load64, bind_eq_ok, Memory.load_eq_ok, pure_eq_ok] at hread
      obtain ⟨_, ⟨-, rfl⟩, rfl⟩ := hread
      exact ⟨c, xs, hr, hx, by rw [memory_eq, hfields.1]⟩
    | _ => rw [hx] at hk; cases hk
  · rintro ⟨c, xs, hr, hx, rfl⟩
    have hroom := hs.room_le hr
    obtain ⟨-, -, hfields⟩ := hs.holds hr
    rw [hx] at hroom hfields
    simp only [Content.room, Layout.elementOffset, Layout.elementsOffset] at hroom
    refine ⟨_, ⟨c, hr, rfl⟩, _, hs.kindAt_eq hr, by rw [hx]; rfl, ?_⟩
    simp only [Slots.read, Memory.load64, bind_eq_ok, Memory.load_eq_ok, pure_eq_ok, memory_eq]
    exact ⟨_, ⟨by simp only [Layout.capacityOffset]; omega, rfl⟩, by rw [hfields.1]⟩

theorem slotsGet_eq (hs : h.Stored s) {xs : List Reference} (hr : s r = some c)
    (hx : c.content = .array xs) (i : Nat) :
    Slots.get ⟨c.addr, xs.length⟩ h.pool.memory i =
      match xs[i]? with
      | some q => .ok q
      | none => .error (.arrayIndex i xs.length) := by
  have hroom := hs.room_le hr
  obtain ⟨-, -, hfields⟩ := hs.holds hr
  rw [hx] at hroom hfields
  simp only [Content.room, Layout.elementOffset, Layout.elementsOffset] at hroom
  cases hi : xs[i]? with
  | none =>
    have hle := List.getElem?_eq_none_iff.mp hi
    rw [Slots.get, if_neg (Nat.not_lt_of_le hle)]
    rfl
  | some q =>
    have hlt := (List.getElem?_eq_some_iff.mp hi).1
    simp only [Slots.get, throw_bind, guard_eq_ok, bind_eq_ok, Memory.loadInt32_eq_ok, pure_eq_ok]
    refine ⟨hlt, _, ⟨?_, rfl⟩, hfields.2 i q hi⟩
    simp only [Layout.elementOffset, Layout.elementsOffset]
    omega

theorem arrayGet_eq_ok (hs : h.Stored s) {i : Nat} :
    h.arrayGet r i = .ok q ↔ ∃ xs, s.content r = some (.array xs) ∧ xs[i]? = some q := by
  simp only [arrayGet, bind_eq_ok, hs.slots_eq_ok, Store.content_eq_some]
  constructor
  · rintro ⟨_, ⟨c, xs, hr, hx, rfl⟩, hget⟩
    refine ⟨xs, ⟨c, hr, hx⟩, ?_⟩
    rw [memory_eq, hs.slotsGet_eq hr hx] at hget
    split at hget
    · cases hget
      assumption
    · cases hget
  · rintro ⟨xs, ⟨c, hr, hx⟩, hi⟩
    refine ⟨_, ⟨c, xs, hr, hx, rfl⟩, ?_⟩
    rw [memory_eq, hs.slotsGet_eq hr hx, hi]

theorem arrayCapacity_eq_ok (hs : h.Stored s) {n : Nat} :
    h.arrayCapacity r = .ok n ↔ ∃ xs, s.content r = some (.array xs) ∧ xs.length = n := by
  simp only [arrayCapacity, bind_eq_ok, hs.slots_eq_ok, pure_eq_ok, Store.content_eq_some]
  constructor
  · rintro ⟨_, ⟨c, xs, hr, hx, rfl⟩, rfl⟩
    exact ⟨xs, ⟨c, hr, hx⟩, rfl⟩
  · rintro ⟨xs, ⟨c, hr, hx⟩, rfl⟩
    exact ⟨_, ⟨c, xs, hr, hx, rfl⟩, rfl⟩

end Stored
end Heap
end CountedHeap
