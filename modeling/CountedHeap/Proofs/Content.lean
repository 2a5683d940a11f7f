import CountedHeap.Heap.Value
import CountedHeap.Proofs.Tiling

/-!
What a block holds. The contents of a value are its fields, with the slots of an array written
out. They stand in the tag, the auxiliary word and the first bytes behind the header, so a block
may move or become larger and hold the same.
-/

namespace CountedHeap

inductive Content
  | none
  | bool (b : Bool)
  | integer (n : Int64)
  | string (bytes : List UInt8)
  | list (size : Nat) (values : Reference)
  | dict (size occupied : Nat) (keys values : Reference)
  | array (slots : List Reference)
  deriving DecidableEq

namespace Content

def kind : Content → Kind
  | none => .none
  | bool _ => .bool
  | integer _ => .integer
  | string _ => .string
  | list .. => .list
  | dict .. => .dict
  | array _ => .array

def room : Content → Nat
  | none | bool _ => Block.headerSize
  | integer _ => Layout.integerSize
  | string bytes => Layout.stringOffset + bytes.length + 1
  | list .. => Layout.listSize
  | dict .. => Layout.dictSize
  | array slots => Layout.elementOffset slots.length

def held : Content → List Reference
  | list _ values => [values]
  | dict _ _ keys values => [values, keys]
  | array slots => slots.filter (·.isLive)
  | _ => []

def value (addr : Nat) : Content → Value
  | none => .none
  | bool b => .bool b
  | integer n => .integer n
  | string bytes => .string bytes
  | list size values => .list size values
  | dict size occupied keys values => .dict size occupied keys values
  | array slots => .array ⟨addr, slots.length⟩

theorem headerSize_le_room (c : Content) : Block.headerSize ≤ c.room := by
  cases c <;> simp only [room, Block.headerSize, Layout.integerSize, Layout.stringOffset,
    Layout.listSize, Layout.dictSize, Layout.elementOffset, Layout.elementsOffset] <;> omega

end Content

namespace Memory

variable {m n : Memory} {addr addr' : Nat} {c : Content}

def refAt (m : Memory) (addr : Nat) : Reference := ⟨Int32.ofNat (m.number addr 4)⟩

theorem loadInt32_eq_ok {v : Int32} :
    m.loadInt32 addr = .ok v ↔ addr + 4 ≤ m.size ∧ (m.refAt addr).raw = v := by
  simp only [loadInt32, bind_eq_ok, load_eq_ok, pure_eq_ok, refAt]
  grind

theorem refAt_storeInt32 {r : Reference} (h : m.storeInt32 addr r.raw = .ok n) :
    n.refAt addr = r := by
  unfold refAt
  rw [number_store h, ofNat_int32]

theorem ChangedIn.refAt_eq {lo hi : Nat} (h : m.ChangedIn n lo hi)
    (hd : addr + 4 ≤ lo ∨ hi ≤ addr) : n.refAt addr = m.refAt addr := by
  unfold refAt
  rw [h.number_eq hd]

def Fields (m : Memory) (addr : Nat) : Content → Prop
  | .none => True
  | .bool b => (m.number (addr + Block.auxOffset) 4 != 0) = b
  | .integer n => Int64.ofNat (m.number (addr + Layout.integerOffset) 8) = n
  | .string bytes =>
      m.bytesFrom (addr + Layout.stringOffset) (bytes.length + 1) = bytes ++ [0] ∧ 0 ∉ bytes
  | .list size values =>
      m.number (addr + Layout.listSizeOffset) 8 = size ∧
        m.refAt (addr + Layout.listValuesOffset) = values
  | .dict size occupied keys values =>
      m.number (addr + Layout.dictSizeOffset) 8 = size ∧
        m.number (addr + Layout.dictOccupiedOffset) 8 = occupied ∧
        m.refAt (addr + Layout.dictKeysOffset) = keys ∧
        m.refAt (addr + Layout.dictValuesOffset) = values
  | .array slots =>
      m.number (addr + Layout.capacityOffset) 8 = slots.length ∧
        ∀ (i : Nat) q, slots[i]? = some q → m.refAt (addr + Layout.elementOffset i) = q

/-- A block at `addr` has the tag and the fields of these contents, and room for them. -/
structure Holds (m : Memory) (addr : Nat) (c : Content) : Prop where
  tag : m.tagAt addr = c.kind.tag
  room : c.room ≤ m.sizeAt addr
  fields : m.Fields addr c

theorem Holds.header_le (h : m.Holds addr c) : Block.headerSize ≤ m.sizeAt addr :=
  Nat.le_trans c.headerSize_le_room h.room

theorem Fields.shift (h : m.Fields addr c)
    (haux : ∀ i, 4 ≤ i → i < 8 → n.byte (addr' + i) = m.byte (addr + i))
    (hrest : ∀ i, 24 ≤ i → i < c.room → n.byte (addr' + i) = m.byte (addr + i)) :
    n.Fields addr' c := by
  have hnumber (offset width : Nat) (hlo : 24 ≤ offset) (hhi : offset + width ≤ c.room) :
      n.number (addr' + offset) width = m.number (addr + offset) width := by
    refine number_shift fun i hi => ?_
    rw [Nat.add_assoc, Nat.add_assoc]
    exact hrest _ (by omega) (by omega)
  cases c with
  | none => trivial
  | bool b =>
    show (n.number (addr' + Block.auxOffset) 4 != 0) = b
    rw [number_shift (n := m) (b := addr + Block.auxOffset)]
    · exact h
    · intro i hi
      rw [Nat.add_assoc, Nat.add_assoc]
      exact haux _ (by simp only [Block.auxOffset]; omega) (by simp only [Block.auxOffset]; omega)
  | integer k =>
    show Int64.ofNat (n.number (addr' + Layout.integerOffset) 8) = k
    rw [hnumber _ _ (by decide) (by simp only [Content.room]; decide)]
    exact h
  | string bytes =>
    refine ⟨?_, h.2⟩
    rw [bytesFrom_shift (n := m) (b := addr + Layout.stringOffset)]
    · exact h.1
    · intro i hi
      rw [Nat.add_assoc, Nat.add_assoc]
      refine hrest _ ?_ ?_ <;>
        simp only [Layout.stringOffset, Block.headerSize, Content.room] <;> omega
  | list size values =>
    refine ⟨?_, ?_⟩
    · rw [hnumber _ _ (by decide) (by simp only [Content.room]; decide)]
      exact h.1
    · unfold refAt
      rw [hnumber _ _ (by decide) (by simp only [Content.room]; decide)]
      exact h.2
  | dict size occupied keys values =>
    obtain ⟨hsize, hoccupied, hkeys, hvalues⟩ := h
    refine ⟨?_, ?_, ?_, ?_⟩
    · rw [hnumber _ _ (by decide) (by simp only [Content.room]; decide)]
      exact hsize
    · rw [hnumber _ _ (by decide) (by simp only [Content.room]; decide)]
      exact hoccupied
    · unfold refAt
      rw [hnumber _ _ (by decide) (by simp only [Content.room]; decide)]
      exact hkeys
    · unfold refAt
      rw [hnumber _ _ (by decide) (by simp only [Content.room]; decide)]
      exact hvalues
  | array slots =>
    simp only [Content.room, Layout.elementOffset, Layout.elementsOffset] at hnumber
    refine ⟨?_, fun i q hi => ?_⟩
    · rw [hnumber _ _ (by decide) (by simp only [Layout.capacityOffset]; omega)]
      exact h.1
    · have hlt := (List.getElem?_eq_some_iff.mp hi).1
      unfold refAt
      rw [hnumber _ _ (by simp only [Layout.elementOffset, Layout.elementsOffset]; omega)
        (by simp only [Layout.elementOffset, Layout.elementsOffset]; omega)]
      exact h.2 i q hi

theorem Holds.shift (h : m.Holds addr c) (hsize : m.sizeAt addr ≤ n.sizeAt addr')
    (hhead : ∀ i, i < 8 → n.byte (addr' + i) = m.byte (addr + i))
    (hrest : ∀ i, 24 ≤ i → i < m.sizeAt addr → n.byte (addr' + i) = m.byte (addr + i)) :
    n.Holds addr' c := by
  refine ⟨?_, Nat.le_trans h.room hsize, h.fields.shift (fun i _ hi => hhead i hi)
    fun i hlo hhi => hrest i hlo (Nat.lt_of_lt_of_le hhi h.room)⟩
  rw [← h.tag]
  unfold tagAt
  exact number_shift fun i hi => hhead i (by omega)

theorem Holds.header_congr (h : m.Holds addr c)
    (hb : ∀ i, addr ≤ i → i < addr + m.sizeAt addr → n.byte i = m.byte i) :
    n.header addr = m.header addr := by
  have hroom := h.header_le
  simp only [Block.headerSize] at hroom
  have hnumber (offset width : Nat) (hle : offset + width ≤ 24) :
      n.number (addr + offset) width = m.number (addr + offset) width :=
    number_congr fun i hlo hhi => hb i (by omega) (by omega)
  have htag := hnumber 0 4 (by decide)
  rw [Nat.add_zero] at htag
  simp only [header, tagAt, sizeAt, linkAt, Block.auxOffset, Block.sizeOffset, Block.linkOffset]
  rw [htag, hnumber 4 4 (by decide), hnumber 8 8 (by decide), hnumber 16 8 (by decide)]

theorem Holds.congr (h : m.Holds addr c)
    (hb : ∀ i, addr ≤ i → i < addr + m.sizeAt addr → n.byte i = m.byte i) : n.Holds addr c := by
  have hsize := sizeAt_of_header (h.header_congr hb)
  have hroom := h.header_le
  simp only [Block.headerSize] at hroom
  exact h.shift (Nat.le_of_eq hsize.symm) (fun i hi => hb _ (by omega) (by omega))
    fun i _ hi => hb _ (by omega) (by omega)

end Memory

theorem Slots.references_eq {m : Memory} {addr : Nat} {slots : List Reference}
    (h : m.Fields addr (.array slots)) (hin : addr + Layout.elementOffset slots.length ≤ m.size) :
    Slots.references ⟨addr, slots.length⟩ m = .ok slots := by
  have hfrom (count index : Nat) (hle : index + count = slots.length) :
      Slots.referencesFrom ⟨addr, slots.length⟩ m index count = .ok (slots.drop index) := by
    induction count generalizing index with
    | zero =>
      rw [List.drop_eq_nil_of_le (by omega)]
      rfl
    | succ count ih =>
      have hlt : index < slots.length := by omega
      have hget : Slots.get ⟨addr, slots.length⟩ m index = .ok slots[index] := by
        simp only [Slots.get, throw_bind, guard_eq_ok, bind_eq_ok, Memory.loadInt32_eq_ok,
          pure_eq_ok]
        refine ⟨hlt, _, ⟨?_, rfl⟩, h.2 index _ (List.getElem?_eq_getElem hlt)⟩
        simp only [Layout.elementOffset] at hin ⊢
        omega
      simp only [Slots.referencesFrom, hget, ok_bind, ih (index + 1) (by omega)]
      rw [List.drop_eq_getElem_cons hlt]
      rfl
  have hall := hfrom slots.length 0 (Nat.zero_add _)
  rwa [List.drop_zero] at hall

end CountedHeap
