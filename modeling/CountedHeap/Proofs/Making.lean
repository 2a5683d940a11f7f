import CountedHeap.Heap.Make
import CountedHeap.Proofs.Sound

/-!
New values. A block that was handed out belongs to no value until its fields are filled in; then
the store has one value more, with a count of one. Where no block is left the heap is the same as
before.
-/

namespace CountedHeap

namespace Memory

structure Stamped (m : Memory) (addr : Nat) (k : Kind) : Prop where
  tag : m.tagAt addr = k.tag
  aux : m.number (addr + Block.auxOffset) 4 = 0
  count : m.linkAt addr = 1

theorem Stamped.fill {m n : Memory} {addr hi : Nat} {x : Content} (h : m.Stamped addr x.kind)
    (hc : m.ChangedIn n (addr + Block.headerSize) (addr + hi)) (hroom : x.room ≤ m.sizeAt addr)
    (hhi : hi ≤ m.sizeAt addr) (hfields : n.Fields addr x) : m.Rewrites n addr 1 x := by
  simp only [Block.headerSize] at hc
  have hsize : n.sizeAt addr = m.sizeAt addr := by
    unfold sizeAt
    exact hc.number_eq (by simp only [Block.sizeOffset]; omega)
  refine ⟨hc.mono (by omega) (by omega), hsize, ?_, ?_, ?_, hfields⟩
  · rw [← h.count]
    unfold linkAt
    exact hc.number_eq (by simp only [Block.linkOffset]; omega)
  · rw [← h.tag]
    unfold tagAt
    exact hc.number_eq (by omega)
  · rw [hsize]
    exact hroom

end Memory

namespace Heap

variable {h h' : Heap} {s : Store} {r q : Reference} {c : Cell} {k : Kind} {x : Content}

structure Fresh (h : Heap) (s : Store) (r : Reference) (k : Kind) (size addr : Nat) : Prop where
  unused : s r = none
  live : r.isLive = true
  table : h.table.get? = Function.update (fun q => (s q).map Cell.addr) r (some addr)
  stamped : h.pool.memory.Stamped addr k
  room : size ≤ h.pool.memory.sizeAt addr
  holds : ∀ {q c}, s q = some c → h.pool.memory.Holds c.addr c.content
  apart : ∀ {q c}, s q = some c → addr + h.pool.memory.sizeAt addr ≤ c.addr ∨
    c.addr + h.pool.memory.sizeAt c.addr ≤ addr
  fill : ∀ {n x}, h.pool.memory.Rewrites n addr 1 x →
    Sound { h with pool := { h.pool with memory := n } } (s.set r ⟨addr, 1, x⟩)

structure Made (h : Heap) (s : Store) (r : Reference) (x : Content) : Prop where
  unused : s r = none
  live : r.isLive = true
  sound : ∃ addr, h.Sound (s.set r ⟨addr, 1, x⟩)

theorem Made.not_occupied {h₀ : Heap} (hm : h.Made s r x) (hs : h₀.Stored s) : ¬h₀.Occupied r := by
  intro hr
  obtain ⟨c, hc⟩ := hs.occupied_iff.mp hr
  exact Store.ne_of_unused hm.unused hc rfl

theorem deref_get? {a : Nat} (hd : h.deref r = .ok a) : h.table.get? r = some a := by
  simp only [deref, throw_bind, guard_eq_ok] at hd
  obtain ⟨-, hd⟩ := hd
  split at hd
  · cases hd
  · rename_i hget
    simp only [guard_eq_ok, bind_eq_ok, pure_eq_ok] at hd
    obtain ⟨-, _, -, -, rfl⟩ := hd
    exact hget

namespace Fresh

variable {size addr : Nat}

theorem deref_eq (hf : h.Fresh s r k size addr) {a : Nat} (hd : h.deref r = .ok a) : a = addr := by
  have hget := deref_get? hd
  rw [hf.table, Function.update_self] at hget
  exact (Option.some_inj.mp hget).symm

theorem deref_old (hf : h.Fresh s r k size addr) (hq : s q = some c) {a : Nat}
    (hd : h.deref q = .ok a) : a = c.addr := by
  have hne := Store.ne_of_unused hf.unused hq
  have hget := deref_get? hd
  rw [hf.table, Function.update_of_ne hne, hq] at hget
  exact (Option.some_inj.mp hget).symm

theorem made (hf : h.Fresh s r k size addr) {n : Memory}
    (hn : h.pool.memory.Rewrites n addr 1 x) :
    Made { h with pool := { h.pool with memory := n } } s r x :=
  ⟨hf.unused, hf.live, addr, hf.fill hn⟩

end Fresh

theorem changedIn_of_stamp {m m₁ m₂ m₃ : Memory} {addr tag : Nat}
    (hsize : Block.headerSize ≤ m.sizeAt addr) (htag : m.store addr 4 tag = .ok m₁)
    (haux : m₁.store (addr + Block.auxOffset) 4 0 = .ok m₂)
    (hcount : m₂.store (addr + Layout.countOffset) 8 1 = .ok m₃) :
    m.ChangedIn m₃ addr (addr + m.sizeAt addr) ∧ m₃.sizeAt addr = m.sizeAt addr := by
  have hc₁ := Memory.store_changedIn htag
  have hc₂ := Memory.store_changedIn haux
  have hc₃ := Memory.store_changedIn hcount
  simp only [Block.headerSize, Block.auxOffset, Layout.countOffset, Block.linkOffset]
    at hsize hc₂ hc₃
  refine ⟨((hc₁.mono (by omega) (by omega)).trans (hc₂.mono (by omega) (by omega))).trans
    (hc₃.mono (by omega) (by omega)), ?_⟩
  unfold Memory.sizeAt
  simp only [Block.sizeOffset]
  rw [hc₃.number_eq (by omega), hc₂.number_eq (by omega), hc₁.number_eq (by omega)]

theorem adopt_eq {p : Pool} {addr : Nat} (hsize : Block.headerSize ≤ p.memory.sizeAt addr)
    (hadopt : h.adopt k addr p = .ok (r, h')) :
    ∃ n table, h.table.assign addr = .ok (r, table) ∧
      h' = { h with pool := { p with memory := n }, table } ∧
      p.memory.ChangedIn n addr (addr + p.memory.sizeAt addr) ∧
      n.sizeAt addr = p.memory.sizeAt addr ∧ n.Stamped addr k := by
  simp only [adopt, throw_bind, guard_eq_ok, bind_eq_ok, pure_eq_ok, Prod.mk.injEq,
    Prod.exists, Memory.store32, Memory.store64] at hadopt
  obtain ⟨-, -, -, m₁, htag, m₂, haux, m₃, hcount, q, hpattern, _, table, hassign, rfl, rfl⟩ :=
    hadopt
  obtain ⟨n, rfl, hc₄⟩ := Pool.writePattern_changedIn hpattern
  obtain ⟨hstamped, hsize₃⟩ := changedIn_of_stamp hsize htag haux hcount
  have hc₂ := Memory.store_changedIn haux
  have hc₃ := Memory.store_changedIn hcount
  simp only [Block.headerSize, Block.auxOffset, Layout.countOffset, Block.linkOffset]
    at hsize hc₂ hc₃ hc₄ haux hcount
  simp only [hsize₃] at hc₄
  refine ⟨n, table, hassign, rfl, ?_, ?_, ?_, ?_, ?_⟩
  · exact hstamped.trans (hc₄.mono (by omega) (by omega))
  · rw [← hsize₃]
    unfold Memory.sizeAt
    exact hc₄.number_eq (by simp only [Block.sizeOffset]; omega)
  · unfold Memory.tagAt
    rw [hc₄.number_eq (by omega), hc₃.number_eq (by omega), hc₂.number_eq (by omega),
      Memory.number_store htag]
    cases k <;> rfl
  · simp only [Block.auxOffset]
    rw [hc₄.number_eq (by omega), hc₃.number_eq (by omega), Memory.number_store haux,
      Nat.zero_mod]
  · unfold Memory.linkAt
    simp only [Block.linkOffset]
    exact (hc₄.number_eq (by omega)).trans
      ((Memory.number_store hcount).trans (Nat.mod_eq_of_lt (by decide)))

theorem Sound.fresh (hs : h.Sound s) {p : Pool} {free free' : List Nat} {size addr : Nat}
    (hold : h.pool.Laid free h.table.addresses)
    (hl : p.Laid free' (addr :: h.table.addresses)) (hsize : size ≤ p.memory.sizeAt addr)
    (hregion : p.region = h.pool.region)
    (hc : h.pool.memory.ChangedOn p.memory (h.pool.memory.InBlocks free))
    (hadopt : h.adopt k addr p = .ok (r, h')) : h'.Fresh s r k size addr := by
  have hab := hl.bounds (a := addr) (by simp)
  obtain ⟨n, table, hassign, rfl, hcn, hsn, hstamp⟩ := adopt_eq hab.2.2.1 hadopt
  obtain ⟨hlive, hunused, hget, hperm, -, hsmall⟩ := Table.assign_eq hassign
  have hln := (hl.write List.mem_cons_self hcn hsn).perm hperm.symm
  have hpbytes : ∀ q d, s q = some d → ∀ i, d.addr ≤ i →
      i < d.addr + h.pool.memory.sizeAt d.addr → p.memory.byte i = h.pool.memory.byte i :=
    fun q d hq i => hold.byte_eq (Table.mem_addresses_of_get? (hs.get?_eq hq)) hc
  have hpapart : ∀ q d, s q = some d → addr + p.memory.sizeAt addr ≤ d.addr ∨
      d.addr + h.pool.memory.sizeAt d.addr ≤ addr := by
    intro q d hq
    rw [← Memory.sizeAt_of_header ((hs.holds hq).header_congr (hpbytes q d hq))]
    exact hl.apart_taken (Table.mem_addresses_of_get? (hs.get?_eq hq))
  have hbytes : ∀ q d, s q = some d → ∀ i, d.addr ≤ i →
      i < d.addr + h.pool.memory.sizeAt d.addr → n.byte i = h.pool.memory.byte i := by
    intro q d hq i hlo hhi
    have hap := hpapart q d hq
    rw [hcn.byte_eq i (by omega), hpbytes q d hq i hlo hhi]
  have hsr : s r = none := by
    cases hr : s r with
    | none => rfl
    | some d =>
      rw [hs.get?_eq hr] at hunused
      cases hunused
  refine ⟨hsr, hlive, by rw [hget, hs.table], hstamp, ?_, ?_, ?_, ?_⟩
  · rw [hsn]
    exact hsize
  · intro q d hq
    exact (hs.holds hq).congr (hbytes q d hq)
  · intro q d hq
    have hap := hpapart q d hq
    have hsd := Memory.sizeAt_of_header ((hs.holds hq).header_congr (hbytes q d hq))
    show addr + n.sizeAt addr ≤ _ ∨ _ + n.sizeAt d.addr ≤ _
    rw [hsn, hsd]
    exact hap
  · intro n' x hn'
    have hmem : addr ∈ table.addresses := hperm.mem_iff.mpr List.mem_cons_self
    have hsize' : n'.size = h.pool.memory.size := by
      rw [hn'.changed.size_eq]
      exact hcn.size_eq.trans hc.size_eq
    refine ⟨hs.put ?_ (hsmall hs.small) hsize' ?_ hn'.holds hn'.count_eq ?_ ?_ ?_,
      ⟨_, hln.write hmem hn'.changed hn'.size_eq⟩, hs.halved.halves, ?_, ?_, hs.halved.roomy⟩
    · exact hget
    · intro q d hq hqr i hlo hhi
      have hap := hpapart q d hq
      have hn'c := hn'.changed
      simp only [hsn] at hn'c
      rw [show (n'.byte i) = n.byte i from hn'c.byte_eq i (by omega)]
      exact hbytes q d hq i hlo hhi
    · have hin := hl.inside
      have hps := hc.size_eq
      show addr + n'.sizeAt addr ≤ _
      rw [hn'.size_eq]
      show addr + n.sizeAt addr ≤ _
      rw [hsn]
      omega
    · exact hab.2.2.2.2
    · intro q d hq hqr
      show addr + n'.sizeAt addr ≤ _ ∨ _
      rw [hn'.size_eq]
      show addr + n.sizeAt addr ≤ _ ∨ _
      rw [hsn]
      exact hpapart q d hq
    · show _ ≤ n'.size
      rw [hsize']
      exact hs.halved.inside
    · exact hregion.trans hs.halved.region

theorem Sound.make (hs : h.Sound s) (k : Kind) (size : Nat) :
    (make k size).Ends h (fun r h' => ∃ addr, h'.Fresh s r k size addr) fun _ h' => h' = h := by
  intro a h' hr
  simp only [Heap.make, Action.runOn, ExceptT.run, ExceptT.mk, throw_bind, guard_not_eq_ok,
    bind_eq_ok] at hr
  obtain ⟨-, e, halloc, hr⟩ := hr
  obtain ⟨free, hl⟩ := hs.laid
  cases e with
  | error e =>
    simp only [pure_eq_ok, Prod.mk.injEq] at hr
    obtain ⟨rfl, rfl⟩ := hr
    rfl
  | ok e =>
    obtain ⟨addr, p⟩ := e
    simp only [bind_eq_ok, pure_eq_ok, Prod.mk.injEq, Prod.exists] at hr
    obtain ⟨r, h'', hadopt, rfl, rfl⟩ := hr
    obtain ⟨free', hl', -, -, hsize, -, hregion, -, hc, -⟩ := hl.alloc halloc
    exact ⟨addr, hs.fresh hl hl' hsize hregion hc hadopt⟩

theorem Fresh.self (hf : h.Fresh s r k size addr) (hkind : x.kind = k) (hroom : x.room ≤ size)
    (hfields : h.pool.memory.Fields addr x) : h.Made s r x := by
  subst hkind
  exact hf.made (hf.stamped.fill (Memory.ChangedIn.refl _ _ (addr + Block.headerSize))
    (Nat.le_trans hroom hf.room)
    (Nat.le_trans x.headerSize_le_room (Nat.le_trans hroom hf.room)) hfields)

theorem Fresh.fillIn (hf : h.Fresh s r k size addr) {f : Nat → Memory → Except Fault Memory}
    (hkind : x.kind = k) (hroom : x.room ≤ size)
    (hfill : ∀ n, f addr h.pool.memory = .ok n → ∃ hi, hi ≤ size ∧
      h.pool.memory.ChangedIn n (addr + Block.headerSize) (addr + hi) ∧ n.Fields addr x) :
    (fillIn r f).Ends h (fun _ h' => h'.Made s r x) fun _ _ => False := by
  subst hkind
  simp only [Heap.fillIn, Action.ends_update, bind_eq_ok, write_eq_ok]
  rintro h' ⟨a, hd, n, hn, rfl⟩
  rw [hf.deref_eq hd] at hn
  obtain ⟨hi, hhi, hc, hfields⟩ := hfill n hn
  exact hf.made (hf.stamped.fill hc (Nat.le_trans hroom hf.room) (Nat.le_trans hhi hf.room) hfields)

theorem Sound.makeNone (hs : h.Sound s) :
    makeNone.Ends h (fun r h' => h'.Made s r .none) fun _ h' => h' = h := by
  refine (hs.make .none Block.headerSize).imp (fun r h' => ?_) fun _ _ he => he
  rintro ⟨addr, hf⟩
  exact hf.self rfl (Nat.le_refl _) trivial

theorem Sound.makeBool (hs : h.Sound s) (b : Bool) :
    (makeBool b).Ends h (fun r h' => h'.Made s r (.bool b)) fun _ h' => h' = h := by
  simp only [Heap.makeBool, Action.ends_bind, Action.ends_pure]
  refine (hs.make .bool Block.headerSize).imp (fun r h' => ?_) fun _ _ he => he
  rintro ⟨addr, hf⟩
  simp only [Heap.fillIn, Action.ends_update, bind_eq_ok, write_eq_ok]
  rintro h'' ⟨a, hd, n, hn, rfl⟩
  rw [hf.deref_eq hd] at hn
  have hc := Memory.store_changedIn hn
  have hroom := hf.room
  simp only [Block.auxOffset, Block.headerSize] at hc hroom
  have hsize : n.sizeAt addr = h'.pool.memory.sizeAt addr := by
    unfold Memory.sizeAt
    exact hc.number_eq (by simp only [Block.sizeOffset]; omega)
  refine hf.made ⟨hc.mono (by omega) (by omega), hsize, ?_, ?_, ?_, ?_⟩
  · rw [← hf.stamped.count]
    unfold Memory.linkAt
    exact hc.number_eq (by simp only [Block.linkOffset]; omega)
  · rw [show (Content.bool b).kind.tag = Kind.bool.tag from rfl, ← hf.stamped.tag]
    unfold Memory.tagAt
    exact hc.number_eq (by omega)
  · rw [hsize]
    exact hroom
  · show (n.number (addr + Block.auxOffset) 4 != 0) = b
    rw [Memory.number_store hn]
    cases b <;> rfl

theorem Sound.makeInteger (hs : h.Sound s) (k : Int64) :
    (makeInteger k).Ends h (fun r h' => h'.Made s r (.integer k)) fun _ h' => h' = h := by
  simp only [Heap.makeInteger, Action.ends_bind, Action.ends_pure]
  refine (hs.make .integer Layout.integerSize).imp (fun r h' => ?_) fun _ _ he => he
  rintro ⟨addr, hf⟩
  refine (hf.fillIn rfl (Nat.le_refl _) fun n hn => ?_).imp (fun _ _ hm => hm) fun _ _ => False.elim
  refine ⟨Layout.integerSize, Nat.le_refl _, Memory.store_changedIn hn, ?_⟩
  show Int64.ofNat (n.number (addr + Layout.integerOffset) 8) = k
  rw [Memory.number_store hn, Memory.ofNat_int64]

theorem Layout.stringSize_eq_ok {length size : Nat} :
    Layout.stringSize length = .ok size ↔
      Layout.stringOffset + length + 1 < Word.limit ∧ Layout.stringOffset + length + 1 = size := by
  simp only [Layout.stringSize, Word.add, bind_eq_ok, Word.fit_eq_ok]
  constructor
  · rintro ⟨_, ⟨rfl, -⟩, rfl, hlt⟩
    exact ⟨hlt, rfl⟩
  · rintro ⟨hlt, rfl⟩
    exact ⟨_, ⟨rfl, by omega⟩, rfl, hlt⟩

theorem Sound.makeString (hs : h.Sound s) (bytes : List UInt8) :
    (makeString bytes).Ends h (fun r h' => h'.Made s r (.string bytes)) fun _ h' => h' = h := by
  simp only [Heap.makeString, Action.ends_bind, Action.ends_ite, Action.ends_fault,
    Action.ends_pure, Action.ends_liftM, Layout.stringSize_eq_ok]
  refine ⟨fun _ => trivial, fun hzero size hsize => ?_⟩
  obtain ⟨-, rfl⟩ := hsize
  refine (hs.make .string _).imp (fun r h' => ?_) fun _ _ he => he
  rintro ⟨addr, hf⟩
  refine (hf.fillIn (x := .string bytes) rfl (Nat.le_refl _) fun n hn => ?_).imp
    (fun _ _ hm => hm) fun _ _ => False.elim
  have hc := Memory.put_changedIn hn
  obtain ⟨hin, rfl⟩ := Memory.put_eq_ok.mp hn
  rw [List.length_append, List.length_singleton, Nat.add_assoc, ← Nat.add_assoc _ bytes.length]
    at hc
  refine ⟨_, Nat.le_refl _, hc, ?_, by simpa using hzero⟩
  have hput := Memory.bytesFrom_setBytes _ _ _ hin
  rw [List.length_append, List.length_singleton] at hput
  exact hput

theorem bytesFrom_of_string {m : Memory} {addr : Nat} {bytes : List UInt8}
    (h : m.Fields addr (.string bytes)) :
    m.bytesFrom (addr + Layout.stringOffset) bytes.length = bytes := by
  have hall := h.1
  rw [Memory.bytesFrom_add] at hall
  exact (List.append_inj hall (Memory.length_bytesFrom ..)).1

theorem fields_of_copies {m m₁ m₂ n : Memory} {addr left right : Nat} {l r : List UInt8}
    (hl : m.Fields left (.string l)) (hr : m.Fields right (.string r))
    (hright : right + Layout.stringOffset + r.length ≤ addr + Layout.stringOffset ∨
      addr + Layout.stringOffset + (l.length + r.length + 1) ≤ right + Layout.stringOffset)
    (h₁ : m.copy (left + Layout.stringOffset) (left + Layout.stringOffset + l.length)
      (addr + Layout.stringOffset) = .ok m₁)
    (h₂ : m₁.copy (right + Layout.stringOffset) (right + Layout.stringOffset + r.length)
      (addr + Layout.stringOffset + l.length) = .ok m₂)
    (h₃ : m₂.put (addr + Layout.stringOffset + l.length + r.length) [0] = .ok n) :
    m.ChangedIn n (addr + Layout.stringOffset)
      (addr + (Layout.stringOffset + (l ++ r).length + 1)) ∧ n.Fields addr (.string (l ++ r)) := by
  have c₁ := Memory.copy_changedIn h₁
  have c₂ := Memory.copy_changedIn h₂
  have c₃ := Memory.put_changedIn h₃
  simp only [Nat.add_sub_cancel_left, List.length_singleton] at c₁ c₂ c₃
  refine ⟨?_, ?_, ?_⟩
  · rw [List.length_append]
    exact ((c₁.mono (by omega) (by omega)).trans (c₂.mono (by omega) (by omega))).trans
      (c₃.mono (by omega) (by omega))
  · have hfst : n.bytesFrom (addr + Layout.stringOffset) l.length = l := by
      refine .trans ?_ (bytesFrom_of_string hl)
      refine Memory.bytesFrom_shift fun i hi => ?_
      rw [c₃.byte_eq _ (by omega), c₂.byte_eq _ (by omega), Memory.byte_copy h₁ (by omega)]
    have hsnd : n.bytesFrom (addr + Layout.stringOffset + l.length) r.length = r := by
      refine .trans ?_ (bytesFrom_of_string hr)
      refine Memory.bytesFrom_shift fun i hi => ?_
      rw [c₃.byte_eq _ (by omega), Memory.byte_copy h₂ (by omega), c₁.byte_eq _ (by omega)]
    have hend : n.bytesFrom (addr + Layout.stringOffset + (l.length + r.length)) 1 = [0] := by
      have hput := Memory.byte_put h₃ (i := 0) Nat.one_pos
      rw [Nat.add_zero, Nat.add_assoc _ l.length] at hput
      simp only [Memory.bytesFrom, hput, List.getElem_cons_zero]
    rw [List.length_append, Memory.bytesFrom_add, hend, Memory.bytesFrom_add, hfst, hsnd]
  · rw [List.mem_append, not_or]
    exact ⟨hl.2, hr.2⟩

theorem Sound.makeConcatenation (hs : h.Sound s) (left right : Reference) :
    (makeConcatenation left right).Ends h
      (fun r h' => ∃ x y, s.content left = some (.string x) ∧ s.content right = some (.string y) ∧
        h'.Made s r (.string (x ++ y)))
      fun _ h' => h' = h := by
  simp only [Heap.makeConcatenation, Action.ends_bind, Action.ends_read, Action.ends_pure,
    Action.ends_liftM, Layout.stringSize_eq_ok, hs.stringBytes_eq_ok]
  rintro x hx y hy size ⟨-, rfl⟩
  refine (hs.make .string _).imp (fun r h' => ?_) fun _ _ he => he
  rintro ⟨addr, hf⟩ leftAddr hleft rightAddr hright
  obtain ⟨c, hc, hxc⟩ := Store.content_eq_some.mp hx
  obtain ⟨d, hd, hyd⟩ := Store.content_eq_some.mp hy
  obtain rfl := hf.deref_old hc hleft
  obtain rfl := hf.deref_old hd hright
  have hcf := (hf.holds hc).fields
  have hdf := (hf.holds hd).fields
  have hdr := (hf.holds hd).room
  have hap := hf.apart hd
  have hroom := hf.room
  rw [hxc] at hcf
  rw [hyd] at hdf hdr
  simp only [Content.room] at hdr
  refine (hf.fillIn (x := .string (x ++ y)) rfl (Nat.le_of_eq ?_) fun n hn => ?_).imp
    (fun _ _ hm => ⟨x, y, hx, hy, hm⟩) fun _ _ => False.elim
  · simp only [Content.room, List.length_append]
  · simp only [bind_eq_ok] at hn
    obtain ⟨m₁, h₁, m₂, h₂, h₃⟩ := hn
    obtain ⟨hch, hfields⟩ := fields_of_copies hcf hdf (by omega) h₁ h₂ h₃
    exact ⟨_, Nat.le_of_eq (by rw [List.length_append]), hch, hfields⟩

theorem emptySlots_eq {m n : Memory} {addr count : Nat} (h : emptySlots m addr count = .ok n) :
    m.ChangedIn n addr (addr + count * 4) ∧ ∀ i, i < count → n.refAt (addr + i * 4) = .null := by
  induction count generalizing m addr with
  | zero =>
    cases h
    exact ⟨Memory.ChangedIn.refl _ _ _, fun i hi => absurd hi (Nat.not_lt_zero i)⟩
  | succ count ih =>
    simp only [emptySlots, bind_eq_ok] at h
    obtain ⟨m₁, hstore, hrest⟩ := h
    obtain ⟨hc, hnull⟩ := ih hrest
    have hc₁ := Memory.store_changedIn hstore
    refine ⟨(hc₁.mono (by omega) (by omega)).trans (hc.mono (by omega) (by omega)), ?_⟩
    intro i hi
    cases i with
    | zero =>
      rw [Nat.zero_mul, Nat.add_zero, hc.refAt_eq (by omega)]
      exact Memory.refAt_storeInt32 hstore
    | succ i =>
      have hi' := hnull i (by omega)
      rwa [show addr + 4 + i * 4 = addr + (i + 1) * 4 by omega] at hi'

theorem Layout.arraySize_eq_ok {capacity size : Nat} :
    Layout.arraySize capacity = .ok size ↔
      Layout.elementOffset capacity < Word.limit ∧ Layout.elementOffset capacity = size := by
  simp only [Layout.arraySize, Word.add, Word.mul, bind_eq_ok, Word.fit_eq_ok,
    Layout.elementOffset]
  constructor
  · rintro ⟨_, ⟨rfl, -⟩, rfl, hlt⟩
    exact ⟨hlt, rfl⟩
  · rintro ⟨hlt, rfl⟩
    exact ⟨_, ⟨rfl, by omega⟩, rfl, hlt⟩

section Payloads

variable {m₁ m₂ m₃ m₄ m₅ : Memory} {addr capacity size occupied : Nat} {keys values : Int32}

theorem changedIn_of_array
    (hstore : m₁.store64 (addr + Layout.capacityOffset) capacity = .ok m₂)
    (hempty : emptySlots m₂ (addr + Layout.elementsOffset) capacity = .ok m₃) :
    m₁.ChangedIn m₃ (addr + Block.headerSize) (addr + Layout.elementOffset capacity) := by
  have hc₁ := Memory.store_changedIn hstore
  have hc₂ := (emptySlots_eq hempty).1
  simp only [Layout.capacityOffset, Layout.elementsOffset] at hc₁ hc₂
  simp only [Block.headerSize, Layout.elementOffset, Layout.elementsOffset]
  exact (hc₁.mono (by omega) (by omega)).trans (hc₂.mono (by omega) (by omega))

theorem changedIn_of_list (hsize : m₁.store64 (addr + Layout.listSizeOffset) size = .ok m₂)
    (hvalues : m₂.storeInt32 (addr + Layout.listValuesOffset) values = .ok m₃) :
    m₁.ChangedIn m₃ (addr + Block.headerSize) (addr + Layout.listSize) := by
  have hc₁ := Memory.store_changedIn hsize
  have hc₂ := Memory.store_changedIn hvalues
  simp only [Layout.listSizeOffset, Layout.listValuesOffset] at hc₁ hc₂
  simp only [Block.headerSize, Layout.listSize]
  exact (hc₁.mono (by omega) (by omega)).trans (hc₂.mono (by omega) (by omega))

theorem changedIn_of_dict (hsize : m₁.store64 (addr + Layout.dictSizeOffset) size = .ok m₂)
    (hoccupied : m₂.store64 (addr + Layout.dictOccupiedOffset) occupied = .ok m₃)
    (hkeys : m₃.storeInt32 (addr + Layout.dictKeysOffset) keys = .ok m₄)
    (hvalues : m₄.storeInt32 (addr + Layout.dictValuesOffset) values = .ok m₅) :
    m₁.ChangedIn m₅ (addr + Block.headerSize) (addr + Layout.dictSize) := by
  have hc₁ := Memory.store_changedIn hsize
  have hc₂ := Memory.store_changedIn hoccupied
  have hc₃ := Memory.store_changedIn hkeys
  have hc₄ := Memory.store_changedIn hvalues
  simp only [Layout.dictSizeOffset, Layout.dictOccupiedOffset, Layout.dictKeysOffset,
    Layout.dictValuesOffset] at hc₁ hc₂ hc₃ hc₄
  simp only [Block.headerSize, Layout.dictSize]
  exact (((hc₁.mono (by omega) (by omega)).trans (hc₂.mono (by omega) (by omega))).trans
    (hc₃.mono (by omega) (by omega))).trans (hc₄.mono (by omega) (by omega))

end Payloads

theorem Sound.makeArray (hs : h.Sound s) (capacity : Nat) :
    (makeArray capacity).Ends h
      (fun r h' => h'.Made s r (.array (.replicate capacity .null))) fun _ h' => h' = h := by
  simp only [Heap.makeArray, Action.ends_bind, Action.ends_pure, Action.ends_liftM,
    Layout.arraySize_eq_ok]
  rintro size ⟨hlt, rfl⟩
  refine (hs.make .array _).imp (fun r h' => ?_) fun _ _ he => he
  rintro ⟨addr, hf⟩
  have hroom := hf.room
  simp only [Layout.elementOffset, Layout.elementsOffset] at hlt hroom
  refine (hf.fillIn (x := .array (.replicate capacity .null)) rfl (Nat.le_of_eq ?_)
    fun n hn => ?_).imp (fun _ _ hm => hm) fun _ _ => False.elim
  · rw [Content.room, List.length_replicate]
  · simp only [bind_eq_ok] at hn
    obtain ⟨m, hstore, hempty⟩ := hn
    obtain ⟨hc₂, hnull⟩ := emptySlots_eq hempty
    simp only [Layout.elementsOffset] at hc₂ hnull
    refine ⟨Layout.elementOffset capacity, Nat.le_refl _, changedIn_of_array hstore hempty, ?_, ?_⟩
    · rw [List.length_replicate, Layout.capacityOffset, hc₂.number_eq (by omega)]
      exact (Memory.number_store hstore).trans
        (Nat.mod_eq_of_lt (by simp only [Word.limit] at hlt; omega))
    · intro i q hi
      obtain ⟨hilt, hq⟩ := List.getElem?_eq_some_iff.mp hi
      rw [List.getElem_replicate] at hq
      rw [List.length_replicate] at hilt
      rw [← hq, ← hnull i hilt, Layout.elementOffset, Layout.elementsOffset, Nat.add_assoc]

theorem Sound.checkArray (hs : h.Sound s) (r : Reference) :
    (checkArray r).Ends h
      (fun _ h' => h' = h ∧ ∃ xs, s.content r = some (.array xs)) fun _ _ => False := by
  simp only [Heap.checkArray, Action.ends_read, bind_eq_ok, hs.kindOf_eq_ok, guard_eq_ok]
  rintro - ⟨_, ⟨x, hx, rfl⟩, hk, -⟩
  cases x with
  | array xs => exact ⟨trivial, xs, hx⟩
  | _ => cases hk

theorem Sound.makeList (hs : h.Sound s) (values : Reference) :
    (makeList values).Ends h
      (fun r h' => (∃ xs, s.content values = some (.array xs)) ∧ h'.Made s r (.list 0 values))
      fun _ h' => h' = h := by
  simp only [Heap.makeList, Action.ends_bind, Action.ends_pure]
  refine (hs.checkArray values).imp ?_ fun _ _ => False.elim
  rintro - _ ⟨rfl, hx⟩
  refine (hs.make .list _).imp (fun r h' => ?_) fun _ _ he => he
  rintro ⟨addr, hf⟩
  refine (hf.fillIn (x := .list 0 values) rfl (Nat.le_refl _) fun n hn => ?_).imp
    (fun _ _ hm => ⟨hx, hm⟩) fun _ _ => False.elim
  simp only [bind_eq_ok] at hn
  obtain ⟨m, hsize, hvalues⟩ := hn
  have hc := Memory.store_changedIn hvalues
  simp only [Layout.listValuesOffset] at hc
  refine ⟨Layout.listSize, Nat.le_refl _, changedIn_of_list hsize hvalues, ?_,
    Memory.refAt_storeInt32 hvalues⟩
  rw [hc.number_eq (by simp only [Layout.listSizeOffset]; omega)]
  exact Memory.number_store hsize

theorem Sound.makeDict (hs : h.Sound s) (keys values : Reference) :
    (makeDict keys values).Ends h
      (fun r h' => (∃ xs ys, s.content keys = some (.array xs) ∧
          s.content values = some (.array ys) ∧ xs.length = ys.length) ∧
        h'.Made s r (.dict 0 0 keys values))
      fun _ h' => h' = h := by
  simp only [Heap.makeDict, Action.ends_bind]
  refine (hs.checkArray keys).imp ?_ fun _ _ => False.elim
  rintro - _ ⟨rfl, -⟩
  refine (hs.checkArray values).imp ?_ fun _ _ => False.elim
  rintro - _ ⟨rfl, -⟩
  simp only [Action.ends_read, Action.ends_ite, Action.ends_fault, Action.ends_bind,
    Action.ends_pure, hs.arrayCapacity_eq_ok]
  rintro _ ⟨xs, hx, rfl⟩ _ ⟨ys, hy, rfl⟩
  refine ⟨fun hlen => ?_, fun _ => trivial⟩
  refine (hs.make .dict _).imp (fun r h' => ?_) fun _ _ he => he
  rintro ⟨addr, hf⟩
  refine (hf.fillIn (x := .dict 0 0 keys values) rfl (Nat.le_refl _) fun n hn => ?_).imp
    (fun _ _ hm => ⟨⟨xs, ys, hx, hy, hlen⟩, hm⟩) fun _ _ => False.elim
  simp only [bind_eq_ok] at hn
  obtain ⟨m₁, hsize, m₂, hoccupied, m₃, hkeys, hvalues⟩ := hn
  have hc := changedIn_of_dict hsize hoccupied hkeys hvalues
  have hc₂ := Memory.store_changedIn hoccupied
  have hc₃ := Memory.store_changedIn hkeys
  have hc₄ := Memory.store_changedIn hvalues
  simp only [Layout.dictSizeOffset, Layout.dictOccupiedOffset, Layout.dictKeysOffset,
    Layout.dictValuesOffset] at hc₂ hc₃ hc₄ hsize hoccupied hkeys hvalues
  refine ⟨Layout.dictSize, Nat.le_refl _, hc, ?_, ?_, ?_, Memory.refAt_storeInt32 hvalues⟩
  · rw [Layout.dictSizeOffset, hc₄.number_eq (by omega), hc₃.number_eq (by omega),
      hc₂.number_eq (by omega)]
    exact Memory.number_store hsize
  · rw [Layout.dictOccupiedOffset, hc₄.number_eq (by omega), hc₃.number_eq (by omega)]
    exact Memory.number_store hoccupied
  · rw [Layout.dictKeysOffset, hc₄.refAt_eq (by omega)]
    exact Memory.refAt_storeInt32 hkeys

end Heap
end CountedHeap
