import CountedHeap.Proofs.Bijection
import CountedHeap.Proofs.Lines

/-!
A dump is complete. The walk over the active half meets each block once, the table leads from the
block of a value back to its one reference, and what is decoded there is what the line shows. A
string with a line break in it is the one thing that makes a dump longer than a line a block.
-/

namespace CountedHeap

namespace Heap

open Printer

variable {h : Heap} {s : Store} {r : Reference} {c : Cell} {xs : List Reference}

section Emitting

variable (hs : h.Stored s)
include hs

theorem Stored.dumpElements_emits {index count : Nat} (hr : s r = some c)
    (hx : c.content = .array xs) (hfits : index + count = xs.length) (hlater : 0 < index) :
    (h.dumpElements ⟨c.addr, xs.length⟩ index count).Emits
      (String.join ((xs.drop index).map fun q => ", " ++ q.text)) := by
  induction count generalizing index with
  | zero =>
    rw [List.drop_eq_nil_of_le (by omega)]
    exact emits_pure
  | succ count ih =>
    have hlt : index < xs.length := by omega
    have hget := hs.slotsGet_eq hr hx index
    rw [List.getElem?_eq_getElem hlt] at hget
    rw [List.drop_eq_getElem_cons hlt, List.map_cons, String.join_cons]
    simp only [dumpElements, memory_eq, hget, printer_ok_bind, if_pos hlater]
    rw [String.append_assoc]
    exact (emits_write ", ").bind ((emits_write _).bind (ih (by omega) (by omega)))

theorem Stored.dumpSlots_emits (hr : s r = some c) (hx : c.content = .array xs) :
    (h.dumpElements ⟨c.addr, xs.length⟩ 0 xs.length).Emits
      (", ".intercalate (xs.map Reference.text)) := by
  cases xs with
  | nil => exact emits_pure
  | cons q rest =>
    have hget := hs.slotsGet_eq hr hx 0
    have hrest := hs.dumpElements_emits hr hx (Nat.add_comm 1 _) Nat.one_pos
    rw [List.map_cons, intercalate_cons, List.map_map]
    simp only [List.length_cons, dumpElements, memory_eq, Nat.lt_irrefl, if_false]
    rw [show (Slots.mk c.addr (rest.length + 1)).get h.pool.memory 0 = .ok q from hget,
      printer_ok_bind]
    exact (emits_write _).bind hrest

theorem Stored.dumpContents_emits (hr : s r = some c) :
    (h.dumpContents r).Emits (c.content.shown ++ "\n") := by
  have hvalue := hs.value_eq hr
  have hcontent := Store.content_of hr
  have hline {t : String} (hp : (h.writeAs (fun q => h.writeNested q 0 true) c.content.kind r
      true).Emits t) :
      (do Printer.write "value = "; h.writeNested r 1 true; Printer.write "\n").Emits
        ("value = " ++ t ++ "\n") := by
    rw [String.append_assoc, writeNested, hs.kindOf_eq hr, printer_ok_bind]
    exact (emits_write _).bind (hp.bind (emits_write _))
  rw [dumpContents, hvalue, printer_ok_bind]
  cases hx : c.content with
  | none =>
    refine hline (t := "None") ?_
    rw [hx] at hvalue ⊢
    simp only [Content.kind, writeAs, hvalue, printer_ok_bind]
    exact emits_write _
  | bool b =>
    refine hline (t := if b then "True" else "False") ?_
    rw [hx] at hvalue ⊢
    simp only [Content.kind, writeAs, hvalue, printer_ok_bind]
    cases b <;> exact emits_write _
  | integer n =>
    refine hline ?_
    rw [hx] at hcontent ⊢
    simp only [Content.kind, writeAs, hs.integer_eq hcontent, printer_ok_bind]
    exact emits_write _
  | string bytes =>
    have hbytes : h.stringBytes r = .ok bytes := hs.stringBytes_eq_ok.mpr (hx ▸ hcontent)
    have hquoted : (h.writeAs (fun q => h.writeNested q 0 true) c.content.kind r true).Emits
        ("\"" ++ (Utf8.decode bytes ++ "\"")) := by
      simp only [hx, Content.kind, writeAs, hbytes, printer_ok_bind, if_true]
      exact (emits_write _).bind ((emits_write _).bind (emits_write _))
    have hshown : (Content.string bytes).shown =
        "value = " ++ ("\"" ++ (Utf8.decode bytes ++ "\"")) := by
      show "value = " ++ "\"" ++ Utf8.decode bytes ++ "\"" = _
      rw [String.append_assoc, String.append_assoc]
    rw [hshown]
    exact hline hquoted
  | list | dict => exact emits_write _
  | array xs =>
    have helements := hs.dumpSlots_emits hr hx
    simp only [Content.shown, String.append_assoc]
    exact (emits_write _).bind (helements.bind (emits_write "]\n"))

end Emitting

section Blocks

def lineAt (h : Heap) (s : Store) (a : Nat) : Line :=
  let b := h.pool.memory.header a
  if b.isFree then .free a b.size
  else
    let r := (h.table.find? a).getD .null
    .value a b.size r b.link ((s.content r).getD .none)

theorem extent_lineAt (a : Nat) :
    (h.lineAt s a).extent = (a, h.pool.memory.sizeAt a) := by
  unfold lineAt
  dsimp only
  split <;> rfl

theorem lineAt_free {a : Nat} (ha : (h.pool.memory.header a).isFree = true) :
    h.lineAt s a = .free a (h.pool.memory.sizeAt a) := if_pos ha

variable (hs : h.Sound s)
include hs

theorem Sound.find?_eq (hr : s r = some c) : h.table.find? c.addr = some r := by
  obtain ⟨free, hl⟩ := hs.laid
  exact Table.find?_eq (List.nodup_append.mp hl.nodup).2.1 hs.small (hs.get?_eq hr)

theorem Sound.lineAt_value (hr : s r = some c) :
    h.lineAt s c.addr =
      .value c.addr (h.pool.memory.sizeAt c.addr) r c.count c.content := by
  have hlink : (h.pool.memory.header c.addr).link = c.count := hs.count hr
  simp only [lineAt, hs.not_free hr, hs.find?_eq hr, hlink, Option.getD_some, Store.content_of hr]
  rfl

theorem Sound.lineAt_taken {a : Nat} (ha : a ∈ h.table.addresses) : ∃ r c, s r = some c ∧
    c.addr = a ∧ h.lineAt s a = .value a (h.pool.memory.sizeAt a) r c.count c.content := by
  obtain ⟨r, hget⟩ := (Table.mem_addresses hs.small).mp ha
  obtain ⟨c, hc, rfl⟩ := hs.get?_eq_some.mp hget
  exact ⟨r, c, hc, rfl, hs.lineAt_value hc⟩

theorem Sound.dumpBlock_emits {free : List Nat} (hl : h.pool.Laid free h.table.addresses)
    {a : Nat} (ha : a ∈ free ++ h.table.addresses) :
    (h.dumpBlock (h.pool.memory.header a)).Emits ((h.lineAt s a).text ++ "\n") := by
  rcases List.mem_append.mp ha with hfree | htaken
  · have hisFree := hl.chained.isFree_of_mem hfree
    rw [lineAt_free hisFree, dumpBlock, if_pos hisFree]
    simp only [Line.text, Line.opening, String.append_assoc]
    exact emits_write _
  · obtain ⟨r, c, hc, rfl, hline⟩ := hs.lineAt_taken htaken
    have hkind : Kind.ofTag? (h.pool.memory.header c.addr).tag = some c.content.kind :=
      (congrArg Kind.ofTag? (hs.holds hc).tag).trans (Kind.ofTag?_tag _)
    have hlink : (h.pool.memory.header c.addr).link = c.count := hs.count hc
    rw [hline, dumpBlock, hs.not_free hc]
    simp only [Memory.header_addr, Memory.header_size, hlink, hs.find?_eq hc, Option.getD_some,
      hs.isLive hc, if_true, hkind, Line.text, Line.opening, Bool.false_eq_true, if_false]
    refine ((emits_write _).bind ((emits_write _).bind (hs.dumpContents_emits hc))).of_eq ?_
    simp only [String.append_assoc]
    rfl

theorem Sound.dumpFrom_emits {free : List Nat} (hl : h.pool.Laid free h.table.addresses)
    {fuel start : Nat} {rest : List Nat}
    (htiles : Tiles h.pool.memory h.pool.region.stop start rest)
    (hfuel : rest.length ≤ fuel) (hrest : ∀ a ∈ rest, a ∈ free ++ h.table.addresses) :
    (h.dumpFrom fuel start).Emits (Line.joined (rest.map (h.lineAt s))) := by
  induction fuel generalizing start rest with
  | zero =>
    rw [List.eq_nil_of_length_eq_zero (Nat.le_zero.mp hfuel)]
    exact emits_pure
  | succ fuel ih =>
    cases rest with
    | nil =>
      rw [dumpFrom, if_pos (Nat.le_of_eq (Eq.symm htiles))]
      exact emits_pure
    | cons a rest =>
      have hvisit := hl.visit_of_tiles htiles
      obtain ⟨-, hhi, hsize, -⟩ := htiles.mem_bounds List.mem_cons_self
      obtain ⟨rfl, -, -, hnext⟩ := htiles
      simp only [Block.headerSize] at hsize
      have hhere := hs.dumpBlock_emits hl (hrest _ List.mem_cons_self)
      have hothers := ih hnext (Nat.le_of_succ_le_succ hfuel) fun b hb =>
        hrest b (List.mem_cons_of_mem _ hb)
      simp only [dumpFrom, if_neg (show ¬h.pool.region.stop ≤ a by omega), hvisit, printer_ok_bind]
      exact (hhere.bind hothers).of_eq (Line.joined_cons ..).symm

end Blocks

/-- Each value in use has a line of its own, with its block, its count and its kind. -/
structure Shown (h : Heap) (lines : List Line) : Prop where
  occupied : ∀ r, r ∈ lines.filterMap Line.reference? ↔ h.Occupied r
  once : (lines.filterMap Line.reference?).Nodup
  number : (lines.filterMap Line.reference?).length = h.refsUsed
  fields : ∀ addr size r count x, .value addr size r count x ∈ lines →
    h.deref r = .ok addr ∧ h.blockSize r = .ok size ∧ h.refcount r = .ok count ∧
      h.kindOf r = .ok x.kind ∧ h.value r = .ok (x.value addr)

/-- A dump consists of these lines, one for each block of the active half. -/
structure Dumped (h : Heap) (blocks free : List Block) (lines : List Line) : Prop where
  text : h.dump.text = .ok (Line.joined lines)
  walk : h.pool.blocks = .ok blocks
  extents : lines.map Line.extent = blocks.map fun b => (b.addr, b.size)
  abut : Block.Abut h.active.stop h.active.start blocks
  total : Block.total blocks = h.config.halfSize
  list : h.pool.freeBlocks = .ok free
  free : (lines.filter (·.isFree)).Perm (free.map fun b => .free b.addr b.size)
  values : h.Shown lines
  /-- The text has as many lines as there are blocks, unless a string has a line break in it. -/
  number : (Line.joined lines).toList.count '\n' = blocks.length ↔
    ∀ r bytes, h.stringBytes r = .ok bytes → 0x0A ∉ bytes
  split : (∀ r bytes, h.stringBytes r = .ok bytes → 0x0A ∉ bytes) →
    (Line.joined lines).toList.splitOn '\n' = lines.map (·.text.toList) ++ [[]]

section Dumping

variable (hs : h.Sound s) {free : List Nat} (hl : h.pool.Laid free h.table.addresses)
include hs hl

variable {addresses : List Nat} (hperm : (free ++ h.table.addresses).Perm addresses)
include hperm

theorem Sound.lines_free : ((addresses.map (h.lineAt s)).filter (·.isFree)).Perm
    ((free.map h.pool.memory.header).map fun b => .free b.addr b.size) := by
  have hfree : ∀ a ∈ free, h.lineAt s a = .free a (h.pool.memory.sizeAt a) := fun a ha =>
    lineAt_free (hl.chained.isFree_of_mem ha)
  have hall : (free.map (h.lineAt s)).filter (·.isFree) = free.map (h.lineAt s) := by
    refine List.filter_eq_self.mpr fun l hmem => ?_
    obtain ⟨a, ha, rfl⟩ := List.mem_map.mp hmem
    rw [hfree a ha]
    rfl
  have hnone : (h.table.addresses.map (h.lineAt s)).filter (·.isFree) = [] := by
    refine List.filter_eq_nil_iff.mpr fun l hmem => ?_
    obtain ⟨a, ha, rfl⟩ := List.mem_map.mp hmem
    obtain ⟨r, c, -, -, hline⟩ := hs.lineAt_taken ha
    rw [hline]
    exact Bool.false_ne_true
  refine ((hperm.symm.map _).filter _).trans (List.Perm.of_eq ?_)
  rw [List.map_append, List.filter_append, hall, hnone, List.append_nil, List.map_map]
  exact List.map_congr_left hfree

theorem Sound.lines_references : ((addresses.map (h.lineAt s)).filterMap Line.reference?).Perm
    (h.table.entries.map Prod.fst) := by
  have hnone : (free.map (h.lineAt s)).filterMap Line.reference? = [] := by
    refine List.filterMap_eq_nil_iff.mpr fun l hmem => ?_
    obtain ⟨a, ha, rfl⟩ := List.mem_map.mp hmem
    rw [lineAt_free (hl.chained.isFree_of_mem ha)]
    rfl
  refine ((hperm.symm.map _).filterMap _).trans (List.Perm.of_eq ?_)
  rw [List.map_append, List.filterMap_append, hnone, List.nil_append, ← Table.map_entries,
    List.map_map, List.filterMap_map, ← List.filterMap_eq_map]
  refine List.filterMap_congr fun e he => ?_
  have hget := (Table.mem_entries hs.small).mp he
  obtain ⟨c, hc, haddr⟩ := hs.get?_eq_some.mp hget
  show (h.lineAt s e.2).reference? = some e.1
  rw [← haddr, hs.lineAt_value hc]
  rfl

theorem Sound.lines_shown : h.Shown (addresses.map (h.lineAt s)) := by
  have hreferences := hs.lines_references hl hperm
  refine ⟨fun r => ?_, ?_, ?_, fun addr size r count x hmem => ?_⟩
  · rw [hreferences.mem_iff]
    simp only [List.mem_map, Prod.exists, exists_and_right, exists_eq_right,
      Table.mem_entries hs.small]
    exact Option.ne_none_iff_exists'.symm
  · rw [hreferences.nodup_iff]
    have hsorted := List.pairwise_map.mp (Table.pairwise_entries hs.small)
    exact List.pairwise_map.mpr
      (hsorted.imp fun hlt heq => Nat.ne_of_lt hlt (congrArg Reference.index heq))
  · rw [hreferences.length_eq, List.length_map, ← List.length_map (f := Prod.snd),
      Table.map_entries, ← Table.used_eq]
    rfl
  · obtain ⟨a, ha, hline⟩ := List.mem_map.mp hmem
    rcases List.mem_append.mp (hperm.mem_iff.mpr ha) with hfree | htaken
    · rw [lineAt_free (hl.chained.isFree_of_mem hfree)] at hline
      cases hline
    · obtain ⟨q, c, hc, rfl, hvalue⟩ := hs.lineAt_taken htaken
      rw [hvalue] at hline
      cases hline
      exact ⟨hs.deref_eq hc, hs.blockSize_eq hc, hs.refcount_eq hc, hs.kindOf_eq hc, hs.value_eq hc⟩

theorem Sound.lines_unbroken : (∀ l ∈ addresses.map (h.lineAt s), Unbroken l.text) ↔
    ∀ r bytes, h.stringBytes r = .ok bytes → 0x0A ∉ bytes := by
  simp only [List.forall_mem_map, Line.unbroken_text]
  constructor
  · intro hall r bytes hbytes
    obtain ⟨c, hc, hx⟩ := Store.content_eq_some.mp (hs.stringBytes_eq_ok.mp hbytes)
    have hmem := Table.mem_addresses_of_get? (hs.get?_eq hc)
    refine hall c.addr (hperm.mem_iff.mp (List.mem_append_right free hmem)) bytes ?_
    rw [hs.lineAt_value hc, hx]
    rfl
  · intro hno a ha bytes hx
    rcases List.mem_append.mp (hperm.mem_iff.mpr ha) with hfree | htaken
    · rw [lineAt_free (hl.chained.isFree_of_mem hfree)] at hx
      cases hx
    · obtain ⟨r, c, hc, -, hline⟩ := hs.lineAt_taken htaken
      rw [hline] at hx
      refine hno r bytes (hs.stringBytes_eq_ok.mpr ?_)
      rw [Store.content_of hc]
      exact hx

end Dumping

theorem Sound.dumped (hs : h.Sound s) : ∃ blocks free lines, h.Dumped blocks free lines := by
  obtain ⟨free, hl⟩ := hs.laid
  obtain ⟨addresses, htiles, hperm⟩ := hl.tiled
  have hregion := hs.halved.region
  have hemits : h.dump.Emits (Line.joined (addresses.map (h.lineAt s))) := by
    refine hs.dumpFrom_emits hl htiles ?_ fun a ha => hperm.mem_iff.mpr ha
    have hlength := htiles.length_le
    unfold Span.size
    omega
  refine ⟨addresses.map h.pool.memory.header, free.map h.pool.memory.header,
    addresses.map (h.lineAt s), hemits.text_eq, hl.blocks_of_tiles htiles, ?_, hregion ▸ htiles.abut,
    ?_, hl.walk_eq _, hs.lines_free hl hperm, hs.lines_shown hl hperm, ?_, fun hno => ?_⟩
  · rw [List.map_map, List.map_map]
    exact List.map_congr_left fun a _ => extent_lineAt a
  · have hsum := htiles.sum_sizes
    have hhalf := hs.halved.size_eq
    unfold Span.size at hhalf
    rw [Block.total_eq, List.map_map]
    show (addresses.map h.pool.memory.sizeAt).sum = _
    omega
  · rw [List.length_map, ← List.length_map (f := h.lineAt s), (Line.count_joined _).2]
    exact hs.lines_unbroken hl hperm
  · exact Line.splitOn_joined ((hs.lines_unbroken hl hperm).mpr hno)

end Heap

namespace Client

open Heap

variable {rule : Client → Request → Bool} {c : Client}

/-- Whatever a client has asked for, the dump accounts for each block and each value once. -/
theorem Run.heap_dumped (hrun : Run rule c) :
    ∃ blocks free lines, c.heap.Dumped blocks free lines := by
  obtain ⟨s, hs⟩ := hrun.consistent
  exact hs.dumped

theorem sample_dumped : ∃ c, sample = some c ∧
    ∃ blocks free lines, c.heap.Dumped blocks free lines := by
  obtain ⟨c, hc, -⟩ := sample_collects
  exact ⟨c, hc, (Run.session hc).heap_dumped⟩

def torn : Option Client :=
  session allows { poolSize := 64 } [.makeString [0x61, 0x0A, 0x62]]

theorem torn_dump_breaks : ¬∀ c blocks text, Run allows c → c.heap.pool.blocks = .ok blocks →
    c.heap.dump.text = .ok text → text.toList.count '\n' = blocks.length := by
  intro hall
  have hstring : (torn.any fun c =>
      (c.heap.stringBytes (.ofIndex 0)).toOption == some [0x61, 0x0A, 0x62]) = true := by
    decide +kernel
  obtain ⟨c, hc, hbytes⟩ := (Option.any_eq_true ..).mp hstring
  have hrun := Run.session hc
  obtain ⟨s, hs⟩ := hrun.consistent
  obtain ⟨blocks, free, lines, hd⟩ := hs.dumped
  have hcount := hall c blocks _ hrun hd.walk hd.text
  exact hd.number.mp hcount _ _ (eq_ok_of_toOption hbytes) (by decide)

end Client
end CountedHeap
