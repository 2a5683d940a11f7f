import CountedHeap.Proofs.Alike
import CountedHeap.Proofs.Operating
import CountedHeap.Session.Builtin

/-!
Text that can be written. Where the account of a heap is kept, whatever a text asks about is there:
a value that users see, what a list or dict holds, and the blocks of the active half. So a text is
cut off only where the output has no room for all of it.
-/

namespace CountedHeap

namespace Printer

def Writes (p : Printer Unit) : Prop := ∀ out f, (p.run.run out).1 ≠ .error (.fault f)

theorem run_bind {α β : Type} (p : Printer α) (q : α → Printer β) (out : Output) :
    (p >>= q).run.run out = match p.run.run out with
      | (.ok a, out') => (q a).run.run out'
      | (.error e, out') => (.error e, out') := by
  show (match p.run.run out with
      | (a, out') => (ExceptT.bindCont q a).run out') = _
  rcases p.run.run out with ⟨a | e, out'⟩ <;> rfl

theorem writes_pure : (pure () : Printer Unit).Writes := nofun

theorem writes_write (s : String) : (write s).Writes := by
  rintro ⟨text, _ | room⟩ f
  · nofun
  · change ((if s.utf8ByteSize ≤ room then _ else _ : Printer Unit).run.run _).1 ≠ _
    split <;> nofun

theorem Writes.bind {p q : Printer Unit} (hp : p.Writes) (hq : q.Writes) :
    (p >>= fun _ => q).Writes := by
  intro out f hrun
  have hfirst := hp out f
  rw [run_bind] at hrun
  rcases heq : p.run.run out with ⟨e | a, out'⟩
  · rw [heq] at hrun hfirst
    exact hfirst hrun
  · rw [heq] at hrun
    exact hq out' f hrun

theorem Writes.ite {c : Prop} [Decidable c] {p q : Printer Unit} (hp : p.Writes)
    (hq : q.Writes) : (if c then p else q).Writes := by
  split
  · exact hp
  · exact hq

theorem Writes.forM {α : Type} {item : α → Printer Unit} {items : List α}
    (hitem : ∀ a ∈ items, (item a).Writes) : (items.forM item).Writes := by
  induction items with
  | nil => exact writes_pure
  | cons a rest ih =>
    exact (hitem a List.mem_cons_self).bind (ih fun b hb => hitem b (List.mem_cons_of_mem a hb))

theorem Writes.print {p : Printer Unit} (hp : p.Writes) (room : Option Nat) :
    ∃ out, p.print room = .ok out := by
  have hrun := hp ⟨"", room⟩
  unfold Printer.print
  split
  case h_1 => exact ⟨_, rfl⟩
  case h_2 => exact ⟨_, rfl⟩
  case h_3 f _ hfault => exact absurd (congrArg Prod.fst hfault) (hrun f)

end Printer

namespace Store

variable {s : Store} {arrays owned ks vs xs : List Reference}
  {dict keys values key q r : Reference} {x : Content} {size occupied i : Nat}

theorem seen_of_not_isArray (hr : s.content r = some x) (hno : ¬s.IsArray r) : Heap.Seen s r := by
  refine ⟨x, hr, fun hkind => hno ?_⟩
  cases x with
  | array xs => exact ⟨xs, hr⟩
  | _ => cases hkind

theorem Ledger.owner_seen (hl : s.Ledger arrays owned) (hr : r ∈ owned) (hlive : r.isLive = true) :
    Heap.Seen s r := by
  have hcount := List.count_pos_iff.mpr (List.mem_append_right arrays hr)
  obtain ⟨x, hx⟩ := hl.exact.occupied hlive (Nat.add_pos_left hcount _)
  exact seen_of_not_isArray hx (hl.visible r hr)

theorem Ledger.slot_seen (hl : s.Ledger arrays owned) (hr : s.content r = some (.array xs))
    (hi : xs[i]? = some q) (hlive : q.isLive = true) : Heap.Seen s q := by
  have hmem := List.mem_of_getElem? hi
  have hheld : q ∈ s.held r := by
    rw [held_of_content hr]
    exact List.mem_filter.mpr ⟨hmem, hlive⟩
  obtain ⟨x, hx⟩ := hl.occupied_of_held hheld
  exact seen_of_not_isArray hx (hl.plain hr hmem)

theorem Ledger.entry_seen (hl : s.Ledger arrays owned)
    (hd : s.content dict = some (.dict size occupied keys values))
    (hk : s.content keys = some (.array ks)) (hv : s.content values = some (.array vs))
    (hi : ks[i]? = some key) (hlive : key.isLive = true) :
    ∃ value, vs[i]? = some value ∧ Heap.Seen s key ∧ Heap.Seen s value := by
  have htabled := hl.tabled hd hk hv
  have hlt : i < vs.length := htabled.paired ▸ (List.getElem?_eq_some_iff.mp hi).1
  have hvi := List.getElem?_eq_getElem hlt
  exact ⟨_, hvi, hl.slot_seen hk hi hlive, hl.slot_seen hv hvi (htabled.value_live hi hlive hvi)⟩

end Store

namespace Heap

open Printer

variable {h : Heap} {s : Store} {arrays owned : List Reference} {r values : Reference} {c : Cell}
  {ks vs xs : List Reference} {item : Reference → Printer Unit}

section Contents

variable (hs : h.Stored s)
include hs

theorem Stored.writeElements_writes (hr : s.content values = some (.array xs)) {index count : Nat}
    (hfits : index + count ≤ xs.length)
    (hitem : ∀ (i : Nat) q, i < index + count → xs[i]? = some q → (item q).Writes) :
    (h.writeElements item values index count).Writes := by
  induction count generalizing index with
  | zero => exact writes_pure
  | succ count ih =>
    have hi := List.getElem?_eq_getElem (show index < xs.length by omega)
    have hrest := ih (show index + 1 + count ≤ xs.length by omega) fun i q hlt =>
      hitem i q (by omega)
    have hfirst := (hitem index _ (by omega) hi).bind hrest
    rw [writeElements]
    simp only [hs.arrayGet_answers hr hi, printer_ok_bind]
    exact .ite ((writes_write ", ").bind hfirst) hfirst

theorem Stored.writeEntries_writes (hr : s.content values = some (.array vs)) {keys : Slots}
    (hkeys : ∀ (i : Nat) k, ks[i]? = some k → keys.get h.memory i = .ok k)
    (hitem : ∀ (i : Nat) k, ks[i]? = some k → k.isLive = true →
      ∃ v, vs[i]? = some v ∧ (item k).Writes ∧ (item v).Writes)
    {slot count : Nat} (hfits : slot + count ≤ ks.length) (first : Bool) :
    (h.writeEntries item keys values first slot count).Writes := by
  induction count generalizing slot first with
  | zero => exact writes_pure
  | succ count ih =>
    have hi := List.getElem?_eq_getElem (show slot < ks.length by omega)
    have hrest (first : Bool) := ih (show slot + 1 + count ≤ ks.length by omega) first
    simp only [writeEntries, hkeys slot _ hi, printer_ok_bind]
    by_cases hlive : ks[slot].isLive = true
    · obtain ⟨v, hv, hkey, hvalue⟩ := hitem slot _ hi hlive
      have hentry := hkey.bind ((writes_write ": ").bind (hvalue.bind (hrest false)))
      simp only [hlive, if_true, hs.arrayGet_answers hr hv, printer_ok_bind]
      exact .ite hentry ((writes_write ", ").bind hentry)
    · rw [if_neg hlive]
      exact hrest first

theorem Stored.dumpElements_writes {index count : Nat} (hr : s r = some c)
    (hx : c.content = .array xs) (hfits : index + count ≤ xs.length) :
    (h.dumpElements ⟨c.addr, xs.length⟩ index count).Writes := by
  induction count generalizing index with
  | zero => exact writes_pure
  | succ count ih =>
    have hi := List.getElem?_eq_getElem (show index < xs.length by omega)
    have hget := hs.slotsGet_eq hr hx index
    rw [hi] at hget
    have hfirst := (writes_write xs[index].text).bind
      (ih (show index + 1 + count ≤ xs.length by omega))
    simp only [dumpElements, memory_eq, hget, printer_ok_bind]
    exact .ite ((writes_write ", ").bind hfirst) hfirst

end Contents

section Values

variable (hs : h.Sound s) (hl : s.Ledger arrays owned)
include hs hl

theorem Sound.writeAs_writes (hitem : ∀ q, Seen s q → (item q).Writes)
    (hr : s r = some c) (hkind : c.content.kind ≠ .array) (quoted : Bool) :
    (h.writeAs item c.content.kind r quoted).Writes := by
  have hcontent := Store.content_of hr
  have hvalue := hs.value_eq hr
  cases hx : c.content with
  | none =>
    rw [hx] at hvalue
    simp only [Content.kind, writeAs, hvalue, printer_ok_bind]
    exact writes_write "None"
  | bool b =>
    rw [hx] at hvalue
    simp only [Content.kind, writeAs, hvalue, printer_ok_bind]
    cases b with
    | true => exact writes_write "True"
    | false => exact writes_write "False"
  | integer n =>
    simp only [Content.kind, writeAs, hs.integer_eq (hx ▸ hcontent), printer_ok_bind]
    exact writes_write _
  | string bytes =>
    have hbytes : h.stringBytes r = .ok bytes := hs.stringBytes_eq_ok.mpr (hx ▸ hcontent)
    simp only [Content.kind, writeAs, hbytes, printer_ok_bind]
    exact .ite ((writes_write "\"").bind ((writes_write _).bind (writes_write "\"")))
      (writes_write _)
  | list size values =>
    rw [hx] at hcontent
    obtain ⟨xs, hxs, hfilled⟩ := hl.lists hcontent
    have hparts := hs.listParts_answers hcontent
    simp only [Content.kind, writeAs, hparts, printer_ok_bind]
    have helements : (h.writeElements item values 0 size).Writes := by
      refine hs.writeElements_writes hxs ((Nat.zero_add size).symm ▸ hfilled.fits) ?_
      intro i q hi hq
      obtain ⟨xs', q', y, hxs', -, hq', hlive, -⟩ :=
        hl.element_there hcontent (show i < size by omega)
      cases hxs.symm.trans hxs'
      cases hq.symm.trans hq'
      exact hitem q (hl.slot_seen hxs hq hlive)
    exact (writes_write "[").bind (helements.bind (writes_write "]"))
  | dict size occupied keys values =>
    rw [hx] at hcontent
    obtain ⟨ks, vs, hk, hv, -⟩ := hl.dicts hcontent
    obtain ⟨d, hd, hkd⟩ := Store.content_eq_some.mp hk
    have hparts : h.dictParts r = .ok ⟨size, occupied, keys, values⟩ :=
      hs.dictParts_eq_ok.mpr hcontent
    have hslots : h.slots keys = .ok ⟨d.addr, ks.length⟩ :=
      hs.slots_eq_ok.mpr ⟨d, ks, hd, hkd, rfl⟩
    simp only [Content.kind, writeAs, hparts, hslots, printer_ok_bind]
    have hentries : (h.writeEntries item ⟨d.addr, ks.length⟩ values true 0 ks.length).Writes := by
      refine hs.writeEntries_writes hv (fun i k hi => ?_) (fun i k hi hlive => ?_)
        (Nat.zero_add _).le true
      · have hget := hs.slotsGet_eq hd hkd i
        rwa [hi] at hget
      · obtain ⟨v, hvi, hkey, hvalue⟩ := hl.entry_seen hcontent hk hv hi hlive
        exact ⟨v, hvi, hitem k hkey, hitem v hvalue⟩
    exact (writes_write _).bind (hentries.bind (writes_write _))
  | array xs => exact absurd (hx ▸ rfl) hkind

theorem Sound.writeNested_writes (hr : Seen s r) (depth : Nat) (quoted : Bool) :
    (h.writeNested r depth quoted).Writes := by
  induction depth generalizing r quoted with
  | zero => exact writes_write "..."
  | succ depth ih =>
    obtain ⟨x, hx, hkind⟩ := hr
    obtain ⟨c, hc, rfl⟩ := Store.content_eq_some.mp hx
    rw [writeNested, hs.kindOf_eq hc, printer_ok_bind]
    exact hs.writeAs_writes hl (fun q hq => ih hq true) hc hkind quoted

theorem Sound.dumpContents_writes (hr : s r = some c) : (h.dumpContents r).Writes := by
  have hnested (hkind : c.content.kind ≠ .array) : (h.writeNested r 1 true).Writes :=
    hs.writeNested_writes hl ⟨_, Store.content_of hr, hkind⟩ 1 true
  have hline {p : Printer Unit} (hp : p.Writes) :
      (do Printer.write "value = "; p; Printer.write "\n").Writes :=
    (writes_write "value = ").bind (hp.bind (writes_write "\n"))
  rw [dumpContents, hs.value_eq hr, printer_ok_bind]
  cases hx : c.content with
  | list | dict => exact writes_write _
  | array xs =>
    have helements : (h.dumpElements ⟨c.addr, xs.length⟩ 0 xs.length).Writes :=
      hs.dumpElements_writes hr hx (Nat.zero_add _).le
    exact (writes_write _).bind (helements.bind (writes_write _))
  | _ => exact hline (hnested (by rw [hx]; nofun))

theorem Sound.dumpBlock_writes (b : Block) : (h.dumpBlock b).Writes := by
  rw [dumpBlock]
  refine .ite (writes_write _) ((writes_write _).bind ?_)
  cases hfind : h.table.find? b.addr with
  | none => exact writes_write _
  | some r =>
    have hget := Table.get?_of_find? hs.small hfind
    obtain ⟨c, hc, -⟩ := hs.get?_eq_some.mp hget
    simp only [Option.getD_some, hs.isLive hc, if_true]
    cases Kind.ofTag? b.tag with
    | none => exact writes_write _
    | some k => exact (writes_write _).bind (hs.dumpContents_writes hl hc)

theorem Sound.dump_writes : h.dump.Writes := by
  obtain ⟨free, hlaid⟩ := hs.laid
  obtain ⟨blocks, htiles, -⟩ := hlaid.tiled
  have hfrom (fuel start : Nat) (rest : List Nat)
      (hrest : Tiles h.pool.memory h.pool.region.stop start rest) :
      (h.dumpFrom fuel start).Writes := by
    induction fuel generalizing start rest with
    | zero => exact writes_pure
    | succ fuel ih =>
      cases rest with
      | nil =>
        rw [dumpFrom, if_pos (Nat.le_of_eq (Eq.symm hrest))]
        exact writes_pure
      | cons a rest =>
        have hvisit := hlaid.visit_of_tiles hrest
        obtain ⟨rfl, -, -, hrest⟩ := hrest
        simp only [dumpFrom, hvisit, printer_ok_bind]
        exact .ite writes_pure ((hs.dumpBlock_writes hl _).bind (ih _ rest hrest))
  exact hfrom _ _ blocks htiles

end Values

end Heap

namespace Session

open Heap Printer

variable {h : Heap} {s : Store} {arrays owned : List Reference}

section Lines

variable (hs : h.Sound s) (hl : s.Ledger arrays owned)
include hs

theorem usage_writes : (usage h).Writes := by
  rw [usage, hs.used_eq, printer_ok_bind]
  exact writes_write _

include hl

theorem displayLine_writes {args : List Reference} (hargs : ∀ r ∈ args, Seen s r) :
    (displayLine h args).Writes := by
  refine Writes.bind (.forM fun e he => ?_) (writes_write _)
  have hdisplay := hs.writeNested_writes hl (hargs e.1 (List.fst_mem_of_mem_zipIdx he))
    h.config.maxPrintDepth false
  exact .ite ((writes_write " ").bind hdisplay) hdisplay

theorem printBindings_writes {g : Globals} (hg : ∀ b ∈ g, Seen s b.2) : (g.print h).Writes := by
  refine (writes_write _).bind (.forM fun b hb => ?_)
  have hrepr := hs.writeNested_writes hl (hg b hb) h.config.maxPrintDepth true
  exact (writes_write _).bind (hrepr.bind (writes_write _))

end Lines

end Session
end CountedHeap
