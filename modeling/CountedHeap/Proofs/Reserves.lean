import CountedHeap.Proofs.Evacuating
import CountedHeap.Proofs.Exhaustion
import CountedHeap.Proofs.TurnPaths

/-!
Sessions whose collections never fail. None and the truth values are made first, and once; they are
bound before all else and stay bound. So the free blocks and the blocks of all other values are more
than headers whatever a program does, and a collection finds room for all that it meets.
-/

namespace CountedHeap

theorem Pool.Laid.free_eq {p : Pool} {free free' taken taken' : List Nat}
    (hl : p.Laid free taken) (hl' : p.Laid free' taken') : free = free' := by
  have hwalk := (hl.walk_eq .doubleFree).symm.trans (hl'.walk_eq .doubleFree)
  have haddr := congrArg (List.map Block.addr) (Except.ok.inj hwalk)
  simpa only [List.map_map, Function.comp_def, Memory.header_addr, List.map_id'] using haddr

namespace Heap

/-- None and the truth values are these three, there is room beside the blocks of the first two, and
no free block is a mere header. -/
structure Reserves (h : Heap) (n t f : Reference) : Prop where
  coarse : h.pool.Coarse
  constants : ∀ r, h.Constant r → r ∈ [n, t, f]
  room : ∃ a b, h.extent n = some a ∧ h.extent t = some b ∧
    a + b + Block.headerSize < h.config.halfSize

structure Singletons (h : Heap) (n t f : Reference) : Prop where
  none : h.contents n = .ok .none
  yes : h.contents t = .ok (.bool true)
  no : h.contents f = .ok (.bool false)

variable {sc : Scope} {h h' h₁ : Heap} {s : Store} {n t f q r : Reference} {c d : Cell}
  {size : Nat} {rest : List Reference}

theorem Singletons.constant (hv : h.Singletons n t f) (hs : h.Stored s) :
    ∀ r ∈ [n, t, f], h.Constant r := by
  have hconst {r : Reference} {x : Content} (hx : h.contents r = .ok x)
      (hk : x.kind.isConstant = true) : h.Constant r :=
    ⟨x.kind, hs.kindOf_eq_ok.mpr ⟨x, hs.contents_eq_ok.mp hx, rfl⟩, hk⟩
  intro r hr
  simp only [List.mem_cons, List.not_mem_nil, or_false] at hr
  rcases hr with rfl | rfl | rfl
  · exact hconst hv.none rfl
  · exact hconst hv.yes rfl
  · exact hconst hv.no rfl

theorem Reserves.path (hr : h.Reserves n t f) (hp : Path sc h h') (hc : h.Consistent)
    (hno : ¬sc.consts) (hthere : ∀ r ∈ [n, t, f], h'.Constant r) : h'.Reserves n t f := by
  obtain ⟨a, b, ha, hb, hroom⟩ := hr.room
  refine ⟨hp.coarse hc hno hr.coarse fun r hconst => hthere r (hr.constants r hconst),
    fun r hconst => hr.constants r (hp.constant hc hno hconst), a, b, ?_, ?_, ?_⟩
  · rw [hp.extent hc hno (hthere n (by simp)), ha]
  · rw [hp.extent hc hno (hthere t (by simp)), hb]
  · rwa [hp.config hc]

theorem Sound.collect_reserves (hs : h.Sound s) (hr : h.Reserves n t f)
    (hv : h.Singletons n t f) :
    (Heap.collect (n :: t :: f :: rest)).Ends h
      (fun col h' => h.Thrifty n t col h' ∧ h'.Reserves n t f) fun _ _ => False := by
  obtain ⟨a, b, ha, hb, hroom⟩ := hr.room
  have hthrifty : (Heap.collect (n :: t :: f :: rest)).Ends h
      (fun col h' => h.Thrifty n t col h') fun _ _ => False :=
    hs.collect_thrifty hr.coarse hr.constants (hs.contents_eq_ok.mp hv.none)
      (hs.contents_eq_ok.mp hv.yes) (hs.contents_eq_ok.mp hv.no) ha hb hroom
  refine (hthrifty.and (hs.collect _)).imp ?_ fun _ _ h => h.1
  rintro col h' ⟨hth, s', hcol⟩
  refine ⟨hth, hth.coarse, fun q hq => hr.constants q ?_, a, b, ?_, ?_, ?_⟩
  · obtain ⟨c, hc, hk⟩ := hcol.sound.constant_iff.mp hq
    obtain ⟨d, hd, heq⟩ := Store.content_eq_some.mp (hcol.content q c hc)
    exact hs.constant_iff.mpr ⟨d, hd, heq ▸ hk⟩
  · rw [hth.extents.1, ha]
  · rw [hth.extents.2, hb]
  · rwa [hcol.config]

section Starting

theorem Allotted.single (ha : Allotted h s Block.headerSize r h') {a : Nat}
    (hl : h.pool.Laid [a] h.table.addresses) :
    h'.pool.Laid [] h'.table.addresses ∨ h'.extent r = some Block.headerSize ∧
      ∃ b, h'.pool.Laid [b] h'.table.addresses ∧ Block.headerSize < h'.pool.memory.sizeAt b := by
  obtain ⟨addr, free, free', k, hget, hmem, hl₀, hl', hperm, hk, hspent, hleaves⟩ := ha.block
  obtain rfl := hl₀.free_eq hl
  obtain rfl := List.mem_singleton.mp hmem
  have hafter := hl'.perm hperm.symm
  rcases hspent with ⟨hlength, hsize⟩ | ⟨hlength, -⟩
  · right
    obtain ⟨b, rfl⟩ := List.length_eq_one_iff.mp hlength
    obtain ⟨-, hround⟩ := Pool.requestSize_eq_ok.mp hk
    refine ⟨by rw [extent, hget, Option.map_some, hsize, ← hround]; rfl, b, hafter, ?_⟩
    rcases hleaves b List.mem_cons_self with ⟨hb, -⟩ | hlarge
    · obtain rfl := List.mem_singleton.mp hb
      have hapart := (List.nodup_append.mp hl'.nodup).2.2
      exact absurd rfl (hapart _ List.mem_cons_self _ List.mem_cons_self)
    · exact hlarge
  · left
    obtain rfl := List.eq_nil_of_length_eq_zero (Nat.succ.inj hlength)
    exact hafter

theorem Allotted.not_full {size : Nat} (ha : Allotted h s size r h')
    (hl : h.pool.Laid [] h.table.addresses) : False := by
  obtain ⟨addr, free, free', k, -, hmem, hl₀, -⟩ := ha.block
  rw [hl₀.free_eq hl] at hmem
  cases hmem

theorem Allotted.extent (ha : Allotted h s size r h') (hs : h.Stored s) {x : Content}
    (hm : h'.Made s r x) (hq : s q = some c) : h'.extent q = h.extent q := by
  obtain ⟨addr, hs'⟩ := hm.sound
  have hne := Store.ne_of_unused hm.unused hq
  rw [hs.extent_eq hq, hs'.extent_eq ((Store.set_of_ne hne).trans hq), ha.sizes hq]

theorem Sound.room (hs : h.Sound s) (hq : s q = some c) (hr : s r = some d) (hne : q ≠ r)
    {b : Nat} (hl : h.pool.Laid [b] h.table.addresses) :
    h.pool.memory.sizeAt c.addr + h.pool.memory.sizeAt d.addr + h.pool.memory.sizeAt b ≤
      h.config.halfSize := by
  have hqmem := List.mem_append_right [b] (Table.mem_addresses_of_get? (hs.get?_eq hq))
  have hrmem := List.mem_append_right [b] (Table.mem_addresses_of_get? (hs.get?_eq hr))
  have hbmem : b ∈ [b] ++ h.table.addresses := List.mem_cons_self
  have hapart {a : Nat} (ha : a ∈ h.table.addresses) : b ≠ a :=
    (List.nodup_append.mp hl.nodup).2.2 _ List.mem_cons_self _ ha
  have hqr := hs.apart hq hr hne
  have hqb := hl.apart hbmem hqmem (hapart (Table.mem_addresses_of_get? (hs.get?_eq hq)))
  have hrb := hl.apart hbmem hrmem (hapart (Table.mem_addresses_of_get? (hs.get?_eq hr)))
  have hqin := hl.bounds hqmem
  have hrin := hl.bounds hrmem
  have hbin := hl.bounds hbmem
  rw [← hs.halved.size_eq, Span.size]
  omega

theorem makeSingletons_reserves (hs : h.Sound fun _ => none) {a : Nat}
    (hl : h.pool.Laid [a] h.table.addresses) :
    Session.makeSingletons.Ends h (fun p h' => h'.Reserves p.1 p.2.1 p.2.2) fun _ _ => True := by
  simp only [Session.makeSingletons, Action.ends_bind, Action.ends_pure]
  refine (hs.makeNone_allotted.and hs.makeNone).imp ?_ fun _ _ _ => trivial
  rintro n h₁ ⟨ha₁, hm₁⟩
  obtain ⟨x₁, hs₁⟩ := hm₁.sound
  refine ((hs₁.makeBool_allotted true).and (hs₁.makeBool true)).imp ?_ fun _ _ _ => trivial
  rintro t h₂ ⟨ha₂, hm₂⟩
  obtain ⟨x₂, hs₂⟩ := hm₂.sound
  refine ((hs₂.makeBool_allotted false).and (hs₂.makeBool false)).imp ?_ fun _ _ _ => trivial
  rintro f h₃ ⟨ha₃, hm₃⟩
  obtain ⟨x₃, hs₃⟩ := hm₃.sound
  -- The third of the three finds a block, so the first two were cut from theirs.
  rcases ha₁.single hl with hfull | ⟨hn₁, b₁, hl₁, -⟩
  · exact (ha₂.not_full hfull).elim
  rcases ha₂.single hl₁ with hfull | ⟨ht₂, b₂, hl₂, hlarge⟩
  · exact (ha₃.not_full hfull).elim
  have hne : n ≠ t := fun heq => by
    have hunused := hm₂.unused
    rw [← heq, Store.set_self] at hunused
    cases hunused
  have hn : (Store.set (fun _ => none) n ⟨x₁, 1, .none⟩).set t ⟨x₂, 1, .bool true⟩ n =
      some ⟨x₁, 1, .none⟩ := (Store.set_of_ne hne).trans Store.set_self
  have hcoarse : h₂.pool.Coarse := hl₂.coarse_iff.mpr fun b hb => by
    rwa [List.mem_singleton.mp hb]
  have hroom := hs₂.room hn Store.set_self hne hl₂
  have hn₂ := (ha₂.extent hs₁.toStored hm₂ Store.set_self).trans hn₁
  have hn₃ := ha₃.extent hs₂.toStored hm₃ hn
  have ht₃ := ha₃.extent hs₂.toStored hm₃ Store.set_self
  refine ⟨ha₃.coarse hcoarse, fun r hr => ?_, _, _, hn₃.trans hn₂, ht₃.trans ht₂, ?_⟩
  · obtain ⟨c, hc, -⟩ := hs₃.constant_iff.mp hr
    simp only [Store.set_eq_some, reduceCtorEq, and_false, or_false] at hc
    simp only [List.mem_cons]
    tauto
  · rw [ha₃.config]
    rw [hs₂.extent_eq hn, Option.some_inj] at hn₂
    rw [hs₂.extent_eq Store.set_self, Option.some_inj] at ht₂
    omega

end Starting

theorem Sound.retain_serves (hs : h.Sound s) (hret : h.retain r = .ok h') :
    h'.pool.Serves size ↔ h.pool.Serves size := by
  obtain ⟨c, hr, hlt, hset⟩ := hs.retain_eq hret
  obtain ⟨n, rfl, hn⟩ := hs.setCountAt_rewrites hr hlt hset
  obtain ⟨free, hl, hl', hsizes⟩ := hs.rewrite_free hr hn
  rw [hl.serves_iff, hl'.serves_iff]
  refine exists_congr fun k => and_congr_right fun _ => exists_congr fun a => ?_
  exact and_congr_right fun ha => by rw [hsizes a ha]

theorem Collected.retain_root_answers {s' : Store} {roots : List Reference} {col : Collection}
    (hcol : h.Collected s roots col h' s') (hr : r ∈ roots) (hlive : r.isLive = true)
    (hfew : roots.count r ≤ 2 ^ 63) : ∃ h'', h'.retain r = .ok h'' := by
  obtain ⟨c, hc⟩ := (hcol.reached r).mpr (.root hr hlive)
  refine hcol.sound.retain_answers hc ?_
  have hcount := hcol.count r c hc
  have hedges := hcol.sound.edges_le r
  have hbytes := hcol.sound.bytes_le
  have hinside := hcol.sound.halved.inside
  have hbound := hcol.sound.bound
  simp only [Memory.maxSize, Word.limit] at *
  omega

theorem Collected.retain_answers {s' : Store} {roots : List Reference} {col : Collection}
    (hcol : h.Collected s roots col h' s') (hr : r ∈ roots) (hlive : r.isLive = true)
    (hfew : roots.length ≤ Memory.maxSize) : ∃ h'', h'.retain r = .ok h'' := by
  have hcount := List.count_le_length (a := r) (l := roots)
  simp only [Memory.maxSize] at hfew
  exact hcol.retain_root_answers hr hlive (by omega)

end Heap

namespace Session

def firstBindings (s : Session) : Globals :=
  [("None", s.noneRef), ("True", s.trueRef), ("False", s.falseRef)]

/-- A session whose collections find room for all that they meet: None and the truth values are
bound before all else. -/
structure Reserved (s : Session) : Prop where
  heap : s.heap.Reserves s.noneRef s.trueRef s.falseRef
  first : s.firstBindings <+: s.globals

variable {s s' : Session} {g kept rest : Globals} {name : String} {value : Reference}
  {q : Command}

/-- A collection of a session has a result of which this holds, unless there is no room for it in
the totals. -/
def Collects (s : Session) (good : Collection → Heap → Prop) : Prop :=
  (∃ col h', collect s = .ok (.ok col, { s with heap := h' }) ∧ good col h') ∨
    ¬s.heap.stats.Roomy s.heap.config.halfSize ∧ collect s = .error .overflow

theorem Collects.answers {good : Collection → Heap → Prop} (h : s.Collects good)
    (hroomy : s.heap.stats.Roomy s.heap.config.halfSize) :
    ∃ col h', collect s = .ok (.ok col, { s with heap := h' }) ∧ good col h' :=
  h.resolve_right fun hoverflow => hoverflow.1 hroomy

theorem prefix_rebinds (hkept : ∀ b ∈ kept, singletons.contains b.1 = true) :
    kept <+: q.rebinds (kept ++ rest) := by
  have hother {name : String} (hname : ¬singletons.contains name = true) :
      ∀ b ∈ kept, b.1 ≠ name := fun b hb heq => hname (heq ▸ hkept b hb)
  cases q with
  | assign name value =>
    simp only [Command.rebinds]
    split
    case isTrue => exact List.prefix_append ..
    case isFalse hname =>
      unfold Globals.put
      split
      · have hid : kept.map (fun b => if b.1 == name then (name, value) else b) = kept := by
          conv_rhs => rw [← List.map_id kept]
          exact List.map_congr_left fun b hb => if_neg (by simpa using hother hname b hb)
        rw [List.map_append, hid]
        exact List.prefix_append ..
      · rw [List.append_assoc]
        exact List.prefix_append ..
  | unbind name =>
    simp only [Command.rebinds]
    split
    case isTrue => exact List.prefix_append ..
    case isFalse hname =>
      rw [Globals.remove, List.filter_append, List.filter_eq_self.mpr fun b hb => ?_]
      · exact List.prefix_append ..
      · exact bne_iff_ne.mpr (hother hname b hb)
  | _ => exact List.prefix_append ..

theorem Reserved.walks {st : Store} (hr : s.Reserved) (hc : s.heap.Consistent)
    (hw : s.Walks (q.rebinds s.globals) s') (hs' : s'.heap.Stored st)
    (hthere : s'.heap.Singletons s'.noneRef s'.trueRef s'.falseRef) : s'.Reserved := by
  have hrefs : s'.noneRef = s.noneRef ∧ s'.trueRef = s.trueRef ∧ s'.falseRef = s.falseRef := by
    rw [hw.rest]
    exact ⟨rfl, rfl, rfl⟩
  obtain ⟨rest, hrest⟩ := hr.first
  have hfirst : s.firstBindings <+: s'.globals := by
    rw [hw.globals, ← hrest]
    exact prefix_rebinds (by simp [firstBindings, singletons])
  simp only [hrefs] at hthere
  refine ⟨?_, ?_⟩
  · simp only [hrefs]
    exact hr.heap.path hw.path hc id (hthere.constant hs')
  · simpa only [firstBindings, hrefs] using hfirst

end Session

namespace Program

open Session

variable {p p' : Program} {st : Store} {q : Command} {name : String} {args : List Reference}
  {room : Option Nat}

theorem InOrder.singletons (hp : p.InOrder st) :
    p.session.heap.Singletons p.session.noneRef p.session.trueRef p.session.falseRef :=
  ⟨hp.sound.contents_eq_ok.mpr hp.none.2, hp.sound.contents_eq_ok.mpr hp.yes.2,
    hp.sound.contents_eq_ok.mpr hp.no.2⟩

structure Reaped (p : Program) (st : Store) (col : Collection) (h' : Heap) : Prop where
  collected : ∃ st', p.session.heap.Collected st p.session.globals.references col h' st'
  thrifty : p.session.heap.Thrifty p.session.noneRef p.session.trueRef col h'
  reserves : h'.Reserves p.session.noneRef p.session.trueRef p.session.falseRef
  counted : p.session.heap.stats.Counts col h'.stats
  before : col.usedBefore ≤ p.session.heap.config.halfSize
  after : col.usedAfter ≤ p.session.heap.config.halfSize

theorem InOrder.collect_reserved (hp : p.InOrder st) (hr : p.session.Reserved) :
    p.session.Collects (p.Reaped st) := by
  obtain ⟨rest, hfirst⟩ := hr.first
  have hreferences : p.session.globals.references =
      p.session.noneRef :: p.session.trueRef :: p.session.falseRef :: Globals.references rest := by
    rw [← hfirst]
    rfl
  have hroots : Heap.Countable st p.session.globals.references :=
    hp.ledger.countable_owned hp.sound fun q => by rw [List.count_append]; omega
  have hends := hreferences ▸ hp.sound.collect_reserves hr.heap hp.singletons
  have honHeap : collect p.session = onHeap (Action.mapError Failure.collection
      (Heap.collect p.session.globals.references)) p.session := rfl
  rw [Session.Collects, honHeap, onHeap, Action.runOn_mapError]
  rcases hp.sound.collect_completes hroots with ⟨a, h', hcollect⟩ | ⟨hfull, hoverflow⟩
  · cases a with
    | error e => exact (hends.bad hcollect).elim
    | ok col =>
      obtain ⟨hthrifty, hreserves⟩ := hends.good hcollect
      obtain ⟨hcounts, hbefore, hafter⟩ := (hp.sound.collect_records _).good hcollect
      refine .inl ⟨col, h', by rw [hcollect]; rfl, ?_⟩
      exact ⟨(hp.sound.collect _).good hcollect, hthrifty, hreserves, hcounts, hbefore, hafter⟩
  · exact .inr ⟨hfull, by rw [hoverflow]; rfl⟩

theorem call_collector_fault {s : Session} {f : Fault}
    (hcalls : (Command.call name args room).callsCollector = true)
    (hcollect : collect s = .error f) : call name args room s = .error f := by
  rw [Command.callsCollector, Bool.and_eq_true, beq_iff_eq, List.isEmpty_iff] at hcalls
  obtain ⟨hname, rfl⟩ := hcalls
  have hbind {α β : Type} (x : Turn α) (f : α → Turn β) (s : Session) :
      (x >>= f) s = x s >>= fun a => f a.1 a.2 := rfl
  simp only [call, hname, hbind, callBuiltin, hcollect, error_bind]

theorem call_collector {s s' : Session} {col : Collection}
    (hcalls : (Command.call name args room).callsCollector = true)
    (hcollect : collect s = .ok (.ok col, s')) :
    call name args room s = do
      let heap ← s'.heap.retain s'.noneRef
      return ((s'.noneRef, ""), { s' with heap }) := by
  rw [Command.callsCollector, Bool.and_eq_true, beq_iff_eq, List.isEmpty_iff] at hcalls
  obtain ⟨hname, rfl⟩ := hcalls
  have hbind {α β : Type} (x : Turn α) (f : α → Turn β) (s : Session) :
      (x >>= f) s = x s >>= fun a => f a.1 a.2 := rfl
  have hnone : noneRetained s' = do
      let heap ← s'.heap.retain s'.noneRef
      return (s'.noneRef, { s' with heap }) := by
    show (updateHeap (·.retain s'.noneRef) s' >>= fun a => _) = _
    simp only [updateHeap, bind_assoc, pure_bind]
    rfl
  simp only [call, hname, hbind, callBuiltin, hcollect, ok_bind, hnone, bind_assoc, pure_bind]
  rfl

theorem serve_collects {s : Session} {col : Collection} (hq : q.collects = true)
    (hcollect : collect p.session = .ok (.ok col, s)) (h : p.serve q = .ok (some p')) :
    s.Walks (q.rebinds s.globals) p'.session := by
  cases q with
  | call name args room =>
    have hcalls : (Command.call name args room).callsCollector = true := hq
    simp only [Program.serve, hcalls, if_true, call_collector hq hcollect, bind_assoc, pure_bind,
      bind_eq_ok, pure_eq_ok] at h
    obtain ⟨heap, hret, h⟩ := h
    split at h
    case isTrue =>
      cases h
      exact .of_path (.single (.retain hret))
    case isFalse => cases h
  | collect =>
    simp only [Program.serve, hcollect, ok_bind] at h
    cases h
    exact .refl _
  | _ => cases hq

theorem serve_collect_fault {f : Fault} (hq : q.collects = true)
    (hcollect : collect p.session = .error f) : p.serve q = .error f := by
  cases q with
  | call name args room =>
    have hcalls : (Command.call name args room).callsCollector = true := hq
    simp only [Program.serve, hcalls, if_true, call_collector_fault hq hcollect, error_bind]
  | collect => simp only [Program.serve, hcollect, error_bind]
  | _ => cases hq

theorem InOrder.served_collect (hp : p.InOrder st) (hr : p.session.Reserved)
    (hq : q.collects = true) (h : p.serve q = .ok (some p')) :
    ∃ col h', collect p.session = .ok (.ok col, { p.session with heap := h' }) ∧
      p.Reaped st col h' := by
  rcases hp.collect_reserved hr with hcollects | ⟨-, hoverflow⟩
  · exact hcollects
  · rw [serve_collect_fault hq hoverflow] at h
    cases h

theorem InOrder.serve_reserved (hp : p.InOrder st) (hr : p.session.Reserved)
    (hq : p.prudent q = true) (h : p.serve q = .ok (some p')) : p'.session.Reserved := by
  obtain ⟨st', hp', -⟩ := hp.serve hq h
  cases hcollects : q.collects with
  | false =>
    exact hr.walks hp.sound.consistent (hp.walks hq hcollects h) hp'.sound.toStored hp'.singletons
  | true =>
    obtain ⟨col, h', hcollect, hreaped⟩ := hp.served_collect hr hcollects h
    obtain ⟨st', hcol⟩ := hreaped.collected
    have hr' : Reserved { p.session with heap := h' } := ⟨hreaped.reserves, hr.first⟩
    exact hr'.walks hcol.sound.consistent (serve_collects hcollects hcollect h)
      hp'.sound.toStored hp'.singletons

theorem ofConfig_walks {config : Config} {session : Session}
    (hnew : Session.ofConfig config = .ok (.ok session)) :
    ∃ h n t f heap, Heap.ofConfig config = .ok (.ok h) ∧
      makeSingletons.runOn h = .ok (.ok (n, t, f), heap) ∧ heap.Consistent ∧
        Walks ⟨heap, [], none, n, t, f⟩ [("None", n), ("True", t), ("False", f)] session := by
  obtain ⟨h, n, t, f, heap, s₁, s₂, hheap, hmake, h₁, h₂, h₃⟩ := steps_of_ofConfig hnew
  have hs := (Heap.ofConfig_sound hheap).1
  obtain ⟨st₀, hs₀, -⟩ := (makeSingletons_ends hs .empty).good hmake
  have hw₁ := handOver_walks hs₀ h₁
  obtain ⟨st₁, hs₁⟩ := hw₁.path.consistent hs₀.consistent
  have hw₂ := handOver_walks hs₁ h₂
  obtain ⟨st₂, hs₂⟩ := hw₂.path.consistent hs₁.consistent
  have hw := (hw₁.trans hw₂).trans (handOver_walks hs₂ h₃)
  rw [hw₂.globals, hw₁.globals] at hw
  exact ⟨h, n, t, f, heap, hheap, hmake, hs₀.consistent, hw⟩

theorem ofConfig_reserved {config : Config} {session : Session}
    (hnew : Session.ofConfig config = .ok (.ok session)) : session.Reserved := by
  obtain ⟨st, hp⟩ := ofConfig_inOrder hnew
  obtain ⟨h, n, t, f, heap, hheap, hmake, hconsistent, hw⟩ := ofConfig_walks hnew
  obtain ⟨hs, -, hl⟩ := Heap.ofConfig_sound hheap
  have hreserves := (Heap.makeSingletons_reserves hs hl).good hmake
  -- As if the bindings had been there before they were made.
  have hr : Reserved ⟨heap, [("None", n), ("True", t), ("False", f)], none, n, t, f⟩ :=
    ⟨hreserves, List.prefix_rfl⟩
  exact hr.walks (q := .none) hconsistent ⟨hw.path, hw.rest⟩ hp.sound.toStored hp.singletons

theorem Run.reserved (hrun : Run prudent p) : ∃ st, p.InOrder st ∧ p.session.Reserved := by
  induction hrun with
  | start hnew =>
    obtain ⟨st, hp⟩ := ofConfig_inOrder hnew
    exact ⟨st, hp, ofConfig_reserved hnew⟩
  | step _ hq hserve ih =>
    obtain ⟨st, hp, hr⟩ := ih
    obtain ⟨st', hp', -⟩ := hp.serve hq hserve
    exact ⟨st', hp', hp.serve_reserved hr hq hserve⟩

/-- A collection of a program has a result, asked for or called. After it no more bytes are in use
than before, and each request that could be served can be served. -/
theorem Run.collect_costs_nothing (hrun : Run prudent p) :
    p.session.Collects fun col h' => col.usedAfter ≤ col.usedBefore ∧
      (∀ size, p.session.heap.pool.Serves size → h'.pool.Serves size) ∧
        ∀ room, p.session.globals.length ≤ Memory.maxSize →
          ∃ h'', call "gc" [] room p.session =
              .ok ((p.session.noneRef, ""), { p.session with heap := h'' }) ∧
            ∀ size, p.session.heap.pool.Serves size → h''.pool.Serves size := by
  obtain ⟨st, hp, hr⟩ := hrun.reserved
  rcases hp.collect_reserved hr with ⟨col, h', hcollect, hreaped⟩ | hoverflow
  · obtain ⟨st', hcol⟩ := hreaped.collected
    have hserves := hreaped.thrifty.serves
    refine .inl ⟨col, h', hcollect, hreaped.thrifty.used, hserves, fun room hfew => ?_⟩
    have hfew : p.session.globals.references.length ≤ Memory.maxSize := by
      rwa [Globals.references, List.length_map]
    obtain ⟨h'', hret⟩ := hcol.retain_answers (Globals.mem_references hp.none.1)
      (hp.proper.live _ hp.none.1) hfew
    refine ⟨h'', ?_, fun size hsize => ?_⟩
    · rw [call_collector rfl hcollect, hret]
      rfl
    · exact (hcol.sound.retain_serves hret).mpr (hserves size hsize)
  · exact .inr hoverflow

def snug : Option Program :=
  run prudent { poolSize := 160 } [.none, .release (.ofIndex 0), .string []]

theorem snug_collects : ∃ p col h', snug = some p ∧
    collect p.session = .ok (.ok col, { p.session with heap := h' }) ∧
      col.usedAfter ≤ col.usedBefore := by
  have hall : (snug.any fun p =>
      match collect p.session with
      | .ok _ => true
      | .error _ => false) = true := by decide +kernel
  obtain ⟨p, hp, hanswers⟩ := (Option.any_eq_true ..).mp hall
  rcases (Run.of_run hp).collect_costs_nothing with ⟨col, h', hcollect, hused, -⟩ | ⟨-, hoverflow⟩
  · exact ⟨p, col, h', hp, hcollect, hused⟩
  · rw [hoverflow] at hanswers
    cases hanswers

end Program
end CountedHeap
