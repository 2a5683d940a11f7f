import CountedHeap.Proofs.Completing
import CountedHeap.Proofs.Frames
import CountedHeap.Proofs.Serving

/-!
Heaps that stay clear of all limits. Where the sizes that a heap is made with are moderate, a block
is the only thing that can be missing for a new value: the table always has a slot for it, and no
size comes near to the end of a word. No count does either, as long as no value has that many
owners.
-/

namespace CountedHeap

/-- Sizes that leave all limits far away. -/
structure Config.Moderate (c : Config) : Prop where
  poolSize : c.poolSize ≤ 2 ^ 32
  dictMinCapacity : c.dictMinCapacity ≤ 2 ^ 32
  initialRefs : c.initialRefs ≤ 2 ^ 20

/-- The reference table has room for its first slots and a reference for every block of a half. -/
structure Config.Indexed (c : Config) : Prop where
  blocks : c.halfSize < Block.headerSize * 2 ^ 31
  slots : c.initialRefs ≤ Table.maxCapacity

/-- As well, the least table of a dict has a size that fits into a word. -/
structure Config.Bounded (c : Config) : Prop extends c.Indexed where
  tables : Layout.elementOffset c.dictMinCapacity + 8 < Word.limit

theorem Config.Moderate.halfSize_le {c : Config} (hc : c.Moderate) : c.halfSize ≤ 2 ^ 31 := by
  have hle : c.halfSize ≤ c.poolSize / 2 := Nat.and_le_left
  have hpool := hc.poolSize
  omega

theorem Config.Moderate.bounded {c : Config} (hc : c.Moderate) : c.Bounded := by
  have hle : c.halfSize ≤ c.poolSize / 2 := Nat.and_le_left
  have hpool := hc.poolSize
  have hcapacity := hc.dictMinCapacity
  have hinitial := hc.initialRefs
  refine ⟨⟨?_, ?_⟩, ?_⟩
  · simp only [Block.headerSize]
    omega
  · simp only [Table.maxCapacity]
    omega
  · simp only [Layout.elementOffset, Layout.elementsOffset, Word.limit]
    omega

def Rare (owned : List Reference) : Prop := ∀ r, owned.count r ≤ 2 ^ 63

theorem Rare.perm {owned owned' : List Reference} (hr : Rare owned) (hp : owned.Perm owned') :
    Rare owned' := fun r => hp.count_eq r ▸ hr r

theorem Store.Ledger.rare_cons {s : Store} {arrays owned : List Reference} {r : Reference}
    (hl : s.Ledger arrays owned) (hrare : Rare (arrays ++ owned)) (hr : s.content r = none)
    (hlive : r.isLive = true) : Rare (r :: (arrays ++ owned)) := by
  intro q
  obtain ⟨harrays, howned, -⟩ := hl.unknown hr hlive
  have hq := hrare q
  by_cases heq : q = r
  · rw [heq, List.count_cons_self, List.count_append, harrays, howned]
    decide
  · rwa [List.count_cons_of_ne (Ne.symm heq)]

namespace Table

variable {t u : Table} {r : Reference} {a : Nat}

theorem assign_initial (h : t.assign a = .ok (r, u)) : u.initial = t.initial := by
  unfold assign at h
  split at h
  · simp only [bind_eq_ok, pure_eq_ok, Prod.mk.injEq] at h
    obtain ⟨-, -, -, rfl⟩ := h
    rfl
  · simp only [bind_eq_ok, pure_eq_ok, Prod.mk.injEq, reserve_eq] at h
    obtain ⟨-, -, v, hv, -, rfl⟩ := h
    split at hv
    · cases hv
      rfl
    · split at hv
      · cases hv
        rfl
      · cases hv

theorem set_initial (h : t.set r a = .ok u) : u.initial = t.initial := by
  simp only [set, bind_eq_ok] at h
  obtain ⟨index, -, h⟩ := h
  split at h
  · cases h
  · cases h
  · cases h
    rfl

theorem clear_initial (h : t.clear r = .ok u) : u.initial = t.initial := by
  simp only [clear, throw_bind, guard_eq_ok, bind_eq_ok, pure_eq_ok] at h
  obtain ⟨-, -, -, rfl⟩ := h
  rfl

end Table

namespace Heap

structure Moderate (h : Heap) : Prop where
  config : h.config.Bounded
  dicts : h.config.dictMinCapacity ≠ 0
  table : h.table.initial ≤ Table.maxCapacity

variable {sc : Scope} {h h' h₁ : Heap} {s : Store} {r q : Reference} {c : Cell} {x : Content}
  {k : Kind} {size addr : Nat} {arrays owned roots : List Reference}
  {f : Nat → Memory → Except Fault Memory}

section Keeping

variable {α β ε : Type}

def KeepsInitial (x : Action ε α) (h : Heap) : Prop :=
  x.Ends h (fun _ h' => h'.table.initial = h.table.initial)
    fun _ h' => h'.table.initial = h.table.initial

theorem KeepsInitial.bind {x : Action ε β} {f : β → Action ε α} (hx : KeepsInitial x h)
    (hf : ∀ b h', KeepsInitial (f b) h') : KeepsInitial (x >>= f) h := by
  rw [KeepsInitial, Action.ends_bind]
  refine hx.imp (fun b h' hkept => ?_) fun _ _ hkept => hkept
  exact (hf b h').imp (fun _ _ h => h.trans hkept) fun _ _ h => h.trans hkept

theorem pure_keepsInitial (a : α) : KeepsInitial (pure a : Action ε α) h := Action.ends_pure.mpr rfl

theorem read_keepsInitial (f : Heap → Except Fault α) :
    KeepsInitial (Action.read f : Action ε α) h := Action.ends_read.mpr fun _ _ => rfl

theorem liftM_keepsInitial (x : Except Fault α) : KeepsInitial (liftM x : Action ε α) h :=
  Action.ends_liftM.mpr fun _ _ => rfl

theorem fault_keepsInitial (f : Fault) : KeepsInitial (throwThe Fault f : Action ε α) h :=
  Action.ends_fault.mpr trivial

theorem update_keepsInitial {f : Heap → Except Fault Heap}
    (hf : ∀ h', f h = .ok h' → h'.table.initial = h.table.initial) :
    KeepsInitial (Action.update f : Action ε Unit) h := Action.ends_update.mpr hf

theorem write_initial {f : Memory → Except Fault Memory} (hwrite : h.write f = .ok h') :
    h'.table.initial = h.table.initial := by
  obtain ⟨n, -, rfl⟩ := write_eq_ok.mp hwrite
  rfl

theorem retain_initial (hret : h.retain r = .ok h') : h'.table.initial = h.table.initial := by
  simp only [Heap.retain, bind_eq_ok] at hret
  obtain ⟨addr, -, count, -, sum, -, hset⟩ := hret
  exact write_initial hset

theorem make_keepsInitial (k : Kind) (size : Nat) : KeepsInitial (Heap.make k size) h := by
  intro a h' hrun
  simp only [Heap.make, Action.runOn, ExceptT.run, ExceptT.mk, throw_bind, guard_not_eq_ok,
    bind_eq_ok] at hrun
  obtain ⟨-, e, -, hrun⟩ := hrun
  cases e with
  | error e =>
    cases hrun
    rfl
  | ok e =>
    simp only [bind_eq_ok, pure_eq_ok, Prod.mk.injEq, Prod.exists, adopt, throw_bind,
      guard_eq_ok] at hrun
    obtain ⟨_, _, ⟨-, -, -, _, -, _, -, _, -, _, -, _, table, hassign, rfl, rfl⟩, rfl, rfl⟩ := hrun
    exact Table.assign_initial hassign

theorem fillIn_keepsInitial (r : Reference) (f : Nat → Memory → Except Fault Memory) :
    KeepsInitial (Heap.fillIn r f) h :=
  update_keepsInitial fun h' hfill => by
    obtain ⟨addr, -, hwrite⟩ := bind_eq_ok.mp hfill
    exact write_initial hwrite

theorem make_fill_keepsInitial (k : Kind) (size : Nat) (f : Nat → Memory → Except Fault Memory) :
    KeepsInitial (do let r ← Heap.make k size; fillIn r f; return r) h :=
  (make_keepsInitial k size).bind fun r _ =>
    (fillIn_keepsInitial r f).bind fun _ _ => pure_keepsInitial r

theorem Creates.keepsInitial {consts : Prop} {x : Action OutOfMemory Reference}
    (hx : Creates consts x) : KeepsInitial x h := by
  cases hx with
  | none => exact make_keepsInitial _ _
  | bool _ b => exact make_fill_keepsInitial _ _ _
  | integer n => exact make_fill_keepsInitial _ _ _
  | string bytes =>
    simp only [KeepsInitial, makeString, Action.ends_bind, Action.ends_ite, Action.ends_fault,
      Action.ends_liftM]
    refine ⟨fun _ => trivial, fun _ size _ => ?_⟩
    simp only [← Action.ends_bind]
    exact make_fill_keepsInitial _ _ _
  | concatenation left right =>
    refine (read_keepsInitial _).bind fun _ _ => ?_
    refine (read_keepsInitial _).bind fun _ _ => ?_
    refine (liftM_keepsInitial _).bind fun _ _ => ?_
    refine (make_keepsInitial _ _).bind fun r _ => ?_
    refine (read_keepsInitial _).bind fun _ _ => ?_
    refine (read_keepsInitial _).bind fun _ _ => ?_
    exact (fillIn_keepsInitial _ _).bind fun _ _ => pure_keepsInitial r
  | array capacity => exact (liftM_keepsInitial _).bind fun _ _ => make_fill_keepsInitial _ _ _
  | list values => exact (read_keepsInitial _).bind fun _ _ => make_fill_keepsInitial _ _ _
  | dict keys values =>
    refine (read_keepsInitial _).bind fun _ _ => (read_keepsInitial _).bind fun _ _ =>
      (read_keepsInitial _).bind fun keyRoom _ => (read_keepsInitial _).bind fun valueRoom _ => ?_
    by_cases hrooms : keyRoom = valueRoom
    · simp only [hrooms, if_true]
      exact (pure_keepsInitial _).bind fun _ _ => make_fill_keepsInitial _ _ _
    · simp only [hrooms, if_false]
      exact (fault_keepsInitial _).bind fun _ _ => make_fill_keepsInitial _ _ _

theorem Step.initial (hstep : Step sc h h') (hc : h.Consistent) :
    h'.table.initial = h.table.initial := by
  obtain ⟨s, hs⟩ := hc
  cases hstep.change hs with
  | none heq => rw [heq]
  | rewrite _ _ _ _ heq => rw [← heq]
  | discard _ hdiscard =>
    simp only [Heap.discard, bind_eq_ok, pure_eq_ok] at hdiscard
    obtain ⟨_, -, table, hclear, pool, -, rfl⟩ := hdiscard
    exact Table.clear_initial hclear
  | create hx _ hrun => exact hx.keepsInitial.good hrun

theorem Path.initial (hp : Path sc h h') (hc : h.Consistent) :
    h'.table.initial = h.table.initial := by
  induction hp with
  | refl => rfl
  | tail hp hstep ih => exact (hstep.initial (Path.consistent hp hc)).trans ih

theorem Path.moderate (hp : Path sc h h') (hc : h.Consistent) (hm : h.Moderate) :
    h'.Moderate := by
  have hconfig := hp.config hc
  exact ⟨hconfig ▸ hm.config, hconfig ▸ hm.dicts, hp.initial hc ▸ hm.table⟩

def Scope.any : Scope := ⟨fun _ => False, fun _ => False, True⟩

theorem Traced.moderate {x : Action ε α} (hx : Traced .any x h) (hc : h.Consistent)
    (hm : h.Moderate) : x.Ends h (fun _ h' => h'.Moderate) fun _ h' => h'.Moderate :=
  hx.imp (fun _ _ hp => hp.moderate hc hm) fun _ _ hp => hp.moderate hc hm

theorem Creates.moderate {consts : Prop} {x : Action OutOfMemory Reference}
    (hx : Creates consts x) (hs : h.Sound s) (hm : h.Moderate) :
    x.Ends h (fun _ h' => h'.Moderate) fun _ h' => h'.Moderate := by
  have hany : Creates Scope.any.consts x := hx.mono fun _ => trivial
  exact (hany.path hs nofun).imp (fun _ _ hp => hp.1.moderate hs.consistent hm)
    fun _ _ he => he ▸ hm

theorem relocate_keepsInitial (r : Reference) (old : Nat) : KeepsInitial (relocate r old) h := by
  intro a h' hrun
  simp only [Heap.relocate, Action.runOn, ExceptT.run, ExceptT.mk, bind_eq_ok] at hrun
  obtain ⟨_, -, h₁, hreset, e, -, hrun⟩ := hrun
  have hinitial : h₁.table.initial = h.table.initial := by
    unfold resetCount setCountAt at hreset
    exact write_initial hreset
  cases e with
  | error e =>
    cases hrun
    exact hinitial
  | ok e =>
    simp only [bind_eq_ok, pure_eq_ok, Prod.mk.injEq, copyTo] at hrun
    obtain ⟨_, -, h₂, ⟨h₃, hcopy, table, hset, rfl⟩, rfl, rfl⟩ := hrun
    exact (Table.set_initial hset).trans ((write_initial hcopy).trans hinitial)

theorem meet_keepsInitial (r : Reference) : KeepsInitial (meet r) h := by
  unfold KeepsInitial
  simp only [Heap.meet, Action.ends_ite, Action.ends_pure, Action.ends_bind, Action.ends_get]
  refine ⟨fun _ => trivial, fun _ => ?_⟩
  split
  · simp only [Action.ends_fault]
  · simp only [Action.ends_bind, Action.ends_get, Action.ends_ite, Action.ends_update,
      Action.ends_pure, Action.ends_read]
    refine ⟨fun _ h' hret => retain_initial hret, fun _ => ?_⟩
    exact (relocate_keepsInitial r _).imp (fun _ _ hkept _ _ => hkept) fun _ _ hkept => hkept

theorem evacuateRoots_keepsInitial (t : Tally) :
    KeepsInitial (roots.foldlM Heap.evacuate t) h := by
  induction roots generalizing t h with
  | nil => exact pure_keepsInitial t
  | cons root rest ih =>
    rw [List.foldlM_cons]
    refine KeepsInitial.bind ?_ fun t' _ => ih t'
    have hmeet {n : Nat} {r : Reference} {rest : List Reference} {t : Tally} {h₁ : Heap}
        (hn : h₁.table.initial = n) :
        (meet r).Ends h₁ (Next (fun _ _ h' => h'.table.initial = n) rest t)
          fun _ h' => h'.table.initial = n := by
      refine (meet_keepsInitial r).imp (fun a h' hkept => ?_) fun _ _ hkept => hkept.trans hn
      cases a <;> exact hkept.trans hn
    simp only [KeepsInitial, Heap.evacuate, Action.ends_bind, Action.ends_get]
    exact evacuateAll_ends (P := fun _ _ h' => h'.table.initial = h.table.initial) hmeet _ rfl

theorem collect_keepsInitial (roots : List Reference) : KeepsInitial (collect roots) h := by
  refine (read_keepsInitial _).bind fun _ _ => (update_keepsInitial fun h' hflip => ?_).bind
    fun _ _ => (evacuateRoots_keepsInitial {}).bind fun _ _ => ?_
  · simp only [flip, bind_eq_ok, pure_eq_ok] at hflip
    obtain ⟨_, -, rfl⟩ := hflip
    rfl
  · refine (update_keepsInitial fun h' hsweep => ?_).bind fun _ _ => (read_keepsInitial _).bind
      fun _ _ => (update_keepsInitial fun h' hrecord => ?_).bind fun _ _ => pure_keepsInitial _
    · cases hsweep
      rfl
    · obtain ⟨_, -, rfl⟩ := record_eq_ok.mp hrecord
      rfl

theorem Sound.collect_moderate (hs : h.Sound s) (hm : h.Moderate) (roots : List Reference) :
    (Heap.collect roots).Ends h (fun _ h' => h'.Moderate) fun _ _ => True := by
  refine ((hs.collect roots).and (collect_keepsInitial roots)).imp ?_ fun _ _ _ => trivial
  rintro col h' ⟨⟨s', hcol⟩, hinitial⟩
  exact ⟨hcol.config ▸ hm.config, hcol.config ▸ hm.dicts, hinitial ▸ hm.table⟩

theorem ofConfig_moderate {config : Config} (hnew : ofConfig config = .ok (.ok h))
    (hc : config.Bounded) : h.Moderate := by
  unfold ofConfig at hnew
  split at hnew
  case h_1 => cases hnew
  case h_2 hvalid =>
    simp only [bind_eq_ok, pure_eq_ok, Except.ok.injEq] at hnew
    obtain ⟨idle, -, pool, -, rfl⟩ := hnew
    refine ⟨hc, fun hzero => ?_, ?_⟩
    · rw [Config.validate, show config.dictMinCapacity = 0 from hzero] at hvalid
      split at hvalid <;> cases hvalid
    · exact max_le hc.slots (by decide)

end Keeping

section Bounds

theorem Moderate.halfSize_lt (hm : h.Moderate) : h.config.halfSize < 2 ^ 36 := by
  have hblocks := hm.config.blocks
  simp only [Block.headerSize] at hblocks
  omega

theorem Sound.content_room_le (hs : h.Sound s) (hm : h.Moderate) (hr : s.content r = some x) :
    x.room < 2 ^ 36 := by
  obtain ⟨c, hcell, rfl⟩ := Store.content_eq_some.mp hr
  have hroom := (hs.holds hcell).room
  have hbounds := hs.bounds hcell
  have hhalf := hm.halfSize_lt
  have hsize := hs.halved.size_eq
  rw [hs.halved.region, Span.size] at hsize
  omega

theorem Sound.length_le (hs : h.Sound s) (hm : h.Moderate) {xs : List Reference}
    (hr : s.content r = some (.array xs)) : xs.length < 2 ^ 34 := by
  have hroom := hs.content_room_le hm hr
  simp only [Content.room, Layout.elementOffset, Layout.elementsOffset] at hroom
  omega

theorem Sound.count_le (hs : h.Sound s) (hl : s.Ledger arrays owned) (hm : h.Moderate)
    (hrare : Rare (arrays ++ owned)) (q : Reference) : s.count q ≤ 2 ^ 63 + 2 ^ 36 := by
  cases hq : s.content q with
  | none =>
    rw [Store.count_of_content_none hq]
    exact Nat.zero_le _
  | some x =>
    have hcount := hl.count_eq (hl.live hq)
    have howners := hrare q
    rw [List.count_append] at howners
    have hedges := hs.edges_le q
    have hbytes := hs.bytes_le
    have hhalf := hm.halfSize_lt
    omega

theorem addresses_length (hfull : none ∉ h.table.slots) :
    h.table.addresses.length = h.table.size := by
  rw [← Table.used_eq, Table.used, Table.size, Array.countP_eq_size]
  intro slot hslot
  exact Option.isSome_iff_ne_none.mpr fun hnone => hfull (hnone ▸ hslot)

theorem Sound.accepts (hs : h.Sound s) (hm : h.Moderate) : h.table.Accepts := by
  refine or_iff_not_imp_left.mpr fun hfull => ?_
  have hlength := addresses_length hfull
  obtain ⟨free, hl⟩ := hs.laid
  have hsizes : ∀ n ∈ h.table.addresses.map h.pool.memory.sizeAt, Block.headerSize ≤ n := by
    refine List.forall_mem_map.mpr fun a ha => ?_
    exact (hl.bounds (List.mem_append_right _ ha)).2.2.1
  have hsum := List.card_nsmul_le_sum _ _ hsizes
  have hbytes := hs.bytes_le
  have hblocks := hm.config.blocks
  have hinitial := hm.table
  simp only [List.length_map, Nat.nsmul_eq_mul, hlength] at hsum
  simp only [bytes] at hbytes
  simp only [Block.headerSize] at hsum hblocks
  simp only [Table.maxCapacity] at hinitial
  refine ⟨by simp only [Table.maxIndex]; omega, or_iff_not_imp_left.mpr fun hroom => ?_⟩
  simp only [Table.grown, Table.maxCapacity]
  split <;> omega

end Bounds

section Making

theorem Sound.make_completes (hs : h.Sound s) (hm : h.Moderate) (hk : k ≠ .free)
    (hsize : size + 8 < Word.limit) : (Heap.make k size).Completes h :=
  hs.make_completes_of_accepts hk hsize (hs.accepts hm)

namespace Allotted

theorem inside (ha : Allotted h s size r h') (hget : h'.table.get? q = some addr) :
    addr + h'.pool.memory.sizeAt addr ≤ h'.pool.memory.size ∧ h'.deref q = .ok addr := by
  obtain ⟨b, free, free', n, -, -, -, hl', hperm, -⟩ := ha.block
  have hmem := hperm.mem_iff.mp (Table.mem_addresses_of_get? hget)
  have hbounds := hl'.bounds (List.mem_append_right _ hmem)
  have hin := hl'.inside
  simp only [Block.headerSize] at hbounds
  exact ⟨by omega, deref_of_get? hget (by omega) hbounds.2.2.2.2⟩

theorem fillIn_completes (ha : Allotted h s size r h') (hf : h'.Fresh s r k size addr)
    (hfill : addr + size ≤ h'.pool.memory.size → ∃ n, f addr h'.pool.memory = .ok n) :
    (Heap.fillIn r f).Completes h' := by
  have hget : h'.table.get? r = some addr := by rw [hf.table, Function.update_self]
  obtain ⟨hin, hderef⟩ := ha.inside hget
  have hroom := hf.room
  obtain ⟨n, hn⟩ := hfill (by omega)
  rw [Heap.fillIn, Action.completes_update]
  exact ⟨_, bind_eq_ok.mpr ⟨addr, hderef, write_eq_ok.mpr ⟨n, hn, rfl⟩⟩⟩

end Allotted

theorem Sound.make_fill_faults (hs : h.Sound s) {P : Fault → Prop}
    (hmake : (Heap.make k size).Faults h P)
    (hfill : ∀ {addr} {m : Memory}, addr + size ≤ m.size → ∃ n, f addr m = .ok n) :
    (do let r ← Heap.make k size; fillIn r f; return r).Faults h P := by
  refine Action.faults_bind hmake ((hs.make_allotted k size).imp ?_ fun _ _ _ => trivial)
  rintro r h' ⟨addr, hf, ha⟩
  refine Action.Completes.faults ?_
  rw [Action.completes_bind]
  exact ⟨ha.fillIn_completes hf hfill, by simp⟩

theorem Sound.make_fill_completes (hs : h.Sound s) (hm : h.Moderate) (hk : k ≠ .free)
    (hsize : size + 8 < Word.limit)
    (hfill : ∀ {addr} {m : Memory}, addr + size ≤ m.size → ∃ n, f addr m = .ok n) :
    (do let r ← Heap.make k size; fillIn r f; return r).Completes h :=
  Action.completes_iff_faults.mpr
    (hs.make_fill_faults (hs.make_completes hm hk hsize).faults hfill)

theorem emptySlots_answers {m : Memory} {addr count : Nat} (hin : addr + count * 4 ≤ m.size) :
    ∃ n, emptySlots m addr count = .ok n := by
  induction count generalizing m addr with
  | zero => exact ⟨m, rfl⟩
  | succ count ih =>
    obtain ⟨m₁, hstore, hsize⟩ :=
      Memory.store_answers Reference.null.raw.toUInt32.toNat (show addr + 4 ≤ m.size by omega)
    obtain ⟨n, hn⟩ := ih (show addr + 4 + count * 4 ≤ m₁.size by omega)
    exact ⟨n, bind_eq_ok.mpr ⟨m₁, hstore, hn⟩⟩

theorem fillInteger_answers (n : Int64) {m : Memory} {addr : Nat}
    (hin : addr + Layout.integerSize ≤ m.size) :
    ∃ m', m.storeInt64 (addr + Layout.integerOffset) n = .ok m' := by
  simp only [Layout.integerSize] at hin
  obtain ⟨m', hstore, -⟩ := Memory.store_answers (m := m) n.toUInt64.toNat
    (show addr + Layout.integerOffset + 8 ≤ m.size by
      simp only [Layout.integerOffset, Block.headerSize]
      omega)
  exact ⟨m', hstore⟩

theorem fillArray_answers {m : Memory} {addr capacity : Nat}
    (hin : addr + Layout.elementOffset capacity ≤ m.size) :
    ∃ n, (do
      let m ← m.store64 (addr + Layout.capacityOffset) capacity
      emptySlots m (addr + Layout.elementsOffset) capacity) = .ok n := by
  simp only [Layout.elementOffset, Layout.elementsOffset] at hin
  obtain ⟨m₁, hstore, hm₁⟩ := Memory.store_answers (m := m) capacity
    (show addr + Layout.capacityOffset + 8 ≤ m.size by
      simp only [Layout.capacityOffset]
      omega)
  obtain ⟨n, hn⟩ := emptySlots_answers (m := m₁)
    (show addr + Layout.elementsOffset + capacity * 4 ≤ m₁.size by
      simp only [Layout.elementsOffset]
      omega)
  exact ⟨n, bind_eq_ok.mpr ⟨m₁, hstore, hn⟩⟩

theorem Sound.makeArray_faults (hs : h.Sound s) (capacity : Nat) :
    (Heap.makeArray capacity).Faults h Fault.IsLimit := by
  refine Action.faults_bind (Action.faults_liftM fun f hf => ?_) ?_
  · rw [Layout.arraySize] at hf
    cases hmul : Word.mul capacity 4 with
    | error e =>
      rw [hmul] at hf
      cases hf
      exact Word.isLimit_of_mul hmul
    | ok n =>
      rw [hmul] at hf
      exact Word.isLimit_of_add hf
  · rw [Action.ends_liftM]
    intro size hsize
    obtain ⟨-, rfl⟩ := Layout.arraySize_eq_ok.mp hsize
    exact hs.make_fill_faults (hs.make_faults (by decide) _) fillArray_answers

theorem Sound.checkArray_completes (hs : h.Sound s) {xs : List Reference}
    (hr : s.content r = some (.array xs)) : (Heap.checkArray r).Completes h := by
  have hkind : h.kindOf r = .ok .array := hs.kindOf_eq_ok.mpr ⟨_, hr, rfl⟩
  rw [Heap.checkArray, Action.completes_read]
  simp only [hkind, ok_bind]
  exact ⟨_, rfl⟩

variable (hs : h.Sound s) (hm : h.Moderate)
include hs hm

theorem Sound.makeInteger_completes (n : Int64) : (Heap.makeInteger n).Completes h :=
  hs.make_fill_completes hm (by decide) (by decide) (fillInteger_answers n)

theorem Sound.makeString_completes {bytes : List UInt8} (hbytes : 0 ∉ bytes)
    (hlength : bytes.length ≤ Memory.maxSize) : (Heap.makeString bytes).Completes h := by
  simp only [Memory.maxSize] at hlength
  have hsize : Layout.stringSize bytes.length = .ok (Layout.stringOffset + bytes.length + 1) :=
    Layout.stringSize_eq_ok.mpr ⟨by
      simp only [Layout.stringOffset, Block.headerSize, Word.limit]
      omega, rfl⟩
  have hzero : bytes.contains 0 = false := by simpa using hbytes
  simp only [Heap.makeString, hzero, hsize]
  refine hs.make_fill_completes hm (by decide) ?_ fun {addr m} hin =>
    ⟨_, Memory.put_eq_ok.mpr ⟨?_, rfl⟩⟩
  · simp only [Layout.stringOffset, Block.headerSize, Word.limit]
    omega
  · rw [List.length_append, List.length_singleton]
    omega

theorem Sound.makeArray_completes {capacity : Nat}
    (hcapacity : Layout.elementOffset capacity + 8 < Word.limit) :
    (Heap.makeArray capacity).Completes h := by
  have hsize : Layout.arraySize capacity = .ok (Layout.elementOffset capacity) :=
    Layout.arraySize_eq_ok.mpr ⟨Nat.lt_of_le_of_lt (Nat.le_add_right _ 8) hcapacity, rfl⟩
  simp only [Heap.makeArray, hsize]
  exact hs.make_fill_completes hm (by decide) hcapacity fillArray_answers

theorem Sound.makeList_completes {values : Reference} {xs : List Reference}
    (hvalues : s.content values = some (.array xs)) : (Heap.makeList values).Completes h := by
  rw [Heap.makeList, Action.completes_bind]
  refine ⟨hs.checkArray_completes hvalues, (hs.checkArray values).imp ?_ fun _ _ _ => trivial⟩
  rintro - _ ⟨rfl, -⟩
  refine hs.make_fill_completes hm (by decide) (by decide) fun {addr m} hin => ?_
  simp only [Layout.listSize] at hin
  simp only [Layout.listSizeOffset, Layout.listValuesOffset]
  obtain ⟨m₁, hsize, hm₁⟩ := Memory.store_answers (m := m) 0 (show addr + 24 + 8 ≤ m.size by omega)
  obtain ⟨n, hn, -⟩ := Memory.store_answers (m := m₁) values.raw.toUInt32.toNat
    (show addr + 32 + 4 ≤ m₁.size by omega)
  exact ⟨n, bind_eq_ok.mpr ⟨m₁, hsize, hn⟩⟩

theorem Sound.makeDict_completes {keys values : Reference} {ks vs : List Reference}
    (hkeys : s.content keys = some (.array ks)) (hvalues : s.content values = some (.array vs))
    (hlength : ks.length = vs.length) : (Heap.makeDict keys values).Completes h := by
  rw [Heap.makeDict, Action.completes_bind]
  refine ⟨hs.checkArray_completes hkeys, (hs.checkArray keys).imp ?_ fun _ _ _ => trivial⟩
  rintro - _ ⟨rfl, -⟩
  rw [Action.completes_bind]
  refine ⟨hs.checkArray_completes hvalues, (hs.checkArray values).imp ?_ fun _ _ _ => trivial⟩
  rintro - _ ⟨rfl, -⟩
  simp only [Action.completes_bind, Action.completes_read, Action.ends_read,
    hs.arrayCapacity_eq_ok]
  refine ⟨⟨_, ks, hkeys, rfl⟩, fun _ => ?_⟩
  rintro ⟨ks', hks', rfl⟩
  cases hkeys.symm.trans hks'
  refine ⟨⟨_, vs, hvalues, rfl⟩, fun _ => ?_⟩
  rintro ⟨vs', hvs', rfl⟩
  cases hvalues.symm.trans hvs'
  simp only [hlength, if_true]
  refine hs.make_fill_completes hm (by decide) (by decide) fun {addr m} hin => ?_
  simp only [Layout.dictSize] at hin
  simp only [Layout.dictSizeOffset, Layout.dictOccupiedOffset, Layout.dictKeysOffset,
    Layout.dictValuesOffset]
  obtain ⟨m₁, hsize, hm₁⟩ := Memory.store_answers (m := m) 0 (show addr + 24 + 8 ≤ m.size by omega)
  obtain ⟨m₂, hoccupied, hm₂⟩ :=
    Memory.store_answers (m := m₁) 0 (show addr + 32 + 8 ≤ m₁.size by omega)
  obtain ⟨m₃, hk, hm₃⟩ := Memory.store_answers (m := m₂) keys.raw.toUInt32.toNat
    (show addr + 40 + 4 ≤ m₂.size by omega)
  obtain ⟨n, hv, -⟩ := Memory.store_answers (m := m₃) values.raw.toUInt32.toNat
    (show addr + 44 + 4 ≤ m₃.size by omega)
  exact ⟨n, bind_eq_ok.mpr ⟨m₁, hsize, bind_eq_ok.mpr ⟨m₂, hoccupied, bind_eq_ok.mpr ⟨m₃, hk, hv⟩⟩⟩⟩

theorem Sound.makeConcatenation_completes {left right : Reference} {x y : List UInt8}
    (hleft : s.content left = some (.string x)) (hright : s.content right = some (.string y)) :
    (Heap.makeConcatenation left right).Completes h := by
  have hx := hs.content_room_le hm hleft
  have hy := hs.content_room_le hm hright
  simp only [Content.room, Layout.stringOffset, Block.headerSize] at hx hy
  have hsize : Layout.stringSize (x.length + y.length) =
      .ok (Layout.stringOffset + (x.length + y.length) + 1) :=
    Layout.stringSize_eq_ok.mpr ⟨by
      simp only [Layout.stringOffset, Block.headerSize, Word.limit]
      omega, rfl⟩
  have hl : h.stringBytes left = .ok x := hs.stringBytes_eq_ok.mpr hleft
  have hr : h.stringBytes right = .ok y := hs.stringBytes_eq_ok.mpr hright
  simp only [Heap.makeConcatenation, Action.completes_bind, Action.completes_read, Action.ends_read,
    Action.completes_liftM, Action.ends_liftM, Action.completes_pure, hl, hr, hsize,
    Except.ok.injEq, exists_eq', true_and, forall_eq']
  refine ⟨hs.make_completes hm (by decide) ?_,
    (hs.make_allotted .string _).imp ?_ fun _ _ _ => trivial⟩
  · simp only [Layout.stringOffset, Block.headerSize, Word.limit]
    omega
  rintro r h' ⟨addr, hf, ha⟩
  obtain ⟨c, hc, hxc⟩ := Store.content_eq_some.mp hleft
  obtain ⟨d, hd, hyd⟩ := Store.content_eq_some.mp hright
  have hstands {q : Reference} {e : Cell} (he : s q = some e) :
      h'.deref q = .ok e.addr ∧ e.addr + e.content.room ≤ h'.pool.memory.size := by
    have hne := Store.ne_of_unused hf.unused he
    have hget : h'.table.get? q = some e.addr := by
      rw [hf.table, Function.update_of_ne hne, he]
      rfl
    obtain ⟨hin, hderef⟩ := ha.inside hget
    exact ⟨hderef, Nat.le_trans (Nat.add_le_add_left (hf.holds he).room _) hin⟩
  obtain ⟨hderef₁, hin₁⟩ := hstands hc
  obtain ⟨hderef₂, hin₂⟩ := hstands hd
  simp only [hxc, hyd, Content.room] at hin₁ hin₂
  simp only [hderef₁, hderef₂, Except.ok.injEq, exists_eq', true_and, forall_eq']
  refine ⟨ha.fillIn_completes hf fun hin => ?_, Action.ends_true⟩
  have hdest₁ : addr + Layout.stringOffset + x.length ≤ h'.pool.memory.size := by omega
  obtain ⟨m₁, h₁, hm₁⟩ := Memory.copy_answers (show c.addr + Layout.stringOffset + x.length ≤ _ by
    omega) hdest₁
  have hdest₂ : addr + Layout.stringOffset + x.length + y.length ≤ m₁.size := by omega
  obtain ⟨m₂, h₂, hm₂⟩ := Memory.copy_answers (show d.addr + Layout.stringOffset + y.length ≤ _ by
    omega) hdest₂
  refine ⟨_, bind_eq_ok.mpr ⟨m₁, h₁, bind_eq_ok.mpr ⟨m₂, h₂, Memory.put_eq_ok.mpr ⟨?_, rfl⟩⟩⟩⟩
  rw [List.length_singleton]
  omega

end Making

end Heap
end CountedHeap
