import CountedHeap.Proofs.Failures
import CountedHeap.Proofs.Faultless

/-!
Sizes that are asked for. A size is worked out from what a caller gives: the capacity of an array,
the length of a text, the number of pairs of a dict or the least room that it was configured with.
Either the size fits into a word with some bytes to spare, and then a block is handed out or the
request is refused, or it does not, and then the arithmetic meets a fault before any block is
looked for.
-/

namespace CountedHeap

section Queries

variable {ε α β : Type}

theorem query_eq_error {x : Query ε α} {f : α → Query ε β} {e : ε}
    (h : (x >>= f : Query ε β) = .ok (.error e)) :
    x = .ok (.error e) ∨ ∃ a, x = .ok (.ok a) ∧ f a = .ok (.error e) := by
  obtain ⟨a, hx, h⟩ := bind_eq_ok.mp (show (x >>= _ : Except Fault _) = _ from h)
  cases a with
  | error e' =>
    cases h
    exact .inl hx
  | ok a => exact .inr ⟨a, hx, h⟩

theorem query_lift_eq_ok {x : Except Fault α} {a : α} :
    (liftM x : Query ε α) = .ok (.ok a) ↔ x = .ok a := by
  constructor
  · intro h
    cases x <;> cases h
    rfl
  · rintro rfl
    rfl

theorem query_lift_ne_error {x : Except Fault α} {e : ε} :
    ¬(liftM x : Query ε α) = .ok (.error e) := by
  intro h
  cases x <;> cases h

end Queries

namespace Action

variable {ε α β : Type} {h : Heap} {f : Fault}

def Errs (x : Action ε α) (h : Heap) (P : ε → Prop) : Prop :=
  x.Ends h (fun _ _ => True) fun e _ => P e

theorem Errs.orUndo {x : Action ε α} {P : ε → Prop} (hx : x.Errs h P)
    (undo : Heap → Except Fault Heap) : (x.orUndo undo).Errs h P :=
  ends_orUndo.mpr (hx.imp (fun _ _ h => h) fun _ _ he _ _ => he)

theorem runOn_bind_fault {x : Action ε β} {g : β → Action ε α} (hx : x.runOn h = .error f) :
    (x >>= g).runOn h = .error f := by
  rw [runOn_bind, hx]
  rfl

theorem runOn_ofMemory_fault {x : Action OutOfMemory α} (hx : x.runOn h = .error f) :
    (liftM x : Action Failure α).runOn h = .error f := by
  show (mapError Failure.outOfMemory x).runOn h = .error f
  rw [runOn_mapError, hx]
  rfl

theorem runOn_liftM_fault {y : Except Fault β} (hy : y = .error f) :
    (liftM y : Action ε β).runOn h = .error f := by
  rw [hy]
  rfl

theorem runOn_liftFailure_fault {y : Except Fault β} (hy : y = .error f) :
    (liftM y : Action Failure β).runOn h = .error f := by
  rw [hy]
  rfl

end Action

theorem Layout.arraySize_eq_fit (capacity : Nat) :
    arraySize capacity = Word.fit (elementOffset capacity) := by
  have hmul : Word.mul capacity 4 = Word.fit (capacity * 4) := rfl
  rw [arraySize, hmul]
  by_cases hfits : capacity * 4 < Word.limit
  · rw [Word.fit_of_lt hfits]
    rfl
  · have htoo : ¬elementOffset capacity < Word.limit := by
      simp only [elementOffset]
      omega
    rw [Word.fit, if_neg hfits, Word.fit, if_neg htoo]
    rfl

theorem Layout.stringSize_eq_fit (length : Nat) :
    stringSize length = Word.fit (stringOffset + length + 1) := by
  have hadd : Word.add stringOffset length = Word.fit (stringOffset + length) := rfl
  rw [stringSize, hadd]
  by_cases hfits : stringOffset + length < Word.limit
  · rw [Word.fit_of_lt hfits]
    rfl
  · have htoo : ¬stringOffset + length + 1 < Word.limit := by omega
    rw [Word.fit, if_neg hfits, Word.fit, if_neg htoo]
    rfl

namespace Heap

variable {h h' : Heap} {s : Store} {r : Reference} {k : Kind} {x : Content} {size : Nat}
  {arrays owned : List Reference}

/-- What a request for a block of `size` bytes can come to. -/
structure Provides (h : Heap) (size : Nat) (x : Action OutOfMemory Reference) : Prop where
  ends : x.Ends h (fun r h' => ∃ block, h'.blockSize r = .ok block ∧ size ≤ block)
    fun e h' => h' = h ∧ ∃ used, h.used = .ok used ∧ e = ⟨Pool.rounded size, used⟩
  answers : size + 8 < Word.limit → h.table.Accepts → x.Completes h
  overflows : Word.limit ≤ size + 8 → x.runOn h = .error .overflow
  limits : x.Faults h Fault.IsLimit

section Requests

theorem Fresh.blockSize {addr : Nat} (ha : Allotted h s size r h')
    (hf : h'.Fresh s r k size addr) :
    h'.blockSize r = .ok (h'.pool.memory.sizeAt addr) := by
  have hget : h'.table.get? r = some addr := by rw [hf.table, Function.update_self]
  obtain ⟨hin, hderef⟩ := ha.inside hget
  obtain ⟨b, free, free', n, -, -, -, hl', hperm, -⟩ := ha.block
  have hmem := hperm.mem_iff.mp (Table.mem_addresses_of_get? hget)
  have hread : h'.block addr = .ok (h'.pool.memory.header addr) :=
    hl'.read_eq (List.mem_append_right _ hmem)
  rw [Heap.blockSize, hderef, ok_bind, hread]
  rfl

theorem Made.block_room (hm : h.Made s r x) :
    ∃ block, h.blockSize r = .ok block ∧ x.room ≤ block := by
  obtain ⟨addr, hs⟩ := hm.sound
  exact ⟨_, hs.blockSize_eq Store.set_self, (hs.holds Store.set_self).room⟩

theorem make_overflows (hk : k ≠ .free) (hsize : Word.limit ≤ size + 8) :
    (Heap.make k size).runOn h = .error .overflow := by
  simp only [Heap.make, Action.runOn, ExceptT.run, ExceptT.mk, if_neg hk, Pool.alloc,
    Pool.requestSize_overflow hsize]
  rfl

variable (hs : h.Sound s)
include hs

theorem Sound.make_refuses (k : Kind) (size : Nat) :
    (Heap.make k size).Ends h (fun _ _ => True) fun e h' =>
      h' = h ∧ ∃ used, h.used = .ok used ∧ e = ⟨Pool.rounded size, used⟩ := by
  intro a h' hrun
  simp only [Heap.make, Action.runOn, ExceptT.run, ExceptT.mk, throw_bind, guard_not_eq_ok,
    bind_eq_ok] at hrun
  obtain ⟨-, e, halloc, hrun⟩ := hrun
  obtain ⟨free, hl⟩ := hs.laid
  cases e with
  | error e =>
    cases hrun
    obtain ⟨n, hn, rfl, -⟩ := hl.alloc_refused halloc
    obtain ⟨-, rfl⟩ := Pool.requestSize_eq_ok.mp hn
    exact ⟨rfl, _, hl.used_eq, rfl⟩
  | ok e =>
    simp only [bind_eq_ok, pure_eq_ok, Prod.mk.injEq] at hrun
    obtain ⟨_, -, rfl, -⟩ := hrun
    trivial

theorem Sound.make_provides (hk : k ≠ .free) (size : Nat) : h.Provides size (Heap.make k size) where
  ends := by
    refine ((hs.make_allotted k size).and (hs.make_refuses k size)).imp ?_ fun _ _ hb => hb.2
    rintro r h' ⟨⟨addr, hf, ha⟩, -⟩
    exact ⟨_, hf.blockSize ha, hf.room⟩
  answers := hs.make_completes_of_accepts hk
  overflows := make_overflows hk
  limits := hs.make_faults hk size

theorem Sound.make_fill_provides {sized : Except Fault Nat}
    {f : Nat → Memory → Except Fault Memory} (hk : k ≠ .free) (hsized : sized = Word.fit size)
    (hfill : ∀ {addr} {m : Memory}, addr + size ≤ m.size → ∃ n, f addr m = .ok n)
    (hroom : size ≤ x.room)
    (hmade : (do let r ← Heap.make k (← sized); fillIn r f; return r :
      Action OutOfMemory Reference).Ends h (fun r h' => h'.Made s r x) fun _ _ => True) :
    h.Provides size (do let r ← Heap.make k (← sized); fillIn r f; return r) := by
  subst hsized
  have hmakes {P : Fault → Prop} (hmake : (Heap.make k size).Faults h P)
      (hfit : ∀ f, Word.fit size = .error f → P f) :
      (do let r ← Heap.make k (← Word.fit size); fillIn r f; return r :
        Action OutOfMemory Reference).Faults h P := by
    refine Action.faults_bind (Action.faults_liftM hfit) (Action.ends_liftM.mpr fun n hn => ?_)
    obtain ⟨rfl, -⟩ := Word.fit_eq_ok.mp hn
    exact hs.make_fill_faults hmake hfill
  have hoverflow {f : Fault} (hf : Word.fit size = .error f) : f = .overflow := by
    unfold Word.fit at hf
    split at hf <;> cases hf
    rfl
  refine ⟨?_, fun hsize haccepts => ?_, fun hsize => ?_, ?_⟩
  · have hrefuses : (do let r ← Heap.make k (← Word.fit size); fillIn r f; return r :
        Action OutOfMemory Reference).Ends h (fun _ _ => True) fun e h' =>
          h' = h ∧ ∃ used, h.used = .ok used ∧ e = ⟨Pool.rounded size, used⟩ := by
      simp only [Action.ends_bind, Action.ends_liftM, Word.fit_eq_ok, Action.ends_pure, fillIn,
        Action.ends_update]
      rintro _ ⟨rfl, -⟩
      exact (hs.make_refuses k size).imp (fun _ _ _ _ _ => trivial) fun _ _ hb => hb
    refine (hmade.and hrefuses).imp ?_ fun _ _ hb => hb.2
    rintro r h' ⟨hm, -⟩
    obtain ⟨block, hblock, hle⟩ := hm.block_room
    exact ⟨block, hblock, Nat.le_trans hroom hle⟩
  · have hfit : Word.fit size = .ok size := Word.fit_of_lt (by omega)
    refine Action.completes_iff_faults.mpr
      (hmakes (hs.make_completes_of_accepts hk hsize haccepts).faults fun f hf => ?_)
    rw [hfit] at hf
    cases hf
  · cases hfit : Word.fit size with
    | error f =>
      obtain rfl := hoverflow hfit
      exact Action.runOn_bind_fault (Action.runOn_liftM_fault rfl)
    | ok n =>
      obtain ⟨rfl, -⟩ := Word.fit_eq_ok.mp hfit
      rw [Action.runOn_bind_ok (Action.runOn_liftM rfl)]
      exact Action.runOn_bind_fault (make_overflows hk hsize)
  · exact hmakes (hs.make_faults hk size) fun f hf => .inl (hoverflow hf)

theorem Sound.makeArray_provides (capacity : Nat) :
    h.Provides (Layout.elementOffset capacity) (Heap.makeArray capacity) :=
  hs.make_fill_provides (x := .array (.replicate capacity .null)) (by decide)
    (Layout.arraySize_eq_fit capacity) fillArray_answers (by simp [Content.room])
    ((hs.makeArray capacity).imp (fun _ _ hm => hm) fun _ _ _ => trivial)

theorem Sound.makeString_provides {bytes : List UInt8} (hbytes : 0 ∉ bytes) :
    h.Provides (Layout.stringOffset + bytes.length + 1) (Heap.makeString bytes) := by
  have hzero : bytes.contains 0 = false := by simpa using hbytes
  have hmade := (hs.makeString bytes).imp (fun _ _ hm => hm) fun _ _ _ => trivial
  simp only [Heap.makeString, hzero, Bool.false_eq_true, if_false] at hmade ⊢
  refine hs.make_fill_provides (x := .string bytes) (by decide)
    (Layout.stringSize_eq_fit bytes.length) (fun {addr m} hin =>
      ⟨_, Memory.put_eq_ok.mpr ⟨?_, rfl⟩⟩) (Nat.le_refl _) hmade
  rw [List.length_append, List.length_singleton]
  omega

end Requests

section Dicts

variable {key : Reference} {pairs : List (Reference × Reference)}

def DictFailure (e : Failure) : Prop := (∃ m, e = .outOfMemory m) ∨ ∃ k, e = .unhashable k

theorem hash_fails {e : Failure} (hhash : h.hash key = .ok (.error e)) :
    ∃ k, h.kindOf key = .ok k ∧ e = .unhashable k := by
  rcases query_eq_error hhash with hkind | ⟨k, hkind, hhash⟩
  · exact (query_lift_ne_error hkind).elim
  cases hk : h.hashAs? k key with
  | some x =>
    rw [hk] at hhash
    exact (query_lift_ne_error hhash).elim
  | none =>
    rw [hk] at hhash
    cases hhash
    exact ⟨k, query_lift_eq_ok.mp hkind, rfl⟩

theorem entriesFrom_fails {keys : Reference} {slot count : Nat} {e : Failure}
    (hentries : h.entriesFrom keys slot count = .ok (.error e)) : DictFailure e := by
  induction count generalizing slot with
  | zero => cases hentries
  | succ count ih =>
    rcases query_eq_error hentries with hget | ⟨key, -, hentries⟩
    · exact (query_lift_ne_error hget).elim
    split at hentries
    · rcases query_eq_error hentries with hhash | ⟨hash, -, hentries⟩
      · exact .inr ((hash_fails hhash).imp fun _ hk => hk.2)
      rcases query_eq_error hentries with hrest | ⟨rest, -, hentries⟩
      · exact ih hrest
      · cases hentries
    · exact ih hentries

theorem ofMemory_fails {α : Type} (x : Action OutOfMemory α) (h : Heap) :
    (liftM x : Action Failure α).Errs h DictFailure :=
  Action.ends_ofMemory.mpr fun a _ _ => by
    cases a with
    | ok a => trivial
    | error m => exact .inl ⟨m, rfl⟩

theorem dictGrow_fails (dict : Reference) (h : Heap) : (dictGrow dict).Errs h DictFailure := by
  simp only [Action.Errs, dictGrow, Action.ends_bind, Action.ends_read, Action.ends_getFailure,
    Action.ends_liftFailure, Action.ends_ask]
  refine fun parts _ capacity _ room _ => ⟨fun entries _ => ?_, fun _ he => entriesFrom_fails he⟩
  refine (ofMemory_fails (makeTables _) h).imp (fun tables h₁ _ => ?_) fun _ _ he => he
  simp only [Action.ends_update, implies_true]

theorem slotFor_fails (dict : Reference) (hash : UInt64) (key : Reference) (attempts : Nat)
    (h : Heap) : (slotFor dict hash key attempts).Errs h DictFailure := by
  induction attempts generalizing h with
  | zero => exact Action.ends_fault.mpr trivial
  | succ attempts ih =>
    simp only [Action.Errs, slotFor, Action.ends_bind, Action.ends_read]
    intro parts _ slot _
    cases slot with
    | some slot => exact Action.ends_pure.mpr trivial
    | none =>
      exact Action.ends_bind.mpr
        ((dictGrow_fails dict h).imp (fun _ h₁ _ => ih h₁) fun _ _ he => he)

theorem dictInsert_fails (dict : Reference) (hash : UInt64) (key value : Reference) (h : Heap) :
    (dictInsert dict hash key value).Errs h DictFailure := by
  rw [Action.Errs, dictInsert, Action.ends_bind]
  refine (slotFor_fails dict hash key maxGrowths h).imp (fun place h₁ _ => ?_) fun _ _ he => he
  simp only [Action.ends_bind, Action.ends_read, Action.ends_update, Action.ends_liftFailure,
    Action.ends_ite, Action.ends_pure, implies_true, and_true]
  intros
  exact dictGrow_fails dict _

theorem dictSet_fails (dict key value : Reference) (h : Heap) :
    (dictSet dict key value).Errs h DictFailure := by
  simp only [Action.Errs, dictSet, Action.ends_bind, Action.ends_ask, Action.ends_read]
  refine ⟨fun hash _ parts _ slot _ => ?_, fun _ he =>
    .inr ((hash_fails he).imp fun _ hk => hk.2)⟩
  cases slot with
  | none => exact dictInsert_fails dict hash key value h
  | some slot =>
    simp only [Action.ends_bind, Action.ends_read, Action.ends_update, implies_true]

theorem newDict_fails (pairs : List (Reference × Reference)) (h : Heap) :
    (newDict pairs).Errs h DictFailure := by
  have hpairs (dict : Reference) (h : Heap) :
      (pairs.forM fun p => (dictSet dict p.1 p.2).orUndo (·.release dict)).Errs h
        DictFailure := by
    induction pairs generalizing h with
    | nil => exact Action.ends_pure.mpr trivial
    | cons pair rest ih =>
      exact Action.ends_bind.mpr (((dictSet_fails dict pair.1 pair.2 h).orUndo _).imp
        (fun _ h₁ _ => ih h₁) fun _ _ he => he)
  simp only [Action.Errs, newDict, Action.ends_bind, Action.ends_getFailure,
    Action.ends_liftFailure, Action.ends_pure]
  intro room _
  refine (ofMemory_fails (makeTables _) h).imp (fun tables h₁ _ => ?_) fun _ _ he => he
  exact ((ofMemory_fails _ h₁)).imp (fun dict h₂ _ => hpairs dict h₂) fun _ _ he => he

def dictRoom (h : Heap) (pairs : List (Reference × Reference)) : Nat :=
  max (pairs.length * 2) h.config.dictMinCapacity

/-- What a new dict can come to, in a heap that is `crowded` if some value has too many owners. -/
structure MakesDict (h : Heap) (pairs : List (Reference × Reference)) (crowded : Prop) : Prop where
  ends : (newDict pairs).Ends h (fun r h' => h'.kindOf r = .ok .dict) fun e _ => DictFailure e
  answers : Layout.elementOffset (h.dictRoom pairs) + 8 < Word.limit → h.config.Indexed →
    ¬crowded → (newDict pairs).Completes h
  overflows : Word.limit ≤ Layout.elementOffset (h.dictRoom pairs) + 8 →
    (newDict pairs).runOn h = .error .overflow

theorem newDict_overflows (hs : h.Sound s)
    (hroom : Word.limit ≤ Layout.elementOffset (h.dictRoom pairs) + 8) :
    (newDict pairs).runOn h = .error .overflow := by
  have hget : (get : Action Failure Heap).runOn h = .ok (.ok h, h) := rfl
  rw [newDict, Action.runOn_bind_ok hget]
  by_cases hlength : pairs.length * 2 < Word.limit
  · have hmul : Word.mul pairs.length 2 = .ok (pairs.length * 2) := Word.fit_of_lt hlength
    rw [Action.runOn_bind_ok (Action.runOn_liftFailure hmul)]
    refine Action.runOn_bind_fault (Action.runOn_ofMemory_fault ?_)
    exact Action.runOn_bind_fault ((hs.makeArray_provides _).overflows hroom)
  · have hmul : Word.mul pairs.length 2 = .error .overflow := if_neg hlength
    exact Action.runOn_bind_fault (Action.runOn_liftFailure_fault hmul)

theorem newDict_makesDict {crowded : Prop} (hs : h.Sound s) (hl : s.Ledger arrays owned)
    (hseen : ∀ p ∈ pairs, Seen s p.1 ∧ Seen s p.2) (hm : h.config.Bounded → h.Moderate)
    (hrare : ¬crowded → Rare (arrays ++ owned)) : h.MakesDict pairs crowded where
  ends := by
    refine ((newDict_ends hs hl fun p hp => (hseen p hp).2).and (newDict_fails pairs h)).imp ?_
      fun _ _ hb => hb.2
    rintro r h' ⟨⟨s', he, hmaps⟩, -⟩
    obtain ⟨n, o, k, v, ks, vs, hd, -⟩ := hmaps fun p hp => (hseen p hp).1
    exact he.sound.kindOf_eq_ok.mpr ⟨_, hd, rfl⟩
  answers hroom hindexed hfew := by
    have hleast : h.config.dictMinCapacity ≤ h.dictRoom pairs := le_max_right ..
    have hpairs : pairs.length * 2 ≤ h.dictRoom pairs := le_max_left ..
    simp only [Layout.elementOffset, Layout.elementsOffset] at hroom
    have hbounded : h.config.Bounded := ⟨hindexed, by
      simp only [Layout.elementOffset, Layout.elementsOffset]
      omega⟩
    refine newDict_completes hs hl (hm hbounded) (hrare hfew) hseen ?_
    simp only [Layout.elementOffset, Layout.elementsOffset]
    omega
  overflows := newDict_overflows hs

end Dicts

end Heap

namespace Client

open Heap

variable {c : Client}

theorem Run.moderate (hrun : Run allows c) (hc : c.heap.config.Bounded) : c.heap.Moderate := by
  induction hrun with
  | start hnew => exact Heap.ofConfig_moderate hnew ((ofConfig_sound hnew).2.1 ▸ hc)
  | @step c c' q hrun hq hserve ih =>
    have haccounted := hrun.accounted
    have hm := ih (haccounted.config_eq hq hserve ▸ hc)
    obtain ⟨s, hs, -⟩ := haccounted.balanced
    rcases haccounted.collected_or_moved hq hserve with ⟨given, col, -, hcollect⟩ | ⟨-, hmoved⟩
    · exact (hs.collect_moderate hm _).good hcollect
    · exact hmoved.path.moderate hs.consistent hm

def Crowded (c : Client) : Prop :=
  ∃ r, 2 ^ 63 < (c.arrays ++ (c.held ++ c.globals.references)).count r

theorem not_crowded (h : ¬c.Crowded) : Rare (c.arrays ++ (c.held ++ c.globals.references)) :=
  fun r => Nat.le_of_not_lt fun hmany => h ⟨r, hmany⟩

end Client

namespace Session

open Heap

variable {s : Session} {pairs : List (Reference × Reference)} {crowded : Prop}

/-- The same of a session, which leaves a failure pending and answers the null reference. -/
structure MakesDict (s : Session) (pairs : List (Reference × Reference)) (crowded : Prop) :
    Prop where
  ends : (dict pairs).Ends s fun r s' =>
    (s'.heap.kindOf r = .ok .dict ∧ s'.pending = s.pending) ∨
      (r = .null ∧ ∃ e, DictFailure e ∧ s'.pending = some e.exception)
  answers : Layout.elementOffset (s.heap.dictRoom pairs) + 8 < Word.limit →
    s.heap.config.Indexed → ¬crowded → (dict pairs).Completes s
  overflows : Word.limit ≤ Layout.elementOffset (s.heap.dictRoom pairs) + 8 →
    dict pairs s = .error .overflow

theorem MakesDict.of_heap (h : s.heap.MakesDict pairs crowded) : s.MakesDict pairs crowded where
  ends := by
    simp only [dict, Turn.ends_attemptRef, Turn.ends_onHeap]
    exact h.ends.imp (fun _ _ hkind => .inl ⟨hkind, trivial⟩)
      fun e _ he => .inr ⟨trivial, e, he, rfl⟩
  answers hroom hindexed hfew :=
    Turn.completes_attemptRef.mpr (Turn.completes_onHeap.mpr (h.answers hroom hindexed hfew))
  overflows hroom := by
    have hheap : onHeap (newDict pairs) s = .error .overflow := by
      rw [onHeap, h.overflows hroom]
      rfl
    show (onHeap (newDict pairs) s >>= _) >>= _ = _
    rw [hheap]
    rfl

end Session

open Heap in
/-- A request for a block, an array or a text has an answer or is refused, as long as its size with
eight bytes more is a word, and meets an overflow else. So it is with the tables of a new dict,
however much room dicts are configured with. -/
theorem sizes_hold {c : Client} {p : Program} (hc : Client.Run Client.allows c)
    (hp : Program.Run Program.prudent p) :
    (∀ k size, k ≠ .free → c.heap.Provides size (make k size)) ∧
      (∀ capacity, c.heap.Provides (Layout.elementOffset capacity) (makeArray capacity)) ∧
      (∀ bytes, 0 ∉ bytes →
        c.heap.Provides (Layout.stringOffset + bytes.length + 1) (makeString bytes)) ∧
      (∀ pairs, c.allows (.newDict pairs) = true → c.heap.MakesDict pairs c.Crowded) ∧
      ∀ pairs, p.prudent (.dict pairs) = true → p.session.MakesDict pairs p.Crowded := by
  obtain ⟨s, hs, hl, -⟩ := hc.accounted.balanced
  obtain ⟨st, hst⟩ := hp.inOrder
  refine ⟨fun k size hk => hs.make_provides hk size, hs.makeArray_provides,
    fun bytes hbytes => hs.makeString_provides hbytes, fun pairs hpairs => ?_,
    fun pairs hpairs => .of_heap ?_⟩
  · refine newDict_makesDict hs hl (fun e he => ?_) hc.moderate Client.not_crowded
    obtain ⟨hkey, hvalue⟩ := Bool.and_eq_true_iff.mp (List.all_eq_true.mp hpairs e he)
    exact ⟨Client.seen_of_sees hs hkey, Client.seen_of_sees hs hvalue⟩
  · refine newDict_makesDict hst.sound hst.ledger (fun e he => ?_) hp.moderate Program.not_crowded
    obtain ⟨hkey, hvalue⟩ := Bool.and_eq_true_iff.mp (List.all_eq_true.mp hpairs e he)
    exact ⟨hst.seen hkey, hst.seen hvalue⟩

namespace Program

open Heap

def meagreConfig : Config := { poolSize := 160, poison := false, dictMinCapacity := 4 }

def meagre : Option (Client × Program) := do
  let c ← Client.session Client.allows meagreConfig [.makeInteger 1]
  let p ← run prudent meagreConfig []
  return (c, p)

theorem meagre_sizes_hold : ∃ c p, meagre = some (c, p) ∧
    (make .string 0xfffffffffffffff7).Completes c.heap ∧
      (make .string 0xfffffffffffffff8).runOn c.heap = .error .overflow ∧
        (newDict []).Completes c.heap ∧ (Session.dict []).Completes p.session := by
  have hall : (meagre.any fun e => decide (e.1.heap.table.size < e.1.heap.table.capacity ∧
      e.1.heap.table.size ≤ Table.maxIndex ∧ e.1.heap.dictRoom [] ≤ 8 ∧
        e.1.heap.config.halfSize ≤ 256 ∧ e.1.heap.config.initialRefs ≤ 8 ∧
          (e.1.arrays ++ (e.1.held ++ e.1.globals.references)).length ≤ 9 ∧
            e.2.session.heap.dictRoom [] ≤ 8 ∧ e.2.session.heap.config.halfSize ≤ 256 ∧
              e.2.session.heap.config.initialRefs ≤ 8 ∧
                (e.2.fresh ++ e.2.session.globals.references).length ≤ 9)) = true := by
    decide +kernel
  have hindexed {config : Config} (hhalf : config.halfSize ≤ 256) (hrefs : config.initialRefs ≤ 8) :
      config.Indexed :=
    ⟨Nat.lt_of_le_of_lt hhalf (by decide), Nat.le_trans hrefs (by decide)⟩
  have hfits {room : Nat} (hroom : room ≤ 8) : Layout.elementOffset room + 8 < Word.limit := by
    simp only [Layout.elementOffset, Layout.elementsOffset, Word.limit]
    omega
  have hfew {owned : List Reference} (hlength : owned.length ≤ 9) :
      ¬∃ r, 2 ^ 63 < owned.count r := by
    rintro ⟨r, hmany⟩
    have hcount := List.count_le_length (a := r) (l := owned)
    omega
  obtain ⟨⟨c, p⟩, hboth, hsmall⟩ := (Option.any_eq_true ..).mp hall
  obtain ⟨hspare, hsize, hroom, hhalf, hrefs, howned, hroom', hhalf', hrefs', howned'⟩ :=
    of_decide_eq_true hsmall
  have hruns := hboth
  simp only [meagre, Option.bind_eq_bind, Option.bind_eq_some_iff, Option.pure_def,
    Option.some_inj, Prod.mk.injEq] at hruns
  obtain ⟨_, hc, _, hp, rfl, rfl⟩ := hruns
  obtain ⟨hmakes, -, -, hdicts, hsession⟩ := sizes_hold (Client.Run.session hc) (Run.of_run hp)
  have hmake (size : Nat) := hmakes .string size (by decide)
  exact ⟨_, _, hboth, (hmake _).answers (by decide) (.inr ⟨hsize, .inl hspare⟩),
    (hmake _).overflows (by decide),
    (hdicts [] rfl).answers (hfits hroom) (hindexed hhalf hrefs) (hfew howned),
    (hsession [] rfl).answers (hfits hroom') (hindexed hhalf' hrefs') (hfew howned')⟩

def lavish : Option Program :=
  run prudent { poolSize := 160, poison := false, dictMinCapacity := 0x3ffffffffffffff6 } []

/-- Its tables are too large for the pool by far, and yet a dict is not refused. -/
theorem lavish_not_refused : ¬∀ p, Run prudent p → ∀ pairs, p.prudent (.dict pairs) = true →
    (Session.dict pairs).Completes p.session := by
  intro hall
  have hfaults : (lavish.any fun p => match Session.dict [] p.session with
      | .error f => f == .overflow
      | .ok _ => false) = true := by decide +kernel
  obtain ⟨p, hp, hfault⟩ := (Option.any_eq_true ..).mp hfaults
  obtain ⟨r, s', hdict⟩ := hall p (Run.of_run hp) [] rfl
  rw [hdict] at hfault
  cases hfault

end Program

end CountedHeap
