import CountedHeap.Heap.Collect
import CountedHeap.Proofs.Collecting
import CountedHeap.Proofs.Operations

/-!
Clients of a heap. A client asks for one thing after the other, keeps bindings, and keeps account
of the references that it owns: those that were answered or retained and not spent since. A run may
follow a rule for what is asked; whatever is asked of it, a heap stays sound.
-/

namespace CountedHeap

inductive Request
  | makeNone
  | makeBool (b : Bool)
  | makeInteger (n : Int64)
  | makeString (bytes : List UInt8)
  | makeConcatenation (left right : Reference)
  | makeArray (capacity : Nat)
  | makeList (values : Reference)
  | makeDict (keys values : Reference)
  | newList (elements : List Reference)
  | newDict (pairs : List (Reference × Reference))
  | listPush (list item : Reference)
  | dictGet (dict key : Reference)
  | dictSet (dict key value : Reference)
  | dictDelete (dict key : Reference)
  | unary (op : UnaryOperator) (r : Reference)
  | binary (op : BinaryOperator) (left right : Reference)
  | subscript (r index : Reference)
  | assignItem (r index item : Reference)
  | deleteItem (r index : Reference)
  | retain (r : Reference)
  | release (r : Reference)
  | bind (name : String) (value : Reference)
  | lookup (name : String)
  | unbind (name : String)
  | clear
  /-- A collection over the bindings, or over these roots where there are none. -/
  | collect (roots : List Reference)

/-- A heap with a client. Each binding owns a reference. Of the others that the client owns,
`arrays` are those to arrays that it made for a list or a dict to take over. -/
structure Client where
  heap : Heap
  globals : Globals
  held : List Reference
  arrays : List Reference

namespace Client

variable {ε α : Type}

/-- The client after an action. An answer may change what it owns, an error does not. -/
def after (c : Client) (x : Action ε α) (answer : Client → α → Client) : Except Fault Client := do
  match ← x.runOn c.heap with
  | (.ok a, heap) => return answer { c with heap } a
  | (.error _, heap) => return { c with heap }

def own (spent : List Reference) (c : Client) (r : Reference) : Client :=
  { c with held := r :: c.held, arrays := c.arrays.diff spent }

def ownArray (c : Client) (r : Reference) : Client := { c with arrays := r :: c.arrays }

def roots (c : Client) (given : List Reference) : List Reference :=
  if c.globals.isEmpty then given else c.globals.references

/-- What a client is left with after a collection: nothing but its bindings, or the roots that it
gave where it has none. -/
def collect (c : Client) (given : List Reference) : Except Fault (Option Client) := do
  match ← (Heap.collect (c.roots given)).runOn c.heap with
  | (.ok _, heap) =>
      let held := if c.globals.isEmpty then given.filter (·.isLive) else []
      return some { c with heap, held, arrays := [] }
  | (.error _, _) => return none

open Heap in
/-- The client after a request; none after a collection that failed. -/
def serve (c : Client) : Request → Except Fault (Option Client)
  | .makeNone => some <$> c.after makeNone (own [])
  | .makeBool b => some <$> c.after (makeBool b) (own [])
  | .makeInteger n => some <$> c.after (makeInteger n) (own [])
  | .makeString bytes => some <$> c.after (makeString bytes) (own [])
  | .makeConcatenation left right => some <$> c.after (makeConcatenation left right) (own [])
  | .makeArray capacity => some <$> c.after (makeArray capacity) ownArray
  | .makeList values => some <$> c.after (makeList values) (own [values])
  | .makeDict keys values => some <$> c.after (makeDict keys values) (own [keys, values])
  | .newList elements => some <$> c.after (newList elements) (own [])
  | .newDict pairs => some <$> c.after (newDict pairs) (own [])
  | .listPush list item => some <$> c.after (listPush list item) fun c _ => c
  | .dictGet dict key => some <$> c.after (dictGet dict key) (own [])
  | .dictSet dict key value => some <$> c.after (dictSet dict key value) fun c _ => c
  | .dictDelete dict key => some <$> c.after (dictDelete dict key) fun c _ => c
  | .unary op r => some <$> c.after (unary op r) (own [])
  | .binary op left right => some <$> c.after (binary op left right) (own [])
  | .subscript r index => some <$> c.after (subscript r index) (own [])
  | .assignItem r index item => some <$> c.after (assignItem r index item) fun c _ => c
  | .deleteItem r index => some <$> c.after (deleteItem r index) fun c _ => c
  | .retain r => do return some { c with heap := ← c.heap.retain r, held := r :: c.held }
  | .release r => do return some { c with heap := ← c.heap.release r, held := c.held.erase r }
  | .bind name value => do
      let (globals, heap) ← c.globals.bind c.heap name value
      return some { c with heap, globals }
  | .lookup name => some <$> c.after (c.globals.get name) (own [])
  | .unbind name => some <$> c.after (c.globals.delete name) fun c globals => { c with globals }
  | .clear => do return some { c with heap := ← c.globals.clear c.heap, globals := [] }
  | .collect roots => c.collect roots

def sees (c : Client) (r : Reference) : Bool :=
  match c.heap.kindOf r with
  | .ok k => k != .array
  | .error _ => false

/-- A client that asks for what it may uses what it sees and gives up what it owns. -/
def allows (c : Client) : Request → Bool
  | .makeNone | .makeBool _ | .makeInteger _ | .makeString _ | .makeArray _ | .lookup _
  | .unbind _ | .clear => true
  | .makeList values => c.arrays.contains values
  | .makeDict keys values => c.arrays.contains keys && (c.arrays.erase keys).contains values
  | .newList elements => elements.all c.sees
  | .newDict pairs => pairs.all fun p => c.sees p.1 && c.sees p.2
  | .unary _ r | .retain r | .bind _ r => c.sees r
  | .makeConcatenation left right | .listPush left right | .dictGet left right
  | .dictDelete left right | .binary _ left right | .subscript left right
  | .deleteItem left right => c.sees left && c.sees right
  | .dictSet r key value | .assignItem r key value => c.sees r && c.sees key && c.sees value
  | .release r => c.held.contains r
  | .collect roots => !c.globals.isEmpty || roots.all fun r => !r.isLive || c.sees r

/-- The clients that come from a new heap by requests that keep to a rule. -/
inductive Run (rule : Client → Request → Bool) : Client → Prop
  | start {config : Config} {heap : Heap} (hnew : Heap.ofConfig config = .ok (.ok heap)) :
      Run rule ⟨heap, [], [], []⟩
  | step {c c' : Client} {q : Request} (hc : Run rule c) (hq : rule c q = true)
      (hserve : c.serve q = .ok (some c')) : Run rule c'

section Sessions

variable (rule : Client → Request → Bool)

def play (c : Client) : List Request → Option Client
  | [] => some c
  | q :: rest =>
      if rule c q then
        match c.serve q with
        | .ok (some c') => c'.play rest
        | _ => none
      else none

def session (config : Config) (requests : List Request) : Option Client :=
  match Heap.ofConfig config with
  | .ok (.ok heap) => play rule ⟨heap, [], [], []⟩ requests
  | _ => none

variable {rule} {c c' : Client} {requests : List Request}

theorem play_cons {q : Request} (hplay : c.play rule (q :: requests) = some c') :
    rule c q = true ∧ ∃ c₁, c.serve q = .ok (some c₁) ∧ c₁.play rule requests = some c' := by
  simp only [Client.play] at hplay
  split at hplay
  case isTrue hq =>
    split at hplay
    case h_1 c₁ hserve => exact ⟨hq, c₁, hserve, hplay⟩
    case h_2 => cases hplay
  case isFalse => cases hplay

theorem play_append {q : Request} {c₁ : Client} (hplay : c.play rule requests = some c₁)
    (hq : rule c₁ q = true) (hserve : c₁.serve q = .ok (some c')) :
    c.play rule (requests ++ [q]) = some c' := by
  induction requests generalizing c with
  | nil =>
    cases hplay
    simp only [List.nil_append, Client.play, hq, if_true, hserve]
  | cons q' rest ih =>
    obtain ⟨hq', c₂, hserve', hrest⟩ := play_cons hplay
    simp only [List.cons_append, Client.play, hq', if_true, hserve']
    exact ih hrest

theorem play_of_imp {rule' : Client → Request → Bool}
    (himp : ∀ c q, rule c q = true → rule' c q = true) (hplay : c.play rule requests = some c') :
    c.play rule' requests = some c' := by
  induction requests generalizing c with
  | nil => exact hplay
  | cons q rest ih =>
    obtain ⟨hq, c₁, hserve, hrest⟩ := play_cons hplay
    simp only [Client.play, himp c q hq, if_true, hserve]
    exact ih hrest

theorem Run.play (hc : Run rule c) (hplay : c.play rule requests = some c') : Run rule c' := by
  induction requests generalizing c with
  | nil =>
    cases hplay
    exact hc
  | cons q rest ih =>
    obtain ⟨hq, c₁, hserve, hrest⟩ := play_cons hplay
    exact ih (.step hc hq hserve) hrest

theorem Run.session {config : Config} (hsession : session rule config requests = some c) :
    Run rule c := by
  unfold Client.session at hsession
  split at hsession
  case h_1 hnew => exact (Run.start hnew).play hsession
  case h_2 => cases hsession

def sample : Option Client :=
  session allows { poolSize := 224 } [.makeInteger 0, .newList [.ofIndex 0, .ofIndex 0],
    .assignItem (.ofIndex 2) (.ofIndex 0) (.ofIndex 2)]

def sampleRoots : List Reference := [.ofIndex 2, .null, .ofIndex 2]

theorem sample_collects : ∃ c, sample = some c ∧
    ∃ col h', (Heap.collect sampleRoots).runOn c.heap = .ok (.ok col, h') := by
  have hall : (sample.any fun c =>
      match (Heap.collect sampleRoots).runOn c.heap with
      | .ok (.ok _, _) => true
      | _ => false) = true := by decide +kernel
  obtain ⟨c, hc, hcollects⟩ := (Option.any_eq_true ..).mp hall
  refine ⟨c, hc, ?_⟩
  split at hcollects
  case h_1 col h' hrun => exact ⟨col, h', hrun⟩
  case h_2 => cases hcollects

end Sessions

end Client

namespace Heap

variable {h : Heap} {config : Config}

theorem two_halfSize_le (hhalf : config.halfSize ≤ config.alignedPoolSize)
    (hmax : config.alignedPoolSize ≤ Memory.maxSize) :
    2 * config.halfSize ≤ config.alignedPoolSize := by
  simp only [Config.halfSize, Config.alignedPoolSize, Word.roundDown_eight, Word.limit,
    Memory.maxSize] at *
  omega

theorem ofConfig_stats (hnew : ofConfig config = .ok (.ok h)) : h.stats = {} := by
  unfold ofConfig at hnew
  split at hnew
  case h_1 => cases hnew
  case h_2 =>
    simp only [bind_eq_ok, pure_eq_ok, Except.ok.injEq] at hnew
    obtain ⟨_, _, _, _, rfl⟩ := hnew
    rfl

theorem ofConfig_sound (hnew : ofConfig config = .ok (.ok h)) :
    h.Sound (fun _ => none) ∧ h.config = config ∧ h.pool.Laid [0] h.table.addresses := by
  unfold ofConfig at hnew
  split at hnew
  · cases hnew
  simp only [bind_eq_ok, pure_eq_ok, Except.ok.injEq, Pool.idle] at hnew
  obtain ⟨_, ⟨m, hzero, rfl⟩, p, hactivate, rfl⟩ := hnew
  obtain ⟨hmax, hsize⟩ := Memory.zeroed_eq_ok hzero
  obtain ⟨hl, hregion, -, hin, -, hc⟩ := Pool.activate_laid (by simp only [hsize]; exact hmax)
    hactivate
  have hp := hc.size_eq
  simp only [hsize, Span.size, Nat.sub_zero, Nat.zero_add, roundDown_halfSize] at hp hin hregion
  have htwo := two_halfSize_le hin hmax
  have hbound : p.memory.size ≤ Memory.maxSize := by omega
  have hhead := hl.bounds (a := 0) (by simp)
  simp only [hregion] at hhead
  refine ⟨⟨⟨hbound, Nat.zero_le _, ?_, ?_, ?_, ?_, ?_, ?_⟩, ⟨_, hl⟩, .inl ⟨rfl, rfl⟩, ?_, hregion,
    ?_⟩, rfl, hl⟩
  · funext r
    show Table.get? _ r = none
    unfold Table.get?
    split <;> rfl
  · exact fun hr => by cases hr
  · exact fun hr => by cases hr
  · exact fun hr => by cases hr
  · exact fun hr => by cases hr
  · exact fun hr => by cases hr
  · show 2 * config.halfSize ≤ p.memory.size
    omega
  · show Block.headerSize ≤ config.halfSize
    omega

end Heap

namespace Client

open Heap

variable {ε α : Type} {c c' : Client}

theorem after_ends {x : Action ε α} {answer : Client → α → Client} {P : Client → Prop}
    (hx : x.Ends c.heap (fun a heap => P (answer { c with heap } a))
      fun _ heap => P { c with heap }) (h : c.after x answer = .ok c') : P c' := by
  simp only [after, bind_eq_ok, Prod.exists] at h
  obtain ⟨a, heap, hrun, h⟩ := h
  cases a with
  | ok a =>
    cases h
    exact hx.good hrun
  | error e =>
    cases h
    exact hx.bad hrun

theorem after_consistent {x : Action ε α} {answer : Client → α → Client} (hx : Safe x)
    (hanswer : ∀ c a, (answer c a).heap = c.heap) (hc : c.heap.Consistent)
    (h : c.after x answer = .ok c') : c'.heap.Consistent := by
  obtain ⟨s, hs⟩ := hc
  refine after_ends (P := fun c => c.heap.Consistent) ?_ h
  refine (hx c.heap s hs).imp (fun a heap hend => ?_) fun _ _ hend => hend
  rw [hanswer]
  exact hend

theorem collect_eq_some {given : List Reference} : c.collect given = .ok (some c') ↔
    ∃ col heap, (Heap.collect (c.roots given)).runOn c.heap = .ok (.ok col, heap) ∧
      c' = { c with
        heap, held := if c.globals.isEmpty then given.filter (·.isLive) else [], arrays := [] } := by
  constructor
  · intro h
    simp only [collect, bind_eq_ok, Prod.exists] at h
    obtain ⟨a, heap, hrun, h⟩ := h
    cases a with
    | ok col =>
      cases h
      exact ⟨col, heap, hrun, rfl⟩
    | error e => cases h
  · rintro ⟨col, heap, hrun, rfl⟩
    rw [collect, hrun]
    rfl

theorem collect_consistent {given : List Reference} (hc : c.heap.Consistent)
    (h : c.collect given = .ok (some c')) : c'.heap.Consistent := by
  obtain ⟨s, hs⟩ := hc
  obtain ⟨col, heap, hrun, rfl⟩ := collect_eq_some.mp h
  obtain ⟨s', hs'⟩ := (hs.collect _).good hrun
  exact ⟨s', hs'.sound⟩

theorem releases_consistent {refs : List Reference} {h h' : Heap} (hc : h.Consistent)
    (hr : refs.foldlM (·.release ·) h = .ok h') : h'.Consistent := by
  induction refs generalizing h with
  | nil =>
    cases hr
    exact hc
  | cons r rest ih =>
    simp only [List.foldlM_cons, bind_eq_ok] at hr
    obtain ⟨h₁, hrel, hrest⟩ := hr
    obtain ⟨s, hs⟩ := hc
    exact ih (hs.after.release hrel).consistent hrest

theorem serve_consistent {q : Request} (hc : c.heap.Consistent) (h : c.serve q = .ok (some c')) :
    c'.heap.Consistent := by
  have hafter {ε α : Type} {x : Action ε α} {answer : Client → α → Client} (hx : Safe x)
      (h : some <$> c.after x answer = .ok (some c'))
      (hanswer : ∀ c a, (answer c a).heap = c.heap) : c'.heap.Consistent := by
    simp only [map_eq_ok, Option.some_inj, exists_eq_right] at h
    exact after_consistent hx hanswer hc h
  cases q with
  | makeNone => exact hafter makeNone_safe h fun _ _ => rfl
  | makeBool b => exact hafter (makeBool_safe b) h fun _ _ => rfl
  | makeInteger n => exact hafter (makeInteger_safe n) h fun _ _ => rfl
  | makeString bytes => exact hafter (makeString_safe bytes) h fun _ _ => rfl
  | makeConcatenation left right =>
    exact hafter (makeConcatenation_safe left right) h fun _ _ => rfl
  | makeArray capacity => exact hafter (makeArray_safe capacity) h fun _ _ => rfl
  | makeList values => exact hafter (makeList_safe values) h fun _ _ => rfl
  | makeDict keys values => exact hafter (makeDict_safe keys values) h fun _ _ => rfl
  | newList elements => exact hafter (newList_safe elements) h fun _ _ => rfl
  | newDict pairs => exact hafter (newDict_safe pairs) h fun _ _ => rfl
  | listPush list item => exact hafter (listPush_safe list item) h fun _ _ => rfl
  | dictGet dict key => exact hafter (dictGet_safe dict key) h fun _ _ => rfl
  | dictSet dict key value => exact hafter (dictSet_safe dict key value) h fun _ _ => rfl
  | dictDelete dict key => exact hafter (dictDelete_safe dict key) h fun _ _ => rfl
  | unary op r => exact hafter (unary_safe op r) h fun _ _ => rfl
  | binary op left right => exact hafter (binary_safe op left right) h fun _ _ => rfl
  | subscript r index => exact hafter (subscript_safe r index) h fun _ _ => rfl
  | assignItem r index item => exact hafter (assignItem_safe r index item) h fun _ _ => rfl
  | deleteItem r index => exact hafter (deleteItem_safe r index) h fun _ _ => rfl
  | retain r =>
    simp only [serve, bind_eq_ok, pure_eq_ok, Option.some_inj] at h
    obtain ⟨h', hret, rfl⟩ := h
    obtain ⟨s, hs⟩ := hc
    exact (hs.after.retain hret).consistent
  | release r =>
    simp only [serve, bind_eq_ok, pure_eq_ok, Option.some_inj] at h
    obtain ⟨h', hrel, rfl⟩ := h
    obtain ⟨s, hs⟩ := hc
    exact (hs.after.release hrel).consistent
  | bind name value =>
    simp only [serve, Globals.bind, bind_eq_ok, pure_eq_ok, Option.some_inj, Prod.exists] at h
    obtain ⟨g, h', ⟨h₁, hret, hrel⟩, rfl⟩ := h
    obtain ⟨s, hs⟩ := hc
    have ha := hs.after.retain hret
    split at hrel
    · simp only [bind_eq_ok, pure_eq_ok, Prod.mk.injEq] at hrel
      obtain ⟨h₂, hrel, -, rfl⟩ := hrel
      exact (ha.release hrel).consistent
    · cases hrel
      exact ha.consistent
  | lookup name =>
    refine hafter (fun h s hs => ?_) h fun _ _ => rfl
    unfold Globals.get
    split
    · exact Action.ends_throw.mpr hs.consistent
    · simp only [Action.ends_bind, Action.ends_update, Action.ends_pure]
      exact fun h' hret => (hs.after.retain hret).consistent
  | unbind name =>
    refine hafter (fun h s hs => ?_) h fun _ _ => rfl
    unfold Globals.delete
    split
    · exact Action.ends_throw.mpr hs.consistent
    · simp only [Action.ends_bind, Action.ends_update, Action.ends_pure]
      exact fun h' hrel => (hs.after.release hrel).consistent
  | clear =>
    simp only [serve, bind_eq_ok, pure_eq_ok, Option.some_inj, Globals.clear] at h
    obtain ⟨h', hclear, rfl⟩ := h
    exact releases_consistent hc hclear
  | collect roots => exact collect_consistent hc h

theorem Run.consistent {rule : Client → Request → Bool} (hrun : Run rule c) :
    c.heap.Consistent := by
  induction hrun with
  | start hnew => exact (ofConfig_sound hnew).1.consistent
  | step _ _ hserve ih => exact serve_consistent ih hserve

end Client
end CountedHeap
