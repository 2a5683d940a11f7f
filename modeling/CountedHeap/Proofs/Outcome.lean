import CountedHeap.Heap.Basic
import Mathlib.Algebra.GroupWithZero.Nat

/-!
How computations end. A computation that may fault is opened up by what its success says; an
action on a heap by what holds of every end it can come to, with an answer or with an error. An
action that faults comes to no end.
-/

namespace CountedHeap

variable {α β γ δ ε : Type}

@[simp]
theorem bind_eq_ok {x : Except Fault α} {f : α → Except Fault β} {b : β} :
    x >>= f = .ok b ↔ ∃ a, x = .ok a ∧ f a = .ok b := by
  cases x <;> simp [bind, Except.bind]

theorem query_eq_ok {x : Query ε α} {f : α → Query ε β} {b : β} :
    x >>= f = .ok (.ok b) ↔ ∃ a, x = .ok (.ok a) ∧ f a = .ok (.ok b) := by
  constructor
  · intro h
    obtain ⟨a | a, ha, h⟩ := bind_eq_ok.mp h
    · cases h
    · exact ⟨a, ha, h⟩
  · rintro ⟨a, ha, h⟩
    exact bind_eq_ok.mpr ⟨.ok a, ha, h⟩

theorem query_answers {x : Query ε α} {f : α → Query ε β} (hx : ∃ a, x = .ok a)
    (hf : ∀ a, x = .ok (.ok a) → ∃ b, f a = .ok b) : ∃ b, x >>= f = .ok b := by
  obtain ⟨a | a, rfl⟩ := hx
  · exact ⟨.error a, rfl⟩
  · exact hf a rfl

@[simp]
theorem query_lift {a : α} {f : α → Query ε β} :
    (liftM (Except.ok a : Except Fault α) : Query ε α) >>= f = f a := rfl

@[simp]
theorem pure_eq_ok {a b : α} : (pure a : Except Fault α) = .ok b ↔ a = b := by
  simp [pure, Except.pure]

@[simp]
theorem map_eq_ok {x : Except Fault α} {f : α → β} {b : β} :
    f <$> x = .ok b ↔ ∃ a, x = .ok a ∧ f a = b := by
  cases x <;> simp [Functor.map, Except.map]

theorem toOption_eq_some {x : Except ε α} {a : α} : x.toOption = some a ↔ x = .ok a := by
  cases x <;> simp [Except.toOption]

theorem eq_ok_of_toOption [BEq α] [LawfulBEq α] {x : Except Fault α} {a : α}
    (h : (x.toOption == some a) = true) : x = .ok a :=
  toOption_eq_some.mp (eq_of_beq h)

@[simp]
theorem throw_bind (e : Fault) (f : α → Except Fault β) :
    (throw e : Except Fault α) >>= f = throw e := rfl

@[simp]
theorem ok_bind (a : α) (f : α → Except Fault β) : (.ok a : Except Fault α) >>= f = f a := rfl

@[simp]
theorem error_bind (e : Fault) (f : α → Except Fault β) :
    (.error e : Except Fault α) >>= f = .error e := rfl

@[simp]
theorem throw_eq_ok {e : Fault} {a : α} : (throw e : Except Fault α) = .ok a ↔ False := by
  simp [throw, throwThe, MonadExceptOf.throw]

@[simp]
theorem guard_eq_ok {p : Prop} [Decidable p] {x : Except Fault α} {e : Fault} {a : α} :
    (if p then x else throw e) = .ok a ↔ p ∧ x = .ok a := by
  by_cases hp : p <;> simp [hp]

@[simp]
theorem guard_not_eq_ok {p : Prop} [Decidable p] {x : Except Fault α} {e : Fault} {a : α} :
    (if p then throw e else x) = .ok a ↔ ¬p ∧ x = .ok a := by
  by_cases hp : p <;> simp [hp]

theorem mapM_eq_ok {f : α → Except Fault β} {g : α → β} {l : List α}
    (hf : ∀ a ∈ l, f a = .ok (g a)) : l.mapM f = .ok (l.map g) := by
  induction l with
  | nil => rfl
  | cons a rest ih =>
    rw [List.mapM_cons, hf a List.mem_cons_self, ok_bind,
      ih fun b hb => hf b (List.mem_cons_of_mem _ hb), ok_bind]
    rfl

namespace Action

/-- What holds of every answer and every error that an action can end in. -/
def Ends (x : Action ε α) (h : Heap) (good : α → Heap → Prop) (bad : ε → Heap → Prop) : Prop :=
  ∀ a h', x.runOn h = .ok (a, h') →
    match a with
    | .ok a => good a h'
    | .error e => bad e h'

theorem Ends.good {x : Action ε α} {h h' : Heap} {good : α → Heap → Prop}
    {bad : ε → Heap → Prop} (hx : x.Ends h good bad) {a : α}
    (hr : x.runOn h = .ok (.ok a, h')) : good a h' := hx _ _ hr

theorem Ends.bad {x : Action ε α} {h h' : Heap} {good : α → Heap → Prop}
    {bad : ε → Heap → Prop} (hx : x.Ends h good bad) {e : ε}
    (hr : x.runOn h = .ok (.error e, h')) : bad e h' := hx _ _ hr

theorem Ends.imp {x : Action ε α} {h : Heap} {good good' : α → Heap → Prop}
    {bad bad' : ε → Heap → Prop} (hx : x.Ends h good bad) (hg : ∀ a h', good a h' → good' a h')
    (hb : ∀ e h', bad e h' → bad' e h') : x.Ends h good' bad' := by
  intro a h' hr
  have hp := hx a h' hr
  cases a with
  | ok a => exact hg a h' hp
  | error e => exact hb e h' hp

theorem Ends.and {x : Action ε α} {h : Heap} {good good' : α → Heap → Prop}
    {bad bad' : ε → Heap → Prop} (hx : x.Ends h good bad) (hx' : x.Ends h good' bad') :
    x.Ends h (fun a h' => good a h' ∧ good' a h') fun e h' => bad e h' ∧ bad' e h' := by
  intro a h' hr
  have hend := hx a h' hr
  have hend' := hx' a h' hr
  cases a with
  | ok a => exact ⟨hend, hend'⟩
  | error e => exact ⟨hend, hend'⟩

theorem ends_runOn (x : Action ε α) (h : Heap) :
    x.Ends h (fun a h' => x.runOn h = .ok (.ok a, h')) fun e h' =>
      x.runOn h = .ok (.error e, h') := by
  intro a h' hr
  cases a <;> exact hr

variable {h : Heap} {good : α → Heap → Prop} {bad : ε → Heap → Prop}

@[simp]
theorem ends_pure {a : α} : (pure a : Action ε α).Ends h good bad ↔ good a h := by
  constructor
  · exact fun hx => hx _ _ rfl
  · rintro hg a h' ⟨⟩
    exact hg

@[simp]
theorem ends_throw {e : ε} : (throw e : Action ε α).Ends h good bad ↔ bad e h := by
  constructor
  · exact fun hx => hx _ _ rfl
  · rintro hb a h' ⟨⟩
    exact hb

@[simp]
theorem ends_fault {f : Fault} : (throwThe Fault f : Action ε α).Ends h good bad ↔ True := by
  refine iff_true_intro ?_
  rintro a h' ⟨⟩

theorem runOn_bind {x : Action ε β} {f : β → Action ε α} :
    (x >>= f).runOn h = x.runOn h >>= fun p => match p with
      | (.ok b, h') => (f b).runOn h'
      | (.error e, h') => .ok (.error e, h') := by
  show (x.run h >>= fun p => _) = x.run h >>= _
  congr 1
  funext ⟨b, h'⟩
  cases b <;> rfl

@[simp]
theorem ends_bind {x : Action ε β} {f : β → Action ε α} :
    (x >>= f).Ends h good bad ↔ x.Ends h (fun b h' => (f b).Ends h' good bad) bad := by
  constructor
  · intro hx b h' hb
    cases b with
    | ok b =>
      intro a h'' ha
      exact hx a h'' (by rw [runOn_bind, hb]; exact ha)
    | error e => exact hx (.error e) h' (by rw [runOn_bind, hb]; rfl)
  · intro hx a h' ha
    rw [runOn_bind, bind_eq_ok] at ha
    obtain ⟨⟨b, h''⟩, hb, ha⟩ := ha
    cases b with
    | ok b => exact hx _ _ hb a h' ha
    | error e =>
      cases ha
      exact hx _ _ hb

@[simp]
theorem ends_read {f : Heap → Except Fault α} :
    (read f : Action ε α).Ends h good bad ↔ ∀ a, f h = .ok a → good a h := by
  constructor
  · intro hx a ha
    exact hx (.ok a) h (by simp [runOn, read, ExceptT.run, ExceptT.mk, ha])
  · intro hg a h' hr
    simp only [runOn, read, ExceptT.run, ExceptT.mk, bind_eq_ok, pure_eq_ok] at hr
    obtain ⟨b, hb, hr⟩ := hr
    cases hr
    exact hg b hb

@[simp]
theorem ends_ask {f : Heap → Query ε α} :
    (ask f).Ends h good bad ↔
      (∀ a, f h = .ok (.ok a) → good a h) ∧ ∀ e, f h = .ok (.error e) → bad e h := by
  constructor
  · intro hx
    constructor
    · intro a ha
      exact hx (.ok a) h (by simp [runOn, ask, ExceptT.run, ExceptT.mk, ha])
    · intro e he
      exact hx (.error e) h (by simp [runOn, ask, ExceptT.run, ExceptT.mk, he])
  · rintro ⟨hg, hb⟩ a h' hr
    simp only [runOn, ask, ExceptT.run, ExceptT.mk, bind_eq_ok, pure_eq_ok] at hr
    obtain ⟨b, hf, hr⟩ := hr
    cases hr
    cases a with
    | ok a => exact hg a hf
    | error e => exact hb e hf

@[simp]
theorem ends_update {f : Heap → Except Fault Heap} {good : Unit → Heap → Prop} :
    (update f : Action ε Unit).Ends h good bad ↔ ∀ h', f h = .ok h' → good () h' := by
  constructor
  · intro hx h' hf
    exact hx (.ok ()) h' (by simp [runOn, update, ExceptT.run, ExceptT.mk, hf])
  · intro hg a h' hr
    simp only [runOn, update, ExceptT.run, ExceptT.mk, bind_eq_ok, pure_eq_ok] at hr
    obtain ⟨h'', hf, hr⟩ := hr
    cases hr
    exact hg h' hf

@[simp]
theorem ends_get {good : Heap → Heap → Prop} :
    (get : Action ε Heap).Ends h good bad ↔ good h h := by
  constructor
  · exact fun hx => hx _ _ rfl
  · rintro hg a h' ⟨⟩
    exact hg

@[simp]
theorem ends_liftM {x : Except Fault α} :
    (liftM x : Action ε α).Ends h good bad ↔ ∀ a, x = .ok a → good a h := by
  constructor
  · rintro hx a rfl
    exact hx (.ok a) h rfl
  · intro hg a h' hr
    cases x with
    | ok b =>
      cases hr
      exact hg b rfl
    | error e => cases hr

theorem runOn_mapError {x : Action δ α} {f : δ → ε} :
    (mapError f x).runOn h = x.runOn h >>= fun p => match p with
      | (.ok b, h') => .ok (.ok b, h')
      | (.error e, h') => .ok (.error (f e), h') := by
  show (x.run h >>= fun p => _) = x.run h >>= _
  congr 1
  funext ⟨b, h'⟩
  cases b <;> rfl

@[simp]
theorem ends_mapError {x : Action δ α} {f : δ → ε} :
    (mapError f x).Ends h good bad ↔ x.Ends h good (fun e h' => bad (f e) h') := by
  constructor
  · intro hx b h' hb
    cases b with
    | ok b => exact hx (.ok b) h' (by rw [runOn_mapError, hb]; rfl)
    | error e => exact hx (.error (f e)) h' (by rw [runOn_mapError, hb]; rfl)
  · intro hx a h' ha
    rw [runOn_mapError, bind_eq_ok] at ha
    obtain ⟨⟨b, h''⟩, hb, ha⟩ := ha
    cases b with
    | ok b => cases ha; exact hx _ _ hb
    | error e => cases ha; exact hx _ _ hb

@[simp]
theorem ends_ofMemory {x : Action OutOfMemory α} {bad : Failure → Heap → Prop} :
    (liftM x : Action Failure α).Ends h good bad ↔
      x.Ends h good (fun e h' => bad (.outOfMemory e) h') :=
  ends_mapError

-- Where the errors are failures, the heap and faults are reached by way of actions that can only
-- run out of memory, so the rules above do not apply to them.
@[simp]
theorem ends_getFailure {good : Heap → Heap → Prop} {bad : Failure → Heap → Prop} :
    (get : Action Failure Heap).Ends h good bad ↔ good h h := by
  constructor
  · exact fun hx => hx _ _ rfl
  · rintro hg a h' ⟨⟩
    exact hg

@[simp]
theorem ends_liftFailure {x : Except Fault α} {bad : Failure → Heap → Prop} :
    (liftM x : Action Failure α).Ends h good bad ↔ ∀ a, x = .ok a → good a h := by
  constructor
  · rintro hx a rfl
    exact hx (.ok a) h rfl
  · intro hg a h' hr
    cases x with
    | ok b =>
      cases hr
      exact hg b rfl
    | error e => cases hr

theorem runOn_orUndo {x : Action ε α} {undo : Heap → Except Fault Heap} :
    (x.orUndo undo).runOn h = x.runOn h >>= fun p => match p with
      | (.ok b, h') => .ok (.ok b, h')
      | (.error e, h') => (do update undo; throw e : Action ε α).runOn h' := by
  show (x.run h >>= fun p => _) = x.run h >>= _
  congr 1
  funext ⟨b, h'⟩
  cases b <;> rfl

@[simp]
theorem ends_orUndo {x : Action ε α} {undo : Heap → Except Fault Heap} :
    (x.orUndo undo).Ends h good bad ↔
      x.Ends h good (fun e h' => ∀ h'', undo h' = .ok h'' → bad e h'') := by
  have hundo (e : ε) (h' : Heap) : (do update undo; throw e : Action ε α).Ends h' good bad ↔
      ∀ h'', undo h' = .ok h'' → bad e h'' := by simp only [ends_bind, ends_update, ends_throw]
  constructor
  · intro hx b h' hb
    cases b with
    | ok b => exact hx (.ok b) h' (by rw [runOn_orUndo, hb]; rfl)
    | error e =>
      refine (hundo e h').mp fun a h'' ha => hx a h'' ?_
      rw [runOn_orUndo, hb]
      exact ha
  · intro hx a h' ha
    rw [runOn_orUndo, bind_eq_ok] at ha
    obtain ⟨⟨b, h''⟩, hb, ha⟩ := ha
    cases b with
    | ok b => cases ha; exact hx _ _ hb
    | error e => exact (hundo e h'').mpr (hx _ _ hb) a h' ha

@[simp]
theorem ends_ite {p : Prop} [Decidable p] {x y : Action ε α} :
    (if p then x else y).Ends h good bad ↔
      (p → x.Ends h good bad) ∧ (¬p → y.Ends h good bad) := by
  by_cases hp : p <;> simp [hp]

@[simp]
theorem ends_true {x : Action ε α} : x.Ends h (fun _ _ => True) fun _ _ => True := by
  rintro (_ | _) _ _ <;> trivial

/-- The action comes to an end, with an answer or with an error. -/
def Completes (x : Action ε α) (h : Heap) : Prop := ∃ a h', x.runOn h = .ok (a, h')

@[simp]
theorem completes_pure {a : α} : (pure a : Action ε α).Completes h := ⟨_, _, rfl⟩

@[simp]
theorem completes_throw {e : ε} : (throw e : Action ε α).Completes h := ⟨_, _, rfl⟩

@[simp]
theorem completes_get : (get : Action ε Heap).Completes h := ⟨_, _, rfl⟩

@[simp]
theorem completes_getFailure : (get : Action Failure Heap).Completes h := ⟨_, _, rfl⟩

@[simp]
theorem completes_liftM {x : Except Fault α} :
    (liftM x : Action ε α).Completes h ↔ ∃ a, x = .ok a := by
  constructor
  · rintro ⟨a, h', hr⟩
    cases x with
    | ok b => exact ⟨b, rfl⟩
    | error e => cases hr
  · rintro ⟨a, rfl⟩
    exact ⟨_, _, rfl⟩

@[simp]
theorem completes_liftFailure {x : Except Fault α} :
    (liftM x : Action Failure α).Completes h ↔ ∃ a, x = .ok a := by
  constructor
  · rintro ⟨a, h', hr⟩
    cases x with
    | ok b => exact ⟨b, rfl⟩
    | error e => cases hr
  · rintro ⟨a, rfl⟩
    exact ⟨_, _, rfl⟩

@[simp]
theorem completes_read {f : Heap → Except Fault α} :
    (read f : Action ε α).Completes h ↔ ∃ a, f h = .ok a := by
  simp only [Completes, runOn, read, ExceptT.run, ExceptT.mk, bind_eq_ok, pure_eq_ok]
  constructor
  · rintro ⟨-, -, a, ha, -⟩
    exact ⟨a, ha⟩
  · rintro ⟨a, ha⟩
    exact ⟨_, _, a, ha, rfl⟩

@[simp]
theorem completes_ask {f : Heap → Query ε α} :
    (ask f).Completes h ↔ ∃ a, f h = .ok a := by
  simp only [Completes, runOn, ask, ExceptT.run, ExceptT.mk, bind_eq_ok, pure_eq_ok]
  constructor
  · rintro ⟨-, -, a, ha, -⟩
    exact ⟨a, ha⟩
  · rintro ⟨a, ha⟩
    exact ⟨_, _, a, ha, rfl⟩

@[simp]
theorem completes_update {f : Heap → Except Fault Heap} :
    (update f : Action ε Unit).Completes h ↔ ∃ h', f h = .ok h' := by
  simp only [Completes, runOn, update, ExceptT.run, ExceptT.mk, bind_eq_ok, pure_eq_ok]
  constructor
  · rintro ⟨-, -, h', hf, -⟩
    exact ⟨h', hf⟩
  · rintro ⟨h', hf⟩
    exact ⟨_, _, h', hf, rfl⟩

@[simp]
theorem completes_bind {x : Action ε β} {f : β → Action ε α} :
    (x >>= f).Completes h ↔
      x.Completes h ∧ x.Ends h (fun b h' => (f b).Completes h') fun _ _ => True := by
  rw [Completes, runOn_bind]
  constructor
  · rintro ⟨a, h', hr⟩
    obtain ⟨⟨b, h''⟩, hb, hr⟩ := bind_eq_ok.mp hr
    refine ⟨⟨b, h'', hb⟩, fun b' h₁ hb' => ?_⟩
    rw [hb] at hb'
    cases hb'
    cases b with
    | ok b => exact ⟨a, h', hr⟩
    | error e => trivial
  · rintro ⟨⟨b, h', hb⟩, hf⟩
    rw [hb]
    cases b with
    | ok b => exact hf.good hb
    | error e => exact ⟨_, _, rfl⟩

@[simp]
theorem completes_mapError {x : Action δ α} {f : δ → ε} :
    (mapError f x).Completes h ↔ x.Completes h := by
  rw [Completes, runOn_mapError]
  constructor
  · rintro ⟨a, h', hr⟩
    obtain ⟨⟨b, h''⟩, hb, -⟩ := bind_eq_ok.mp hr
    exact ⟨b, h'', hb⟩
  · rintro ⟨b, h', hb⟩
    rw [hb]
    cases b with
    | ok b => exact ⟨_, _, rfl⟩
    | error e => exact ⟨_, _, rfl⟩

@[simp]
theorem completes_ofMemory {x : Action OutOfMemory α} :
    (liftM x : Action Failure α).Completes h ↔ x.Completes h := completes_mapError

@[simp]
theorem completes_orUndo {x : Action ε α} {undo : Heap → Except Fault Heap} :
    (x.orUndo undo).Completes h ↔
      x.Completes h ∧ x.Ends h (fun _ _ => True) fun _ h' => ∃ h'', undo h' = .ok h'' := by
  have hundo (e : ε) (h' : Heap) : (do update undo; throw e : Action ε α).Completes h' ↔
      ∃ h'', undo h' = .ok h'' := by
    simp only [completes_bind, completes_update, completes_throw, ends_update, implies_true,
      and_true]
  rw [Completes, runOn_orUndo]
  constructor
  · rintro ⟨a, h', hr⟩
    obtain ⟨⟨b, h''⟩, hb, hr⟩ := bind_eq_ok.mp hr
    refine ⟨⟨b, h'', hb⟩, fun b' h₁ hb' => ?_⟩
    rw [hb] at hb'
    cases hb'
    cases b with
    | ok b => trivial
    | error e => exact (hundo e h'').mp ⟨a, h', hr⟩
  · rintro ⟨⟨b, h', hb⟩, hf⟩
    rw [hb]
    cases b with
    | ok b => exact ⟨_, _, rfl⟩
    | error e => exact (hundo e h').mpr (hf.bad hb)

@[simp]
theorem completes_ite {p : Prop} [Decidable p] {x y : Action ε α} :
    (if p then x else y).Completes h ↔ (p → x.Completes h) ∧ (¬p → y.Completes h) := by
  by_cases hp : p <;> simp [hp]

/-- What holds of every fault that an action can end in. -/
def Faults (x : Action ε α) (h : Heap) (P : Fault → Prop) : Prop :=
  ∀ f, x.runOn h = .error f → P f

section Faulting

variable {P : Fault → Prop}

theorem Completes.faults {x : Action ε α} (hx : x.Completes h) : x.Faults h P := by
  obtain ⟨a, h', hr⟩ := hx
  intro f hf
  rw [hr] at hf
  cases hf

theorem completes_iff_faults {x : Action ε α} :
    x.Completes h ↔ x.Faults h fun _ => False := by
  refine ⟨Completes.faults, fun hx => ?_⟩
  cases hr : x.runOn h with
  | ok r => exact ⟨r.1, r.2, hr⟩
  | error f => exact (hx f hr).elim

theorem faults_liftM {x : Except Fault α} (hx : ∀ f, x = .error f → P f) :
    (liftM x : Action ε α).Faults h P := by
  intro f hf
  cases x with
  | ok a => cases hf
  | error e =>
    cases hf
    exact hx _ rfl

theorem faults_bind {x : Action ε β} {g : β → Action ε α} (hx : x.Faults h P)
    (hg : x.Ends h (fun b h' => (g b).Faults h' P) fun _ _ => True) :
    (x >>= g).Faults h P := by
  intro f hf
  rw [runOn_bind] at hf
  cases hr : x.runOn h with
  | error e =>
    rw [hr] at hf
    cases hf
    exact hx _ hr
  | ok r =>
    obtain ⟨b | b, h'⟩ := r
    · rw [hr] at hf
      cases hf
    · rw [hr] at hf
      exact hg.good hr f hf

theorem faults_mapError {x : Action δ α} {g : δ → ε} (hx : x.Faults h P) :
    (mapError g x).Faults h P := by
  intro f hf
  rw [runOn_mapError] at hf
  cases hr : x.runOn h with
  | error e =>
    rw [hr] at hf
    cases hf
    exact hx _ hr
  | ok r => obtain ⟨b | b, h'⟩ := r <;> rw [hr] at hf <;> cases hf

theorem faults_ofMemory {x : Action OutOfMemory α} (hx : x.Faults h P) :
    (liftM x : Action Failure α).Faults h P := faults_mapError hx

theorem faults_orUndo {x : Action ε α} {undo : Heap → Except Fault Heap} (hx : x.Faults h P)
    (hundo : x.Ends h (fun _ _ => True) fun _ h' => ∃ h'', undo h' = .ok h'') :
    (x.orUndo undo).Faults h P := by
  intro f hf
  rw [runOn_orUndo] at hf
  cases hr : x.runOn h with
  | error e =>
    rw [hr] at hf
    cases hf
    exact hx _ hr
  | ok r =>
    obtain ⟨e | b, h'⟩ := r
    · obtain ⟨h'', hu⟩ := hundo.bad hr
      rw [hr, ok_bind] at hf
      have hcompletes : (do update undo; throw e : Action ε α).Completes h' := by
        simp [hu]
      exact hcompletes.faults f hf
    · rw [hr] at hf
      cases hf

end Faulting

section Steps

variable {x : Action ε β} {f : β → Action ε α} {h' : Heap} {b : β} {e : ε}

theorem runOn_bind_ok (hx : x.runOn h = .ok (.ok b, h')) : (x >>= f).runOn h = (f b).runOn h' := by
  rw [runOn_bind, hx]
  rfl

theorem runOn_bind_error (hx : x.runOn h = .ok (.error e, h')) :
    (x >>= f).runOn h = .ok (.error e, h') := by
  rw [runOn_bind, hx]
  rfl

theorem runOn_read {g : Heap → Except Fault β} (hg : g h = .ok b) :
    (read g : Action ε β).runOn h = .ok (.ok b, h) := by
  simp [runOn, read, ExceptT.run, ExceptT.mk, hg]

theorem runOn_ask {g : Heap → Query ε β} {a : Except ε β} (hg : g h = .ok a) :
    (ask g : Action ε β).runOn h = .ok (a, h) := by
  simp [runOn, ask, ExceptT.run, ExceptT.mk, hg]

theorem runOn_update {g : Heap → Except Fault Heap} (hg : g h = .ok h') :
    (update g : Action ε Unit).runOn h = .ok (.ok (), h') := by
  simp [runOn, update, ExceptT.run, ExceptT.mk, hg]

theorem runOn_update_bind {g : Heap → Except Fault Heap} {f : Unit → Action ε α} :
    (update g >>= f).runOn h = g h >>= fun h' => (f ()).runOn h' := by
  have hrun : (update g : Action ε Unit).runOn h = g h >>= fun h' => .ok (.ok (), h') := rfl
  rw [runOn_bind, hrun]
  cases g h <;> rfl

theorem runOn_liftM {y : Except Fault β} (hy : y = .ok b) :
    (liftM y : Action ε β).runOn h = .ok (.ok b, h) := by
  rw [hy]
  rfl

theorem runOn_liftFailure {y : Except Fault β} (hy : y = .ok b) :
    (liftM y : Action Failure β).runOn h = .ok (.ok b, h) := by
  rw [hy]
  rfl

end Steps

end Action
end CountedHeap
