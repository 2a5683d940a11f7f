import CountedHeap.Proofs.Outcome
import CountedHeap.Session.Builtin

/-!
How the turns of a session end. A turn answers and leaves a session behind; what it does to the
heap is an action, whose error it may leave pending.
-/

namespace CountedHeap.Turn

variable {α β ε : Type} {s : Session} {P : α → Session → Prop}

/-- What holds of every end that a turn can come to. -/
def Ends (x : Turn α) (s : Session) (P : α → Session → Prop) : Prop :=
  ∀ a s', x s = .ok (a, s') → P a s'

theorem Ends.imp {Q : α → Session → Prop} {x : Turn α} (hx : x.Ends s P)
    (h : ∀ a s', P a s' → Q a s') : x.Ends s Q := fun a s' hr => h a s' (hx a s' hr)

@[simp]
theorem ends_pure {a : α} : (pure a : Turn α).Ends s P ↔ P a s := by
  constructor
  · exact fun hx => hx _ _ rfl
  · rintro hp a s' ⟨⟩
    exact hp

@[simp]
theorem ends_bind {x : Turn β} {f : β → Turn α} :
    (x >>= f).Ends s P ↔ x.Ends s fun b s' => (f b).Ends s' P := by
  have hrun : (x >>= f) s = x s >>= fun p => f p.1 p.2 := rfl
  constructor
  · intro hx b s' hb a s'' ha
    exact hx a s'' (by rw [hrun, hb]; exact ha)
  · intro hx a s'' ha
    rw [hrun, bind_eq_ok] at ha
    obtain ⟨⟨b, s'⟩, hb, ha⟩ := ha
    exact hx b s' hb a s'' ha

@[simp]
theorem ends_map {x : Turn β} {f : β → α} :
    (f <$> x).Ends s P ↔ x.Ends s fun b s' => P (f b) s' := by
  rw [map_eq_pure_bind, ends_bind]
  simp only [ends_pure]

@[simp]
theorem ends_get {P : Session → Session → Prop} : (get : Turn Session).Ends s P ↔ P s s := by
  constructor
  · exact fun hx => hx _ _ rfl
  · rintro hp a s' ⟨⟩
    exact hp

@[simp]
theorem ends_modify {f : Session → Session} {P : Unit → Session → Prop} :
    (modify f : Turn Unit).Ends s P ↔ P () (f s) := by
  constructor
  · exact fun hx => hx _ _ rfl
  · rintro hp a s' ⟨⟩
    exact hp

@[simp]
theorem ends_ite {p : Prop} [Decidable p] {x y : Turn α} :
    (if p then x else y).Ends s P ↔ (p → x.Ends s P) ∧ (¬p → y.Ends s P) := by
  by_cases hp : p <;> simp [hp]

@[simp]
theorem ends_updateHeap {f : Heap → Except Fault Heap} {P : Unit → Session → Prop} :
    (Session.updateHeap f).Ends s P ↔ ∀ heap, f s.heap = .ok heap → P () { s with heap } := by
  constructor
  · intro hx heap hf
    exact hx () _ (by simp [Session.updateHeap, hf])
  · intro hp a s' hr
    simp only [Session.updateHeap, bind_eq_ok, pure_eq_ok] at hr
    obtain ⟨heap, hf, hr⟩ := hr
    cases hr
    exact hp heap hf

@[simp]
theorem ends_readHeap {f : Heap → Except Fault α} :
    (Session.readHeap f).Ends s P ↔ ∀ a, f s.heap = .ok a → P a s := by
  constructor
  · intro hx a hf
    exact hx a s (by simp [Session.readHeap, hf])
  · intro hp a s' hr
    simp only [Session.readHeap, bind_eq_ok, pure_eq_ok] at hr
    obtain ⟨_, hf, hr⟩ := hr
    cases hr
    exact hp a hf

@[simp]
theorem ends_onHeap {x : Action ε α} {P : Except ε α → Session → Prop} :
    (Session.onHeap x).Ends s P ↔
      x.Ends s.heap (fun a heap => P (.ok a) { s with heap })
        fun e heap => P (.error e) { s with heap } := by
  constructor
  · intro hx a heap hr
    have hp := hx a _ (show Session.onHeap x s = .ok (a, { s with heap }) by
      simp [Session.onHeap, hr])
    cases a with
    | ok a => exact hp
    | error e => exact hp
  · intro hp a s' hr
    simp only [Session.onHeap, bind_eq_ok, pure_eq_ok, Prod.exists] at hr
    obtain ⟨_, heap, hb, hr⟩ := hr
    cases hr
    cases a with
    | ok a => exact hp.good hb
    | error e => exact hp.bad hb

@[simp]
theorem ends_raise {e : Exception} {P : Unit → Session → Prop} :
    (Session.raise e).Ends s P ↔ P () { s with pending := some e } := ends_modify

@[simp]
theorem ends_attempt {x : Turn (Except Failure α)} {P : Option α → Session → Prop} :
    (Session.attempt x).Ends s P ↔ x.Ends s fun a s' =>
      match a with
      | .ok a => P (some a) s'
      | .error f => P none { s' with pending := some f.exception } := by
  rw [Session.attempt, ends_bind]
  refine forall₃_congr fun a s' _ => ?_
  cases a with
  | ok a => exact ends_pure
  | error f => simp only [ends_bind, ends_raise, ends_pure]

@[simp]
theorem ends_attemptRef {x : Turn (Except Failure Reference)}
    {P : Reference → Session → Prop} :
    (Session.attemptRef x).Ends s P ↔ x.Ends s fun a s' =>
      match a with
      | .ok r => P r s'
      | .error f => P .null { s' with pending := some f.exception } := by
  rw [Session.attemptRef, ends_bind, ends_attempt]
  refine forall₃_congr fun a s' _ => ?_
  cases a with
  | ok r => exact ends_pure
  | error f => exact ends_pure

@[simp]
theorem ends_true {x : Turn α} : x.Ends s fun _ _ => True := fun _ _ _ => trivial

/-- The turn comes to an end. -/
def Completes (x : Turn α) (s : Session) : Prop := ∃ a s', x s = .ok (a, s')

@[simp]
theorem completes_pure {a : α} : (pure a : Turn α).Completes s := ⟨a, s, rfl⟩

@[simp]
theorem completes_get : (get : Turn Session).Completes s := ⟨s, s, rfl⟩

@[simp]
theorem completes_modify {f : Session → Session} : (modify f : Turn Unit).Completes s :=
  ⟨(), f s, rfl⟩

@[simp]
theorem completes_raise {e : Exception} : (Session.raise e).Completes s := completes_modify

@[simp]
theorem completes_bind {x : Turn β} {f : β → Turn α} :
    (x >>= f).Completes s ↔ x.Completes s ∧ x.Ends s fun b s' => (f b).Completes s' := by
  have hrun : (x >>= f) s = x s >>= fun p => f p.1 p.2 := rfl
  constructor
  · rintro ⟨a, s'', hr⟩
    rw [hrun, bind_eq_ok] at hr
    obtain ⟨⟨b, s'⟩, hb, ha⟩ := hr
    refine ⟨⟨b, s', hb⟩, fun c s₁ hc => ?_⟩
    cases hb.symm.trans hc
    exact ⟨a, s'', ha⟩
  · rintro ⟨⟨b, s', hb⟩, hf⟩
    obtain ⟨a, s'', ha⟩ := hf b s' hb
    exact ⟨a, s'', by rw [hrun, hb]; exact ha⟩

@[simp]
theorem completes_map {x : Turn β} {f : β → α} : (f <$> x).Completes s ↔ x.Completes s := by
  rw [map_eq_pure_bind, completes_bind]
  exact and_iff_left fun _ _ _ => completes_pure

@[simp]
theorem completes_ite {p : Prop} [Decidable p] {x y : Turn α} :
    (if p then x else y).Completes s ↔ (p → x.Completes s) ∧ (¬p → y.Completes s) := by
  by_cases hp : p <;> simp [hp]

@[simp]
theorem completes_updateHeap {f : Heap → Except Fault Heap} :
    (Session.updateHeap f).Completes s ↔ ∃ heap, f s.heap = .ok heap := by
  simp only [Completes, Session.updateHeap, bind_eq_ok, pure_eq_ok]
  constructor
  · rintro ⟨-, -, heap, hf, -⟩
    exact ⟨heap, hf⟩
  · rintro ⟨heap, hf⟩
    exact ⟨_, _, heap, hf, rfl⟩

@[simp]
theorem completes_readHeap {f : Heap → Except Fault α} :
    (Session.readHeap f).Completes s ↔ ∃ a, f s.heap = .ok a := by
  simp only [Completes, Session.readHeap, bind_eq_ok, pure_eq_ok]
  constructor
  · rintro ⟨-, -, a, hf, -⟩
    exact ⟨a, hf⟩
  · rintro ⟨a, hf⟩
    exact ⟨_, _, a, hf, rfl⟩

@[simp]
theorem completes_onHeap {x : Action ε α} :
    (Session.onHeap x).Completes s ↔ x.Completes s.heap := by
  simp only [Completes, Session.onHeap, Action.Completes, bind_eq_ok, pure_eq_ok]
  constructor
  · rintro ⟨-, -, e, hx, -⟩
    exact ⟨e.1, e.2, hx⟩
  · rintro ⟨a, h', hx⟩
    exact ⟨_, _, (a, h'), hx, rfl⟩

@[simp]
theorem completes_attempt {x : Turn (Except Failure α)} :
    (Session.attempt x).Completes s ↔ x.Completes s := by
  rw [Session.attempt, completes_bind, and_iff_left]
  intro a s' _
  cases a with
  | ok a => exact completes_pure
  | error f => exact completes_bind.mpr ⟨completes_raise, fun _ _ _ => completes_pure⟩

@[simp]
theorem completes_attemptRef {x : Turn (Except Failure Reference)} :
    (Session.attemptRef x).Completes s ↔ x.Completes s := by
  rw [Session.attemptRef, completes_bind, completes_attempt]
  exact and_iff_left fun _ _ _ => completes_pure

end CountedHeap.Turn
