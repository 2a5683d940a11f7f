import CountedHeap.Proofs.Outcome

/-!
Two runs side by side. Of two computations the ends are compared: both fault in the same way, or
both come to an answer, and what they leave behind is related. For an action that means the same
answer or the same error out of either heap, beside heaps that are related in turn.
-/

namespace CountedHeap

variable {α α' β β' δ ε : Type}

def Mirrored (R : α → α' → Prop) : Except ε α → Except ε α' → Prop
  | .ok a, .ok a' => R a a'
  | .error e, .error e' => e = e'
  | .ok _, .error _ | .error _, .ok _ => False

namespace Mirrored

variable {R : α → α' → Prop} {S : β → β' → Prop} {x : Except ε α} {y : Except ε α'}

theorem ends (h : Mirrored R x y) : (∃ e, x = .error e ∧ y = .error e) ∨
    ∃ a a', x = .ok a ∧ y = .ok a' ∧ R a a' := by
  cases x with
  | ok a =>
    cases y with
    | ok a' => exact .inr ⟨a, a', rfl, rfl, h⟩
    | error e => exact h.elim
  | error e =>
    cases y with
    | ok a' => exact h.elim
    | error e' => exact .inl ⟨e, rfl, congrArg _ (Eq.symm h)⟩

theorem imp {Q : α → α' → Prop} (h : Mirrored R x y)
    (hQ : ∀ a a', x = .ok a → y = .ok a' → R a a' → Q a a') : Mirrored Q x y := by
  obtain ⟨e, rfl, rfl⟩ | ⟨a, a', rfl, rfl, hR⟩ := h.ends
  · exact (rfl : e = e)
  · exact hQ a a' rfl rfl hR

theorem of_eq {R : α → α → Prop} {x y : Except ε α} (h : x = y) (hR : ∀ a, x = .ok a → R a a) :
    Mirrored R x y := by
  subst h
  cases x with
  | ok a => exact hR a rfl
  | error e => exact (rfl : e = e)

theorem of_ok {a : α} {a' : α'} (hx : x = .ok a) (hy : y = .ok a') (h : R a a') :
    Mirrored R x y := by
  subst hx hy
  exact h

theorem of_error {e : ε} (hx : x = .error e) (hy : y = .error e) : Mirrored R x y := by
  subst hx hy
  exact (rfl : e = e)

theorem map_eq {f : α → β} {g : α' → β} (h : Mirrored R x y)
    (hfg : ∀ a a', R a a' → f a = g a') : f <$> x = g <$> y := by
  obtain ⟨e, rfl, rfl⟩ | ⟨a, a', rfl, rfl, hR⟩ := h.ends
  · rfl
  · exact congrArg Except.ok (hfg a a' hR)

section Faults

variable {x : Except Fault α} {y : Except Fault α'} {f : α → Except Fault β}
  {g : α' → Except Fault β'}

theorem bind (h : Mirrored R x y)
    (hfg : ∀ a a', x = .ok a → y = .ok a' → R a a' → Mirrored S (f a) (g a')) :
    Mirrored S (x >>= f) (y >>= g) := by
  obtain ⟨e, rfl, rfl⟩ | ⟨a, a', rfl, rfl, hR⟩ := h.ends
  · exact (rfl : e = e)
  · exact hfg a a' rfl rfl hR

theorem bind_eq {x y : Except Fault α} {g : α → Except Fault β'} (h : x = y)
    (hfg : ∀ a, x = .ok a → Mirrored S (f a) (g a)) : Mirrored S (x >>= f) (y >>= g) :=
  bind (of_eq (R := fun a a' => a = a') h fun _ _ => rfl) fun a _ ha _ he => he ▸ hfg a ha

theorem throw_throw (e : Fault) : Mirrored R (throw e : Except Fault α) (throw e) :=
  (rfl : e = e)

theorem pure_pure {a : α} {a' : α'} (h : R a a') :
    Mirrored R (pure a : Except Fault α) (pure a') := h

end Faults
end Mirrored

namespace Action

def Abreast (good : α → Heap → Heap → Prop) (bad : ε → Heap → Heap → Prop)
    (p p' : Except ε α × Heap) : Prop :=
  p.1 = p'.1 ∧ match p.1 with
    | .ok a => good a p.2 p'.2
    | .error e => bad e p.2 p'.2

def Mirrors (x : Action ε α) (h h' : Heap) (good : α → Heap → Heap → Prop)
    (bad : ε → Heap → Heap → Prop) : Prop :=
  Mirrored (Abreast good bad) (x.runOn h) (x.runOn h')

variable {h h' : Heap} {good : α → Heap → Heap → Prop} {bad : ε → Heap → Heap → Prop}

theorem Mirrors.imp {x : Action ε α} {good' : α → Heap → Heap → Prop}
    {bad' : ε → Heap → Heap → Prop} (hx : x.Mirrors h h' good bad)
    (hg : ∀ a g g', good a g g' → good' a g g') (hb : ∀ e g g', bad e g g' → bad' e g g') :
    x.Mirrors h h' good' bad' := by
  refine Mirrored.imp hx ?_
  rintro ⟨a, g⟩ ⟨_, g'⟩ - - ⟨rfl, hend⟩
  cases a with
  | ok a => exact ⟨rfl, hg a g g' hend⟩
  | error e => exact ⟨rfl, hb e g g' hend⟩

theorem Mirrors.and_ends {x : Action ε α} {left right : α → Heap → Prop}
    {left' right' : ε → Heap → Prop} (hx : x.Mirrors h h' good bad)
    (hl : x.Ends h left left') (hr : x.Ends h' right right') :
    x.Mirrors h h' (fun a g g' => good a g g' ∧ left a g ∧ right a g')
      (fun e g g' => bad e g g' ∧ left' e g ∧ right' e g') := by
  refine Mirrored.imp hx ?_
  rintro ⟨a, g⟩ ⟨_, g'⟩ hrun hrun' ⟨rfl, hend⟩
  cases a with
  | ok a => exact ⟨rfl, hend, hl.good hrun, hr.good hrun'⟩
  | error e => exact ⟨rfl, hend, hl.bad hrun, hr.bad hrun'⟩

theorem mirrors_pure {a : α} (hg : good a h h') : (pure a : Action ε α).Mirrors h h' good bad :=
  ⟨rfl, hg⟩

theorem mirrors_throw {e : ε} (hb : bad e h h') :
    (throw e : Action ε α).Mirrors h h' good bad := ⟨rfl, hb⟩

theorem mirrors_fault {f : Fault} : (throwThe Fault f : Action ε α).Mirrors h h' good bad :=
  (rfl : f = f)

theorem mirrors_bind {x : Action ε β} {f : β → Action ε α}
    (hx : x.Mirrors h h' (fun b g g' => (f b).Mirrors g g' good bad) bad) :
    (x >>= f).Mirrors h h' good bad := by
  unfold Mirrors
  rw [runOn_bind, runOn_bind]
  refine Mirrored.bind hx ?_
  rintro ⟨b, g⟩ ⟨_, g'⟩ - - ⟨rfl, hend⟩
  cases b with
  | ok b => exact hend
  | error e => exact ⟨rfl, hend⟩

theorem mirrors_read {f : Heap → Except Fault α} (hf : f h = f h')
    (hg : ∀ a, f h = .ok a → good a h h') : (read f : Action ε α).Mirrors h h' good bad :=
  Mirrored.bind_eq hf fun a ha => ⟨rfl, hg a ha⟩

theorem read_bind {f : Heap → Except Fault β} {k : β → Action ε α} (hf : f h = f h')
    (hk : ∀ b, f h = .ok b → (k b).Mirrors h h' good bad) :
    (read f >>= k).Mirrors h h' good bad := mirrors_bind (mirrors_read hf hk)

theorem ask_bind {f : Heap → Query ε β} {k : β → Action ε α} (hf : f h = f h')
    (hk : ∀ b, f h = .ok (.ok b) → (k b).Mirrors h h' good bad)
    (hb : ∀ e, f h = .ok (.error e) → bad e h h') : (ask f >>= k).Mirrors h h' good bad := by
  refine mirrors_bind (Mirrored.bind_eq (congrArg ExceptT.run hf) fun b hrun => ?_)
  cases b with
  | ok b => exact ⟨rfl, hk b hrun⟩
  | error e => exact ⟨rfl, hb e hrun⟩

theorem mirrors_update {f : Heap → Except Fault Heap} {good : Unit → Heap → Heap → Prop}
    (hf : Mirrored (good ()) (f h) (f h')) : (update f : Action ε Unit).Mirrors h h' good bad :=
  Mirrored.bind hf fun _ _ _ _ hg => ⟨rfl, hg⟩

theorem update_bind {R : Heap → Heap → Prop} {f : Heap → Except Fault Heap}
    {k : Unit → Action ε α} (hf : Mirrored R (f h) (f h'))
    (hk : ∀ g g', f h = .ok g → R g g' → (k ()).Mirrors g g' good bad) :
    (update f >>= k).Mirrors h h' good bad :=
  mirrors_bind (mirrors_update (hf.imp fun g g' hg _ hR => hk g g' hg hR))

theorem mirrors_mapError {x : Action δ α} {f : δ → ε}
    (hx : x.Mirrors h h' good fun e g g' => bad (f e) g g') :
    (mapError f x).Mirrors h h' good bad := by
  unfold Mirrors
  rw [runOn_mapError, runOn_mapError]
  refine Mirrored.bind hx ?_
  rintro ⟨b, g⟩ ⟨_, g'⟩ - - ⟨rfl, hend⟩
  cases b with
  | ok b => exact ⟨rfl, hend⟩
  | error e => exact ⟨rfl, hend⟩

theorem mirrors_ofMemory {x : Action OutOfMemory α} {bad : Failure → Heap → Heap → Prop}
    (hx : x.Mirrors h h' good fun e g g' => bad (.outOfMemory e) g g') :
    (liftM x : Action Failure α).Mirrors h h' good bad := mirrors_mapError hx

theorem mirrors_orUndo {x : Action ε α} {undo : Heap → Except Fault Heap}
    (hx : x.Mirrors h h' good fun e g g' => Mirrored (bad e) (undo g) (undo g')) :
    (x.orUndo undo).Mirrors h h' good bad := by
  unfold Mirrors
  rw [runOn_orUndo, runOn_orUndo]
  refine Mirrored.bind hx ?_
  rintro ⟨b, g⟩ ⟨_, g'⟩ - - ⟨rfl, hend⟩
  cases b with
  | ok b => exact ⟨rfl, hend⟩
  | error e => exact mirrors_bind (mirrors_update (hend.imp fun _ _ _ _ hb => mirrors_throw hb))

theorem lift_bind {x : Except Fault β} {k : β → Action ε α}
    (hk : ∀ b, x = .ok b → (k b).Mirrors h h' good bad) :
    ((liftM x : Action ε β) >>= k).Mirrors h h' good bad := by
  refine mirrors_bind ?_
  cases x with
  | ok b => exact ⟨rfl, hk b rfl⟩
  | error e => exact (rfl : e = e)

theorem get_bind {k : Heap → Action ε α} (heq : k h' = k h)
    (hk : (k h).Mirrors h h' good bad) : ((get : Action ε Heap) >>= k).Mirrors h h' good bad := by
  show Mirrored _ ((k h).runOn h) ((k h').runOn h')
  rw [heq]
  exact hk

section Failures

variable {bad : Failure → Heap → Heap → Prop}

theorem liftFailure_bind {x : Except Fault β} {k : β → Action Failure α}
    (hk : ∀ b, x = .ok b → (k b).Mirrors h h' good bad) :
    ((liftM x : Action Failure β) >>= k).Mirrors h h' good bad := by
  refine mirrors_bind ?_
  cases x with
  | ok b => exact ⟨rfl, hk b rfl⟩
  | error e => exact (rfl : e = e)

theorem getFailure_bind {k : Heap → Action Failure α} (heq : k h' = k h)
    (hk : (k h).Mirrors h h' good bad) :
    ((get : Action Failure Heap) >>= k).Mirrors h h' good bad := by
  show Mirrored _ ((k h).runOn h) ((k h').runOn h')
  rw [heq]
  exact hk

end Failures
end Action
end CountedHeap
