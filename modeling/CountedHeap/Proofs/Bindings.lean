import CountedHeap.Globals
import CountedHeap.Proofs.Accounts

/-!
Bindings as owners. No name is bound twice, so a binding that is made or dropped changes the owner
of one reference.
-/

namespace CountedHeap

namespace Globals

def Distinct (g : Globals) : Prop := (g.map Prod.fst).Nodup

variable {g : Globals} {name : String} {v value : Reference}

theorem Distinct.split (hd : g.Distinct) (hf : g.find? name = some v) :
    ∃ front back, g = front ++ (name, v) :: back ∧ ∀ b ∈ front ++ back, b.1 ≠ name := by
  obtain ⟨front, back, rfl, -⟩ := List.lookup_eq_some_iff.mp hf
  rw [Distinct, List.map_append, List.map_cons, List.perm_middle.nodup_iff, List.nodup_cons,
    ← List.map_append] at hd
  exact ⟨front, back, rfl, fun b hb heq => hd.1 (List.mem_map.mpr ⟨b, hb, heq⟩)⟩

theorem Distinct.remove_perm (hd : g.Distinct) (hf : g.find? name = some v) :
    g.Perm ((name, v) :: g.remove name) := by
  obtain ⟨front, back, rfl, hother⟩ := hd.split hf
  have hself : (front ++ back).filter (·.1 != name) = front ++ back :=
    List.filter_eq_self.mpr fun b hb => by simpa using hother b hb
  have hremove : remove (front ++ (name, v) :: back) name = front ++ back := by
    rw [remove, List.filter_append, List.filter_cons_of_neg (by simp), ← List.filter_append, hself]
  rw [hremove]
  exact List.perm_middle

theorem Distinct.put_perm (hd : g.Distinct) (hf : g.find? name = some v) :
    (g.put name value).Perm ((name, value) :: g.remove name) := by
  have hremoved := hd.remove_perm hf
  have hcontains : g.contains name = true := by rw [contains, hf]; rfl
  rw [put, if_pos hcontains]
  refine (hremoved.map _).trans ?_
  rw [List.map_cons, if_pos (by simp)]
  have hsame : (g.remove name).map (fun b => if b.1 == name then (name, value) else b) =
      g.remove name := by
    refine (List.map_congr_left (g := id) fun b hb => ?_).trans (List.map_id _)
    have hne := (List.mem_filter.mp hb).2
    rw [if_neg (by simpa using hne)]
    rfl
  rw [hsame]

theorem put_of_none (hf : g.find? name = none) : g.put name value = g ++ [(name, value)] := by
  rw [put, if_neg (by rw [contains, hf]; simp)]

theorem mem_remove {b : String × Reference} : b ∈ g.remove name ↔ b ∈ g ∧ b.1 ≠ name := by
  rw [Globals.remove, List.mem_filter, bne_iff_ne]

theorem remove_subset_put : g.remove name ⊆ g.put name value := by
  intro b hb
  obtain ⟨hb, hne⟩ := mem_remove.mp hb
  unfold put
  split
  · exact List.mem_map.mpr ⟨b, hb, if_neg (by simpa using hne)⟩
  · exact List.mem_append_left _ hb

theorem mem_put : (name, value) ∈ g.put name value := by
  cases hf : g.find? name with
  | none =>
    rw [put_of_none hf]
    exact List.mem_append_right _ List.mem_cons_self
  | some v =>
    obtain ⟨front, back, rfl, -⟩ := List.lookup_eq_some_iff.mp hf
    rw [put, if_pos (by rw [contains, hf]; rfl)]
    exact List.mem_map.mpr ⟨(name, v), by simp, if_pos (by simp)⟩

theorem bind_eq_put {g' : Globals} {h h' : Heap} (hbind : g.bind h name value = .ok (g', h')) :
    g' = g.put name value := by
  simp only [Globals.bind, bind_eq_ok] at hbind
  obtain ⟨h₁, -, hbind⟩ := hbind
  split at hbind
  · simp only [bind_eq_ok, pure_eq_ok, Prod.mk.injEq] at hbind
    obtain ⟨_, -, rfl, -⟩ := hbind
    rfl
  · cases hbind
    rfl

theorem retain_of_bind {g' : Globals} {h h' : Heap}
    (hbind : g.bind h name value = .ok (g', h')) : ∃ h₁, h.retain value = .ok h₁ := by
  simp only [Globals.bind, bind_eq_ok] at hbind
  obtain ⟨h₁, hret, -⟩ := hbind
  exact ⟨h₁, hret⟩

theorem mem_of_find? (hf : g.find? name = some v) : (name, v) ∈ g := by
  obtain ⟨front, back, rfl, -⟩ := List.lookup_eq_some_iff.mp hf
  exact List.mem_append_right _ List.mem_cons_self

theorem mem_references {b : String × Reference} (hb : b ∈ g) : b.2 ∈ g.references :=
  List.mem_map_of_mem hb

theorem Distinct.find?_of_mem (hd : g.Distinct) (hb : (name, v) ∈ g) : g.find? name = some v := by
  obtain ⟨front, back, rfl⟩ := List.append_of_mem hb
  rw [Distinct, List.map_append, List.map_cons, List.perm_middle.nodup_iff, List.nodup_cons,
    ← List.map_append] at hd
  refine List.lookup_eq_some_iff.mpr ⟨front, back, rfl, fun b hb => ?_⟩
  have hne : b.1 ≠ name := fun heq => hd.1 (List.mem_map.mpr ⟨b, List.mem_append_left _ hb, heq⟩)
  simpa using Ne.symm hne

theorem Distinct.remove (hd : g.Distinct) : (g.remove name).Distinct :=
  hd.sublist (List.filter_sublist.map _)

theorem Distinct.put (hd : g.Distinct) : (g.put name value).Distinct := by
  cases hf : g.find? name with
  | none =>
    rw [put_of_none hf, Distinct, List.map_append, List.nodup_append]
    refine ⟨hd, List.nodup_singleton _, fun a ha b hb => ?_⟩
    obtain ⟨p, hp, rfl⟩ := List.mem_map.mp ha
    rw [List.map_singleton, List.mem_singleton] at hb
    have hne := List.lookup_eq_none_iff.mp hf p hp
    rintro rfl
    simp [hb] at hne
  | some v =>
    rw [Distinct, ((hd.put_perm hf).map _).nodup_iff, List.map_cons, List.nodup_cons]
    refine ⟨fun hmem => ?_, hd.remove⟩
    obtain ⟨b, hb, heq⟩ := List.mem_map.mp hmem
    have hne := (List.mem_filter.mp hb).2
    simp [heq] at hne

end Globals

namespace Heap

variable {h h' : Heap} {s kept : Store} {g g' : Globals} {name : String} {value : Reference}
  {arrays held : List Reference}

theorem bind_balanced (hs : h.Sound s) (hl : s.Ledger arrays (held ++ g.references))
    (hk : Anchored s kept (held ++ (g.remove name).references)) (hd : g.Distinct)
    (hvalue : ¬s.IsArray value) (hbind : g.bind h name value = .ok (g', h')) :
    g'.Distinct ∧ h'.Balanced kept arrays (held ++ g'.references) := by
  simp only [Globals.bind, bind_eq_ok] at hbind
  obtain ⟨h₁, hret, hrel⟩ := hbind
  obtain ⟨s₁, hs₁, hl₁, hcontent₁, -⟩ := hs.retain_balanced hl hvalue hret
  have hk₁ := hk.of_content hcontent₁
  cases hf : g.find? name with
  | none =>
    rw [hf] at hrel
    cases hrel
    refine ⟨hd.put, hs₁.balanced (hl₁.perm ?_) hk₁.fewer⟩
    rw [Globals.put_of_none hf, Globals.references, Globals.references, List.map_append,
      ← List.append_assoc]
    exact (List.perm_append_singleton _ _).symm
  | some old =>
    simp only [hf, bind_eq_ok, pure_eq_ok, Prod.mk.injEq] at hrel
    obtain ⟨h₂, hrel, rfl, rfl⟩ := hrel
    have hremoved : g.references.Perm (old :: (g.remove name).references) :=
      (hd.remove_perm hf).map _
    have hput : (g.put name value).references.Perm (value :: (g.remove name).references) :=
      (hd.put_perm hf).map _
    have hk₂ : Anchored s₁ kept (held ++ (g.put name value).references) := hk₁.mono fun q hq =>
      (hput.append_left held).mem_iff.mpr
        ((List.mem_append.mp hq).elim (List.mem_append_left _)
          fun hq => List.mem_append_right _ (List.mem_cons_of_mem _ hq))
    refine ⟨hd.put, hs₁.released (hl₁.perm ?_) hk₂ hrel⟩
    -- The old value comes to the front of the owners.
    calc (value :: (held ++ g.references)).Perm
          (value :: (held ++ old :: (g.remove name).references)) :=
            (hremoved.append_left held).cons value
      _ |>.Perm (value :: old :: (held ++ (g.remove name).references)) :=
            List.perm_middle.cons value
      _ |>.Perm (old :: value :: (held ++ (g.remove name).references)) := .swap ..
      _ |>.Perm (old :: (held ++ value :: (g.remove name).references)) :=
            List.perm_middle.symm.cons old
      _ |>.Perm (old :: (held ++ (g.put name value).references)) :=
            (hput.symm.append_left held).cons old

theorem get_balanced (hs : h.Sound s) (hl : s.Ledger arrays (held ++ g.references))
    (hk : s.Fewer kept) :
    (g.get name).Ends h (fun r h' => h'.Balanced kept arrays (r :: (held ++ g.references)))
      fun _ h' => h'.Balanced kept arrays (held ++ g.references) := by
  unfold Globals.get
  cases hf : g.find? name with
  | none => exact Action.ends_throw.mpr (hs.balanced hl hk)
  | some v =>
    simp only [Action.ends_bind, Action.ends_update, Action.ends_pure]
    intro h' hret
    have hv : v ∈ g.references := Globals.mem_references (Globals.mem_of_find? hf)
    exact hs.retained hl hk (hl.visible v (List.mem_append_right held hv)) hret

theorem delete_balanced (hs : h.Sound s) (hl : s.Ledger arrays (held ++ g.references))
    (hk : Anchored s kept (held ++ (g.remove name).references)) (hd : g.Distinct) :
    (g.delete name).Ends h
      (fun g' h' => g' = g.remove name ∧ h'.Balanced kept arrays (held ++ g'.references))
      fun _ h' => h'.Balanced kept arrays (held ++ g.references) := by
  unfold Globals.delete
  cases hf : g.find? name with
  | none => exact Action.ends_throw.mpr (hs.balanced hl hk.fewer)
  | some v =>
    simp only [Action.ends_bind, Action.ends_update, Action.ends_pure]
    intro h' hrel
    have hremoved : g.references.Perm (v :: (g.remove name).references) :=
      (hd.remove_perm hf).map _
    exact ⟨trivial, hs.released
      (hl.perm ((hremoved.append_left held).trans List.perm_middle)) hk hrel⟩

theorem releases_balanced {refs : List Reference} (hs : h.Sound s)
    (hl : s.Ledger arrays (held ++ refs)) (hk : Anchored s kept held)
    (hrel : refs.foldlM (·.release ·) h = .ok h') : h'.Balanced kept arrays held := by
  induction refs generalizing h s with
  | nil =>
    cases hrel
    rw [List.append_nil] at hl
    exact hs.balanced hl hk.fewer
  | cons r rest ih =>
    simp only [List.foldlM_cons, bind_eq_ok] at hrel
    obtain ⟨h₁, hrel, hrest⟩ := hrel
    obtain ⟨s₁, hs₁, hl₁, hk₁⟩ := hs.released (hl.perm List.perm_middle)
      (hk.mono (List.subset_append_left ..)) hrel
    exact ih hs₁ hl₁ (hk.of_fewer hk₁) hrest

end Heap
end CountedHeap
