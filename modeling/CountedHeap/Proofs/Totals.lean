import CountedHeap.Proofs.Collecting

/-!
The totals that a heap keeps of its collections. They are words: a collection copies and gives back
no more bytes than a half has, so there is room for it in the totals as long as there is room for a
half, and where there is not, that is a fault.
-/

namespace CountedHeap

/-- There is room in the totals for one more collection of a half of this size. -/
structure Stats.Roomy (s : Stats) (half : Nat) : Prop where
  collections : s.collections + 1 < Word.limit
  copied : s.copiedBytes + half < Word.limit
  reclaimed : s.reclaimedBytes + half < Word.limit

structure Stats.Counts (s : Stats) (col : Collection) (s' : Stats) : Prop where
  fits : s.collections + 1 < Word.limit
  collections : s'.collections = s.collections + 1
  copied : s'.copiedBytes = s.copiedBytes + col.usedAfter
  reclaimed : s'.reclaimedBytes = s.reclaimedBytes + col.reclaimed

/-- The totals of no more than `n` collections of halves of this size. -/
structure Stats.Within (s : Stats) (n half : Nat) : Prop where
  collections : s.collections ≤ n
  copied : s.copiedBytes ≤ n * half
  reclaimed : s.reclaimedBytes ≤ n * half

namespace Stats

instance (s : Stats) (half : Nat) : Decidable (s.Roomy half) :=
  decidable_of_iff (s.collections + 1 < Word.limit ∧ s.copiedBytes + half < Word.limit ∧
    s.reclaimedBytes + half < Word.limit)
    ⟨fun ⟨h₁, h₂, h₃⟩ => ⟨h₁, h₂, h₃⟩, fun ⟨h₁, h₂, h₃⟩ => ⟨h₁, h₂, h₃⟩⟩

variable {s s' : Stats} {half copied reclaimed n : Nat} {col : Collection}

theorem add_eq_ok : s.add copied reclaimed = .ok s' ↔
    s.collections + 1 < Word.limit ∧ s.copiedBytes + copied < Word.limit ∧
      s.reclaimedBytes + reclaimed < Word.limit ∧
        ⟨s.collections + 1, s.copiedBytes + copied, s.reclaimedBytes + reclaimed⟩ = s' := by
  simp only [add, Word.add, Word.fit_eq_ok, bind_eq_ok, pure_eq_ok]
  constructor
  · rintro ⟨_, ⟨rfl, h₁⟩, _, ⟨rfl, h₂⟩, _, ⟨rfl, h₃⟩, rfl⟩
    exact ⟨h₁, h₂, h₃, rfl⟩
  · rintro ⟨h₁, h₂, h₃, rfl⟩
    exact ⟨_, ⟨rfl, h₁⟩, _, ⟨rfl, h₂⟩, _, ⟨rfl, h₃⟩, rfl⟩

theorem add_answers (hcopied : copied ≤ half) (hreclaimed : reclaimed ≤ half) :
    (∃ s', s.add copied reclaimed = .ok s') ∨
      ¬s.Roomy half ∧ s.add copied reclaimed = .error .overflow := by
  by_cases hfits : s.collections + 1 < Word.limit ∧ s.copiedBytes + copied < Word.limit ∧
      s.reclaimedBytes + reclaimed < Word.limit
  · obtain ⟨h₁, h₂, h₃⟩ := hfits
    exact .inl ⟨_, add_eq_ok.mpr ⟨h₁, h₂, h₃, rfl⟩⟩
  · refine .inr ⟨fun hroomy => hfits ⟨hroomy.collections, ?_, ?_⟩, ?_⟩
    · exact Nat.lt_of_le_of_lt (Nat.add_le_add_left hcopied _) hroomy.copied
    · exact Nat.lt_of_le_of_lt (Nat.add_le_add_left hreclaimed _) hroomy.reclaimed
    · unfold add Word.add Word.fit
      by_cases h₁ : s.collections + 1 < Word.limit
      · by_cases h₂ : s.copiedBytes + copied < Word.limit
        · have h₃ : ¬s.reclaimedBytes + reclaimed < Word.limit := fun h₃ => hfits ⟨h₁, h₂, h₃⟩
          rw [if_pos h₁, if_pos h₂, if_neg h₃]
          rfl
        · rw [if_pos h₁, if_neg h₂]
          rfl
      · rw [if_neg h₁]
        rfl

theorem Within.counts (h : s.Within n half) (hc : s.Counts col s')
    (hbefore : col.usedBefore ≤ half) (hafter : col.usedAfter ≤ half) : s'.Within (n + 1) half := by
  obtain ⟨h₁, h₂, h₃⟩ := h
  have hreclaimed : col.reclaimed ≤ half := Nat.le_trans (Nat.sub_le ..) hbefore
  refine ⟨?_, ?_, ?_⟩
  · rw [hc.collections]
    omega
  · rw [hc.copied, Nat.succ_mul]
    omega
  · rw [hc.reclaimed, Nat.succ_mul]
    omega

theorem Within.roomy (h : s.Within n half) (hfew : n + 1 < Word.limit)
    (hfits : (n + 1) * half < Word.limit) : s.Roomy half := by
  obtain ⟨h₁, h₂, h₃⟩ := h
  rw [Nat.succ_mul] at hfits
  exact ⟨by omega, by omega, by omega⟩

end Stats

namespace Heap

/-- A collection has a result of which this holds, unless there is no room for it in the totals. -/
def Collects (h : Heap) (roots : List Reference) (good : Collection → Heap → Prop) : Prop :=
  (∃ col h', (collect roots).runOn h = .ok (.ok col, h') ∧ good col h') ∨
    ¬h.stats.Roomy h.config.halfSize ∧ (collect roots).runOn h = .error .overflow

variable {h : Heap} {roots : List Reference} {good good' : Collection → Heap → Prop}

theorem Collects.imp (h' : h.Collects roots good)
    (hg : ∀ col k, (collect roots).runOn h = .ok (.ok col, k) → good col k → good' col k) :
    h.Collects roots good' := by
  rcases h' with ⟨col, k, hrun, hgood⟩ | hoverflow
  · exact .inl ⟨col, k, hrun, hg col k hrun hgood⟩
  · exact .inr hoverflow

theorem Collects.answers (h' : h.Collects roots good)
    (hroomy : h.stats.Roomy h.config.halfSize) :
    ∃ col k, (collect roots).runOn h = .ok (.ok col, k) ∧ good col k :=
  h'.resolve_right fun hoverflow => hoverflow.1 hroomy

variable {h' h₁ : Heap} {s s₀ : Store} {seen rest : List Reference} {r : Reference} {t : Tally}

theorem relocate_tells (r : Reference) (old : Nat) :
    (Heap.relocate r old).Ends h
      (fun p h' => h'.pool.memory.sizeAt p.1 = p.2 ∧ h'.stats = h.stats) fun _ _ => True := by
  intro a h' hrun
  obtain ⟨h₁, hreset, ⟨e, -, rfl, -⟩ | ⟨new, p, -, rfl, hcopy⟩⟩ := relocate_cases hrun
  · trivial
  · simp only [Heap.copyTo, bind_eq_ok, write_eq_ok, pure_eq_ok] at hcopy
    obtain ⟨_, ⟨n, ⟨m, -, hset⟩, rfl⟩, table, -, rfl⟩ := hcopy
    rw [resetCount, setCountAt, write_eq_ok] at hreset
    obtain ⟨n, -, rfl⟩ := hreset
    exact ⟨Block.sizeAt_setSize hset (Memory.sizeAt_lt ..), rfl⟩

def Tallied (h₁ : Heap) (t : Tally) (h : Heap) : Prop :=
  t.copied = h.copiedBytes ∧ h.stats = h₁.stats

namespace Collecting

theorem meet_tallies (hc : Collecting h₁ s₀ roots seen (r :: rest) t h s) :
    (Heap.meet r).Ends h
      (fun o h' => h'.copiedBytes = h.copiedBytes + o.elim 0 Prod.fst ∧ h'.stats = h.stats)
      fun _ _ => True := by
  refine hc.meet_ends (fun _ => ⟨rfl, rfl⟩) (fun h' _ hret => ⟨?_, ?_⟩) fun c hr hout => ?_
  · obtain ⟨-, -, hf, htable, -, hsame⟩ := hc.moving.retain hret
    exact hsame.copiedBytes_eq hc.moving.toStored hf htable
  · simp only [retain, bind_eq_ok, setCountAt, write_eq_ok] at hret
    obtain ⟨_, -, _, -, _, -, n, -, rfl⟩ := hret
    rfl
  · refine ((hc.relocate hr hout).and (relocate_tells r c.addr)).imp ?_ fun _ _ _ => trivial
    rintro new h' ⟨hd, hsize, hstats⟩
    exact ⟨hsize ▸ hd.copied, hstats⟩

theorem evacuate_tallies {root : Reference} (hc : Collecting h₁ s₀ roots seen [] t h s)
    (hroot : root ∈ roots) (ht : Tallied h₁ t h) :
    (Heap.evacuate t root).Ends h
      (fun t' h' => Stands h₁ s₀ roots (seen ++ [root]) [] t' h' ∧ Tallied h₁ t' h')
      fun _ _ => True := by
  simp only [Heap.evacuate, Action.ends_bind, Action.ends_get]
  refine evacuateAll_ends (P := fun pending t' h' =>
    Stands h₁ s₀ roots (seen ++ [root]) pending t' h' ∧ Tallied h₁ t' h') ?_ _
      ⟨⟨s, hc.see hroot⟩, ht⟩
  rintro r rest t' h' ⟨⟨s', hc'⟩, ht', hstats'⟩
  refine (hc'.meet.and hc'.meet_tallies).imp ?_ fun _ _ _ => trivial
  rintro o h'' ⟨hnext, hcopied, hstats⟩
  cases o with
  | none => exact ⟨hnext, by rw [ht', hcopied]; rfl, hstats.trans hstats'⟩
  | some p => exact ⟨hnext, by rw [Tally.add, ht', hcopied]; rfl, hstats.trans hstats'⟩

theorem evacuateRoots_tallies (hc : Collecting h₁ s₀ roots seen [] t h s)
    (hroots : seen ++ rest = roots) (ht : Tallied h₁ t h) :
    (rest.foldlM Heap.evacuate t).Ends h
      (fun t' h' => Stands h₁ s₀ roots roots [] t' h' ∧ Tallied h₁ t' h') fun _ _ => True := by
  induction rest generalizing seen t h s with
  | nil =>
    rw [List.append_nil] at hroots
    subst hroots
    exact Action.ends_pure.mpr ⟨⟨s, hc⟩, ht⟩
  | cons root rest ih =>
    simp only [List.foldlM_cons, Action.ends_bind]
    refine (hc.evacuate_tallies (hroots ▸ by simp) ht).imp ?_ fun _ _ he => he
    rintro t' h' ⟨⟨s', hc'⟩, ht'⟩
    exact ih hc' (by rw [List.append_assoc]; exact hroots) ht'

end Collecting

theorem Sound.flip_tallied (hs : h.Sound s) (hflip : h.flip = .ok h₁) :
    Tallied h₁ {} h₁ ∧ h₁.stats = h.stats := by
  obtain ⟨-, -, -, -, hcopies, -⟩ := hs.flip hflip
  have hzero : h₁.copiedBytes = 0 := by
    rw [copiedBytes, List.eq_nil_of_length_eq_zero hcopies]
    rfl
  simp only [Heap.flip, bind_eq_ok, pure_eq_ok] at hflip
  obtain ⟨_, -, rfl⟩ := hflip
  exact ⟨⟨hzero.symm, rfl⟩, rfl⟩

theorem Sound.collect_records (hs : h.Sound s) (roots : List Reference) :
    (Heap.collect roots).Ends h
      (fun col h' => h.stats.Counts col h'.stats ∧ col.usedBefore ≤ h.config.halfSize ∧
        col.usedAfter ≤ h.config.halfSize) fun _ _ => True := by
  simp only [Heap.collect, Action.ends_bind, Action.ends_read, Action.ends_update,
    Action.ends_pure, Except.ok.injEq]
  rintro usedBefore hused h₁ hflip
  obtain ⟨hhalved, -, -, -, -, -, hconfig, -⟩ := hs.flip hflip
  have hregion : h₁.pool.region.size = h.config.halfSize := by rw [hhalved.size_eq, hconfig]
  obtain ⟨hstart, hstats⟩ := hs.flip_tallied hflip
  refine ((hs.collecting roots hflip).evacuateRoots_tallies (List.nil_append roots) hstart).imp ?_
    fun _ _ _ => trivial
  rintro t h₂ ⟨⟨s₂, hc⟩, ht, hstats₂⟩ _ rfl usedAfter husedAfter _ hrecord
  obtain ⟨free, hl, -⟩ := hc.moving.laid
  obtain rfl : h₂.copiedBytes = usedAfter := Except.ok.inj (hl.used_eq.symm.trans husedAfter)
  obtain rfl : h.bytes = usedBefore := Except.ok.inj (hs.used_eq.symm.trans hused)
  have hcopied := hc.moving.copiedBytes_le
  rw [hc.frame.region, hregion] at hcopied
  obtain ⟨stats, hadd, rfl⟩ := record_eq_ok.mp hrecord
  rw [show h₂.sweep.stats = h.stats from hstats₂.trans hstats, ht] at hadd
  obtain ⟨hfits, -, -, rfl⟩ := Stats.add_eq_ok.mp hadd
  exact ⟨⟨hfits, rfl, rfl, rfl⟩, hs.bytes_le, hcopied⟩

theorem Sound.collect_within {n : Nat} {col : Collection} (hs : h.Sound s)
    (hw : h.stats.Within n h.config.halfSize)
    (hrun : (Heap.collect roots).runOn h = .ok (.ok col, h')) :
    h'.stats.Within (n + 1) h'.config.halfSize := by
  obtain ⟨hcounts, hbefore, hafter⟩ := (hs.collect_records roots).good hrun
  obtain ⟨s', hcol⟩ := (hs.collect roots).good hrun
  rw [hcol.config]
  exact hw.counts hcounts hbefore hafter

end Heap
end CountedHeap
