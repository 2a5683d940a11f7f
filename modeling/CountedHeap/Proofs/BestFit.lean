import CountedHeap.Proofs.Packing

/-!
Which block a request gets, and what becomes of the list of free blocks. Of the blocks that are
large enough the request gets the smallest, and of several such the first on the list. What is left
of it takes its place in the list where that is more than a header; all other blocks stay where
they are, and nothing is written but the few words that say so.
-/

namespace CountedHeap

theorem Chain.unique {m : Memory} {head : Option Nat} {free free' : List Nat}
    (h : Chain m none head free) (h' : Chain m none head free') : free = free' := by
  induction free generalizing head free' with
  | nil =>
    obtain rfl : head = none := h
    cases free' with
    | nil => rfl
    | cons a free' => cases h'.1
  | cons a free ih =>
    obtain ⟨rfl, -, hrest⟩ := h
    cases free' with
    | nil => cases h'
    | cons b free' =>
      obtain ⟨hab, -, hrest'⟩ := h'
      cases hab
      rw [ih hrest hrest']

theorem Memory.ChangedOn.mono {m n : Memory} {P Q : Nat → Prop} (h : m.ChangedOn n P)
    (hPQ : ∀ i, P i → Q i) : m.ChangedOn n Q :=
  ⟨h.size_eq, fun i hi => h.byte_eq i fun hp => hi (hPQ i hp)⟩

namespace Pool

def WellFormed (p : Pool) : Prop := ∃ free taken, p.Laid free taken

theorem Run.wellFormed {span : Span} {p : Pool} {taken : List Nat} (hrun : Run span p taken) :
    p.WellFormed := by
  obtain ⟨free, hl⟩ := hrun.marked
  exact ⟨free, taken, hl.toLaid⟩

def rounded (size : Nat) : Nat := max ((size + 7) / 8 * 8) Block.headerSize

/-- A block of `room` bytes is the first of the smallest ones that hold `size` bytes, where these
blocks stand in front of it and behind it. -/
structure Chosen (size : Nat) (pre : List (Nat × Nat)) (room : Nat) (post : List (Nat × Nat)) :
    Prop where
  fits : size ≤ room
  before : ∀ b ∈ pre, size ≤ b.2 → room < b.2
  behind : ∀ b ∈ post, size ≤ b.2 → room ≤ b.2

def remainder (addr size room : Nat) : List (Nat × Nat) :=
  if Block.headerSize < room - size then [(addr + size, room - size)] else []

/-- The bytes that are written when a block of `room` bytes is taken: its size and the header of
the remainder where there is one, and the link of the block in front of it. -/
def Touched (pre : List (Nat × Nat)) (addr size room i : Nat) : Prop :=
  (Block.headerSize < room - size ∧
    ((addr + Block.sizeOffset ≤ i ∧ i < addr + Block.linkOffset) ∨
      (addr + size ≤ i ∧ i < addr + size + Block.headerSize))) ∨
  ∃ b ∈ pre.getLast?, b.1 + Block.linkOffset ≤ i ∧ i < b.1 + Block.headerSize

/-- The block at `addr` was taken for `size` bytes from between these free blocks. -/
structure Taken (p : Pool) (size : Nat) (pre : List (Nat × Nat)) (addr room : Nat)
    (post : List (Nat × Nat)) (q : Pool) : Prop where
  listing : q.listing = .ok (pre ++ remainder addr size room ++ post)
  block : ∃ b, Block.read q.memory addr = .ok b ∧ b.size = grant room size ∧ size ≤ b.size ∧
    b.size ≤ size + Block.headerSize
  bytes : p.memory.ChangedOn q.memory (Touched pre addr size room)
  region : q.region = p.region
  poison : q.poison = p.poison
  wellFormed : q.WellFormed

variable {p q : Pool} {free taken pre post : List Nat} {size a : Nat} {m : Memory}
  {heir previous : Option Nat}

section Choice

variable {l pre' post' : List (Option Nat × Block)} {c : Option Nat × Block}

theorem bestFit_concat (l : List (Option Nat × Block)) (c : Option Nat × Block) :
    bestFit size (l ++ [c]) =
      if size ≤ c.2.size && (bestFit size l).all fun b => c.2.size < b.2.size then some c
      else bestFit size l := by
  rw [bestFit, List.foldl_append]
  rfl

theorem bestFit_eq_some (h : bestFit size l = some c) :
    ∃ pre post, l = pre ++ c :: post ∧ size ≤ c.2.size ∧
      (∀ b ∈ pre, size ≤ b.2.size → c.2.size < b.2.size) ∧
        ∀ b ∈ post, size ≤ b.2.size → c.2.size ≤ b.2.size := by
  -- The list is read from its end: the last block is taken if it beats the best one before it.
  induction l using List.reverseRecOn generalizing c with
  | nil => cases h
  | append_singleton l d ih =>
    rw [bestFit_concat] at h
    split at h
    case isTrue hbeats =>
      obtain ⟨hfit, hall⟩ := (Bool.and_eq_true _ _).mp hbeats
      rw [decide_eq_true_eq] at hfit
      obtain rfl := Option.some_inj.mp h
      refine ⟨l, [], rfl, hfit, fun b hb hsize => ?_, nofun⟩
      cases hbest : bestFit size l with
      | none =>
        have hlt := lt_of_bestFit hbest b hb
        omega
      | some e =>
        rw [hbest, Option.all_some, decide_eq_true_eq] at hall
        obtain ⟨pre, post, rfl, -, hbefore, hbehind⟩ := ih hbest
        rcases List.mem_append.mp hb with hb | hb
        · exact hall.trans (hbefore b hb hsize)
        · rcases List.mem_cons.mp hb with rfl | hb
          · exact hall
          · exact Nat.lt_of_lt_of_le hall (hbehind b hb hsize)
    case isFalse hbeats =>
      obtain ⟨pre, post, rfl, hfit, hbefore, hbehind⟩ := ih h
      refine ⟨pre, post ++ [d], by simp, hfit, hbefore, fun b hb hsize => ?_⟩
      rcases List.mem_append.mp hb with hb | hb
      · exact hbehind b hb hsize
      · obtain rfl := List.mem_singleton.mp hb
        rw [h, Option.all_some, Bool.and_eq_true, decide_eq_true_eq, decide_eq_true_eq] at hbeats
        omega

theorem withPrevious_split {free : List Nat}
    (h : withPrevious (free.map m.header) = pre' ++ c :: post') :
    ∃ pre a post, free = pre ++ a :: post ∧ c = (pre.getLast?, m.header a) ∧
      pre'.map Prod.snd = pre.map m.header ∧ post'.map Prod.snd = post.map m.header := by
  have hblocks : free.map m.header = pre'.map Prod.snd ++ c.2 :: post'.map Prod.snd := by
    rw [← List.map_cons, ← List.map_append, ← h, withPrevious, List.map_snd_zip]
    simp
  obtain ⟨pre, rest, rfl, hpre, hrest⟩ := List.map_eq_append_iff.mp hblocks
  obtain ⟨a, post, rfl, ha, hpost⟩ := List.map_eq_cons_iff.mp hrest
  refine ⟨pre, a, post, rfl, ?_, hpre.symm, hpost.symm⟩
  have hlen : pre'.length = pre.length := by
    simpa using congrArg List.length hpre.symm
  have hget : (withPrevious ((pre ++ a :: post).map m.header))[pre.length]? = some c := by
    rw [h, ← hlen, List.getElem?_append_right (Nat.le_refl _), Nat.sub_self]
    rfl
  rw [withPrevious, List.getElem?_zip_eq_some] at hget
  obtain ⟨hprev, hblock⟩ := hget
  refine Prod.ext ?_ ha.symm
  rcases List.eq_nil_or_concat pre with rfl | ⟨init, b, rfl⟩
  · simpa using hprev.symm
  · simpa [List.getElem?_append] using hprev.symm

end Choice

theorem cut_bytes {front : List (Nat × Nat)} (hsize : Block.headerSize ≤ size)
    (hnext : ∀ c ∈ (p.memory.header a).successor, c < Block.endOfList)
    (h : Pool.cut p.memory size a (p.memory.header a).successor = .ok (m, heir)) :
    p.memory.ChangedOn m (Touched front a size (p.memory.sizeAt a)) := by
  rcases cut_cases hsize hnext h with ⟨hrest, rfl, hs⟩ | ⟨-, rfl, -⟩
  · obtain ⟨k, hc₁, hc₂⟩ := hs.bytes
    exact (Memory.ChangedOn.of_changedIn hc₁ fun i hlo hhi =>
      .inl ⟨hrest, .inr ⟨hlo, hhi⟩⟩).trans
        (Memory.ChangedOn.of_changedIn hc₂ fun i hlo hhi => .inl ⟨hrest, .inl ⟨hlo, hhi⟩⟩)
  · exact Memory.ChangedOn.refl _ _

theorem relink_bytes (h : p.relink m heir previous = .ok q) :
    m.ChangedOn q.memory fun i =>
      ∃ b ∈ previous, b + Block.linkOffset ≤ i ∧ i < b + Block.headerSize := by
  cases previous with
  | none =>
    cases h
    exact Memory.ChangedOn.refl _ _
  | some b =>
    simp only [relink, bind_eq_ok, pure_eq_ok] at h
    obtain ⟨n, hlink, rfl⟩ := h
    exact Memory.ChangedOn.of_changedIn (Block.setLink_changedIn hlink) fun i hlo hhi =>
      ⟨b, rfl, hlo, hhi⟩

def entry (p : Pool) (a : Nat) : Nat × Nat := (a, p.memory.sizeAt a)

theorem getLast?_entries (p : Pool) (pre : List Nat) :
    (pre.map p.entry).getLast? = pre.getLast?.map p.entry :=
  List.getLast?_map

theorem Laid.cut_entries {rest : List Nat} (hl : p.Laid (pre ++ a :: post) taken)
    (hsize : Block.headerSize ≤ size)
    (h : Pool.cut p.memory size a (p.memory.header a).successor = .ok (m, heir))
    (hrest : Chain m none heir rest) (hother : ∀ c ∈ post, m.header c = p.memory.header c) :
    m.sizeAt a = grant (p.memory.sizeAt a) size ∧ rest.map (fun c => (c, m.sizeAt c)) =
      remainder a size (p.memory.sizeAt a) ++ post.map p.entry := by
  have hpost : Chain m none (p.memory.header a).successor post :=
    hl.chained.head_eq.2.congr hother
  have hentries : post.map (fun c => (c, m.sizeAt c)) = post.map p.entry :=
    List.map_congr_left fun c hc => by rw [entry, Memory.sizeAt_of_header (hother c hc)]
  unfold grant remainder
  rcases cut_cases hsize hl.successor_lt h with ⟨hmore, rfl, hs⟩ | ⟨hmore, rfl, rfl⟩
  · obtain rfl : (a + size) :: post = rest := by
      refine Chain.unique ⟨rfl, hs.isFree, ?_⟩ hrest
      rwa [hs.successor]
    rw [if_pos hmore, if_pos hmore, List.map_cons, hs.second, hentries]
    exact ⟨hs.first, rfl⟩
  · obtain rfl := hpost.unique hrest
    rw [if_neg hmore, if_neg hmore, hentries]
    exact ⟨rfl, rfl⟩

theorem Laid.carve_taken (hl : p.Laid (pre ++ a :: post) taken) (hhead : Block.headerSize ≤ size)
    (hdvd : 8 ∣ size) (hfit : size ≤ p.memory.sizeAt a)
    (h : p.carve size pre.getLast? (p.memory.header a) = .ok q) :
    p.Taken size (pre.map p.entry) a (p.memory.sizeAt a) (post.map p.entry) q := by
  have hafree := hl.chained.isFree_of_mem (a := a) (by simp)
  rw [carve_eq p size a _ hafree, bind_eq_ok] at h
  obtain ⟨⟨m, heir⟩, hcut, hrelink⟩ := h
  obtain ⟨rest, hrest, hcovered, hch, -, -, -, -⟩ := hl.cut hhead hdvd hfit hcut
  have hother : ∀ c ∈ pre ++ post, m.header c = p.memory.header c := fun c hc =>
    hl.covered_free.others hch (Nat.le_add_right _ _) c (List.mem_append_left _ hc)
  have hpre : Chain m (some a) p.freeHead pre :=
    hl.chained.head_eq.1.congr fun c hc => hother c (List.mem_append_left _ hc)
  obtain ⟨hlaid, hregion, hpoison, -, hheader, hsizes⟩ := relink_laid hcovered hpre hrest hrelink
  obtain ⟨hgrant, hentries⟩ :=
    hl.cut_entries hhead hcut hrest fun c hc => hother c (List.mem_append_right _ hc)
  have hlisting : (pre ++ rest).map q.entry = pre.map p.entry ++
      remainder a size (p.memory.sizeAt a) ++ post.map p.entry := by
    rw [List.append_assoc, ← hentries, List.map_append]
    refine congrArg₂ _ (List.map_congr_left fun c hc => ?_) (List.map_congr_left fun c hc => ?_)
    · rw [entry, entry, hsizes c (List.mem_append_left _ hc),
        Memory.sizeAt_of_header (hother c (List.mem_append_left _ hc))]
    · rw [entry, hsizes c (List.mem_append_right _ hc)]
  have hqa : a ∈ (pre ++ rest) ++ a :: taken := by simp
  have hqsize : (q.memory.header a).size = grant (p.memory.sizeAt a) size := by
    rw [hheader a List.mem_cons_self, Memory.header_size, hgrant]
  refine ⟨?_, ⟨_, hlaid.read_eq hqa, hqsize, ?_, ?_⟩, ?_, hregion, hpoison, _, _, hlaid⟩
  · rw [hlaid.listing_eq, ← hlisting]
    rfl
  · rw [hqsize]
    unfold grant
    split <;> omega
  · rw [hqsize]
    unfold grant
    split <;> omega
  · refine (cut_bytes hhead hl.successor_lt hcut).trans ((relink_bytes hrelink).mono fun i hi => ?_)
    obtain ⟨b, hb, hlo, hhi⟩ := hi
    refine .inr ⟨p.entry b, ?_, hlo, hhi⟩
    rw [getLast?_entries]
    exact Option.mem_map_of_mem _ hb

theorem requestSize_rounded (hsize : size + 8 < Word.limit) :
    requestSize size = .ok (rounded size) :=
  requestSize_eq_ok.mpr ⟨hsize, rfl⟩

theorem requestSize_overflow (hsize : Word.limit ≤ size + 8) :
    requestSize size = .error .overflow := by
  have hadd : Word.add size 8 = .error .overflow := if_neg (by omega)
  simp only [requestSize, Word.alignUp, Block.alignment, hadd]
  rfl

theorem Laid.alloc_chosen (hl : p.Laid free taken) (hsize : size + 8 < Word.limit) :
    ((∀ b ∈ free.map p.entry, b.2 < rounded size) ∧
        p.alloc size = .ok (.error ⟨rounded size, (taken.map p.memory.sizeAt).sum⟩)) ∨
      ∃ pre addr room post q, free.map p.entry = pre ++ (addr, room) :: post ∧
        Chosen (rounded size) pre room post ∧ p.alloc size = .ok (.ok (addr, q)) ∧
          p.Taken (rounded size) pre addr room post q := by
  obtain ⟨answer, halloc⟩ := hl.alloc_answers hsize
  have hround := requestSize_rounded hsize
  cases answer with
  | error e =>
    obtain ⟨n, hn, rfl, hsmall⟩ := hl.alloc_refused halloc
    rw [hround] at hn
    cases hn
    exact .inl ⟨List.forall_mem_map.mpr hsmall, halloc⟩
  | ok e =>
    obtain ⟨addr, q⟩ := e
    have hopen := halloc
    simp only [Pool.alloc, bind_eq_ok, hl.walk_eq, hround, Except.ok.injEq,
      exists_eq_left'] at hopen
    split at hopen
    · simp only [bind_eq_ok, pure_eq_ok] at hopen
      obtain ⟨_, -, hopen⟩ := hopen
      cases hopen
    rename_i previous block hbest
    obtain ⟨pre', post', hsplit, hfit, hbefore, hbehind⟩ := bestFit_eq_some hbest
    obtain ⟨pre, a, post, rfl, hc, hpre, hpost⟩ := withPrevious_split hsplit
    cases hc
    simp only [bind_eq_ok, pure_eq_ok, Except.ok.injEq, Prod.mk.injEq] at hopen
    obtain ⟨_, hcarve, rfl, rfl⟩ := hopen
    obtain ⟨-, hhead, hdvd⟩ := requestSize_bounds hround
    refine .inr ⟨pre.map p.entry, a, p.memory.sizeAt a, post.map p.entry, _, by simp [entry], ?_,
      halloc, hl.carve_taken hhead hdvd hfit hcarve⟩
    have hof : ∀ {l' : List (Option Nat × Block)} {l : List Nat} {b : Nat},
        l'.map Prod.snd = l.map p.memory.header → b ∈ l →
          ∃ c ∈ l', c.2.size = p.memory.sizeAt b := by
      intro l' l b hmap hb
      have hmem := List.mem_map_of_mem (f := p.memory.header) hb
      rw [← hmap] at hmem
      obtain ⟨c, hc, hcb⟩ := List.mem_map.mp hmem
      exact ⟨c, hc, by rw [hcb, Memory.header_size]⟩
    refine ⟨hfit, List.forall_mem_map.mpr fun b hb hroom => ?_,
      List.forall_mem_map.mpr fun b hb hroom => ?_⟩
    · obtain ⟨c, hc, hcb⟩ := hof hpre hb
      have hlt := hbefore c hc
      simp only [entry, hcb, Memory.header_size] at *
      exact hlt hroom
    · obtain ⟨c, hc, hcb⟩ := hof hpost hb
      have hle := hbehind c hc
      simp only [entry, hcb, Memory.header_size] at *
      exact hle hroom

/-- A request takes the first of the smallest free blocks that are large enough, and changes the
list at its place only; where no block is large enough it is refused. Sizes in the topmost eight
bytes of a word cannot be rounded up. -/
theorem WellFormed.best_fit (hp : p.WellFormed) (size : Nat) :
    (size + 8 < Word.limit → ∃ entries used, p.listing = .ok entries ∧ p.used = .ok used ∧
      (((∀ b ∈ entries, b.2 < rounded size) ∧
          p.alloc size = .ok (.error ⟨rounded size, used⟩)) ∨
        ∃ pre addr room post q, entries = pre ++ (addr, room) :: post ∧
          Chosen (rounded size) pre room post ∧ p.alloc size = .ok (.ok (addr, q)) ∧
            p.Taken (rounded size) pre addr room post q)) ∧
    (Word.limit ≤ size + 8 → p.alloc size = .error .overflow) := by
  obtain ⟨free, taken, hl⟩ := hp
  refine ⟨fun hsize => ⟨_, _, hl.listing_eq, hl.used_eq, hl.alloc_chosen hsize⟩, fun hsize => ?_⟩
  rw [Pool.alloc, requestSize_overflow hsize, error_bind]

theorem trial_best_fit : ∃ p b, trial = .ok (some (p, b)) ∧ p.WellFormed ∧
    p.listing = .ok [(8, 24), (72, 56)] ∧ 30 + 8 < Word.limit ∧
      ∃ q, p.alloc 30 = .ok (.ok (72, q)) ∧ p.Taken 32 [(8, 24)] 72 56 [] q := by
  have hends : (trial.toOption.join.any fun e =>
      e.1.listing.toOption == some [(8, 24), (72, 56)]) = true := by decide +kernel
  obtain ⟨⟨p, b⟩, htrial, hends⟩ := (Option.any_eq_true ..).mp hends
  have hr := toOption_eq_some.mp (Option.join_eq_some_iff.mp htrial)
  have hwell := (trial_run hr).wellFormed
  have hlisting := eq_ok_of_toOption hends
  have hsize : 30 + 8 < Word.limit := by decide
  refine ⟨p, b, hr, hwell, hlisting, hsize, ?_⟩
  obtain ⟨entries, used, hentries, -, hchoice⟩ := (hwell.best_fit 30).1 hsize
  obtain rfl : entries = [(8, 24), (72, 56)] := by
    rw [hlisting] at hentries
    cases hentries
    rfl
  rcases hchoice with ⟨hsmall, -⟩ | ⟨pre, addr, room, post, q, hsplit, hchosen, halloc, htaken⟩
  · exact absurd (hsmall (72, 56) (by simp)) (by decide)
  · have hfits : 32 ≤ room := hchosen.fits
    cases pre with
    | nil =>
      simp only [List.nil_append, List.cons.injEq, Prod.mk.injEq] at hsplit
      omega
    | cons first pre =>
      cases pre with
      | nil =>
        simp only [List.cons_append, List.nil_append, List.cons.injEq, Prod.mk.injEq] at hsplit
        obtain ⟨rfl, ⟨rfl, rfl⟩, rfl⟩ := hsplit
        exact ⟨q, halloc, htaken⟩
      | cons second pre => simp at hsplit

theorem ofSize_wellFormed {poison : Bool} (h : ofSize size poison = .ok p) : p.WellFormed := by
  simp only [ofSize, idle, bind_eq_ok, pure_eq_ok] at h
  obtain ⟨_, ⟨m, hzero, rfl⟩, hactivate⟩ := h
  obtain ⟨hbound, hm⟩ := Memory.zeroed_eq_ok hzero
  exact ⟨_, _, (activate_laid (by rw [hm]; exact hbound) hactivate).1⟩

def topmost : Nat := 0xfffffffffffffff8

/-- A request for the greatest multiple of eight is not refused, although it needs no rounding and
no block is large enough. -/
theorem topmost_not_refused : topmost + 7 < Word.limit ∧ rounded topmost = topmost ∧
    ∃ p, ofSize 256 false = .ok p ∧ p.WellFormed ∧ p.listing = .ok [(0, 256)] ∧
      (∀ used, p.alloc topmost ≠ .ok (.error ⟨rounded topmost, used⟩)) ∧
        p.alloc topmost = .error .overflow := by
  have hends : ((ofSize 256 false).toOption.any fun p =>
      p.listing.toOption == some [(0, 256)]) = true := by decide +kernel
  obtain ⟨p, hsome, hends⟩ := (Option.any_eq_true ..).mp hends
  have hp := toOption_eq_some.mp hsome
  have hfault : p.alloc topmost = .error .overflow := by
    rw [Pool.alloc, requestSize_overflow (by decide), error_bind]
  refine ⟨by decide, by decide, p, hp, ofSize_wellFormed hp, eq_ok_of_toOption hends,
    fun used hused => ?_, hfault⟩
  rw [hfault] at hused
  cases hused

end Pool
end CountedHeap
