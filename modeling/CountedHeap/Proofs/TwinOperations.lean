import CountedHeap.Proofs.TwinValues

/-!
Every operation has the same result on both heaps, faults included, and leaves two heaps that hold
the same. Whatever an operation looks at stands in the header or in the fields of a value; neither
depends on what else is in a block.
-/

namespace CountedHeap.Heap

def Twinned (h h' : Heap) : Prop := ∃ s, Twins s h h'

def Blind {ε α : Type} (x : Action ε α) : Prop :=
  ∀ {h h' s}, Twins s h h' → x.Mirrors h h' (fun _ g g' => Twinned g g') fun _ g g' => Twinned g g'

variable {h h' : Heap} {s : Store} {r : Reference}

theorem Twins.twinned (ht : Twins s h h') : Twinned h h' := ⟨s, ht⟩

theorem TwinsAfter.twinned (ha : TwinsAfter s h h') : Twinned h h' := ⟨_, ha.choose_spec.1⟩

theorem MadeTwins.twinned {x : Content} (hm : MadeTwins s r x h h') : Twinned h h' :=
  ⟨_, hm.twins.choose_spec⟩

theorem Twins.unchanged (ht : Twins s h h') {g g' : Heap} (he : g = h ∧ g' = h') :
    Twinned g g' := by
  obtain ⟨rfl, rfl⟩ := he
  exact ht.twinned

section Lists

theorem newList_blind (elements : List Reference) : Blind (newList elements) := by
  intro h h' s ht
  refine Action.mirrors_bind ((ht.makeArray elements.length).imp ?_ fun _ _ _ => ht.unchanged)
  intro values g g' hm
  obtain ⟨addr, ht₁⟩ := hm.twins
  refine Action.mirrors_bind (Action.mirrors_orUndo ((ht₁.makeList values).imp ?_ ?_))
  · intro list k k' hm₂
    obtain ⟨s₂, ha, hlist, -⟩ := hm₂.after
    have hlt := ht₁.left.arrayLength_lt Store.content_set_self
    rw [List.length_replicate] at hlt
    refine Action.update_bind (ha.placeFrom values 0 elements) fun _ _ _ ha => ?_
    refine Action.update_bind (ha.storeListSize (kind_of_content hlist) hlt) fun _ _ _ ha => ?_
    exact Action.mirrors_pure ha.twinned
  · rintro _ _ _ ⟨rfl, rfl⟩
    exact (ht₁.after.release values).imp fun _ _ _ _ ha => ha.twinned

theorem TwinsAfter.push {list values item : Reference} {i : Nat} (ha : TwinsAfter s h h')
    (hx : ∀ x, s.content list = some x → x.kind = .list) :
    (do
      Action.update (·.retain item)
      Action.update (·.arraySet values i item)
      Action.update (·.storeField list Layout.listSizeOffset (i + 1)) :
      Action OutOfMemory Unit).Mirrors h h' (fun _ g g' => Twinned g g')
        fun _ g g' => Twinned g g' := by
  refine Action.update_bind (ha.retain item) fun g g' _ ha₁ => ?_
  refine Action.update_bind (ha₁.arraySet values i item) fun k k' hset ha₂ => ?_
  obtain ⟨s₁, ht₁, -⟩ := ha₁
  refine Action.mirrors_update ((ha₂.storeListSize hx ?_).imp fun _ _ _ _ ha => ha.twinned)
  exact ht₁.left.after.index_lt hset

theorem listPush_blind (list item : Reference) : Blind (listPush list item) := by
  intro h h' s ht
  refine Action.read_bind (ht.listParts_eq list) fun parts hparts => ?_
  have hlist := ht.left.listParts_eq_ok.mp hparts
  refine Action.mirrors_bind (Action.read_bind (ht.arrayCapacity_eq _) fun capacity _ => ?_)
  split
  case isTrue =>
    refine Action.lift_bind fun room _ => ?_
    refine Action.mirrors_bind ((ht.makeArray _).imp ?_ fun _ _ _ => ht.unchanged)
    intro grown g g' hm
    obtain ⟨s₁, ha, -, hold⟩ := hm.after
    have hx := kind_of_content (hold _ _ hlist)
    refine Action.update_bind (ha.moveFrom parts.values grown 0 parts.size) fun _ _ _ ha => ?_
    refine Action.update_bind (ha.release parts.values) fun _ _ _ ha => ?_
    refine Action.update_bind (ha.storeListValues hx) fun _ _ _ ha => ?_
    exact Action.mirrors_pure (ha.push hx)
  case isFalse => exact Action.mirrors_pure (ht.after.push (kind_of_content hlist))

theorem Twins.listIndex_eq (ht : Twins s h h') (list subscript : Reference) :
    h.listIndex list subscript = h'.listIndex list subscript := by
  simp only [listIndex, ht.value_eq, ht.listParts_eq]

theorem Twins.listGet_eq (ht : Twins s h h') (list : Reference) (index : Nat) :
    h.listGet list index = h'.listGet list index := by
  simp only [listGet, ht.listParts_eq, ht.arrayGet_eq]

theorem listSubscript_blind (list subscript : Reference) :
    Blind (listSubscript list subscript) := by
  intro h h' s ht
  refine Action.ask_bind (ht.listIndex_eq ..) (fun index _ => ?_) fun _ _ => ht.twinned
  refine Action.read_bind (ht.listGet_eq ..) fun element _ => ?_
  refine Action.update_bind (ht.retain element) fun _ _ _ ha => ?_
  exact Action.mirrors_pure ha.twinned

theorem listAssign_blind (list subscript item : Reference) :
    Blind (listAssign list subscript item) := by
  intro h h' s ht
  refine Action.ask_bind (ht.listIndex_eq ..) (fun index _ => ?_) fun _ _ => ht.twinned
  refine Action.read_bind (ht.listParts_eq _) fun parts _ => ?_
  refine Action.read_bind (ht.arrayGet_eq ..) fun replaced _ => ?_
  refine Action.update_bind (ht.retain item) fun _ _ _ ha => ?_
  refine Action.update_bind (ha.arraySet ..) fun _ _ _ ha => ?_
  exact Action.mirrors_update ((ha.release replaced).imp fun _ _ _ _ ha => ha.twinned)

theorem listDelete_blind (list subscript : Reference) : Blind (listDelete list subscript) := by
  intro h h' s ht
  refine Action.ask_bind (ht.listIndex_eq ..) (fun index _ => ?_) fun _ _ => ht.twinned
  refine Action.read_bind (ht.listParts_eq _) fun parts hparts => ?_
  have hlist := ht.left.listParts_eq_ok.mp hparts
  have hlt := ht.left.listSize_lt hlist
  refine Action.read_bind (ht.arrayGet_eq ..) fun removed _ => ?_
  refine Action.update_bind (ht.after.shiftFrom ..) fun _ _ _ ha => ?_
  refine Action.update_bind (ha.arraySet ..) fun _ _ _ ha => ?_
  refine Action.update_bind (ha.storeListSize (kind_of_content hlist) (by omega))
    fun _ _ _ ha => ?_
  exact Action.mirrors_update ((ha.release removed).imp fun _ _ _ _ ha => ha.twinned)

end Lists

section Dicts

theorem Twins.entriesFrom_eq (ht : Twins s h h') (keys : Reference) (slot count : Nat) :
    h.entriesFrom keys slot count = h'.entriesFrom keys slot count := by
  induction count generalizing slot with
  | zero => rfl
  | succ count ih => simp only [entriesFrom, ht.arrayGet_eq, ht.hash_eq, ih]

theorem TwinsAfter.moveEntry (ha : TwinsAfter s h h') (parts : DictParts)
    (keys values : Reference) (e : Entry) :
    Mirrored (TwinsAfter s) (h.moveEntry parts keys values e)
      (h'.moveEntry parts keys values e) := by
  have ht := ha.choose_spec.1
  refine Mirrored.bind_eq (ht.findKey_eq ..) fun found _ => ?_
  cases found with
  | none => exact Mirrored.throw_throw _
  | some target =>
    refine Mirrored.bind_eq (ht.arrayGet_eq ..) fun value _ => ?_
    refine (ha.arraySet ..).bind fun _ _ _ _ ha => ?_
    refine (ha.arraySet ..).bind fun _ _ _ _ ha => ?_
    exact (ha.arraySet ..).bind fun _ _ _ _ ha => ha.arraySet ..

theorem TwinsAfter.moveEntries (ha : TwinsAfter s h h') (parts : DictParts)
    (keys values : Reference) (entries : List Entry) :
    Mirrored (TwinsAfter s) (entries.foldlM (Heap.moveEntry · parts keys values ·) h)
      (entries.foldlM (Heap.moveEntry · parts keys values ·) h') := by
  induction entries generalizing h h' with
  | nil => exact ha
  | cons e rest ih => exact (ha.moveEntry parts keys values e).bind fun _ _ _ _ ha' => ih ha'

theorem Twins.makeTables (ht : Twins s h h') (room : Nat) :
    (makeTables room).Mirrors h h'
      (fun t g g' => ∃ addr, s t.1 = none ∧
        MadeTwins (s.set t.1 ⟨addr, 1, .array (.replicate room .null)⟩) t.2
          (.array (.replicate room .null)) g g')
      fun _ g g' => Twinned g g' := by
  refine Action.mirrors_bind ((ht.makeArray room).imp ?_ fun _ _ _ => ht.unchanged)
  intro keys g g' hm
  obtain ⟨addr, ht₁⟩ := hm.twins
  refine Action.mirrors_bind (Action.mirrors_orUndo ((ht₁.makeArray room).imp ?_ ?_))
  · exact fun values k k' hm₂ => Action.mirrors_pure ⟨addr, hm.unused, hm₂⟩
  · rintro _ _ _ ⟨rfl, rfl⟩
    exact (ht₁.after.release keys).imp fun _ _ _ _ ha => ha.twinned

theorem Joined.dictMinCapacity_eq (hj : h.Joined h') :
    h'.config.dictMinCapacity = h.config.dictMinCapacity := by
  obtain ⟨_, _, rfl⟩ := hj.frame
  rfl

theorem dictGrow_blind (dict : Reference) : Blind (dictGrow dict) := by
  intro h h' s ht
  refine Action.read_bind (ht.dictParts_eq dict) fun parts hparts => ?_
  have hdict := ht.left.dictParts_eq_ok.mp hparts
  refine Action.read_bind (ht.arrayCapacity_eq _) fun capacity _ => ?_
  refine Action.getFailure_bind (by simp only [ht.joined.dictMinCapacity_eq]) ?_
  refine Action.liftFailure_bind fun room _ => ?_
  refine Action.ask_bind (ht.entriesFrom_eq ..) (fun entries _ => ?_) fun _ _ => ht.twinned
  refine Action.mirrors_bind (Action.mirrors_ofMemory ((ht.makeTables _).imp ?_ fun _ _ _ hb => hb))
  rintro ⟨keys, values⟩ g g' ⟨addr, hunused, hm⟩
  obtain ⟨s₁, ha, -, hold⟩ := hm.after
  have hx := kind_of_content (hold _ _ (content_set_of_unused hunused hdict))
  refine Action.update_bind (ha.moveEntries ..) fun _ _ _ ha => ?_
  refine Action.update_bind (ha.release parts.keys) fun _ _ _ ha => ?_
  refine Action.update_bind (ha.release parts.values) fun _ _ _ ha => ?_
  refine Action.update_bind (ha.storeDictKeys hx) fun _ _ _ ha => ?_
  refine Action.update_bind (ha.storeDictValues hx) fun _ _ _ ha => ?_
  exact Action.mirrors_update ((ha.storeDictOccupied hx (ht.left.dictSize_lt hdict)).imp
    fun _ _ _ _ ha => ha.twinned)

theorem slotFor_blind (dict : Reference) (hash : UInt64) (key : Reference) (attempts : Nat)
    (ht : Twins s h h') :
    (slotFor dict hash key attempts).Mirrors h h'
      (fun p g g' => ∃ s', Twins s' g g' ∧
        s'.content dict = some (.dict p.1.size p.1.occupied p.1.keys p.1.values))
      fun _ g g' => Twinned g g' := by
  induction attempts generalizing h h' s with
  | zero => exact Action.mirrors_fault
  | succ attempts ih =>
    refine Action.read_bind (ht.dictParts_eq dict) fun parts hparts => ?_
    refine Action.read_bind (ht.findKey_eq ..) fun slot _ => ?_
    cases slot with
    | some slot => exact Action.mirrors_pure ⟨s, ht, ht.left.dictParts_eq_ok.mp hparts⟩
    | none =>
      refine Action.mirrors_bind ((dictGrow_blind dict ht).imp ?_ fun _ _ _ hb => hb)
      rintro _ g g' ⟨s₁, ht₁⟩
      exact ih ht₁

theorem dictInsert_blind (dict : Reference) (hash : UInt64) (key value : Reference) :
    Blind (dictInsert dict hash key value) := by
  intro h h' s ht
  refine Action.mirrors_bind ((slotFor_blind dict hash key maxGrowths ht).imp ?_
    fun _ _ _ hb => hb)
  rintro ⟨parts, slot⟩ g g' ⟨s₁, ht₁, hparts⟩
  have hx := kind_of_content hparts
  refine Action.read_bind (ht₁.arrayGet_eq ..) fun old _ => ?_
  refine Action.update_bind (ht₁.retain key) fun _ _ _ ha => ?_
  refine Action.update_bind (ha.retain value) fun _ _ _ ha => ?_
  refine Action.update_bind (ha.arraySet ..) fun _ _ _ ha => ?_
  refine Action.update_bind (ha.arraySet ..) fun _ _ _ ha => ?_
  refine Action.liftFailure_bind fun size hsize => ?_
  obtain ⟨rfl, hsizeLt⟩ := Word.fit_eq_ok.mp hsize
  refine Action.update_bind (ha.storeDictSize hx hsizeLt) fun _ _ _ ha => ?_
  refine Action.liftFailure_bind fun occupied hoccupied => ?_
  obtain ⟨rfl, hoccupiedLt⟩ := Word.fit_eq_ok.mp hoccupied
  refine Action.update_bind (ha.storeDictOccupied hx hoccupiedLt) fun _ _ _ ha => ?_
  obtain ⟨s₂, ht₂, -⟩ := ha
  refine Action.read_bind (ht₂.arrayCapacity_eq _) fun capacity _ => ?_
  refine Action.liftFailure_bind fun twice _ => ?_
  split
  · exact dictGrow_blind dict ht₂
  · exact Action.mirrors_pure ht₂.twinned

theorem dictSet_blind (dict key value : Reference) : Blind (dictSet dict key value) := by
  intro h h' s ht
  refine Action.ask_bind (ht.hash_eq key) (fun hash _ => ?_) fun _ _ => ht.twinned
  refine Action.read_bind (ht.dictParts_eq dict) fun parts _ => ?_
  refine Action.read_bind (ht.lookup_eq ..) fun slot _ => ?_
  cases slot with
  | none => exact dictInsert_blind dict hash key value ht
  | some slot =>
    refine Action.read_bind (ht.arrayGet_eq ..) fun replaced _ => ?_
    refine Action.update_bind (ht.retain value) fun _ _ _ ha => ?_
    refine Action.update_bind (ha.arraySet ..) fun _ _ _ ha => ?_
    exact Action.mirrors_update ((ha.release replaced).imp fun _ _ _ _ ha => ha.twinned)

theorem dictGet_blind (dict key : Reference) : Blind (dictGet dict key) := by
  intro h h' s ht
  refine Action.ask_bind (ht.hash_eq key) (fun hash _ => ?_) fun _ _ => ht.twinned
  refine Action.read_bind (ht.dictParts_eq dict) fun parts _ => ?_
  refine Action.read_bind (ht.lookup_eq ..) fun slot _ => ?_
  cases slot with
  | none => exact Action.mirrors_throw ht.twinned
  | some slot =>
    refine Action.read_bind (ht.arrayGet_eq ..) fun value _ => ?_
    refine Action.update_bind (ht.retain value) fun _ _ _ ha => ?_
    exact Action.mirrors_pure ha.twinned

theorem dictDelete_blind (dict key : Reference) : Blind (dictDelete dict key) := by
  intro h h' s ht
  refine Action.ask_bind (ht.hash_eq key) (fun hash _ => ?_) fun _ _ => ht.twinned
  refine Action.read_bind (ht.dictParts_eq dict) fun parts hparts => ?_
  have hdict := ht.left.dictParts_eq_ok.mp hparts
  have hlt := ht.left.dictSize_lt hdict
  refine Action.read_bind (ht.lookup_eq ..) fun slot _ => ?_
  cases slot with
  | none => exact Action.mirrors_throw ht.twinned
  | some slot =>
    refine Action.read_bind (ht.arrayGet_eq ..) fun oldKey _ => ?_
    refine Action.read_bind (ht.arrayGet_eq ..) fun oldValue _ => ?_
    refine Action.update_bind (ht.arraySet ..) fun _ _ _ ha => ?_
    refine Action.update_bind (ha.arraySet ..) fun _ _ _ ha => ?_
    refine Action.liftFailure_bind fun size hsize => ?_
    obtain ⟨-, rfl⟩ := Word.sub_eq_ok.mp hsize
    refine Action.update_bind (ha.storeDictSize (kind_of_content hdict) (by omega))
      fun _ _ _ ha => ?_
    refine Action.update_bind (ha.release oldKey) fun _ _ _ ha => ?_
    exact Action.mirrors_update ((ha.release oldValue).imp fun _ _ _ _ ha => ha.twinned)

theorem setPairs_blind (dict : Reference) (pairs : List (Reference × Reference)) :
    Blind (pairs.forM fun p => (dictSet dict p.1 p.2).orUndo (·.release dict)) := by
  induction pairs with
  | nil => exact fun ht => Action.mirrors_pure ht.twinned
  | cons pair rest ih =>
    intro h h' s ht
    refine Action.mirrors_bind (Action.mirrors_orUndo
      ((dictSet_blind dict pair.1 pair.2 ht).imp ?_ ?_))
    · rintro _ g g' ⟨s₁, ht₁⟩
      exact ih ht₁
    · rintro _ g g' ⟨s₁, ht₁⟩
      exact (ht₁.after.release dict).imp fun _ _ _ _ ha => ha.twinned

theorem newDict_blind (pairs : List (Reference × Reference)) : Blind (newDict pairs) := by
  intro h h' s ht
  refine Action.getFailure_bind (by simp only [ht.joined.dictMinCapacity_eq]) ?_
  refine Action.liftFailure_bind fun room _ => ?_
  refine Action.mirrors_bind (Action.mirrors_ofMemory ((ht.makeTables _).imp ?_ fun _ _ _ hb => hb))
  rintro ⟨keys, values⟩ g g' ⟨addr, -, hm⟩
  obtain ⟨addr', ht₁⟩ := hm.twins
  refine Action.mirrors_bind (Action.mirrors_ofMemory (Action.mirrors_orUndo
    ((ht₁.makeDict keys values).imp ?_ ?_)))
  · intro dict k k' hm₂
    obtain ⟨s₂, ht₂⟩ := hm₂.twinned
    refine Action.mirrors_bind ((setPairs_blind dict pairs ht₂).imp ?_ fun _ _ _ hb => hb)
    exact fun _ _ _ htw => Action.mirrors_pure htw
  · rintro _ _ _ ⟨rfl, rfl⟩
    refine (ht₁.after.release keys).bind fun _ _ _ _ ha => ?_
    exact (ha.release values).imp fun _ _ _ _ ha => ha.twinned

end Dicts

section Operators

theorem makeNone_blind : Blind makeNone := fun ht =>
  ht.makeNone.imp (fun _ _ _ hm => hm.twinned) fun _ _ _ => ht.unchanged

theorem makeBool_blind (b : Bool) : Blind (makeBool b) := fun ht =>
  (ht.makeBool b).imp (fun _ _ _ hm => hm.twinned) fun _ _ _ => ht.unchanged

theorem makeInteger_blind (n : Int64) : Blind (makeInteger n) := fun ht =>
  (ht.makeInteger n).imp (fun _ _ _ hm => hm.twinned) fun _ _ _ => ht.unchanged

theorem makeString_blind (bytes : List UInt8) : Blind (makeString bytes) := fun ht =>
  (ht.makeString bytes).imp (fun _ _ _ hm => hm.twinned) fun _ _ _ => ht.unchanged

theorem makeConcatenation_blind (left right : Reference) :
    Blind (makeConcatenation left right) := fun ht =>
  (ht.makeConcatenation left right).imp (fun _ _ _ hm => hm.choose_spec.twinned)
    fun _ _ _ => ht.unchanged

theorem makeArray_blind (capacity : Nat) : Blind (makeArray capacity) := fun ht =>
  (ht.makeArray capacity).imp (fun _ _ _ hm => hm.twinned) fun _ _ _ => ht.unchanged

theorem makeList_blind (values : Reference) : Blind (makeList values) := fun ht =>
  (ht.makeList values).imp (fun _ _ _ hm => hm.twinned) fun _ _ _ => ht.unchanged

theorem makeDict_blind (keys values : Reference) : Blind (makeDict keys values) := fun ht =>
  (ht.makeDict keys values).imp (fun _ _ _ hm => hm.twinned) fun _ _ _ => ht.unchanged

theorem Blind.ofMemory {α : Type} {x : Action OutOfMemory α} (hx : Blind x) :
    Blind (liftM x : Action Failure α) := fun ht => Action.mirrors_ofMemory (hx ht)

theorem throw_blind {ε α : Type} (e : ε) : Blind (throw e : Action ε α) := fun ht =>
  Action.mirrors_throw ht.twinned

theorem noOperations_blind {α : Type} {k : Kind} {x : Action Failure α}
    (hx : x ∈ noOperations k) : Blind x := by
  cases hx
  exact fun _ => Action.mirrors_fault

theorem unaryAs_blind {k : Kind} {op : UnaryOperator} {r : Reference}
    {x : Action Failure Reference} (hx : x ∈ unaryAs? k op r) : Blind x := by
  cases k with
  | integer =>
    cases hx
    intro h h' s ht
    refine Action.read_bind (ht.alike.integer_eq fun _ => trivial) fun n _ => ?_
    exact Blind.ofMemory (makeInteger_blind _) ht
  | array | free => exact noOperations_blind hx
  | _ => cases hx

theorem unary_blind (op : UnaryOperator) (r : Reference) : Blind (unary op r) := by
  intro h h' s ht
  refine Action.read_bind (ht.kindOf_eq r) fun k _ => ?_
  split
  case h_1 x hx => exact unaryAs_blind hx ht
  case h_2 => exact throw_blind _ ht

theorem binaryIntegers_blind (op : BinaryOperator) (left right : Reference) :
    Blind (binaryIntegers op left right) := by
  intro h h' s ht
  refine Action.read_bind (ht.alike.integer_eq fun _ => trivial) fun l _ => ?_
  refine Action.read_bind (ht.alike.integer_eq fun _ => trivial) fun r _ => ?_
  split
  · exact Blind.ofMemory (makeInteger_blind _) ht
  · exact throw_blind _ ht

theorem binaryAs_blind {k : Kind} {op : BinaryOperator} {left right : Reference}
    {x : Action Failure Reference} (hx : x ∈ binaryAs? k op left right) : Blind x := by
  unfold binaryAs? at hx
  split at hx
  · cases hx
    exact binaryIntegers_blind op left right
  · cases hx
    exact Blind.ofMemory (makeConcatenation_blind left right)
  · exact noOperations_blind hx
  · exact noOperations_blind hx
  · cases hx

theorem binary_blind (op : BinaryOperator) (left right : Reference) :
    Blind (binary op left right) := by
  intro h h' s ht
  refine Action.read_bind (ht.kindOf_eq left) fun l _ => ?_
  refine Action.read_bind (ht.kindOf_eq right) fun r _ => ?_
  split
  case h_1 x hx =>
    split at hx
    case isTrue => exact binaryAs_blind hx ht
    case isFalse => cases hx
  case h_2 => exact throw_blind _ ht

theorem subscriptAs_blind {k : Kind} {r index : Reference} {x : Action Failure Reference}
    (hx : x ∈ subscriptAs? k r index) : Blind x := by
  cases k with
  | list =>
    cases hx
    exact listSubscript_blind r index
  | dict =>
    cases hx
    exact dictGet_blind r index
  | array | free => exact noOperations_blind hx
  | _ => cases hx

theorem subscript_blind (r index : Reference) : Blind (subscript r index) := by
  intro h h' s ht
  refine Action.read_bind (ht.kindOf_eq r) fun k _ => ?_
  split
  case h_1 x hx => exact subscriptAs_blind hx ht
  case h_2 => exact throw_blind _ ht

theorem assignAs_blind {k : Kind} {r index item : Reference} {x : Action Failure Unit}
    (hx : x ∈ assignAs? k r index item) : Blind x := by
  cases k with
  | list =>
    cases hx
    exact listAssign_blind r index item
  | dict =>
    cases hx
    exact dictSet_blind r index item
  | array | free => exact noOperations_blind hx
  | _ => cases hx

theorem assignItem_blind (r index item : Reference) : Blind (assignItem r index item) := by
  intro h h' s ht
  refine Action.read_bind (ht.kindOf_eq r) fun k _ => ?_
  split
  case h_1 x hx => exact assignAs_blind hx ht
  case h_2 => exact throw_blind _ ht

theorem deleteAs_blind {k : Kind} {r index : Reference} {x : Action Failure Unit}
    (hx : x ∈ deleteAs? k r index) : Blind x := by
  cases k with
  | list =>
    cases hx
    exact listDelete_blind r index
  | dict =>
    cases hx
    exact dictDelete_blind r index
  | array | free => exact noOperations_blind hx
  | _ => cases hx

theorem deleteItem_blind (r index : Reference) : Blind (deleteItem r index) := by
  intro h h' s ht
  refine Action.read_bind (ht.kindOf_eq r) fun k _ => ?_
  split
  case h_1 x hx => exact deleteAs_blind hx ht
  case h_2 => exact throw_blind _ ht

end Operators

section Bindings

variable {g : Globals}

theorem Twins.bind (ht : Twins s h h') (name : String) (value : Reference) :
    Mirrored (fun p p' => p'.1 = p.1 ∧ Twinned p.2 p'.2) (g.bind h name value)
      (g.bind h' name value) := by
  refine (ht.retain value).bind fun k k' _ _ ha => ?_
  cases g.find? name with
  | none => exact Mirrored.pure_pure ⟨rfl, ha.twinned⟩
  | some replaced =>
    refine (ha.release replaced).bind fun _ _ _ _ ha => ?_
    exact Mirrored.pure_pure ⟨rfl, ha.twinned⟩

theorem get_blind (name : String) : Blind (g.get name) := by
  intro h h' s ht
  unfold Globals.get
  split
  · exact Action.mirrors_throw ht.twinned
  · refine Action.update_bind (ht.retain _) fun _ _ _ ha => ?_
    exact Action.mirrors_pure ha.twinned

theorem delete_blind (name : String) : Blind (g.delete name) := by
  intro h h' s ht
  unfold Globals.delete
  split
  · exact Action.mirrors_throw ht.twinned
  · refine Action.update_bind (ht.after.release _) fun _ _ _ ha => ?_
    exact Action.mirrors_pure ha.twinned

theorem Twins.releases (ht : Twins s h h') (refs : List Reference) :
    Mirrored (TwinsAfter s) (refs.foldlM (·.release ·) h) (refs.foldlM (·.release ·) h') := by
  have hall {h h' : Heap} (ha : TwinsAfter s h h') : Mirrored (TwinsAfter s)
      (refs.foldlM (·.release ·) h) (refs.foldlM (·.release ·) h') := by
    induction refs generalizing h h' with
    | nil => exact ha
    | cons r rest ih => exact (ha.release r).bind fun _ _ _ _ ha' => ih ha'
  exact hall ht.after

end Bindings
end CountedHeap.Heap
