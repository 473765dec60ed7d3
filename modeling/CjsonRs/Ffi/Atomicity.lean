import CjsonRs.Ffi.Calls

/-!
# Calls that fail

A call that reports a failure, whatever the reason and wherever the allocator failed, leaves
every node and every buffer as it was: what it had allocated is freed again, once.
-/

namespace CjsonRs.Ffi

open CjsonRs.Core Library Library.Link Library.Forest

variable {h h' g : Heap} {a i p s : Addr} {n : CNode} {q : Ptr} {S : Prop} {std : StdF64}
  {kids kids' : Addr → List Addr}

/-! ## Constructors -/

namespace Construct

/-- A constructor builds one tree on new blocks, or nothing. -/
theorem run_meets (c : Construct) (hBounded : h.Bounded) :
    Run.Meets c.run h (c.Admissible h) (Built h) := by
  have hNumbers : ∀ (T : Type) (mk : T → F64) (values : Option (List T)) (count : Int),
      Run.Meets (createNumericArray values count mk) h (Counted (fun _ => True) values count)
        (Built h) := fun T mk values count =>
    createTypedArray_meets hBounded (fun v g _ hg => newNumber_meets hg (mk v)) values count
  cases c with
  | null => exact newNode_meets hBounded rfl
  | true => exact newNode_meets hBounded rfl
  | false => exact newNode_meets hBounded rfl
  | bool b =>
    refine newNode_meets hBounded ?_
    split <;> rfl
  | number num => exact newNumber_meets hBounded num
  | string s => exact createStringLike_meets hBounded rfl rfl s fun hS => hS
  | raw s => exact createStringLike_meets hBounded rfl rfl s fun hS => hS
  | array => exact newNode_meets hBounded rfl
  | object => exact newNode_meets hBounded rfl
  | intArray numbers count => exact hNumbers Int f64OfInt numbers count
  | floatArray numbers count => exact hNumbers (BitVec 32) f64OfF32 numbers count
  | doubleArray numbers count => exact hNumbers F64 id numbers count
  | stringArray strings count =>
    refine createTypedArray_meets hBounded (fun s g hExt hg => ?_) strings count
    refine createStringLike_meets hg rfl rfl s fun hS x hx => ?_
    exact hExt.readable hBounded (hS x hx)
  | stringReference s => exact cjsonCreateStringReference_meets hBounded s
  | objectReference child => exact createContainerReference_meets hBounded rfl rfl child
  | arrayReference child => exact createContainerReference_meets hBounded rfl rfl child

end Construct

/-! ## Unchanged heaps -/

/-- The blocks of `h'` are those of `h`, as they were, and none was freed wrongly. -/
structure Unchanged (h h' : Heap) : Prop where
  nodes : h'.nodes = h.nodes
  bufs : h'.bufs = h.bufs
  misuses : h'.misuses = h.misuses

theorem Unchanged.refl (h : Heap) : Unchanged h h := ⟨rfl, rfl, rfl⟩

theorem Unchanged.of_built (hBounded : h.Bounded) (hNone : Built h none h') : Unchanged h h' := by
  obtain ⟨kids, hGrown⟩ := hNone
  obtain ⟨hNodes, hBufs, hMisuses⟩ := hGrown.unchanged hBounded
  exact ⟨hNodes, hBufs, hMisuses⟩

namespace Reply

/-- `NULL` or `false`. -/
def Failed (r : Reply) : Prop := r = .item none ∨ r = .flag false

@[simp] theorem failed_item : (Reply.item q).Failed ↔ q = none := by simp [Failed]

@[simp] theorem failed_flag {b : Bool} : (Reply.flag b).Failed ↔ b = false := by simp [Failed]

@[simp] theorem failed_done : ¬ Reply.done.Failed := by simp [Failed]

end Reply

/-- A failure leaves the heap unchanged. -/
def Atomic (h : Heap) (r : Reply) (h' : Heap) : Prop := r.Failed → Unchanged h h'

theorem atomic_built (hBounded : h.Bounded) (hBuilt : Built h q h') : Atomic h (.item q) h' := by
  intro hFailed
  rw [Reply.failed_item] at hFailed
  subst hFailed
  exact Unchanged.of_built hBounded hBuilt

/-! ## Reading and allocating -/

/-- Nothing was changed but perhaps an answer of the allocator used up. -/
def Still (h h' : Heap) : Prop := h' = h ∨ h' = h.tick

theorem Still.unchanged (hStill : Still h h') : Unchanged h h' := by
  rcases hStill with rfl | rfl
  · exact Unchanged.refl _
  · exact ⟨rfl, rfl, rfl⟩

theorem meets_any {α : Type} (x : M α) (hReturns : S → ∃ a h', x h = .ok (a, h')) :
    Run.Meets x h S fun _ _ => True := Run.meets_iff.mpr ⟨fun _ _ _ => trivial, hReturns⟩

theorem load_still (q : Ptr) : Run.Meets (load q) h False fun _ h' => h = h' := by
  refine Run.meets_iff.mpr ⟨fun n h' hRun => ?_, False.elim⟩
  obtain ⟨_, _, _, rfl⟩ := load_eq_ok hRun
  rfl

theorem childAtIndexLoop_still (which : Int) (fuel : Nat) (cur : Ptr) (i : Int) :
    Run.Meets (childAtIndexLoop which fuel cur i) h False fun _ h' => h = h' := by
  induction fuel generalizing cur i with
  | zero =>
    cases cur with
    | none => exact Run.meets_pure rfl
    | some a => exact Run.meets_fault rfl not_false
  | succ fuel ih =>
    cases cur with
    | none => exact Run.meets_pure rfl
    | some a =>
      rw [childAtIndexLoop_succ]
      refine Run.meets_ite (fun _ => Run.meets_pure rfl) fun _ => (load_still _).bind ?_
      rintro n _ rfl
      exact ih n.next (i + 1)

theorem childAtIndex_still (parent : Ptr) (which : Int) :
    Run.Meets (childAtIndex parent which) h False fun _ h' => h = h' := by
  rw [childAtIndex]
  refine Run.meets_ite (fun _ => Run.meets_pure rfl) fun _ => (load_still _).bind ?_
  rintro n _ rfl
  exact childAtIndexLoop_still which _ n.child 0

theorem loadStr_still (q : Ptr) : Run.Meets (loadStr q) h False fun _ h' => h = h' := by
  refine Run.meets_iff.mpr ⟨fun r h' hRun => ?_, False.elim⟩
  obtain ⟨_, _, _, _, _, _, rfl⟩ := loadStr_eq_ok hRun
  rfl

theorem memberMatches_still (cs : Bool) (key : Str) (cur : Ptr) :
    Run.Meets (memberMatches cs key cur) h False fun _ h' => h = h' := by
  refine (load_still cur).bind ?_
  rintro n _ rfl
  refine Run.meets_ite (fun _ => Run.meets_pure rfl) fun _ => (loadStr_still _).bind ?_
  rintro r _ rfl
  cases r <;> exact Run.meets_pure rfl

theorem findMember_still (cs : Bool) (key : Str) (fuel : Nat) (cur : Ptr) :
    Run.Meets (findMember cs key fuel cur) h False fun _ h' => h = h' := by
  induction fuel generalizing cur with
  | zero =>
    cases cur with
    | none => exact Run.meets_pure rfl
    | some a => exact Run.meets_fault rfl not_false
  | succ fuel ih =>
    cases cur with
    | none => exact Run.meets_pure rfl
    | some a =>
      rw [findMember_succ]
      refine (memberMatches_still cs key (some a)).bind ?_
      rintro matched _ rfl
      refine Run.meets_ite (fun _ => Run.meets_pure rfl) fun _ => (load_still _).bind ?_
      rintro n _ rfl
      exact ih n.next

theorem getObjectItemImpl_still (object string : Ptr) (cs : Bool) :
    Run.Meets (getObjectItemImpl object string cs) h False fun _ h' => h = h' := by
  rw [getObjectItemImpl]
  refine Run.meets_ite (fun _ => Run.meets_pure rfl) fun _ => (loadStr_still _).bind ?_
  rintro r _ rfl
  cases r with
  | none => exact Run.meets_pure rfl
  | some key =>
    refine (load_still object).bind ?_
    rintro o _ rfl
    exact findMember_still cs key _ o.child

/-! ## Edits -/

/-- A call that returns `true` unless it leaves the heap as it is. -/
def Tries (x : M Bool) (h : Heap) : Prop :=
  Run.Meets x h False fun b h' => b = false → Still h h'

theorem tries_false : Tries (pure false) h := Run.meets_pure fun _ => Or.inl rfl

/-- A call that can only return `true`. -/
def Succeeds (x : M Bool) : Prop := ∀ h, Run.Meets x h False fun b _ => b = true

theorem succeeds_true : Succeeds (pure true) := fun _ => Run.meets_pure rfl

theorem Succeeds.after {α : Type} {x : α → M Bool} {y : M α} (hx : ∀ a, Succeeds (x a)) :
    Succeeds (y >>= x) := fun _ => (meets_any y False.elim).bind fun a h' _ => hx a h'

theorem Succeeds.tries {x : M Bool} (hx : Succeeds x) : Tries x h := by
  refine (hx h).mono id ?_
  rintro b h' rfl
  exact nofun

theorem attachNamedChild_tries (parent key child : Ptr) :
    Tries (attachNamedChild parent key child) h := by
  cases parent with
  | none => exact tries_false
  | some p =>
    cases key with
    | none => exact tries_false
    | some s =>
      cases child with
      | none => exact tries_false
      | some i =>
        rw [attachNamedChild_eq]
        refine (loadStr_still _).bind ?_
        rintro r _ rfl
        cases r with
        | none => exact tries_false
        | some k =>
          have hAlloc := allocCstr_run k h
          by_cases hYes : h.outcomes 0 = true
          · rw [if_pos hYes] at hAlloc
            have hRest : Succeeds (rekey i clearConst (some h.brk) >>= fun _ =>
                attachChild (some p) (some i) >>= fun _ => pure true) :=
              Succeeds.after fun _ => Succeeds.after fun _ => succeeds_true
            refine Run.meets_bind_of_run hAlloc ((hRest _).mono id ?_)
            rintro b h' rfl
            exact nofun
          · rw [if_neg hYes] at hAlloc
            exact Run.meets_bind_of_run hAlloc (Run.meets_pure fun _ => Or.inr rfl)

/-- A check of the type of the parent comes first. -/
theorem tries_checked {q : Ptr} {type : TypeWord} {x : M Bool} (hx : Tries x h) :
    Tries (do
      let a ← load q
      if tag a.type_ ≠ type then
        return false
      x) h := by
  refine (load_still q).bind ?_
  rintro n _ rfl
  exact Run.meets_ite (fun _ => tries_false) fun _ => hx

theorem cjsonAddItemToArray_tries (array item : Ptr) : Tries (cjsonAddItemToArray array item) h :=
  Run.meets_ite (fun _ => tries_false) fun _ =>
    tries_checked (Succeeds.after fun _ => succeeds_true).tries

theorem cjsonAddItemToObject_tries (object name item : Ptr) :
    Tries (cjsonAddItemToObject object name item) h :=
  Run.meets_ite (fun _ => tries_false) fun _ =>
    tries_checked (attachNamedChild_tries object name item)

theorem cjsonAddItemToObjectCS_tries (object name item : Ptr) :
    Tries (cjsonAddItemToObjectCS object name item) h := by
  cases object with
  | none => exact tries_false
  | some p =>
    cases name with
    | none => exact tries_false
    | some s =>
      cases item with
      | none => exact tries_false
      | some i =>
        rw [cjsonAddItemToObjectCS_eq]
        refine tries_checked (Succeeds.tries ?_)
        exact Succeeds.after fun _ => Succeeds.after fun _ => succeeds_true

theorem cjsonInsertItemInArray_tries (array newitem : Ptr) (which : Int) :
    Tries (cjsonInsertItemInArray array which newitem) h := by
  cases array with
  | none => exact tries_false
  | some p =>
    cases newitem with
    | none => exact tries_false
    | some i =>
      by_cases hNeg : which < 0
      · rw [cjsonInsertItemInArray, if_pos (Or.inr (Or.inr hNeg))]
        exact tries_false
      · rw [cjsonInsertItemInArray_eq p i hNeg]
        refine tries_checked ((childAtIndex_still _ which).bind ?_)
        rintro existing _ rfl
        cases existing with
        | none => exact (Succeeds.after fun _ => succeeds_true).tries
        | some a => exact (Succeeds.after fun _ => succeeds_true).tries

theorem replaceViaPointer_tries (parent item replacement : Ptr) :
    Tries (replaceViaPointer parent item replacement) h := by
  cases parent with
  | none => exact tries_false
  | some p =>
    cases item with
    | none => exact tries_false
    | some a =>
      cases replacement with
      | none => exact tries_false
      | some i =>
        rw [replaceViaPointer_eq]
        refine Succeeds.tries (Succeeds.after fun _ => Succeeds.after fun _ => ?_)
        exact Succeeds.after fun _ => Succeeds.after fun _ => Succeeds.after fun _ => succeeds_true

theorem atomic_flag {x : M Bool} (hx : Tries x h) :
    Run.Meets (Reply.flag <$> x) h False (Atomic h) := by
  refine (hx.mono id fun b h' hStill hFailed => ?_).map
  exact (hStill (Reply.failed_flag.mp hFailed)).unchanged

/-- Something is found without a change, and what follows can then only succeed. -/
theorem atomic_found {find : M Ptr} {x : Ptr → M Ptr}
    (hFind : Run.Meets find h False fun _ h' => h = h')
    (hx : ∀ a g, Run.Meets (x (some a)) g False fun q _ => q = some a) :
    Run.Meets (Reply.item <$> (do
      let item ← find
      if item.isNone then
        return none
      x item)) h False (Atomic h) := by
  refine .map (hFind.bind ?_)
  rintro item _ rfl
  cases item with
  | none => exact Run.meets_pure fun _ => Unchanged.refl _
  | some a =>
    refine (hx a h).mono id ?_
    rintro _ h' rfl hFailed
    cases Reply.failed_item.mp hFailed

theorem tries_found {find : M Ptr} {x : Ptr → M Bool}
    (hFind : Run.Meets find h False fun _ h' => h = h') (hx : ∀ q, Tries (x q) h) :
    Tries (do
      let item ← find
      if item.isNone then
        return false
      x item) h := by
  refine hFind.bind ?_
  rintro item _ rfl
  exact Run.meets_ite (fun _ => tries_false) fun _ => hx item

/-- `detach` returns what was found. -/
theorem detach_found (parent : Ptr) (a : Addr) (g : Heap) :
    Run.Meets (detach parent (some a) >>= fun _ => pure (some a)) g False
      fun q _ => q = some a :=
  (meets_any _ False.elim).bind fun _ _ _ => Run.meets_pure rfl

namespace Edit

/-- An edit that fails changes nothing. -/
theorem atomic (e : Edit) : Run.Meets e.run h False (Atomic h) := by
  have hDone : ∀ x : M Unit, Run.Meets ((fun _ => Reply.done) <$> x) h False (Atomic h) := by
    intro x
    refine ((meets_any x False.elim).mono id fun _ _ _ hFailed => ?_).map
    exact absurd hFailed Reply.failed_done
  cases e with
  | addItemToArray array item => exact atomic_flag (cjsonAddItemToArray_tries array item)
  | addItemToObject object name item =>
    exact atomic_flag (cjsonAddItemToObject_tries object name item)
  | addItemToObjectCS object name item =>
    exact atomic_flag (cjsonAddItemToObjectCS_tries object name item)
  | insertItemInArray array which newitem =>
    exact atomic_flag (cjsonInsertItemInArray_tries array newitem which)
  | detachItemViaPointer parent item =>
    show Run.Meets (Reply.item <$> cjsonDetachItemViaPointer parent item) h False (Atomic h)
    refine .map (Run.meets_ite (fun _ => Run.meets_pure fun _ => Unchanged.refl h) fun hSome => ?_)
    cases item with
    | none => exact absurd (Or.inr rfl) hSome
    | some a =>
      refine (detach_found parent a h).mono id ?_
      rintro _ h' rfl hFailed
      cases Reply.failed_item.mp hFailed
  | detachItemFromArray array which =>
    exact atomic_found (childAtIndex_still array which) (detach_found array)
  | detachItemFromObject cs object string =>
    cases cs <;> exact atomic_found (getObjectItemImpl_still object string _) (detach_found object)
  | deleteItemFromArray array which => exact hDone _
  | deleteItemFromObject cs object string => cases cs <;> exact hDone _
  | replaceItemViaPointer parent item replacement =>
    exact atomic_flag (replaceViaPointer_tries parent item replacement)
  | replaceItemInArray array which newitem =>
    exact atomic_flag (tries_found (childAtIndex_still array which)
      fun q => replaceViaPointer_tries array q newitem)
  | replaceItemInObject cs object string newitem =>
    cases cs <;> exact atomic_flag (tries_found (getObjectItemImpl_still object string _)
      fun q => replaceViaPointer_tries object q newitem)

end Edit

/-! ## Parse -/

/-- `Q` of a value, on the heap with another error pointer. -/
def Parses (h : Heap) (q : Ptr) (h' : Heap) : Prop := ∃ p, Built { h with lastError := p } q h'

theorem bounded_lastError (hBounded : h.Bounded) (p : CharPtr) :
    ({ h with lastError := p } : Heap).Bounded := ⟨hBounded.nodes, hBounded.bufs⟩

theorem parseBytes_meets (hBounded : h.Bounded) (value : Addr) (bytes : List UInt8)
    (wantEnd : Bool) (whole : Nat) (strict : Int) :
    Run.Meets (parseBytes std value bytes wantEnd whole strict) h S
      fun r h' => Parses h r.item h' := by
  unfold parseBytes
  generalize stripUtf8Bom bytes = stripped
  obtain ⟨parsedBytes, bomSkip⟩ := stripped
  dsimp only
  split
  · rename_i v stop _
    have hSet : setLastError none h = .ok ((), { h with lastError := none }) := rfl
    refine Run.meets_bind_of_run hSet ?_
    refine ((forms_valueToCjson v _ (bounded_lastError hBounded none)).meets).bind ?_
    exact fun q h' hBuilt => Run.meets_pure ⟨none, hBuilt⟩
  · exact Run.meets_of_run rfl ⟨_, built_none (bounded_lastError hBounded _)⟩

theorem loadBytes_meets (hRead : S → h.Readable s) :
    Run.Meets (loadBytes (some s)) h S fun _ h' => h = h' := by
  refine Run.meets_iff.mpr ⟨fun bytes h' hRun => ?_, fun hS => ?_⟩
  · simp only [loadBytes] at hRun
    split at hRun
    · cases hRun
    · split_ifs at hRun
      cases hRun
      rfl
  · obtain ⟨b, hb, hNul⟩ := hRead hS
    exact ⟨_, _, loadBytes_run hb hNul⟩

theorem loadSlice_meets {len : Nat} (hRead : S → ∃ b, h.bufs s = some b ∧ len ≤ b.bytes.length) :
    Run.Meets (loadSlice (some s) len) h S fun _ h' => h = h' := by
  refine Run.meets_iff.mpr ⟨fun bytes h' hRun => ?_, fun hS => ?_⟩
  · simp only [loadSlice] at hRun
    split at hRun
    · cases hRun
    · split_ifs at hRun
      cases hRun
      rfl
  · obtain ⟨b, hb, hLen⟩ := hRead hS
    refine ⟨b.bytes.take len, h, ?_⟩
    simp only [loadSlice, hb, if_pos hLen]

theorem cjsonParseWithOpts_meets (hBounded : h.Bounded) (value : Ptr) (wantEnd : Bool)
    (strict : Int) : Run.Meets (cjsonParseWithOpts std value wantEnd strict) h
      (Construct.ReadablePtr h value) fun r h' => Parses h r.item h' := by
  cases value with
  | none => exact Run.meets_of_run rfl ⟨none, built_none (bounded_lastError hBounded none)⟩
  | some s =>
    refine (loadBytes_meets fun hS => hS s rfl).bind ?_
    rintro bytes _ rfl
    exact parseBytes_meets hBounded s bytes wantEnd _ strict

theorem cjsonParseWithLengthOpts_meets (hBounded : h.Bounded) (value : Ptr) (len : Nat)
    (wantEnd : Bool) (strict : Int) :
    Run.Meets (cjsonParseWithLengthOpts std value len wantEnd strict) h
      (∀ s, value = some s → ∃ b, h.bufs s = some b ∧ len ≤ b.bytes.length)
      fun r h' => Parses h r.item h' := by
  cases value with
  | none => exact Run.meets_of_run rfl ⟨none, built_none (bounded_lastError hBounded none)⟩
  | some s =>
    refine (loadSlice_meets fun hS => hS s rfl).bind ?_
    rintro bytes _ rfl
    exact parseBytes_meets hBounded s bytes wantEnd _ strict

/-- The two short entry points are strict and drop the parse end. -/
theorem cjsonParse_eq_opts (value : Ptr) :
    cjsonParse std value = Parsed.item <$> cjsonParseWithOpts std value false 1 := by
  cases value with
  | none => rfl
  | some s =>
    simp only [cjsonParse, cjsonParseWithOpts, map_eq_pure_bind, bind_assoc]

theorem cjsonParseWithLength_eq_opts (value : Ptr) (len : Nat) :
    cjsonParseWithLength std value len
      = Parsed.item <$> cjsonParseWithLengthOpts std value len false 1 := by
  cases value with
  | none => rfl
  | some s =>
    simp only [cjsonParseWithLength, cjsonParseWithLengthOpts, map_eq_pure_bind, bind_assoc]

theorem Parses.atomic (hBounded : h.Bounded) (hParses : Parses h q h') :
    Atomic h (.item q) h' := by
  obtain ⟨p, hBuilt⟩ := hParses
  intro hFailed
  obtain ⟨hNodes, hBufs, hMisuses⟩ := atomic_built (bounded_lastError hBounded p) hBuilt hFailed
  exact ⟨hNodes, hBufs, hMisuses⟩

/-! ## References and members -/

/-- A new tree may be added to a node of the heap it was built on. -/
theorem handed_new (hWf : WellFormed 0 h kids) (hp : Mutable 0 h p)
    (hGrown : Grown h g kids' [i]) :
    ∃ kids'', WellFormed 0 g kids'' ∧ Mutable 0 g p ∧ Handed 0 g kids'' p i := by
  obtain ⟨hN, n, hn, hRef⟩ := hp
  have hNode : g.nodes p = some n := hGrown.ext.node hWf.bounded hn
  obtain ⟨hi, hLive, hRoot⟩ := hGrown.root i (List.mem_singleton_self i)
  have hIn := hWf.trees.inside hWf.bounded
  have hOut := hGrown.sound.wf.trees.outside
  have hRoot' : IsRoot (joinAt h.brk kids kids') i := by
    intro x hx
    rcases (mem_join hIn hOut).mp hx with hx | hx
    · exact absurd (hIn x i hx).2 (Nat.not_lt.mpr hi)
    · exact hRoot x hx
  refine ⟨_, hWf.join hGrown.ext (Nat.zero_le _) hGrown.sound.wf, ⟨hN, n, hNode, hRef⟩,
    Nat.zero_le i, hLive, hRoot', fun hBelow => ?_⟩
  have hAbove : ∀ x, Below (joinAt h.brk kids kids') i x → h.brk ≤ x := by
    intro x hx
    induction hx with
    | refl => exact hi
    | tail _ hc ih =>
      rcases (mem_join hIn hOut).mp hc with hc | hc
      · exact absurd (hIn _ _ hc).1 (Nat.not_lt.mpr ih)
      · exact Nat.le_of_not_lt (hOut _ _ hc).2
  exact absurd (hWf.bounded.lt hn) (Nat.not_lt.mpr (hAbove p hBelow))

theorem cjsonAddItemReferenceToArray_meets (hBounded : h.Bounded) (array item : Ptr) :
    Run.Meets (cjsonAddItemReferenceToArray array item) h
      (∃ kids, WellFormed 0 h kids ∧ (Call.addItemReferenceToArray array item).Admissible h kids)
      fun b h' => b = false → Unchanged h h' := by
  cases array with
  | none => exact Run.meets_pure fun _ => Unchanged.refl h
  | some p =>
    cases item with
    | none => exact Run.meets_pure fun _ => Unchanged.refl h
    | some i =>
      show Run.Meets (load (some p) >>= fun a => _) h _ _
      refine (load_meets fun hS => ?_).bind ?_
      · obtain ⟨kids, -, hAdm⟩ := hS
        obtain ⟨⟨-, n, hn, -⟩, -⟩ := hAdm p i rfl rfl
        rw [hn]
        rfl
      rintro n _ ⟨rfl, hn⟩
      refine Run.meets_ite (fun _ => Run.meets_pure fun _ => Unchanged.refl h) fun _ => ?_
      refine (wrapAsReference_meets hBounded fun ⟨kids, _, hAdm⟩ => (hAdm p i rfl rfl).2).bind ?_
      rintro r g hBuilt
      cases r with
      | none => exact Run.meets_pure fun _ => Unchanged.of_built hBounded hBuilt
      | some r =>
        obtain ⟨kids', hGrown⟩ := hBuilt
        refine (meets_any (attachChild (some p) (some r)) fun hS => ?_).bind
          fun _ h' _ => Run.meets_pure nofun
        obtain ⟨kids, hWf, hAdm⟩ := hS
        obtain ⟨kids'', hWf', hp, hr⟩ := handed_new hWf (hAdm p i rfl rfl).1 hGrown
        obtain ⟨h', hRun, -⟩ := attach_run hWf' hp hr
        exact ⟨(), h', hRun⟩

/-- Adding a new tree with a name leaves the new tree as it is, or adds it. -/
theorem attachNamedChild_new {p s : Addr} (hGrown : Grown h g kids' [i])
    (hAdm : S → (∃ kids, WellFormed 0 h kids) ∧ Mutable 0 h p ∧ h.Readable s) :
    Run.Meets (attachNamedChild (some p) (some s) (some i)) g S
      fun b h' => b = false → ∃ kids', Grown h h' kids' [i] := by
  refine Run.meets_iff.mpr ⟨fun b h' hRun hb => ?_, fun hS => ?_⟩
  · rcases (attachNamedChild_tries (some p) (some s) (some i)).post hRun hb with rfl | rfl
    · exact ⟨kids', hGrown⟩
    · exact ⟨kids', hGrown.tick⟩
  · obtain ⟨⟨kids, hWf⟩, hp, hs⟩ := hAdm hS
    obtain ⟨kids'', hWf', hp', hi⟩ := handed_new hWf hp hGrown
    have hs' : g.Readable s := hGrown.ext.readable hWf.bounded hs
    obtain ⟨m, hm⟩ := Option.isSome_iff_exists.mp hi.live
    by_cases hNamed : (g.text (some s)).isSome ∧ g.outcomes 0 = true
    · obtain ⟨k, hk⟩ := Option.isSome_iff_exists.mp hNamed.1
      obtain ⟨h', hRun, -⟩ := attachNamedChild_run hWf' hp' hi hs' hm hk hNamed.2
      exact ⟨true, h', hRun⟩
    · obtain ⟨h', hRun, -⟩ := attachNamedChild_fail (p := p) (i := i) hs' hNamed
      exact ⟨false, h', hRun⟩

theorem cjsonAddItemReferenceToObject_meets (hBounded : h.Bounded) (object name item : Ptr) :
    Run.Meets (cjsonAddItemReferenceToObject object name item) h
      (∃ kids, WellFormed 0 h kids ∧
        (Call.addItemReferenceToObject object name item).Admissible h kids)
      fun b h' => b = false → Unchanged h h' := by
  cases object with
  | none => exact Run.meets_pure fun _ => Unchanged.refl h
  | some p =>
    cases name with
    | none => exact Run.meets_pure fun _ => Unchanged.refl h
    | some s =>
      cases item with
      | none => exact Run.meets_pure fun _ => Unchanged.refl h
      | some i =>
        show Run.Meets (load (some p) >>= fun o => _) h _ _
        refine (load_meets fun hS => ?_).bind ?_
        · obtain ⟨kids, -, hAdm⟩ := hS
          obtain ⟨⟨-, n, hn, -⟩, -⟩ := hAdm p s i rfl rfl rfl
          rw [hn]
          rfl
        rintro n _ ⟨rfl, hn⟩
        refine Run.meets_ite (fun _ => Run.meets_pure fun _ => Unchanged.refl h) fun _ => ?_
        refine (wrapAsReference_meets hBounded fun ⟨kids, _, hAdm⟩ =>
          (hAdm p s i rfl rfl rfl).2.2).bind ?_
        rintro r g hBuilt
        cases r with
        | none => exact Run.meets_pure fun _ => Unchanged.of_built hBounded hBuilt
        | some r =>
          obtain ⟨kids', hGrown⟩ := hBuilt
          refine (attachNamedChild_new hGrown fun hS => ?_).bind ?_
          · obtain ⟨kids, hWf, hAdm⟩ := hS
            exact ⟨⟨kids, hWf⟩, (hAdm p s i rfl rfl rfl).1, (hAdm p s i rfl rfl rfl).2.1⟩
          intro attached g' hStill
          cases attached with
          | true => exact Run.meets_pure nofun
          | false =>
            obtain ⟨kids'', hGrown'⟩ := hStill rfl
            obtain ⟨h', hFree, hNone⟩ := hGrown'.free
            refine Run.meets_bind_of_run hFree (Run.meets_pure fun _ => ?_)
            exact Unchanged.of_built hBounded hNone

/-- A created member is added, or freed again. -/
theorem addToObject_meets (hBounded : h.Bounded) {object name : Ptr} (hBuilt : Built h q g)
    (hAdm : S → (∃ kids, WellFormed 0 h kids) ∧
      ∀ p s, object = some p → name = some s → Mutable 0 h p ∧ h.Readable s) :
    Run.Meets (addToObject object name q) g S fun r h' => r = none → Unchanged h h' := by
  cases q with
  | none => exact Run.meets_pure fun _ => Unchanged.of_built hBounded hBuilt
  | some i =>
    obtain ⟨kids', hGrown⟩ := hBuilt
    show Run.Meets (cjsonAddItemToObject object name (some i) >>= fun added => _) g S _
    refine Run.Meets.bind (Q := fun b h' => b = false → ∃ kids', Grown h h' kids' [i]) ?_ ?_
    · have hSame : ∃ kids', Grown h g kids' [i] := ⟨kids', hGrown⟩
      cases object with
      | none => exact Run.meets_pure fun _ => hSame
      | some p =>
        cases name with
        | none => exact Run.meets_pure fun _ => hSame
        | some s =>
          show Run.Meets (load (some p) >>= fun o => _) g S _
          refine (load_meets fun hS => ?_).bind ?_
          · obtain ⟨-, n, hn, -⟩ := ((hAdm hS).2 p s rfl rfl).1
            rw [hGrown.ext.node hBounded hn]
            rfl
          rintro n _ ⟨rfl, -⟩
          refine Run.meets_ite (fun _ => Run.meets_pure fun _ => hSame) fun _ => ?_
          exact attachNamedChild_new hGrown fun hS => ⟨(hAdm hS).1, (hAdm hS).2 p s rfl rfl⟩
    · intro added g' hStill
      cases added with
      | true => exact Run.meets_pure nofun
      | false =>
        obtain ⟨kids'', hGrown'⟩ := hStill rfl
        obtain ⟨h', hFree, hNone⟩ := hGrown'.free
        refine Run.meets_bind_of_run hFree (Run.meets_pure fun _ => ?_)
        exact Unchanged.of_built hBounded hNone

/-! ## Texts -/

theorem cjsonSetValuestring_meets (object valuestring : Ptr) :
    Run.Meets (cjsonSetValuestring object valuestring) h
      (∀ a s, object = some a → valuestring = some s → (h.nodes a).isSome ∧ h.Readable s)
      fun r h' => r = none → Unchanged h h' := by
  cases object with
  | none => exact Run.meets_pure fun _ => Unchanged.refl h
  | some a =>
    cases valuestring with
    | none => exact Run.meets_pure fun _ => Unchanged.refl h
    | some s =>
      show Run.Meets (load (some a) >>= fun o => _) h _ _
      refine (load_meets fun hS => (hS a s rfl rfl).1).bind ?_
      rintro n _ ⟨rfl, hn⟩
      refine Run.meets_ite (fun _ => Run.meets_pure fun _ => Unchanged.refl h) fun _ => ?_
      refine (loadStr_meets fun hS => (hS a s rfl rfl).2).bind ?_
      rintro r _ ⟨rfl, -⟩
      cases r with
      | none => exact Run.meets_pure fun _ => Unchanged.refl h
      | some str =>
        have hAlloc := allocCstr_run str h
        by_cases hYes : h.outcomes 0 = true
        · rw [if_pos hYes] at hAlloc
          have hn₁ : (h.tick.pushBuf (encode str ++ [0])).nodes a = some n := hn
          refine Run.meets_bind_of_run hAlloc (Run.meets_bind_of_run (load_run hn₁) ?_)
          refine Run.meets_bind_of_run (hookFree_run _) ?_
          have hn₂ : ((h.tick.pushBuf (encode str ++ [0])).freeAll
              (n.valuestring.toList.map .buf)).nodes a = some n := by
            rw [nodes_freeTexts]
            exact hn
          exact Run.meets_bind_of_run (store_run hn₂ _) (Run.meets_pure nofun)
        · rw [if_neg hYes] at hAlloc
          exact Run.meets_bind_of_run hAlloc (Run.meets_pure fun _ => ⟨rfl, rfl, rfl⟩)

/-! ## All calls -/

/-- A call that returns a pointer. -/
theorem atomic_item {x : M Ptr} (hx : Run.Meets x h S fun q h' => Atomic h (.item q) h') :
    Run.Meets (Reply.item <$> x) h S (Atomic h) := hx.map

theorem atomic_bool {x : M Bool} (hx : Run.Meets x h S fun b h' => b = false → Unchanged h h') :
    Run.Meets (Reply.flag <$> x) h S (Atomic h) :=
  (hx.mono id fun _ _ hb hFailed => hb (Reply.failed_flag.mp hFailed)).map

namespace Call

/-- A failed call changes nothing; an admissible call on a well-formed heap returns. -/
theorem run_meets (c : Call) (hBounded : h.Bounded) :
    Run.Meets (c.run std) h (∃ kids, WellFormed 0 h kids ∧ c.Admissible h kids) (Atomic h) := by
  have hIn : ∀ {P : (Addr → List Addr) → Prop} {A : Prop}, (∃ kids, P kids ∧ A) → A :=
    fun ⟨_, _, hA⟩ => hA
  have hOut : ∀ (r : Parsed) h', Parses h r.item h' → Atomic h (.item r.item) h' :=
    fun r h' hParses => hParses.atomic hBounded
  cases c with
  | parse value =>
    rw [run, cjsonParse_eq_opts]
    refine .map (.map ?_)
    exact (cjsonParseWithOpts_meets hBounded value false 1).mono hIn hOut
  | parseWithLength value len =>
    rw [run, cjsonParseWithLength_eq_opts]
    refine .map (.map ?_)
    exact (cjsonParseWithLengthOpts_meets hBounded value len false 1).mono hIn hOut
  | parseWithOpts value wantEnd strict =>
    exact ((cjsonParseWithOpts_meets hBounded value wantEnd strict).mono hIn hOut).map
  | parseWithLengthOpts value len wantEnd strict =>
    exact ((cjsonParseWithLengthOpts_meets hBounded value len wantEnd strict).mono hIn hOut).map
  | create c =>
    exact ((c.run_meets hBounded).mono hIn fun q h' => atomic_built hBounded).map
  | duplicate item recurse =>
    refine atomic_item ((duplicate_copies hBounded item (recurse ≠ 0)).mono ?_
      fun q h' => atomic_built hBounded)
    rintro ⟨kids, -, hAdm⟩ a rfl
    obtain ⟨⟨n, l, hn, hl⟩, hTree⟩ := hAdm a rfl
    by_cases hRec : recurse ≠ 0
    · obtain ⟨t, ht⟩ := hTree hRec
      rw [decide_eq_true hRec]
      exact ht.copyable hBounded
    · rw [decide_eq_false hRec]
      exact ⟨Nat.succ_pos _, n, l, [], hn, hl, nofun⟩
  | edit e =>
    refine Run.meets_iff.mpr ⟨fun r h' hRun => (e.atomic).post hRun, ?_⟩
    rintro ⟨kids, hWf, hAdm⟩
    obtain ⟨r, h', hRun, -⟩ := Edit.refines e hWf hAdm
    exact ⟨r, h', hRun⟩
  | addItemReferenceToArray array item =>
    exact atomic_bool (cjsonAddItemReferenceToArray_meets hBounded array item)
  | addItemReferenceToObject object name item =>
    exact atomic_bool (cjsonAddItemReferenceToObject_meets hBounded object name item)
  | addToObject object name m =>
    refine atomic_item ?_
    rw [Member.run_eq]
    refine ((m.construct.run_meets hBounded).weaken ?_).bind fun q g hBuilt => ?_
    · exact fun ⟨kids, _, hAdm⟩ => hAdm.1
    · refine (addToObject_meets hBounded hBuilt ?_).mono id ?_
      · exact fun ⟨kids, hWf, hAdm⟩ => ⟨⟨kids, hWf⟩, hAdm.2⟩
      · exact fun r h' hr hFailed => hr (Reply.failed_item.mp hFailed)
  | setValuestring object valuestring =>
    refine atomic_item ((cjsonSetValuestring_meets object valuestring).mono ?_ ?_)
    · exact fun ⟨kids, _, hAdm⟩ => hAdm
    · exact fun r h' hr hFailed => hr (Reply.failed_item.mp hFailed)
  | delete item =>
    refine ((meets_any _ ?_).mono id fun _ h' _ hFailed => ?_).map
    · rintro ⟨kids, hWf, hAdm⟩
      cases item with
      | none => exact ⟨(), h, rfl⟩
      | some a =>
        obtain ⟨n, hn⟩ := Option.isSome_iff_exists.mp (hAdm a rfl).1
        obtain ⟨V, hV⟩ := exists_subtree hWf.trees (Nat.zero_le a) hn
        exact ⟨(), _, freeCjson_run hWf.bounded hV⟩
    · exact absurd hFailed Reply.failed_done

/-- Whatever call fails, for whatever reason and with whatever answers of the allocator, the
nodes and buffers are those before the call, and none was freed wrongly: what the call had
allocated is freed again. On a well-formed heap an admissible call does return. -/
theorem failure_atomic (c : Call) (hBounded : h.Bounded) :
    (∀ r h', c.run std h = .ok (r, h') → r = .item none ∨ r = .flag false →
      h'.nodes = h.nodes ∧ h'.bufs = h.bufs ∧ h'.misuses = h.misuses) ∧
    ∀ kids, WellFormed 0 h kids → c.Admissible h kids → ∃ r h', c.run std h = .ok (r, h') := by
  have hCall : Run.Meets (c.run std) h _ (Atomic h) := c.run_meets hBounded
  obtain ⟨hAtomic, hReturns⟩ := Run.meets_iff.mp hCall
  refine ⟨fun r h' hRun hFailed => ?_, fun kids hWf hAdm => hReturns ⟨kids, hWf, hAdm⟩⟩
  obtain ⟨hNodes, hBufs, hMisuses⟩ := hAtomic r h' hRun hFailed
  exact ⟨hNodes, hBufs, hMisuses⟩

/-- A heap with nothing on it, whose allocator answers twice. -/
def twice : Heap where
  nodes _ := none
  bufs _ := none
  brk := 0
  outcomes n := n < 2
  misuses := []
  lastError := none

/-- The array and its first item are built and freed again when the second one fails. -/
theorem failure_atomic_twice :
    ∃ h', (create (.doubleArray (some [⟨0⟩, ⟨0⟩]) 2)).run ⟨fun _ => none, fun _ => []⟩ twice
        = .ok (.item none, h') ∧
      h'.nodes = twice.nodes ∧ h'.bufs = twice.bufs ∧ h'.misuses = twice.misuses := by
  have hBounded : twice.Bounded := ⟨fun _ => rfl, fun _ => rfl⟩
  have hRun : ∃ h', (create (.doubleArray (some [⟨0⟩, ⟨0⟩]) 2)).run ⟨fun _ => none, fun _ => []⟩
      twice = .ok (.item none, h') := ⟨_, rfl⟩
  obtain ⟨h', hRun⟩ := hRun
  exact ⟨h', hRun, (failure_atomic _ hBounded).1 _ h' hRun (Or.inl rfl)⟩

end Call

end CjsonRs.Ffi
