import CjsonRs.Ffi.Editing

/-!
# New documents

What a call builds on a heap that portrays documents is a document next to them: the tree that the
call says, on nodes that had no label before. When an allocation fails nothing has changed.
-/

namespace CjsonRs.Ffi

open CjsonRs.Core Library Library.Link Library.Forest

variable {h h' g : Heap} {a b i p s x : Addr} {n m : CNode} {q name : Ptr} {k : Str} {x' : M Ptr}
  {kids : Addr → List Addr} {D : Documents} {t : CTree} {u : Rose Content} {v : Value}
  {std : StdF64}

/-! ## Blocks -/

/-- A tree is built from as many blocks as the readers see. -/
theorem blocks_view :
    (∀ u, (view u).blocks = blocksIn u) ∧
    ∀ us, CTree.blocksList (seenAll (Rose.mapAll Content.cut us))
      = Rose.totalList Content.blocks us := by
  have hText : ∀ text : Option (List UInt8),
      (text.map cstr).toList.length = text.toList.length := by
    intro text
    cases text <;> rfl
  apply Rose.induct
  · intro c us ih
    rw [view, Rose.map, seen, CTree.blocks, ih, blocksIn, Rose.total, Content.blocks]
    simp only [Content.seen, Content.cut, hText]
  · rfl
  · intro u us ihU ihUs
    rw [Rose.mapAll, seenAll, CTree.blocksList, Rose.totalList, ihUs]
    exact congrArg (· + _) ihU

/-! ## A tree next to others -/

/-- The nodes of a tree that is shown wear labels. -/
theorem wears_of_shows :
    (∀ t a, Shows h kids a t → ∀ x, Below kids a x → ∃ l, Wears h x l) ∧
    ∀ ts as, ShowsAll h kids as ts → ∀ b ∈ as, ∀ x, Below kids b x → ∃ l, Wears h x l := by
  apply CTree.induct
  · intro l ts ih a ⟨⟨n, hn, hRef, hl⟩, hTs⟩ x hx
    rcases below_iff.mp hx with hEq | ⟨b, hb, hBelow⟩
    · rw [hEq]
      exact ⟨some l, (wears_some hn).mpr ⟨hRef, l, rfl, hl⟩⟩
    · exact ih (kids a) hTs b hb x hBelow
  · intro as hNil b hb
    rw [show as = [] from hNil] at hb
    cases hb
  · intro t ts ihT ihTs as ⟨a, as', hEq, ht, hTs⟩ b hb
    rw [hEq] at hb
    rcases List.mem_cons.mp hb with hHead | hb
    · rw [hHead]
      exact ihT a ht
    · exact ihTs as' hTs b hb

/-- A text that a node uses is live. -/
theorem Labelled.uses {l : Label} (hl : Labelled h n l) (hs : n.Uses s) :
    ∃ b, h.bufs s = some b := by
  rcases hs with hs | hs
  · have hText := hl.valuestring
    rw [hs] at hText
    obtain ⟨b, hb, -⟩ := hText
    exact ⟨b, hb⟩
  · have hText := hl.string
    rw [hs] at hText
    obtain ⟨b, hb, -⟩ := hText
    exact ⟨b, hb⟩

/-- What was there before keeps its labels. -/
theorem Depicts.extends {L : Addr → Option Label} (hDepicts : Depicts h L) (hBounded : h.Bounded)
    (hExt : Extends h h') (hx : x < h.brk) : Wears h' x (L x) := by
  apply (hDepicts x).of_bare (bare_of_nodes (hExt.nodes hx))
  intro n s hn hs
  obtain ⟨-, l, -, hl⟩ := hDepicts.node hn
  obtain ⟨b, hb⟩ := hl.uses hs
  exact hExt.bufs (hBounded.lt_buf hb)

theorem Represents.childless {N : Addr} (hRep : Represents N h kids) (hNone : h.nodes x = none) :
    kids x = [] := by
  apply List.eq_nil_iff_forall_not_mem.mpr
  intro c hc
  obtain ⟨-, -, n, hn, -⟩ := hRep.parent hc
  rw [hNone] at hn
  cases hn

theorem Formed.gone (hFormed : Formed h h' kids a u) (hx : ¬ x < h.brk)
    (hNot : ¬ Below kids a x) : h'.nodes x = none := by
  cases hn : h'.nodes x with
  | none => rfl
  | some n =>
    apply absurd _ hNot
    exact hFormed.below_iff_new.mpr ⟨Nat.le_of_not_lt hx, by rw [hn]; rfl⟩

namespace Portrays

theorem fresh (hP : Portrays h D) (hx : h.brk ≤ x) : D.label x = none ∧ D.children x = [] := by
  have hNone := hP.sound.wf.bounded.nodes hx
  exact ⟨(wears_none hNone).mp (hP.depicts x), hP.sound.wf.trees.childless hNone⟩

theorem same (hP : Portrays h D) (hBounded : h'.Bounded) (hNodes : h'.nodes = h.nodes)
    (hBufs : h'.bufs = h.bufs) : Portrays h' D := by
  refine ⟨hP.sound.of_nodes hBounded hNodes hBufs, hP.depicts.of_bare (fun x => ?_) hBufs⟩
  exact bare_of_nodes (congrFun hNodes x)

/-- A new tree is a new document. -/
theorem planted (hP : Portrays h D) (hFormed : Formed h h' kids a u) :
    ∃ D', Portrays h' D' ∧ D.Plants a (view u) D' := by
  have hExt := hFormed.grown.ext
  have hBounded := hP.sound.wf.bounded
  have hIn := hP.sound.wf.trees.inside hBounded
  have hOut := hFormed.grown.sound.wf.trees.outside
  have hKids : ∀ p, Below kids a p → joinAt h.brk D.children kids p = kids p := fun p hp =>
    if_neg (Nat.not_lt.mpr (hFormed.above hp))
  have hBelow : ∀ x, Below (joinAt h.brk D.children kids) a x ↔ Below kids a x := fun x =>
    below_congr hKids
  have hOld : ∀ x, x < h.brk → Wears h' x (D.label x) := fun x =>
    hP.depicts.extends hBounded hExt
  have hGone : ∀ x, ¬ x < h.brk → ¬ Below kids a x → h'.nodes x = none := fun x =>
    hFormed.gone
  have hWears : ∀ x, ∃ l, Wears h' x l := by
    intro x
    by_cases hx : x < h.brk
    · exact ⟨D.label x, hOld x hx⟩
    by_cases hNew : Below kids a x
    · exact wears_of_shows.1 (view u) a hFormed.planted.shows x hNew
    · exact ⟨none, (wears_none (hGone x hx hNew)).mpr rfl⟩
  have hDepicts : Depicts h' h'.label := by
    intro x
    obtain ⟨l, hl⟩ := hWears x
    rw [hl.label]
    exact hl
  refine ⟨⟨h'.label, joinAt h.brk D.children kids⟩,
    ⟨hP.sound.join hExt (Nat.zero_le _) hFormed.grown.sound, hDepicts⟩, ?_, ?_, ?_, ?_⟩
  · apply (tree_of_shows hDepicts).1
    apply shows_of_bears.1
    apply (bears_frame fun s b hs => hs).1 u a hFormed.bears
    exact fun x hx => ⟨rfl, hKids x hx⟩
  · intro y hy
    rcases (mem_join hIn hOut).mp hy with hy | hy
    · exact absurd (hIn y a hy).2 (Nat.not_lt.mpr hFormed.root.1)
    · exact hFormed.root.2.2 y hy
  · intro x hx
    exact (hP.fresh (hFormed.above ((hBelow x).mp hx))).1
  · intro x hx
    by_cases hLt : x < h.brk
    · exact ⟨(hOld x hLt).label, if_pos hLt⟩
    · have hNone := hGone x hLt fun hIs => hx ((hBelow x).mpr hIs)
      obtain ⟨hLabel, hChildren⟩ := hP.fresh (Nat.le_of_not_lt hLt)
      rw [hLabel, hChildren]
      refine ⟨((wears_none hNone).mpr rfl : Wears h' x none).label, ?_⟩
      have hKidsX : joinAt h.brk D.children kids x = kids x := if_neg hLt
      exact hKidsX.trans (hFormed.grown.sound.wf.trees.childless hNone)

/-- Nothing was built. -/
theorem unchanged (hP : Portrays h D) (hBuilt : Built h none h') :
    Portrays h' D ∧ h'.misuses = h.misuses := by
  obtain ⟨kids, hGrown⟩ := hBuilt
  obtain ⟨hNodes, hBufs, hMisuses⟩ := hGrown.unchanged hP.sound.wf.bounded
  exact ⟨hP.same hGrown.bounded hNodes hBufs, hMisuses⟩

end Portrays

/-- The call returns, and the documents gain the tree or nothing. The rest of the heap stays, and
there was one allocation for every block of the tree. -/
def Documents.Grows (D : Documents) (x : M Ptr) (h : Heap) (t : Option CTree) : Prop :=
  ∃ q h' D', x h = .ok (q, h') ∧ h'.misuses = h.misuses ∧ Portrays h' D' ∧ D.Gains h t q D' ∧
    ∀ u, q.isSome → t = some u → Extends h h' ∧ Spent h h' u.blocks

theorem Portrays.forms {y : M Ptr} (hP : Portrays h D) (hForms : Forms y h u) :
    D.Grows y h (some (view u)) := by
  rcases hForms with ⟨hPlenty, q, h', hRun, hSpent, a, kids, rfl, hFormed⟩ |
    ⟨hNo, q, h', hRun, rfl, hNone⟩
  · obtain ⟨D', hP', hPlants⟩ := hP.planted hFormed
    have hBlocks := blocks_view.1 u
    refine ⟨some a, h', D', hRun, hFormed.grown.ext.misuses, hP', Or.inr ?_, ?_⟩
    · refine ⟨a, view u, rfl, rfl, ?_, hPlants⟩
      rw [hBlocks]
      exact hPlenty
    · intro t _ ht
      cases ht
      rw [hBlocks]
      exact ⟨hFormed.grown.ext, hSpent⟩
  · obtain ⟨hP', hMisuses⟩ := hP.unchanged hNone
    refine ⟨none, h', D, hRun, hMisuses, hP', Or.inl ⟨rfl, rfl, fun t ht => ?_⟩, ?_⟩
    · cases ht
      rw [blocks_view.1]
      exact hNo
    · intro t hSome
      cases hSome

theorem Portrays.refused {y : M Ptr} (hP : Portrays h D) (hRun : y h = .ok (none, h'))
    (hBuilt : Built h none h') : D.Grows y h none := by
  obtain ⟨hP', hMisuses⟩ := hP.unchanged hBuilt
  refine ⟨none, h', D, hRun, hMisuses, hP', Or.inl ⟨rfl, rfl, fun t ht => ?_⟩, ?_⟩
  · cases ht
  · intro t hSome
    cases hSome

/-! ## Constructors -/

section Refused

variable {T : Type} {h₀ : Heap} {mk : T → M Ptr} {P : T → Prop} {S : Prop}

/-- An item that cannot be made ends the loop of a typed array. -/
theorem fillArray_refused (hFrom : Extends h₀ h)
    (hMk : ∀ v g, Extends h₀ g → g.Bounded → Run.Meets (mk v) g (P v) (Built g)) (count : Nat)
    (values : List T) (hBad : ∃ v ∈ values.take count, ∀ g, Extends h₀ g → mk v g = .ok (none, g))
    (hFilled : Filled h a true g) :
    Run.Meets (fillArray mk (some a) count values) g False fun q _ => q = none := by
  induction count generalizing g values with
  | zero =>
    obtain ⟨v, hv, -⟩ := hBad
    rw [List.take_zero] at hv
    cases hv
  | succ count ih =>
    cases values with
    | nil =>
      obtain ⟨v, hv, -⟩ := hBad
      cases hv
    | cons v values =>
      obtain ⟨kids, hGrown, hMutable⟩ := hFilled
      have hExt := hFrom.trans hGrown.ext
      rw [fillArray_succ]
      obtain ⟨w, hw, hNone⟩ := hBad
      rw [List.take_succ_cons] at hw
      rcases List.mem_cons.mp hw with hEq | hw
      · have hRun := hNone g hExt
        rw [hEq] at hRun
        refine Run.meets_bind_of_run hRun ?_
        obtain ⟨h', hFree, -⟩ := filled_free hGrown (built_none hGrown.bounded)
        exact Run.meets_bind_of_run hFree (Run.meets_pure rfl)
      · refine ((hMk v g hExt hGrown.bounded).weaken False.elim).bind fun item g' hBuilt => ?_
        obtain ⟨kids', hNew⟩ := hBuilt
        cases item with
        | none =>
          obtain ⟨h', hFree, -⟩ := filled_free hGrown ⟨kids', hNew⟩
          exact Run.meets_bind_of_run hFree (Run.meets_pure rfl)
        | some i =>
          obtain ⟨h', hRun, hFilled'⟩ := filled_attach hGrown (hMutable rfl) hNew
          exact Run.meets_bind_of_run hRun (ih values ⟨w, hw, hNone⟩ hFilled')

theorem createTypedArray_refused {values : List T} {count : Int} (hBounded : h.Bounded)
    (hMk : ∀ v g, Extends h g → g.Bounded → Run.Meets (mk v) g (P v) (Built g))
    (hBad : ∃ v ∈ values.take count.toNat, ∀ g, Extends h g → mk v g = .ok (none, g)) :
    Run.Meets (createTypedArray mk (some values) count) h False fun q _ => q = none := by
  rw [createTypedArray]
  refine Run.meets_ite (fun _ => Run.meets_pure rfl) fun _ => ?_
  have hRun := newNode_run cjsonArray h
  have hLeaf : Leaf { CNode.zeroed with type_ := cjsonArray } :=
    leaf_bare (Or.inr rfl) (Or.inr rfl) rfl rfl
  by_cases hYes : h.outcomes 0 = true
  · rw [if_pos hYes] at hRun
    refine Run.meets_bind_of_run hRun ?_
    apply fillArray_refused (Extends.refl h) hMk _ _ hBad
    have hRef : isReference cjsonArray = false := rfl
    exact ⟨_, grown_leaf hBounded hLeaf,
      fun _ => ⟨le_refl _, _, pushNode_self (h := h.tick), hRef⟩⟩
  · rw [if_neg hYes] at hRun
    exact Run.meets_bind_of_run hRun (Run.meets_pure rfl)

theorem createTypedArray_absent {values : Option (List T)} {count : Int}
    (hTaken : taken values count = none) : createTypedArray mk values count = pure none := by
  cases values with
  | none => rfl
  | some vs =>
    rw [taken] at hTaken
    split_ifs at hTaken with hNeg
    · exact if_pos hNeg
    · cases hTaken

end Refused

theorem exists_of_mapM_none {α β : Type} {f : α → Option β} {xs : List α}
    (hNone : xs.mapM f = none) : ∃ y ∈ xs, f y = none := by
  induction xs with
  | nil => cases hNone
  | cons y ys ih =>
    cases hy : f y with
    | none => exact ⟨y, List.mem_cons_self, hy⟩
    | some z =>
      cases hRest : ys.mapM f with
      | none =>
        obtain ⟨w, hw, hBad⟩ := ih hRest
        exact ⟨w, List.mem_cons_of_mem y hw, hBad⟩
      | some zs =>
        rw [List.mapM_cons, hy, hRest] at hNone
        cases hNone

theorem text_extends (hExt : Extends h g) (hBounded : h.Bounded)
    (hRead : Construct.ReadablePtr h q) : g.text q = h.text q := by
  cases q with
  | none => rfl
  | some s =>
    obtain ⟨b, hb, -⟩ := hRead s rfl
    simp only [Heap.text, Option.bind_eq_bind, Option.bind_some, hb,
      (hExt.bufs (hBounded.lt_buf hb)).trans hb]

/-- A string that is not there or not UTF-8 makes no node. -/
theorem createStringLike_refused {type : TypeWord} (hRead : Construct.ReadablePtr h q)
    (hText : h.text q = none) : createStringLike q type h = .ok (none, h) := by
  cases q with
  | none => rfl
  | some s =>
    show (loadStr (some s) >>= fun text => _) h = _
    rw [Run.bind_run_ok (loadStr_text (hRead s rfl)), hText]
    rfl

namespace Construct

/-- The constructors that make no reference. -/
def Plain : Construct → Prop
  | stringReference _ | objectReference _ | arrayReference _ => False
  | _ => True

theorem numericArray_grows {T : Type} {f : T → F64} {values : Option (List T)} {count : Int}
    (hP : Portrays h D) (hAdm : Counted (fun _ => True) values count) :
    D.Grows (createNumericArray values count f) h
      (((taken values count).map fun vs => .array (vs.map fun v => .number (f v))).map
        .ofValue) := by
  have hBounded := hP.sound.wf.bounded
  cases hTaken : taken values count with
  | none =>
    have hNone : createNumericArray values count f = pure none := createTypedArray_absent hTaken
    rw [hNone]
    exact hP.refused rfl (built_none hBounded)
  | some vs =>
    have hSame := createNumericArray_eq f hBounded hAdm hTaken
    rw [Option.map_some, Option.map_some, ← view_contentsOf]
    exact hP.forms ((forms_valueToCjson _ h hBounded).congr hSame)

theorem stringArray_grows {strings : Option (List Ptr)} {count : Int} (hP : Portrays h D)
    (hAdm : (stringArray strings count).Admissible h) :
    D.Grows (cjsonCreateStringArray strings count) h
      (((stringArray strings count).value h).map .ofValue) := by
  have hBounded := hP.sound.wf.bounded
  cases hTaken : taken strings count with
  | none =>
    have hNone : cjsonCreateStringArray strings count = pure none := createTypedArray_absent hTaken
    rw [value, hTaken, hNone]
    exact hP.refused rfl (built_none hBounded)
  | some vs =>
    cases hTexts : vs.mapM fun v => (h.text v).map Value.string with
    | some ws =>
      have hSame := createStringArray_eq hBounded hAdm hTaken hTexts
      have hValue : (stringArray strings count).value h = some (.array ws) := by
        rw [value, hTaken]
        simp only [Option.bind_eq_bind, Option.bind_some, hTexts]
        rfl
      rw [hValue, Option.map_some, ← view_contentsOf]
      exact hP.forms ((forms_valueToCjson _ h hBounded).congr hSame)
    | none =>
      have hValue : (stringArray strings count).value h = none := by
        rw [value, hTaken]
        simp only [Option.bind_eq_bind, Option.bind_some, hTexts]
        rfl
      rw [hValue]
      obtain ⟨hNat, all, rfl, rfl⟩ := taken_eq_some hTaken
      obtain ⟨v, hv, hText⟩ := exists_of_mapM_none hTexts
      have hRead := (hAdm all rfl).2 v hv
      have hMk : ∀ v g, Extends h g → g.Bounded →
          Run.Meets (createStringLike v cjsonString) g (ReadablePtr h v) (Built g) := by
        intro v g hExt hg
        refine createStringLike_meets hg rfl rfl v fun hS y hy => ?_
        exact hExt.readable hBounded (hS y hy)
      have hRefused := createTypedArray_refused hBounded hMk ⟨v, hv, fun g hExt => ?_⟩
      · obtain ⟨q, h', hRun, hBuilt⟩ := ((stringArray (some all) count).run_meets hBounded).returns
          hAdm
        have hNone : q = none := hRefused.post hRun
        rw [hNone] at hRun hBuilt
        exact hP.refused hRun hBuilt
      · apply createStringLike_refused
        · exact fun y hy => hExt.readable hBounded (hRead y hy)
        · rw [text_extends hExt hBounded hRead]
          exact Option.map_eq_none_iff.mp hText

theorem string_grows {type : TypeWord} (hP : Portrays h D) (hRef : isReference type = Bool.false)
    (hConst : isConst type = Bool.false) (hRead : ReadablePtr h q) :
    D.Grows (createStringLike q type) h
      ((h.text q).map fun k => .node ⟨tag type, copied k, ⟨0⟩, none⟩ []) := by
  have hBounded := hP.sound.wf.bounded
  cases hText : h.text q with
  | none => exact hP.refused (createStringLike_refused hRead hText) (built_none hBounded)
  | some k =>
    cases q with
    | none => cases hText
    | some s =>
      have hForms := forms_text hBounded hRef hConst k
      have hSame : createStringLike (some s) type h = _ :=
        Run.bind_run_ok ((loadStr_text (hRead s rfl)).trans (by rw [hText]))
      rw [Option.map_some, ← cut_encode]
      exact hP.forms (hForms.congr hSame)

/-- A constructor makes its tree. -/
theorem grows (c : Construct) (hP : Portrays h D) (hAdm : c.Admissible h) (hPlain : c.Plain) :
    D.Grows c.run h (c.tree h) := by
  have hBounded := hP.sound.wf.bounded
  have hNode : ∀ {type : TypeWord} {v : Value},
      isReference type = Bool.false → isConst type = Bool.false →
      contentsOf v = .node (Ffi.plain type) [] → D.Grows (newNode type) h (some (.ofValue v)) := by
    intro type v hRef hConst hContents
    rw [← view_contentsOf, hContents]
    exact hP.forms (forms_newNode hBounded hRef hConst)
  cases c with
  | null => exact hNode rfl rfl rfl
  | true => exact hNode rfl rfl rfl
  | false => exact hNode rfl rfl rfl
  | bool b =>
    by_cases hb : b ≠ 0
    · have hTrue : D.Grows (newNode cjsonTrue) h (some (.ofValue (.bool Bool.true))) :=
        hNode rfl rfl rfl
      simpa [run, cjsonCreateBool, tree, hb] using hTrue
    · have hFalse : D.Grows (newNode cjsonFalse) h (some (.ofValue (.bool Bool.false))) :=
        hNode rfl rfl rfl
      simpa [run, cjsonCreateBool, tree, hb] using hFalse
  | number num =>
    have hForms := hP.forms (forms_newNumber hBounded num)
    rw [view_contentsOf] at hForms
    exact hForms
  | string s => exact string_grows hP rfl rfl hAdm
  | raw s => exact string_grows hP rfl rfl hAdm
  | array => exact hNode rfl rfl rfl
  | object => exact hNode rfl rfl rfl
  | intArray numbers count => exact numericArray_grows hP hAdm
  | floatArray numbers count => exact numericArray_grows hP hAdm
  | doubleArray numbers count =>
    have hSame : ∀ vs : List F64, (vs.map fun v => Value.number (id v)) = vs.map .number :=
      fun _ => rfl
    have hGrows := numericArray_grows (f := id) hP hAdm
    simp only [hSame] at hGrows
    exact hGrows
  | stringArray strings count => exact stringArray_grows hP hAdm
  | stringReference s => exact hPlain.elim
  | objectReference child => exact hPlain.elim
  | arrayReference child => exact hPlain.elim

end Construct

end CjsonRs.Ffi
