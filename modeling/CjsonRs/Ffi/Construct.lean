import CjsonRs.Ffi.FromValue

/-!
# Constructors

Every constructor of the interface, on every heap and with every argument, either builds one
tree on new blocks or returns `NULL` and leaves nothing behind. It returns when the texts and
arrays that it is given can be read.
-/

namespace CjsonRs.Ffi

open CjsonRs.Core Library Library.Link Library.Forest

variable {h h₀ h' g g' : Heap} {a s : Addr} {n m : CNode} {q : Ptr} {S : Prop}
  {kids kids' : Addr → List Addr} {roots : List Addr} {t : CTree} {α T : Type}

/-! ## More in use -/

namespace Extends

theorem node (hExt : Extends h g) (hBounded : h.Bounded) (hn : h.nodes a = some n) :
    g.nodes a = some n := (hExt.nodes (hBounded.lt hn)).trans hn

theorem readable (hExt : Extends h g) (hBounded : h.Bounded) (hs : h.Readable s) :
    g.Readable s := by
  obtain ⟨b, hb, hNul⟩ := hs
  exact ⟨b, (hExt.bufs (hBounded.lt_buf hb)).trans hb, hNul⟩

end Extends

/-! ## Reading -/

theorem load_meets (hLive : S → (h.nodes a).isSome) :
    Run.Meets (load (some a)) h S fun n h' => h = h' ∧ h.nodes a = some n := by
  cases hn : h.nodes a with
  | none =>
    refine Run.meets_fault (e := .dangling a) (by simp only [load, hn]) fun hS => ?_
    have hSome := hLive hS
    rw [hn] at hSome
    cases hSome
  | some n => exact Run.meets_of_run (load_run hn) ⟨rfl, rfl⟩

theorem loadStr_meets (hRead : S → h.Readable s) :
    Run.Meets (loadStr (some s)) h S fun r h' => h = h' ∧ h.text (some s) = r := by
  refine Run.meets_iff.mpr ⟨fun r h' hRun => ?_, fun hS => ?_⟩
  · obtain ⟨s', b, hEq, hb, -, rfl, rfl⟩ := loadStr_eq_ok hRun
    cases hEq
    exact ⟨rfl, by simp [Heap.text, hb]⟩
  · exact ⟨_, _, loadStr_text (hRead hS)⟩

/-! ## New nodes -/

theorem built_none (hBounded : h.Bounded) : Built h none h := ⟨_, Grown.refl hBounded⟩

theorem built_tick (hBounded : h.Bounded) : Built h none h.tick := ⟨_, (Grown.refl hBounded).tick⟩

/-- A call that fills one new node. -/
theorem built_push {x : M Ptr} (hBounded : h.Bounded)
    (hRun : x h = if h.outcomes 0 then .ok (some h.brk, h.tick.pushNode n) else .ok (none, h.tick))
    (hLeaf : Leaf n) : Run.Meets x h S (Built h) := by
  by_cases hYes : h.outcomes 0 = true
  · rw [if_pos hYes] at hRun
    exact Run.meets_of_run hRun ⟨_, grown_leaf hBounded hLeaf⟩
  · rw [if_neg hYes] at hRun
    exact Run.meets_of_run hRun (built_tick hBounded)

/-- A node without a key, with no text and no children unless it is a reference. -/
theorem leaf_bare (hValue : n.isRef = true ∨ n.valuestring = none)
    (hChild : n.isRef = true ∨ n.child = none) (hConst : n.constKey = false)
    (hString : n.string = none) : Leaf n where
  texts := by
    have hOwn : n.ownValue = none := by
      rw [CNode.ownValue]
      rcases hValue with hRef | hNone
      · rw [if_pos hRef]
      · rw [hNone, ite_self]
    rw [CNode.texts, hOwn, CNode.ownKey, hString, ite_self]
    rfl
  key := hConst
  child := hChild

theorem newNode_meets (hBounded : h.Bounded) {type : TypeWord} (hConst : isConst type = false) :
    Run.Meets (newNode type) h S (Built h) :=
  built_push hBounded (newNode_run type h) (leaf_bare (Or.inr rfl) (Or.inr rfl) hConst rfl)

theorem Forms.meets {x : M Ptr} {u : Rose Content} (hForms : Forms x h u) :
    Run.Meets x h S (Built h) := by
  rcases hForms with ⟨-, q, h', hRun, -, a, kids, hq, hFormed⟩ | ⟨-, q, h', hRun, hq, hNone⟩
  · subst hq
    exact Run.meets_of_run hRun ⟨kids, hFormed.grown⟩
  · subst hq
    exact Run.meets_of_run hRun hNone

theorem newNumber_meets (hBounded : h.Bounded) (num : F64) :
    Run.Meets (newNumber num) h S (Built h) := (forms_newNumber hBounded num).meets

/-- What `newNode` leaves is filled in by further writes. -/
theorem newNode_fill {type : TypeWord} {f : Ptr → M Ptr} (fill : CNode → CNode)
    (hFill : ∀ m, f (some h.brk) (h.tick.pushNode m) = .ok (some h.brk, h.tick.pushNode (fill m))) :
    (do
      let node ← newNode type
      if node.isNone then
        return none
      f node : M Ptr) h = if h.outcomes 0 then
        .ok (some h.brk, h.tick.pushNode (fill { CNode.zeroed with type_ := type }))
      else .ok (none, h.tick) := by
  have hRun := newNode_run type h
  by_cases hYes : h.outcomes 0 = true
  · rw [if_pos hYes] at hRun ⊢
    rw [Run.bind_run_ok hRun]
    exact hFill _
  · rw [if_neg hYes] at hRun ⊢
    rw [Run.bind_run_ok hRun]
    rfl

theorem leaf_reference (hRef : n.isRef = true) (hConst : n.constKey = false)
    (hString : n.string = none) : Leaf n :=
  leaf_bare (Or.inl hRef) (Or.inl hRef) hConst hString

theorem cjsonCreateStringReference_meets (hBounded : h.Bounded) (s : Ptr) :
    Run.Meets (cjsonCreateStringReference s) h S (Built h) := by
  rw [cjsonCreateStringReference]
  refine Run.meets_ite (fun _ => Run.meets_pure (built_none hBounded)) fun _ => ?_
  refine built_push hBounded (newNode_fill ({ · with valuestring := s }) fun m => ?_) ?_
  · rw [Run.bind_run_ok (store_pushNode _)]
    rfl
  · have hType : isReference (cjsonString ||| cjsonIsReference) = true := rfl
    have hConst : isConst (cjsonString ||| cjsonIsReference) = false := rfl
    exact leaf_reference hType hConst rfl

theorem createContainerReference_meets (hBounded : h.Bounded) {type : TypeWord}
    (hRef : isReference (type ||| cjsonIsReference) = true)
    (hConst : isConst (type ||| cjsonIsReference) = false) (child : Ptr) :
    Run.Meets (createContainerReference type child) h S (Built h) := by
  refine built_push hBounded (newNode_fill ({ · with child := child }) fun m => ?_) ?_
  · rw [Run.bind_run_ok (store_pushNode _)]
    rfl
  · exact leaf_reference hRef hConst rfl

/-- The reference to a node. -/
def CNode.wrapped (n : CNode) : CNode :=
  { CNode.zeroed with
    type_ := asReference n.type_
    valuestring := n.valuestring
    valueint := n.valueint
    valuedouble := n.valuedouble
    child := n.child }

theorem leaf_wrapped (n : CNode) : Leaf n.wrapped :=
  leaf_reference (isReference_asReference n.type_) (isConst_asReference n.type_) rfl

theorem wrapAsReference_meets (hBounded : h.Bounded) (hLive : S → (h.nodes a).isSome) :
    Run.Meets (wrapAsReference (some a)) h S (Built h) := by
  refine (load_meets hLive).bind ?_
  rintro n _ ⟨rfl, -⟩
  refine built_push hBounded (n := n.wrapped) ?_ (leaf_wrapped n)
  refine newNode_fill (fun m => { m with
    valuestring := n.valuestring
    valueint := n.valueint
    valuedouble := n.valuedouble
    child := n.child }) fun m => ?_
  rw [Run.bind_run_ok (store_pushNode _), Run.bind_run_ok (store_pushNode _),
    Run.bind_run_ok (store_pushNode _), Run.bind_run_ok (store_pushNode _)]
  rfl

theorem createStringLike_meets (hBounded : h.Bounded) {type : TypeWord}
    (hRef : isReference type = false) (hConst : isConst type = false) (s : Ptr)
    (hRead : S → ∀ x, s = some x → h.Readable x) :
    Run.Meets (createStringLike s type) h S (Built h) := by
  cases s with
  | none => exact Run.meets_pure (built_none hBounded)
  | some x =>
    show Run.Meets (loadStr (some x) >>= fun r => _) h S (Built h)
    refine (loadStr_meets fun hS => hRead hS x rfl).bind ?_
    rintro r _ ⟨rfl, -⟩
    cases r with
    | none => exact Run.meets_pure (built_none hBounded)
    | some str => exact (forms_text hBounded hRef hConst str).meets

/-! ## Filling a container -/

/-- The container `a` was built since `h` and can be filled, or it is gone. -/
def Filled (h : Heap) (a : Addr) (ok : Bool) (h' : Heap) : Prop :=
  ∃ kids, Grown h h' kids (if ok then [a] else []) ∧ (ok = true → Mutable h.brk h' a)

theorem Filled.ext {ok : Bool} (hFilled : Filled h a ok h') : Extends h h' := by
  obtain ⟨kids, hGrown, -⟩ := hFilled
  exact hGrown.ext

/-- A new tree is added to a new container. -/
theorem filled_attach (hGrown : Grown h g kids [a]) (ha : Mutable h.brk g a)
    (hNew : Grown g g' kids' [s]) :
    ∃ h', attachChild (some a) (some s) g' = .ok ((), h') ∧ Filled h a true h' := by
  obtain ⟨hN, n, hn, hRef⟩ := id ha
  have hBoth := hGrown.trans hNew
  have hn' : g'.nodes a = some n := hNew.ext.node hGrown.bounded hn
  have hne : a ≠ s := by
    rintro rfl
    exact absurd (hNew.root a (List.mem_singleton_self a)).1
      (Nat.not_le.mpr (hGrown.bounded.lt hn))
  have hHanded := hBoth.handed (i := s) (a := a) (by simp) (by simp) hne
  obtain ⟨h', hRun, hEdited⟩ := attach_run hBoth.sound.wf ⟨hN, n, hn', hRef⟩ hHanded
  refine ⟨h', hRun, _, hBoth.attach (by simp) hEdited fun x hx => ?_,
    fun _ => hEdited.mutable ⟨hN, n, hn', hRef⟩⟩
  rcases List.mem_append.mp hx with hx | hx
  · exact (hBoth.sound.wf.trees.parent hx).1
  · rw [List.mem_singleton.mp hx]
    exact hHanded.above

/-- A new tree could not be built, and the container is freed. -/
theorem filled_free (hGrown : Grown h g kids [a]) (hNone : Built g none g') :
    ∃ h', freeCjson (some a) g' = .ok ((), h') ∧ Filled h a false h' ∧ Built h none h' := by
  obtain ⟨kids', hGrown'⟩ := hNone
  obtain ⟨h', hRun, kids'', hGrown''⟩ := (hGrown.trans hGrown').free
  exact ⟨h', hRun, ⟨kids'', hGrown'', nofun⟩, kids'', hGrown''⟩

/-! ## Typed arrays -/

theorem fillArray_succ (mk : T → M Ptr) (arr : Ptr) (count : Nat) (v : T) (values : List T) :
    fillArray mk arr (count + 1) (v :: values) = (do
      let item ← mk v
      if item.isNone then
        freeCjson arr
        return none
      attachChild arr item
      fillArray mk arr count values) := rfl

/-- The loop of the typed arrays. -/
theorem fillArray_meets {mk : T → M Ptr} (hFrom : Extends h₀ h) {P : T → Prop}
    (hMk : ∀ v g, Extends h₀ g → g.Bounded → Run.Meets (mk v) g (P v) (Built g)) (count : Nat)
    (values : List T) (hFilled : Filled h a true g) :
    Run.Meets (fillArray mk (some a) count values) g
      (count ≤ values.length ∧ ∀ v ∈ values.take count, P v) (Built h) := by
  induction count generalizing g values with
  | zero =>
    obtain ⟨kids, hGrown, -⟩ := hFilled
    exact Run.meets_pure ⟨kids, hGrown⟩
  | succ count ih =>
    cases values with
    | nil => exact Run.meets_fault rfl fun hS => Nat.not_succ_le_zero count hS.1
    | cons v values =>
      obtain ⟨kids, hGrown, hMutable⟩ := hFilled
      rw [fillArray_succ]
      refine ((hMk v g (hFrom.trans hGrown.ext) hGrown.bounded).weaken fun hS => ?_).bind ?_
      · exact hS.2 v (by simp)
      rintro item g' ⟨kids', hNew⟩
      cases item with
      | none =>
        obtain ⟨h', hRun, -, hBuilt⟩ := filled_free hGrown ⟨kids', hNew⟩
        exact Run.meets_bind_of_run hRun (Run.meets_pure hBuilt)
      | some i =>
        obtain ⟨h', hRun, hFilled'⟩ := filled_attach hGrown (hMutable rfl) hNew
        refine Run.meets_bind_of_run hRun ((ih values hFilled').weaken fun hS => ?_)
        exact ⟨Nat.le_of_succ_le_succ hS.1, fun w hw => hS.2 w (List.mem_cons_of_mem v hw)⟩

/-- The caller's array is as long as its count says, and its elements can be read. -/
def Counted (P : T → Prop) (values : Option (List T)) (count : Int) : Prop :=
  ∀ vs, values = some vs → count.toNat ≤ vs.length ∧ ∀ v ∈ vs.take count.toNat, P v

theorem createTypedArray_meets {mk : T → M Ptr} (hBounded : h.Bounded) {P : T → Prop}
    (hMk : ∀ v g, Extends h g → g.Bounded → Run.Meets (mk v) g (P v) (Built g))
    (values : Option (List T)) (count : Int) :
    Run.Meets (createTypedArray mk values count) h (Counted P values count) (Built h) := by
  cases values with
  | none => exact Run.meets_pure (built_none hBounded)
  | some vs =>
    rw [createTypedArray]
    refine Run.meets_ite (fun _ => Run.meets_pure (built_none hBounded)) fun _ => ?_
    have hRun := newNode_run cjsonArray h
    have hLeaf : Leaf { CNode.zeroed with type_ := cjsonArray } :=
      leaf_bare (Or.inr rfl) (Or.inr rfl) rfl rfl
    by_cases hYes : h.outcomes 0 = true
    · rw [if_pos hYes] at hRun
      refine Run.meets_bind_of_run hRun ?_
      refine (fillArray_meets (Extends.refl h) hMk count.toNat vs ?_).weaken fun hS => hS vs rfl
      have hRef : isReference cjsonArray = false := rfl
      exact ⟨_, grown_leaf hBounded hLeaf,
        fun _ => ⟨le_refl _, _, pushNode_self (h := h.tick), hRef⟩⟩
    · rw [if_neg hYes] at hRun
      exact Run.meets_bind_of_run hRun (Run.meets_pure (built_tick hBounded))

end CjsonRs.Ffi
