import CjsonRs.Ffi.Detach
import CjsonRs.Ffi.Endings
import CjsonRs.Ffi.Separate

/-!
# Cycles

No call checks where the container lies that an item is added to. Adding a root makes a cycle just
when the container is the root or a node below it; otherwise the heap stays one of trees, in which
all walks end.
-/

namespace CjsonRs.Ffi

open CjsonRs.Core Library Library.Link Library.Forest

variable {h g : Heap} {a i p x y : Addr} {n m : CNode} {c q : Ptr} {kids : Addr → List Addr}
  {xs ys ks : List Addr} {b : Bool}

/-! ## Descendants -/

/-- `y` is found among the children of `x`. -/
def Child (h : Heap) (x y : Addr) : Prop :=
  ∃ n c, h.nodes x = some n ∧ n.child = some c ∧ Relation.ReflTransGen (Next h) c y

/-- No node is its own descendant. -/
def Acyclic (h : Heap) : Prop := ∀ x, ¬ Relation.TransGen (Child h) x x

/-- The children of the nodes are the lists `kids`, of a forest or not. -/
structure Linked (h : Heap) (kids : Addr → List Addr) : Prop where
  lists : ∀ a n, h.nodes a = some n → n.isRef = false → IsList h.link n.child (kids a)
  parent : ∀ a c, c ∈ kids a → ∃ n, h.nodes a = some n ∧ n.isRef = false

theorem child_iff (hLinked : Linked h kids) (hNo : NoReferences h) :
    Child h x y ↔ y ∈ kids x := by
  constructor
  · rintro ⟨n, c, hn, hc, hSteps⟩
    have hList := hLinked.lists x n hn (hNo x n hn)
    induction hSteps with
    | refl =>
      rw [hc] at hList
      obtain ⟨bs, hEq⟩ := hList.cons
      rw [hEq]
      exact List.mem_cons_self
    | tail _ hStep ih =>
      obtain ⟨m, hm, hNext⟩ := hStep
      exact next_mem hList ih hm hNext
  · intro hy
    obtain ⟨n, hn, hRef⟩ := hLinked.parent x y hy
    obtain ⟨c, hc, hSteps⟩ := next_of_path (hLinked.lists x n hn hRef).path hy
    exact ⟨n, c, hn, hc, hSteps⟩

theorem acyclic_iff (hLinked : Linked h kids) (hNo : NoReferences h) :
    Acyclic h ↔ ∀ x, ¬ Relation.TransGen (fun a c => c ∈ kids a) x x := by
  have hChild : Child h = fun a c => c ∈ kids a := by
    funext a c
    exact propext (child_iff hLinked hNo)
  rw [Acyclic, hChild]

/-! ## Adding an item -/

/-- The calls that add an item to a container. -/
inductive Adding where
  | itemToArray
  | itemToObject (name : Ptr)
  | itemToObjectCS (name : Ptr)
  | insertInArray (which : Int)

namespace Adding

/-- The call. -/
def run (container item : Ptr) : Adding → M Bool
  | itemToArray => cjsonAddItemToArray container item
  | itemToObject name => cjsonAddItemToObject container name item
  | itemToObjectCS name => cjsonAddItemToObjectCS container name item
  | insertInArray which => cjsonInsertItemInArray container which item

/-- The name that the call reads. -/
def reads : Adding → Ptr
  | itemToObject name => name
  | _ => none

end Adding

/-- The root `i` was put among the children of `p`, which are `ks` now. -/
structure Joined (g : Heap) (kids : Addr → List Addr) (p i : Addr) (ks : List Addr) : Prop where
  mem : ∀ k, k ∈ ks ↔ k = i ∨ k ∈ kids p
  nodup : ks.Nodup
  linked : Linked g (Function.update kids p ks)
  owned : NoReferences g
  bounded : g.Bounded

namespace Joined

theorem acyclic_iff (hJoined : Joined g kids p i ks) (hForest : IsForest kids)
    (hRoot : IsRoot kids i) : Acyclic g ↔ ¬ Below kids i p :=
  (Ffi.acyclic_iff hJoined.linked hJoined.owned).trans
    (hForest.graft_acyclic_iff hRoot hJoined.nodup hJoined.mem)

theorem wellFormed (hJoined : Joined g kids p i ks) (hForest : IsForest kids)
    (hRoot : IsRoot kids i) (hApart : ¬ Below kids i p) :
    WellFormed 0 g (Function.update kids p ks) := by
  have hForest' : IsForest (Function.update kids p ks) :=
    hForest.graft hRoot hApart hJoined.nodup fun k hk => (hJoined.mem k).mp hk
  refine ⟨hJoined.bounded, fun _ hn hRef => hJoined.linked.lists _ _ hn hRef, fun hc => ?_,
    hForest'⟩
  exact ⟨Nat.zero_le _, Nat.zero_le _, hJoined.linked.parent _ _ hc⟩

end Joined

/-- A splice of the root `i` into the list of `p`. -/
theorem joined_of_spliced (hWf : WellFormed 0 h kids) (hNo : NoReferences h)
    (hn : h.nodes p = some n) (hRoot : IsRoot kids i) (hEq : kids p = xs ++ ys)
    (hSpliced : Spliced h g p (xs ++ i :: ys) (xs ++ i :: ys))
    (hW : Rewritten h g g.link (setChild h.body p c)) : Joined g kids p i (xs ++ i :: ys) := by
  have hMem : ∀ k, k ∈ xs ++ i :: ys ↔ k = i ∨ k ∈ kids p := by
    intro k
    rw [hEq]
    simp only [List.mem_append, List.mem_cons]
    tauto
  have hNodup : (xs ++ i :: ys).Nodup := by
    rw [List.nodup_middle, List.nodup_cons, ← hEq]
    exact ⟨hRoot p, hWf.trees.forest.nodup p⟩
  have hTouched : ∀ k ∈ xs ++ i :: ys, k ∈ kids p ∨ IsRoot kids k := by
    intro k hk
    rcases (hMem k).mp hk with hki | hk
    · rw [hki]
      exact Or.inr hRoot
    · exact Or.inl hk
  obtain ⟨hLists, hParent⟩ := hWf.trees.splice_lists hSpliced (Nat.zero_le p) hn (hNo p n hn)
    hTouched fun k _ => Nat.zero_le k
  refine ⟨hMem, hNodup, ⟨fun a m hm => hLists a m (Nat.zero_le a) hm,
    fun a k hk => (hParent a k hk).2.2⟩, fun a m hm => ?_,
    hW.bounded hWf.bounded fun _ ha => setChild_eq_none ha⟩
  by_cases hap : a = p
  · obtain ⟨s, c', hs, hs', -⟩ := hSpliced.list
    rw [shape_eq hn, Option.some.injEq] at hs
    rw [← hap, shape_eq hm, ← hs, Option.some.injEq, CNode.shape, Prod.mk.injEq] at hs'
    rw [hs'.1]
    exact hNo p n hn
  · have hShape := hSpliced.shape a hap
    rw [shape_eq hm] at hShape
    obtain ⟨k, hk, hSame⟩ := Option.map_eq_some_iff.mp hShape.symm
    rw [CNode.shape, CNode.shape, Prod.mk.injEq] at hSame
    rw [← hSame.1]
    exact hNo a k hk

theorem attach_joins (hWf : WellFormed 0 h kids) (hNo : NoReferences h)
    (hn : h.nodes p = some n) (hi : (h.nodes i).isSome) (hRoot : IsRoot kids i) :
    ∃ g ks, attachChild (some p) (some i) h = .ok ((), g) ∧ Joined g kids p i ks := by
  rw [← isSome_link] at hi
  have hList := hWf.trees.lists (Nat.zero_le p) hn (hNo p n hn)
  obtain ⟨g, c, hRun, hSpliced, hW⟩ := attachChild_run hWf.bounded (body_eq hn) hList
    (hWf.trees.forest.nodup p) hi (hRoot p)
  exact ⟨g, _, hRun, joined_of_spliced hWf hNo hn hRoot (List.append_nil _).symm hSpliced hW⟩

theorem insert_joins (hWf : WellFormed 0 h kids) (hNo : NoReferences h)
    (hn : h.nodes p = some n) (hi : (h.nodes i).isSome) (hRoot : IsRoot kids i)
    (ha : a ∈ kids p) :
    ∃ g ks, spliceBefore p a i h = .ok ((), g) ∧ Joined g kids p i ks := by
  rw [← isSome_link] at hi
  obtain ⟨xs, ys, hEq⟩ := List.append_of_mem ha
  have hList := hWf.trees.lists (Nat.zero_le p) hn (hNo p n hn)
  have hNodup := hWf.trees.forest.nodup p
  have hNew := hRoot p
  rw [hEq] at hList hNodup hNew
  obtain ⟨g, c, hRun, hSpliced, hW⟩ := spliceBefore_run (body_eq hn) hList hNodup hi hNew
  exact ⟨g, _, hRun, joined_of_spliced hWf hNo hn hRoot hEq hSpliced hW⟩

/-- Naming the root `i` and adding it to `p`. -/
theorem rekey_joins (hWf : WellFormed 0 h kids) (hNo : NoReferences h)
    (hn : h.nodes p = some n) (hm : h.nodes i = some m) (hRoot : IsRoot kids i)
    {flag : TypeWord → TypeWord} (hFlag : ∀ t, isReference (flag t) = isReference t) (q : Ptr) :
    ∃ g ks, attachChild (some p) (some i) (h.rekeyed i m flag q) = .ok ((), g) ∧
      Joined g kids p i ks := by
  have hNo' : NoReferences (h.rekeyed i m flag q) := by
    intro a k hk
    by_cases hai : a = i
    · rw [hai, Heap.rekeyed_self, Option.some.injEq] at hk
      rw [← hk, CNode.isRef, hFlag]
      exact hNo i m hm
    · rw [Heap.rekeyed_ne hai] at hk
      exact hNo a k hk
  have hp : ∃ k, (h.rekeyed i m flag q).nodes p = some k := by
    by_cases hpi : p = i
    · rw [hpi]
      exact ⟨_, Heap.rekeyed_self⟩
    · exact ⟨n, (Heap.rekeyed_ne hpi).trans hn⟩
  obtain ⟨k, hk⟩ := hp
  exact attach_joins (hWf.rekeyed hm hFlag q) hNo' hk (by rw [Heap.rekeyed_self]; rfl) hRoot

/-! ## The calls -/

/-- The call returns `false` and changes no node, or it returns `true` and has put `i` among the
children of `p`. -/
def Outcome (h : Heap) (kids : Addr → List Addr) (p i : Addr) (z : M Bool) : Prop :=
  ∃ b g, z h = .ok (b, g) ∧
    ((b = false ∧ g.nodes = h.nodes) ∨ (b = true ∧ ∃ ks, Joined g kids p i ks))

theorem outcome_false {z : M Bool} (hRun : z h = .ok (false, g)) (hSame : g.nodes = h.nodes) :
    Outcome h kids p i z := ⟨false, g, hRun, Or.inl ⟨rfl, hSame⟩⟩

theorem outcome_true {z : M Bool} (hRun : z h = .ok (true, g)) (hJoined : Joined g kids p i ks) :
    Outcome h kids p i z := ⟨true, g, hRun, Or.inr ⟨rfl, ks, hJoined⟩⟩

/-- The type of the container is checked first. -/
theorem outcome_checked {t : TypeWord} {z : M Bool} (hn : h.nodes p = some n)
    (hz : Outcome h kids p i z) :
    Outcome h kids p i (do
      let a ← load (some p)
      if tag a.type_ ≠ t then
        return false
      z) := by
  by_cases hTag : tag n.type_ = t
  · obtain ⟨b, g, hRun, hOr⟩ := hz
    refine ⟨b, g, ?_, hOr⟩
    rw [Run.bind_run_ok (load_run hn), if_neg (not_not_intro hTag)]
    exact hRun
  · refine outcome_false (g := h) ?_ rfl
    rw [Run.bind_run_ok (load_run hn), if_pos hTag]
    rfl

theorem addItemToArray_outcome (hWf : WellFormed 0 h kids) (hNo : NoReferences h)
    (hn : h.nodes p = some n) (hi : (h.nodes i).isSome) (hRoot : IsRoot kids i) :
    Outcome h kids p i (cjsonAddItemToArray (some p) (some i)) := by
  obtain ⟨g, ks, hRun, hJoined⟩ := attach_joins hWf hNo hn hi hRoot
  refine outcome_checked hn (outcome_true ?_ hJoined)
  rw [Run.bind_run_ok hRun]
  rfl

theorem addItemToObject_outcome (hWf : WellFormed 0 h kids) (hNo : NoReferences h)
    (hn : h.nodes p = some n) (hm : h.nodes i = some m) (hRoot : IsRoot kids i) (name : Ptr)
    (hName : ∀ s, name = some s → h.Readable s) :
    Outcome h kids p i (cjsonAddItemToObject (some p) name (some i)) := by
  cases name with
  | none => exact outcome_false rfl rfl
  | some s =>
    have hs : h.Readable s := hName s rfl
    refine outcome_checked hn ?_
    by_cases hYes : (h.text (some s)).isSome ∧ h.outcomes 0 = true
    · obtain ⟨k, hk⟩ := Option.isSome_iff_exists.mp hYes.1
      have hWf' : WellFormed 0 (h.tick.pushBuf (encode k ++ [0])) kids :=
        hWf.of_nodes (hWf.bounded.tick.pushBuf _) rfl
      have hm' : (h.tick.pushBuf (encode k ++ [0])).nodes i = some m := hm
      obtain ⟨g, ks, hRun, hJoined⟩ :=
        rekey_joins hWf' hNo hn hm' hRoot isReference_clearConst (some h.brk)
      have hAlloc := allocCstr_run k h
      rw [if_pos hYes.2] at hAlloc
      refine outcome_true ?_ hJoined
      rw [attachNamedChild_eq, Run.bind_run_ok (loadStr_text hs), hk]
      show (allocCstr k >>= fun keyBuf => _) h = _
      rw [Run.bind_run_ok hAlloc]
      show (rekey i clearConst (some h.brk) >>= fun _ => attachChild (some p) (some i) >>=
        fun _ => _) _ = _
      rw [Run.bind_run_ok (rekey_run hm' _ _), Run.bind_run_ok hRun]
      rfl
    · obtain ⟨g, hRun, hEq⟩ := attachNamedChild_fail (p := p) (i := i) hs hYes
      refine outcome_false hRun ?_
      rcases hEq with hEq | hEq <;> rw [hEq]
      rfl

theorem addItemToObjectCS_outcome (hWf : WellFormed 0 h kids) (hNo : NoReferences h)
    (hn : h.nodes p = some n) (hm : h.nodes i = some m) (hRoot : IsRoot kids i) (name : Ptr) :
    Outcome h kids p i (cjsonAddItemToObjectCS (some p) name (some i)) := by
  cases name with
  | none => exact outcome_false rfl rfl
  | some s =>
    obtain ⟨g, ks, hRun, hJoined⟩ := rekey_joins hWf hNo hn hm hRoot isReference_setConst (some s)
    rw [cjsonAddItemToObjectCS_eq]
    refine outcome_checked hn (outcome_true ?_ hJoined)
    rw [Run.bind_run_ok (rekey_run hm _ _), Run.bind_run_ok hRun]
    rfl

theorem insertItemInArray_outcome (hWf : WellFormed 0 h kids) (hNo : NoReferences h)
    (hn : h.nodes p = some n) (hi : (h.nodes i).isSome) (hRoot : IsRoot kids i) (which : Int) :
    Outcome h kids p i (cjsonInsertItemInArray (some p) which (some i)) := by
  by_cases hNeg : which < 0
  · refine outcome_false (g := h) ?_ rfl
    rw [cjsonInsertItemInArray, if_pos (Or.inr (Or.inr hNeg))]
    rfl
  · have hFind := Edit.childAtIndex_kids hWf ⟨Nat.zero_le p, n, hn, hNo p n hn⟩ which
    rw [cjsonInsertItemInArray_eq p i hNeg]
    refine outcome_checked hn ?_
    cases hFound : (indexIn which (kids p)).bind ((kids p)[·]?) with
    | none =>
      rw [hFound] at hFind
      obtain ⟨g, ks, hRun, hJoined⟩ := attach_joins hWf hNo hn hi hRoot
      refine outcome_true ?_ hJoined
      rw [Run.bind_run_ok hFind]
      exact Run.bind_run_ok hRun
    | some a =>
      rw [hFound] at hFind
      obtain ⟨w, -, ha⟩ := Option.bind_eq_some_iff.mp hFound
      obtain ⟨g, ks, hRun, hJoined⟩ :=
        insert_joins hWf hNo hn hi hRoot (List.mem_of_getElem? ha)
      refine outcome_true ?_ hJoined
      rw [Run.bind_run_ok hFind]
      exact Run.bind_run_ok hRun

theorem Adding.outcome (call : Adding) (hWf : WellFormed 0 h kids) (hNo : NoReferences h)
    (hp : (h.nodes p).isSome) (hi : (h.nodes i).isSome) (hRoot : IsRoot kids i)
    (hReads : ∀ s, call.reads = some s → h.Readable s) :
    Outcome h kids p i (call.run (some p) (some i)) := by
  obtain ⟨n, hn⟩ := Option.isSome_iff_exists.mp hp
  obtain ⟨m, hm⟩ := Option.isSome_iff_exists.mp hi
  cases call with
  | itemToArray => exact addItemToArray_outcome hWf hNo hn hi hRoot
  | itemToObject name => exact addItemToObject_outcome hWf hNo hn hm hRoot name hReads
  | itemToObjectCS name => exact addItemToObjectCS_outcome hWf hNo hn hm hRoot name
  | insertInArray which => exact insertItemInArray_outcome hWf hNo hn hi hRoot which

/-! ## Walks over the result -/

/-- The item `x` can be deleted, and the calls that print it, compare it with any other item or
copy it do not run without end. -/
structure Walkable (h : Heap) (x : Addr) : Prop where
  delete : ∃ g, cjsonDelete (some x) h = .ok ((), g)
  print : ∀ std, Ends (cjsonPrint std (some x)) h
  printUnformatted : ∀ std, Ends (cjsonPrintUnformatted std (some x)) h
  compare : ∀ y cs, Ends (cjsonCompare (some x) (some y) cs) h
  duplicate : ∀ recurse, Ends (cjsonDuplicate (some x) recurse) h

theorem WellFormed.walkable (hWf : WellFormed 0 h kids) (hNo : NoReferences h)
    (hx : (h.nodes x).isSome) : Walkable h x := by
  obtain ⟨n, hn⟩ := Option.isSome_iff_exists.mp hx
  obtain ⟨V, hV⟩ := exists_subtree hWf.trees (Nat.zero_le x) hn
  exact ⟨⟨_, freeCjson_run hWf.bounded hV⟩, fun _ => printImpl_ends hWf hNo x true,
    fun _ => printImpl_ends hWf hNo x false, fun y cs => cjsonCompare_ends hWf hNo x y cs,
    fun recurse => cjsonDuplicate_ends hWf hNo hn recurse⟩

theorem hasChildren_congr (hSame : g.nodes = h.nodes) {a : Addr} :
    HasChildren g a ks ↔ HasChildren h a ks := by
  have hLink : g.link = h.link := by
    unfold Heap.link
    rw [hSame]
  rw [HasChildren, HasChildren, hSame, hLink]

/-- A call that adds a root to a container returns `false` and leaves all lists of children, or it
returns `true` and makes a cycle just when the container is the root or below it. Without a cycle
all walks over the result end. -/
theorem add_acyclic (call : Adding) (hWf : WellFormed 0 h kids) (hNo : NoReferences h)
    (hp : (h.nodes p).isSome) (hi : (h.nodes i).isSome) (hRoot : IsRoot kids i)
    (hReads : ∀ s, call.reads = some s → h.Readable s) :
    ∃ b g, call.run (some p) (some i) h = .ok (b, g) ∧
      ((b = false ∧ ∀ a ks, HasChildren g a ks ↔ HasChildren h a ks) ∨
        (b = true ∧ (Acyclic g ↔ ¬ Below kids i p) ∧
          (Acyclic g → ∀ x, (g.nodes x).isSome → Walkable g x))) := by
  obtain ⟨b, g, hRun, ⟨hb, hSame⟩ | ⟨hb, ks, hJoined⟩⟩ := call.outcome hWf hNo hp hi hRoot hReads
  · exact ⟨b, g, hRun, Or.inl ⟨hb, fun a ks => hasChildren_congr hSame⟩⟩
  · have hForest := hWf.trees.forest
    have hIff := hJoined.acyclic_iff hForest hRoot
    refine ⟨b, g, hRun, Or.inr ⟨hb, hIff, fun hAcyclic x hx => ?_⟩⟩
    have hWf' := hJoined.wellFormed hForest hRoot (hIff.mp hAcyclic)
    exact hWf'.walkable hJoined.owned hx

theorem noReferences_twoArrays : NoReferences Edit.twoArrays :=
  fun _ _ hn => (Edit.twoArrays_nodes hn).2.1

/-- An array with an item is added to an array that has others. -/
theorem add_acyclic_twoArrays :
    ∃ b g, Adding.itemToArray.run (some 0) (some 4) Edit.twoArrays = .ok (b, g) ∧
      ((b = false ∧ ∀ a ks, HasChildren g a ks ↔ HasChildren Edit.twoArrays a ks) ∨
        (b = true ∧ (Acyclic g ↔ ¬ Below Edit.twoLists 4 0) ∧
          (Acyclic g → ∀ x, (g.nodes x).isSome → Walkable g x))) :=
  add_acyclic .itemToArray Edit.wellFormed_twoArrays noReferences_twoArrays rfl rfl
    (Edit.isRoot_twoLists (Or.inr rfl)) nofun

/-- An array that is added to itself is its own child. -/
theorem add_makes_cycle : ¬ ∀ {h g : Heap} {kids : Addr → List Addr} {p i : Addr} {b : Bool}
    {call : Adding}, WellFormed 0 h kids → NoReferences h → (h.nodes p).isSome →
    h.link i = some ⟨none, none⟩ → IsRoot kids i → (∀ s, call.reads = some s → h.Readable s) →
    call.run (some p) (some i) h = .ok (b, g) →
    (b = false ∧ ∀ a ks, HasChildren g a ks ↔ HasChildren h a ks) ∨ Acyclic g := by
  intro hAll
  obtain ⟨b, g, hRun, hOr⟩ := Adding.itemToArray.outcome Edit.wellFormed_twoArrays
    noReferences_twoArrays (p := 0) rfl rfl (Edit.isRoot_twoLists (Or.inl rfl)) nofun
  have hb : b = true := by
    have hTrue : ∃ g', Adding.itemToArray.run (some 0) (some 0) Edit.twoArrays = .ok (true, g') :=
      ⟨_, rfl⟩
    obtain ⟨g', hRun'⟩ := hTrue
    rw [hRun] at hRun'
    cases hRun'
    rfl
  rcases hOr with ⟨hFalse, -⟩ | ⟨-, ks, hJoined⟩
  · rw [hb] at hFalse
    cases hFalse
  · have hRoot : IsRoot Edit.twoLists 0 := Edit.isRoot_twoLists (Or.inl rfl)
    have hIff := hJoined.acyclic_iff Edit.wellFormed_twoArrays.trees.forest hRoot
    rcases hAll Edit.wellFormed_twoArrays noReferences_twoArrays rfl rfl hRoot
      (fun s hs => by cases hs) hRun with ⟨hFalse, -⟩ | hAcyclic
    · rw [hb] at hFalse
      cases hFalse
    · exact hIff.mp hAcyclic (below_refl 0)

end CjsonRs.Ffi
