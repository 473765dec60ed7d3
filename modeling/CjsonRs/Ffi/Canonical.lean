import CjsonRs.Ffi.Detach
import CjsonRs.Ffi.Soundness
import CjsonRs.Ffi.TypedArrays
import Mathlib.Logic.Relation

/-!
# The lists say it all

Adding, inserting and detaching items only moves nodes between lists of children. What such calls
leave depends on nothing but the lists in the end: whichever way the same lists are reached, the
heap is the same. So what one call does another one undoes, to the last pointer.
-/

namespace CjsonRs.Ffi

open CjsonRs.Core Library Library.Link Library.Forest

variable {h h' h₀ : Heap} {a i p x : Addr} {n m : CNode} {c q : Ptr} {ks touched : List Addr}
  {xs ys : List Addr} {kids kids' kids₀ : Addr → List Addr}

/-- A node without its `child` pointer. -/
def CNode.childless (n : CNode) : CNode := { n with child := none }

theorem CNode.type_of_childless (hEq : n.childless = m.childless) : n.type_ = m.type_ := by
  have hType := congrArg CNode.type_ hEq
  exact hType

theorem CNode.eq_of_childless (hEq : n.childless = m.childless) (hChild : n.child = m.child) :
    n = m := by
  have hNode : ∀ k : CNode, k = { k.childless with child := k.child } := fun _ => rfl
  rw [hNode n, hNode m, hEq, hChild]

/-- The heap `h` has the nodes of `h₀`, in other lists of children. -/
structure Arranged (h₀ h : Heap) (kids : Addr → List Addr) : Prop where
  wf : WellFormed 0 h kids
  roots : RootsApart h kids
  same : ∀ x, (h.body x).map CNode.childless = (h₀.body x).map CNode.childless
  references : ∀ x n, h₀.body x = some n → n.isRef = true → h.body x = some n
  rest : h = { h₀ with nodes := h.nodes }

namespace Arranged

/-! ## One heap for the same lists -/

theorem isRef_eq (hA : Arranged h₀ h kids) (hn : h.body x = some n) :
    ∃ m, h₀.body x = some m ∧ m.childless = n.childless ∧ n.isRef = m.isRef := by
  have hSame := hA.same x
  rw [hn, Option.map_some] at hSame
  obtain ⟨m, hm, hEq⟩ := Option.map_eq_some_iff.mp hSame.symm
  exact ⟨m, hm, hEq, by rw [CNode.isRef, CNode.isRef, CNode.type_of_childless hEq]⟩

/-- The links of a node, by its place in the lists. -/
theorem links_eq (hA : Arranged h₀ h kids) (hA' : Arranged h₀ h' kids) : h'.link = h.link := by
  funext x
  have hLive : (h'.nodes x).isSome = (h.nodes x).isSome := by
    rw [← isSome_body, ← isSome_body (h := h), ← Option.isSome_map (f := CNode.childless), hA'.same,
      ← hA.same, Option.isSome_map]
  rcases isRoot_or_child kids x with hRoot | ⟨p, hp⟩
  · cases hx : (h.nodes x).isSome with
    | true => rw [hA.roots x hRoot hx, hA'.roots x hRoot (hLive.trans hx)]
    | false =>
      have hNone : ∀ g : Heap, (g.nodes x).isSome = false → g.link x = none := by
        intro g hg
        rw [← isSome_link] at hg
        exact Option.isNone_iff_eq_none.mp (by rw [← Option.not_isSome, hg]; rfl)
      rw [hNone h hx, hNone h' (hLive.trans hx)]
  · obtain ⟨-, hN, n, hn, hRef⟩ := hA.wf.trees.parent hp
    obtain ⟨-, -, n', hn', hRef'⟩ := hA'.wf.trees.parent hp
    have hList := hA.wf.trees.lists hN hn hRef
    exact (hList.links_eq (hA'.wf.trees.lists hN hn' hRef')).2 x hp

theorem body_eq (hA : Arranged h₀ h kids) (hA' : Arranged h₀ h' kids) : h'.body = h.body := by
  funext x
  cases hx : h.body x with
  | none =>
    have hNone := hA'.same x
    rw [← hA.same, hx] at hNone
    exact Option.map_eq_none_iff.mp hNone
  | some n =>
    obtain ⟨m, hm, hEq, hRef⟩ := hA.isRef_eq hx
    have hSame := hA'.same x
    rw [hm, Option.map_some] at hSame
    obtain ⟨n', hn', hEq'⟩ := Option.map_eq_some_iff.mp hSame
    cases hIs : n.isRef with
    | true =>
      rw [hRef] at hIs
      rw [hA'.references x m hm hIs, ← hA.references x m hm hIs, hx]
    | false =>
      obtain ⟨k, hk, rfl⟩ := node_of_body hx
      obtain ⟨k', hk', rfl⟩ := node_of_body hn'
      have hType : k'.body.type_ = k.body.type_ := CNode.type_of_childless (hEq'.trans hEq)
      have hIs' : k'.body.isRef = false := by
        rw [CNode.isRef, hType]
        exact hIs
      have hList := hA.wf.trees.lists (Nat.zero_le x) hk hIs
      have hChild : k'.child = k.child :=
        (hList.links_eq (hA'.wf.trees.lists (Nat.zero_le x) hk' hIs')).1
      rw [hn', CNode.eq_of_childless (hEq'.trans hEq) hChild]

theorem unique (hA : Arranged h₀ h kids) (hA' : Arranged h₀ h' kids) : h' = h := by
  have hNodes : h'.nodes = h.nodes := by
    funext x
    exact nodes_congr (by rw [hA.links_eq hA']) (by rw [hA.body_eq hA'])
  rw [hA'.rest, hA.rest, hNodes]

/-! ## One edit -/

protected theorem refl (hWf : WellFormed 0 h₀ kids) (hRoots : RootsApart h₀ kids) :
    Arranged h₀ h₀ kids := ⟨hWf, hRoots, fun _ => rfl, fun _ _ hn _ => hn, rfl⟩

theorem spliced (hA : Arranged h₀ h kids) (hp : Mutable 0 h p)
    (hSpliced : Spliced h h' p ks touched) (hW : Rewritten h h' h'.link (setChild h.body p c))
    (hWf : WellFormed 0 h' (Function.update kids p ks))
    (hSub : ∀ x ∈ kids p, x ∈ ks ∨ x ∈ touched)
    (hOff : ∀ x ∈ touched, x ∉ ks → h'.link x = some ⟨none, none⟩) :
    Arranged h₀ h' (Function.update kids p ks) := by
  obtain ⟨-, n, hn, hRef⟩ := hp
  refine ⟨hWf, fun x hx hLive => ?_, fun x => ?_, fun x m hm hIs => ?_, ?_⟩
  · have hxKs : x ∉ ks := by
      have hx' := hx p
      rwa [Function.update_self] at hx'
    by_cases hxT : x ∈ touched
    · exact hOff x hxT hxKs
    · have hRoot : IsRoot kids x := by
        intro q hq
        by_cases hqp : q = p
        · rw [hqp] at hq
          rcases hSub x hq with hMem | hMem
          · exact hxKs hMem
          · exact hxT hMem
        · have hx' := hx q
          rw [Function.update_of_ne hqp] at hx'
          exact hx' hq
      rw [hSpliced.off x hxT]
      refine hA.roots x hRoot ?_
      rw [← isSome_link, ← hSpliced.off x hxT, isSome_link]
      exact hLive
  · rw [← hA.same, hW.body]
    by_cases hxp : x = p
    · subst hxp
      rw [setChild_self (Ffi.body_eq hn), Ffi.body_eq hn]
      rfl
    · rw [setChild_of_ne hxp]
  · have hBody := hA.references x m hm hIs
    have hxp : x ≠ p := by
      rintro rfl
      rw [Ffi.body_eq hn] at hBody
      cases hBody
      cases hRef.symm.trans hIs
    rw [hW.body, setChild_of_ne hxp, hBody]
  · rw [hW.rest, hA.rest]

theorem attached (hA : Arranged h₀ h kids) (hp : Mutable 0 h p) (hi : Handed 0 h kids p i) :
    ∃ h', attachChild (some p) (some i) h = .ok ((), h') ∧
      Arranged h₀ h' (Function.update kids p (kids p ++ [i])) := by
  obtain ⟨hN, n, hn, hRef⟩ := id hp
  have hList := hA.wf.trees.lists hN hn hRef
  obtain ⟨h', c, hRun, hSpliced, hW⟩ := attachChild_run hA.wf.bounded (Ffi.body_eq hn) hList
    (hA.wf.trees.forest.nodup p) hi.link hi.not_mem
  have hWf' := (edited_attach hA.wf hp hi hSpliced hW).wf
  refine ⟨h', hRun, hA.spliced hp hSpliced hW hWf' (fun x hx => ?_) fun x hx hNot => ?_⟩
  · exact Or.inl (List.mem_append_left _ hx)
  · exact absurd hx hNot

theorem inserted (hA : Arranged h₀ h kids) (hp : Mutable 0 h p) (hi : Handed 0 h kids p i)
    (hEq : kids p = xs ++ a :: ys) :
    ∃ h', spliceBefore p a i h = .ok ((), h') ∧
      Arranged h₀ h' (Function.update kids p (xs ++ i :: a :: ys)) := by
  obtain ⟨hN, n, hn, hRef⟩ := id hp
  have hList := hA.wf.trees.lists hN hn hRef
  have hNodup := hA.wf.trees.forest.nodup p
  have hNew := hi.not_mem
  obtain ⟨h', hRun, hEdited⟩ := insertChild_run hA.wf hp hi hEq
  rw [hEq] at hList hNodup hNew
  obtain ⟨g, c, hRun', hSpliced, hW⟩ :=
    spliceBefore_run (Ffi.body_eq hn) hList hNodup hi.link hNew
  cases hRun.symm.trans hRun'
  refine ⟨h', hRun, hA.spliced hp hSpliced hW hEdited.wf (fun x hx => ?_) fun x hx hNot => ?_⟩
  · rw [hEq] at hx
    left
    simp only [List.mem_append, List.mem_cons] at hx ⊢
    tauto
  · exact absurd hx hNot

theorem detached (hA : Arranged h₀ h kids) (hp : Mutable 0 h p) (hEq : kids p = xs ++ a :: ys) :
    ∃ h', detach (some p) (some a) h = .ok ((), h') ∧
      Arranged h₀ h' (Function.update kids p (xs ++ ys)) := by
  obtain ⟨hN, n, hn, hRef⟩ := id hp
  have hList := hA.wf.trees.lists hN hn hRef
  have hNodup := hA.wf.trees.forest.nodup p
  obtain ⟨h', hRun, hEdited, -⟩ := detachChild_run hA.wf hp hEq
  rw [hEq] at hList hNodup
  obtain ⟨g, c, hRun', hSpliced, hW, hOff⟩ := detach_run (Ffi.body_eq hn) hList hNodup
  cases hRun.symm.trans hRun'
  refine ⟨h', hRun, hA.spliced hp hSpliced hW hEdited.wf (fun x hx => ?_) fun x hx hNot => ?_⟩
  · right
    rwa [hEq] at hx
  · have hxa : x = a := by
      simp only [List.mem_append, List.mem_cons] at hx hNot
      tauto
    rw [hxa]
    exact hOff

theorem erased {w : Nat} (hA : Arranged h₀ h kids) (hp : Mutable 0 h p)
    (ha : (kids p)[w]? = some a) :
    ∃ h', detach (some p) (some a) h = .ok ((), h') ∧
      Arranged h₀ h' ((eraseAt kids p w).apply kids) := by
  obtain ⟨xs, ys, hEq, hErase, -⟩ := split_at ha
  rw [show (eraseAt kids p w).apply kids = Function.update kids p (xs ++ ys) by
    rw [ListOp.apply, eraseAt, hErase]
    rfl]
  exact hA.detached hp hEq

/-- The item goes in front of the child at the index, or to the end past the last one. -/
theorem insertedAt {which : Int} (hA : Arranged h₀ h kids) (hp : Mutable 0 h p)
    (hi : Handed 0 h kids p i) (hNonneg : 0 ≤ which) :
    ∃ b h', (do
        match ← childAtIndex (some p) which with
        | none =>
          attachChild (some p) (some i)
          pure true
        | some existing =>
          spliceBefore p existing i
          pure true : M Bool) h = .ok (b, h') ∧
      Arranged h₀ h' ((insertAt kids p which.toNat i).apply kids) := by
  rw [Run.bind_run_ok (Edit.childAtIndex_kids hA.wf hp which)]
  cases hw : indexIn which (kids p) with
  | none =>
    have hPast : min which.toNat (kids p).length = (kids p).length := by
      unfold indexIn at hw
      split_ifs at hw
      omega
    obtain ⟨h', hRun, hA'⟩ := hA.attached hp hi
    refine ⟨true, h', Run.bind_run_ok hRun, ?_⟩
    rw [ListOp.apply, insertAt, hPast, List.insertIdx_length_self]
    exact hA'
  | some w =>
    obtain ⟨a, ha⟩ := indexIn_getElem hw
    have hIn : min which.toNat (kids p).length = w := by
      unfold indexIn at hw
      split_ifs at hw
      cases hw
      omega
    obtain ⟨xs, ys, hEq, -, -, hInsert⟩ := split_at ha
    obtain ⟨h', hRun, hA'⟩ := hA.inserted hp hi hEq
    refine ⟨true, h', ?_, ?_⟩
    · rw [show (some w).bind ((kids p)[·]?) = some a from ha]
      exact Run.bind_run_ok hRun
    · rw [ListOp.apply, insertAt, hIn, hInsert]
      exact hA'

/-- The calls that detach a found child. -/
theorem detachedFound {find : M Ptr} {position : Option Nat} (hA : Arranged h₀ h kids)
    (hp : Mutable 0 h p) (hFind : find h = .ok (position.bind ((kids p)[·]?), h))
    (hIn : ∀ w, position = some w → ∃ a, (kids p)[w]? = some a) :
    ∃ q h', (do
        let item ← find
        if item.isNone then
          return none
        detach (some p) item
        return item : M Ptr) h = .ok (q, h') ∧
      Arranged h₀ h' ((position.map (eraseAt kids p)).elim kids (·.apply kids)) := by
  rw [Run.bind_run_ok hFind]
  cases position with
  | none => exact ⟨none, h, rfl, hA⟩
  | some w =>
    obtain ⟨a, ha⟩ := hIn w rfl
    obtain ⟨h', hRun, hA'⟩ := hA.erased hp ha
    refine ⟨some a, h', ?_, hA'⟩
    rw [show (some w).bind ((kids p)[·]?) = some a from ha]
    exact Run.bind_run_ok hRun

end Arranged

/-- A call that checks the type of the container first. -/
theorem checked_run {t : TypeWord} {r : M Bool} (hn : h.nodes p = some n) :
    (do
      let a ← load (some p)
      if tag a.type_ ≠ t then
        return false
      r : M Bool) h = if hasTag h t p then r h else .ok (false, h) := by
  have hHas : hasTag h t p = (tag n.type_ == t) := by
    rw [hasTag, hn]
    rfl
  rw [Run.bind_run_ok (load_run hn), hHas]
  by_cases hTag : tag n.type_ = t
  · rw [if_neg (not_not_intro hTag), if_pos (by simpa using hTag)]
  · rw [if_pos hTag, if_neg (by simpa using hTag)]
    rfl

namespace Edit

/-- The calls that only move nodes between lists. -/
def Moves : Edit → Prop
  | addItemToArray .. | insertItemInArray .. | detachItemViaPointer .. | detachItemFromArray ..
  | detachItemFromObject .. => True
  | _ => False

/-- The call leaves the nodes in the lists of its list operation. -/
def Arranges (h₀ h : Heap) (kids : Addr → List Addr) (e : Edit) : Prop :=
  ∃ r h', e.run h = .ok (r, h') ∧ Arranged h₀ h' (e.after h kids)

theorem arranges_skip {e : Edit} {r : Reply} (hA : Arranged h₀ h kids)
    (hRun : e.run h = .ok (r, h)) (hOp : e.listOp h kids = none) : e.Arranges h₀ h kids := by
  refine ⟨r, h, hRun, ?_⟩
  rw [after, hOp]
  exact hA

theorem arranges_checked {e : Edit} {t : TypeWord} {y : M Bool} {op : Option ListOp}
    (hA : Arranged h₀ h kids) (hp : Mutable 0 h p)
    (hCall : e.run = Reply.flag <$> (do
      let a ← load (some p)
      if tag a.type_ ≠ t then
        return false
      y))
    (hOp : e.listOp h kids = if hasTag h t p then op else none)
    (hy : ∃ b h', y h = .ok (b, h') ∧ Arranged h₀ h' (op.elim kids (·.apply kids))) :
    e.Arranges h₀ h kids := by
  obtain ⟨-, n, hn, -⟩ := hp
  have hRun := checked_run (t := t) (r := y) hn
  by_cases hTag : hasTag h t p = true
  · obtain ⟨b, h', hOk, hA'⟩ := hy
    rw [if_pos hTag, hOk] at hRun
    refine ⟨.flag b, h', ?_, ?_⟩
    · rw [hCall]
      exact Run.map_run_ok hRun
    · rw [after, hOp, if_pos hTag]
      exact hA'
  · rw [if_neg hTag] at hRun
    refine arranges_skip (r := .flag false) hA ?_ ?_
    · rw [hCall]
      exact Run.map_run_ok hRun
    · rw [hOp, if_neg hTag]

theorem addItemToArray_arranges {array item : Ptr} (hA : Arranged h₀ h kids)
    (hAdm : (addItemToArray array item).Admissible h kids) :
    (addItemToArray array item).Arranges h₀ h kids := by
  cases array with
  | none => exact arranges_skip (r := .flag false) hA rfl rfl
  | some p =>
    cases item with
    | none => exact arranges_skip (r := .flag false) hA rfl rfl
    | some i =>
      obtain ⟨hp, hi⟩ := hAdm p i rfl rfl
      obtain ⟨h', hRun, hA'⟩ := hA.attached hp hi
      apply arranges_checked hA hp rfl rfl
      exact ⟨true, h', Run.bind_run_ok hRun, hA'⟩

theorem insertItemInArray_arranges {array newitem : Ptr} {which : Int} (hA : Arranged h₀ h kids)
    (hAdm : (insertItemInArray array which newitem).Admissible h kids) :
    (insertItemInArray array which newitem).Arranges h₀ h kids := by
  cases array with
  | none => exact arranges_skip (r := .flag false) hA rfl rfl
  | some p =>
    cases newitem with
    | none => exact arranges_skip (r := .flag false) hA rfl rfl
    | some i =>
      obtain ⟨hp, hi⟩ := hAdm p i rfl rfl
      by_cases hNeg : which < 0
      · refine arranges_skip (r := .flag false) hA (Run.map_run_ok ?_) ?_
        · rw [cjsonInsertItemInArray, if_pos (Or.inr (Or.inr hNeg))]
          rfl
        · rw [listOp, if_neg fun hAnd => absurd hAnd.1 (by omega)]
      · have hNonneg : 0 ≤ which := by omega
        have hCall := congrArg (Reply.flag <$> ·) (cjsonInsertItemInArray_eq p i hNeg)
        have hOp : (insertItemInArray (some p) which (some i)).listOp h kids =
            if hasTag h cjsonArray p then some (insertAt kids p which.toNat i) else none := by
          rw [listOp, ite_and, if_pos hNonneg]
        exact arranges_checked hA hp hCall hOp (hA.insertedAt hp hi hNonneg)

theorem detachItemViaPointer_arranges {parent item : Ptr} (hA : Arranged h₀ h kids)
    (hAdm : (detachItemViaPointer parent item).Admissible h kids) :
    (detachItemViaPointer parent item).Arranges h₀ h kids := by
  cases parent with
  | none => exact arranges_skip (r := .item none) hA rfl rfl
  | some p =>
    cases item with
    | none => exact arranges_skip (r := .item none) hA rfl rfl
    | some a =>
      obtain ⟨hp, ha⟩ := hAdm p a rfl rfl
      obtain ⟨w, hw, haw⟩ := idxOf_getElem ha
      obtain ⟨h', hRun, hA'⟩ := hA.erased hp haw
      refine ⟨.item (some a), h', Run.map_run_ok (viaPointer_run hRun), ?_⟩
      rw [after, listOp, hw]
      exact hA'

theorem detachItemFromArray_arranges {array : Ptr} {which : Int} (hA : Arranged h₀ h kids)
    (hAdm : (detachItemFromArray array which).Admissible h kids) :
    (detachItemFromArray array which).Arranges h₀ h kids := by
  cases array with
  | none => exact arranges_skip (r := .item none) hA rfl rfl
  | some p =>
    have hp := hAdm p rfl
    obtain ⟨q, h', hRun, hA'⟩ := hA.detachedFound hp (childAtIndex_kids hA.wf hp which)
      fun w hw => indexIn_getElem hw
    exact ⟨.item q, h', Run.map_run_ok hRun, hA'⟩

theorem detachItemFromObject_arranges {cs : Bool} {object string : Ptr}
    (hA : Arranged h₀ h kids) (hAdm : (detachItemFromObject cs object string).Admissible h kids) :
    (detachItemFromObject cs object string).Arranges h₀ h kids := by
  cases object with
  | none => cases cs <;> exact arranges_skip (r := .item none) hA rfl rfl
  | some p =>
    obtain ⟨hArg, hFind⟩ := getObjectItemImpl_adm hA.wf (P := True)
      (fun s hs => by simpa using hAdm p s rfl hs) cs
    rcases hArg with rfl | ⟨hp, -⟩
    · cases cs <;> exact arranges_skip (r := .item none) hA rfl rfl
    · obtain ⟨q, h', hRun, hA'⟩ := hA.detachedFound hp hFind fun w hw => keyIn_getElem hw
      refine ⟨.item q, h', ?_, hA'⟩
      cases cs <;> exact Run.map_run_ok hRun

theorem arranges (e : Edit) (hA : Arranged h₀ h kids) (hMoves : e.Moves)
    (hAdm : e.Admissible h kids) : e.Arranges h₀ h kids := by
  cases e with
  | addItemToArray => exact addItemToArray_arranges hA hAdm
  | insertItemInArray => exact insertItemInArray_arranges hA hAdm
  | detachItemViaPointer => exact detachItemViaPointer_arranges hA hAdm
  | detachItemFromArray => exact detachItemFromArray_arranges hA hAdm
  | detachItemFromObject => exact detachItemFromObject_arranges hA hAdm
  | _ => exact hMoves.elim

end Edit

/-! ## Runs -/

/-- A node that may get children in the first heap may get them in the others. -/
theorem Arranged.mutable (hA : Arranged h₀ h kids) (hp : Mutable 0 h₀ p) : Mutable 0 h p := by
  obtain ⟨hN, n, hn, hRef⟩ := hp
  have hSame := hA.same p
  rw [Ffi.body_eq hn, Option.map_some] at hSame
  obtain ⟨m, hm, hEq⟩ := Option.map_eq_some_iff.mp hSame
  obtain ⟨k, hk, rfl⟩ := node_of_body hm
  have hType : k.body.type_ = n.body.type_ := CNode.type_of_childless hEq
  refine ⟨hN, k, hk, ?_⟩
  show k.body.isRef = false
  rw [CNode.isRef, hType]
  exact hRef

/-- One call that moves nodes, on a heap and on its lists of children. -/
def Move (s s' : Heap × (Addr → List Addr)) : Prop :=
  ∃ (e : Edit) (r : Reply), e.Moves ∧ e.Admissible s.1 s.2 ∧ e.run s.1 = .ok (r, s'.1) ∧
    s'.2 = e.after s.1 s.2

theorem Arranged.moved {s s' : Heap × (Addr → List Addr)} (hA : Arranged h₀ s.1 s.2)
    (hMove : Move s s') : Arranged h₀ s'.1 s'.2 := by
  obtain ⟨e, r, hMoves, hAdm, hRun, hKids⟩ := hMove
  obtain ⟨r', h', hRun', hA'⟩ := e.arranges hA hMoves hAdm
  cases hRun.symm.trans hRun'
  rw [hKids]
  exact hA'

theorem arranged_of_moves (hWf : WellFormed 0 h₀ kids₀) (hRoots : RootsApart h₀ kids₀)
    {s : Heap × (Addr → List Addr)} (hMoves : Relation.ReflTransGen Move (h₀, kids₀) s) :
    Arranged h₀ s.1 s.2 := by
  induction hMoves with
  | refl => exact Arranged.refl hWf hRoots
  | tail _ hMove ih => exact ih.moved hMove

/-- Two runs of calls that add, insert and detach items, from one heap of trees whose roots have
no siblings, end in one heap exactly when they end with the same lists of children. -/
theorem moves_canonical (hWf : WellFormed 0 h₀ kids₀) (hRoots : RootsApart h₀ kids₀)
    (hMoves : Relation.ReflTransGen Move (h₀, kids₀) (h, kids))
    (hMoves' : Relation.ReflTransGen Move (h₀, kids₀) (h', kids')) : h' = h ↔ kids' = kids := by
  have hA := arranged_of_moves hWf hRoots hMoves
  have hA' := arranged_of_moves hWf hRoots hMoves'
  constructor
  · rintro rfl
    exact hA'.wf.trees.unique hA.wf.trees
  · rintro rfl
    exact hA.unique hA'

theorem isRoot_without_middle : IsRoot (Function.update Edit.twoLists 0 [1, 3]) 2 := by
  intro p hp
  by_cases hp₀ : p = 0
  · subst hp₀
    exact absurd hp (by decide)
  · rw [Function.update_of_ne hp₀, Edit.mem_twoLists] at hp
    rcases hp with ⟨hEq, -⟩ | ⟨-, hEq⟩
    · exact hp₀ hEq
    · cases hEq

/-- The item in the middle of an array is detached and inserted again: nothing has changed. -/
theorem moves_canonical_twoArrays : ∃ r h₁ r',
    (Edit.detachItemViaPointer (some 0) (some 2)).run Edit.twoArrays = .ok (r, h₁) ∧
      (Edit.insertItemInArray (some 0) 1 (some 2)).run h₁ = .ok (r', Edit.twoArrays) := by
  let remove := Edit.detachItemViaPointer (some 0) (some 2)
  let add := Edit.insertItemInArray (some 0) 1 (some 2)
  let rest := Function.update Edit.twoLists 0 [1, 3]
  have hArray : Mutable 0 Edit.twoArrays 0 := ⟨le_refl 0, _, rfl, rfl⟩
  have hAdm : remove.Admissible Edit.twoArrays Edit.twoLists := by
    intro p a hp ha
    cases hp
    cases ha
    exact ⟨hArray, by decide⟩
  have hStart := Arranged.refl Edit.wellFormed_twoArrays rootsApart_twoArrays
  obtain ⟨r, h₁, hRun, hTag, hLive⟩ : ∃ r h₁, remove.run Edit.twoArrays = .ok (r, h₁) ∧
      hasTag h₁ cjsonArray 0 = true ∧ (h₁.nodes 2).isSome := ⟨_, _, rfl, rfl, rfl⟩
  obtain ⟨r₁, g₁, hRun₁, hA⟩ := Edit.arranges remove hStart trivial hAdm
  cases hRun.symm.trans hRun₁
  have hRest : remove.after Edit.twoArrays Edit.twoLists = rest := rfl
  rw [hRest] at hA
  have hAdm' : add.Admissible h₁ rest := by
    intro p i hp hi
    cases hp
    cases hi
    have hLeaf : rest 2 = [] := rfl
    refine ⟨hA.mutable hArray, Nat.zero_le 2, hLive, isRoot_without_middle, fun hBelow => ?_⟩
    rw [below_leaf hLeaf] at hBelow
    cases hBelow
  obtain ⟨r', h₂, hRun', -⟩ := Edit.arranges add hA trivial hAdm'
  have hKids : add.after h₁ rest = Edit.twoLists := by
    have hOp : add.listOp h₁ rest = some (insertAt rest 0 1 2) := if_pos ⟨by decide, hTag⟩
    rw [Edit.after, hOp]
    show Function.update (Function.update Edit.twoLists 0 [1, 3]) 0 [1, 2, 3] = _
    rw [Function.update_idem]
    exact Function.update_eq_self 0 Edit.twoLists
  have hSteps : Relation.ReflTransGen Move (Edit.twoArrays, Edit.twoLists)
      (h₂, add.after h₁ rest) := by
    have hFirst : Move (Edit.twoArrays, Edit.twoLists) (h₁, rest) :=
      ⟨remove, r, trivial, hAdm, hRun, rfl⟩
    exact (Relation.ReflTransGen.single hFirst).tail ⟨add, r', trivial, hAdm', hRun', rfl⟩
  have hSame : h₂ = Edit.twoArrays :=
    (moves_canonical Edit.wellFormed_twoArrays rootsApart_twoArrays .refl hSteps).mpr hKids
  rw [hSame] at hRun'
  exact ⟨r, h₁, r', hRun, hRun'⟩

end CjsonRs.Ffi
