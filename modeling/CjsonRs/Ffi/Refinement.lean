import CjsonRs.Ffi.Edits

/-!
# Trees as lists of children

Every public call that moves items between lists of children is a list operation on the
children of one node (`Edit.listOp`): append, insert, erase, overwrite. On a well-formed heap
such a call runs through, and what it leaves is well formed with that operation carried out.
-/

namespace CjsonRs.Ffi

open CjsonRs.Core Library Library.Link Library.Forest

/-- What a call returns. -/
inductive Reply where
  | done
  | item (p : Ptr)
  | flag (b : Bool)
  deriving DecidableEq, Repr

/-- The calls that move items between lists of children. -/
inductive Edit where
  | addItemToArray (array item : Ptr)
  | addItemToObject (object name item : Ptr)
  | addItemToObjectCS (object name item : Ptr)
  | insertItemInArray (array : Ptr) (which : Int) (newitem : Ptr)
  | detachItemViaPointer (parent item : Ptr)
  | detachItemFromArray (array : Ptr) (which : Int)
  | detachItemFromObject (caseSensitive : Bool) (object string : Ptr)
  | deleteItemFromArray (array : Ptr) (which : Int)
  | deleteItemFromObject (caseSensitive : Bool) (object string : Ptr)
  | replaceItemViaPointer (parent item replacement : Ptr)
  | replaceItemInArray (array : Ptr) (which : Int) (newitem : Ptr)
  | replaceItemInObject (caseSensitive : Bool) (object string newitem : Ptr)

namespace Edit

/-- The call. -/
def run : Edit → M Reply
  | addItemToArray array item => .flag <$> cjsonAddItemToArray array item
  | addItemToObject object name item => .flag <$> cjsonAddItemToObject object name item
  | addItemToObjectCS object name item => .flag <$> cjsonAddItemToObjectCS object name item
  | insertItemInArray array which newitem => .flag <$> cjsonInsertItemInArray array which newitem
  | detachItemViaPointer parent item => .item <$> cjsonDetachItemViaPointer parent item
  | detachItemFromArray array which => .item <$> cjsonDetachItemFromArray array which
  | detachItemFromObject false object string => .item <$> cjsonDetachItemFromObject object string
  | detachItemFromObject true object string =>
    .item <$> cjsonDetachItemFromObjectCaseSensitive object string
  | deleteItemFromArray array which => (fun _ => .done) <$> cjsonDeleteItemFromArray array which
  | deleteItemFromObject false object string =>
    (fun _ => .done) <$> cjsonDeleteItemFromObject object string
  | deleteItemFromObject true object string =>
    (fun _ => .done) <$> cjsonDeleteItemFromObjectCaseSensitive object string
  | replaceItemViaPointer parent item replacement =>
    .flag <$> cjsonReplaceItemViaPointer parent item replacement
  | replaceItemInArray array which newitem =>
    .flag <$> cjsonReplaceItemInArray array which newitem
  | replaceItemInObject false object string newitem =>
    .flag <$> cjsonReplaceItemInObject object string newitem
  | replaceItemInObject true object string newitem =>
    .flag <$> cjsonReplaceItemInObjectCaseSensitive object string newitem

end Edit

/-! ## The list operations -/

/-- The new children of one node, and the child that is freed with what is below it. -/
structure ListOp where
  parent : Addr
  children : List Addr
  freed : Option Addr
  deriving DecidableEq, Repr

/-- Append to the children of `p`. -/
def appendTo (kids : Addr → List Addr) (p i : Addr) : ListOp := ⟨p, kids p ++ [i], none⟩

/-- Insert into the children of `p`, at their end for an index past it. -/
def insertAt (kids : Addr → List Addr) (p : Addr) (w : Nat) (i : Addr) : ListOp :=
  ⟨p, (kids p).insertIdx (min w (kids p).length) i, none⟩

/-- Erase the child of `p` at a position. -/
def eraseAt (kids : Addr → List Addr) (p : Addr) (w : Nat) : ListOp :=
  ⟨p, (kids p).eraseIdx w, none⟩

/-- Erase the child of `p` at a position and free it. -/
def deleteAt (kids : Addr → List Addr) (p : Addr) (w : Nat) : ListOp :=
  ⟨p, (kids p).eraseIdx w, (kids p)[w]?⟩

/-- Overwrite the child of `p` at a position and free it. -/
def overwriteAt (kids : Addr → List Addr) (p i : Addr) (w : Nat) : ListOp :=
  ⟨p, (kids p).set w i, (kids p)[w]?⟩

/-- The lists of children after an operation. -/
noncomputable def ListOp.apply (kids : Addr → List Addr) (op : ListOp) : Addr → List Addr :=
  let kids' := Function.update kids op.parent op.children
  op.freed.elim kids' (prune kids')

/-- `(type_ & 0xFF) == t` -/
def hasTag (h : Heap) (t : TypeWord) (a : Addr) : Bool := (h.nodes a).any (tag ·.type_ == t)

namespace Edit

variable (h : Heap) (kids : Addr → List Addr)

/-- The list operation of a call, `none` when it changes nothing. -/
def listOp : Edit → Option ListOp
  | addItemToArray (some p) (some i) =>
    if hasTag h cjsonArray p then some (appendTo kids p i) else none
  | addItemToObject (some p) (some s) (some i) =>
    if hasTag h cjsonObject p ∧ (h.text (some s)).isSome ∧ h.outcomes 0 then
      some (appendTo kids p i)
    else none
  | addItemToObjectCS (some p) (some _) (some i) =>
    if hasTag h cjsonObject p then some (appendTo kids p i) else none
  | insertItemInArray (some p) which (some i) =>
    if 0 ≤ which ∧ hasTag h cjsonArray p then some (insertAt kids p which.toNat i) else none
  | detachItemViaPointer (some p) (some a) => ((kids p).idxOf? a).map (eraseAt kids p)
  | detachItemFromArray (some p) which => (indexIn which (kids p)).map (eraseAt kids p)
  | detachItemFromObject cs (some p) string => (keyIn h cs string (kids p)).map (eraseAt kids p)
  | deleteItemFromArray (some p) which => (indexIn which (kids p)).map (deleteAt kids p)
  | deleteItemFromObject cs (some p) string => (keyIn h cs string (kids p)).map (deleteAt kids p)
  | replaceItemViaPointer (some p) (some a) (some i) =>
    ((kids p).idxOf? a).map (overwriteAt kids p i)
  | replaceItemInArray (some p) which (some i) =>
    (indexIn which (kids p)).map (overwriteAt kids p i)
  | replaceItemInObject cs (some p) string (some i) =>
    (keyIn h cs string (kids p)).map (overwriteAt kids p i)
  | _ => none

/-- The lists of children after a call. -/
noncomputable def after (e : Edit) : Addr → List Addr := (e.listOp h kids).elim kids (·.apply kids)

/-- What a call relies on: the changed parent is not a reference, an added or replacing item
is the root of another tree, a child passed by pointer is one, and the texts it reads can be
read. A `NULL` argument is always allowed. -/
def Admissible : Edit → Prop
  | addItemToArray array item =>
    ∀ p i, array = some p → item = some i → Mutable 0 h p ∧ Handed 0 h kids p i
  | addItemToObject object name item =>
    ∀ p s i, object = some p → name = some s → item = some i →
      Mutable 0 h p ∧ Handed 0 h kids p i ∧ h.Readable s
  | addItemToObjectCS object name item =>
    ∀ p s i, object = some p → name = some s → item = some i →
      Mutable 0 h p ∧ Handed 0 h kids p i
  | insertItemInArray array _ newitem =>
    ∀ p i, array = some p → newitem = some i → Mutable 0 h p ∧ Handed 0 h kids p i
  | detachItemViaPointer parent item =>
    ∀ p a, parent = some p → item = some a → Mutable 0 h p ∧ a ∈ kids p
  | detachItemFromArray array _ => ∀ p, array = some p → Mutable 0 h p
  | detachItemFromObject _ object string =>
    ∀ p s, object = some p → string = some s →
      Mutable 0 h p ∧ KeysReadable h (kids p) ∧ h.Readable s
  | deleteItemFromArray array _ => ∀ p, array = some p → Mutable 0 h p
  | deleteItemFromObject _ object string =>
    ∀ p s, object = some p → string = some s →
      Mutable 0 h p ∧ KeysReadable h (kids p) ∧ h.Readable s
  | replaceItemViaPointer parent item replacement =>
    ∀ p a i, parent = some p → item = some a → replacement = some i →
      Mutable 0 h p ∧ a ∈ kids p ∧ Handed 0 h kids p i
  | replaceItemInArray array _ newitem =>
    ∀ p, array = some p → Mutable 0 h p ∧ ∀ i, newitem = some i → Handed 0 h kids p i
  | replaceItemInObject _ object string newitem =>
    ∀ p s, object = some p → string = some s →
      Mutable 0 h p ∧ KeysReadable h (kids p) ∧ h.Readable s ∧
        ∀ i, newitem = some i → Handed 0 h kids p i

end Edit

/-! ## Found children -/

section Found

variable {h : Heap} {kids : Addr → List Addr} {p a i : Addr} {w : Nat}

/-- A list around a position. -/
theorem split_at {as : List Addr} (ha : as[w]? = some a) :
    ∃ xs ys, as = xs ++ a :: ys ∧ as.eraseIdx w = xs ++ ys ∧
      (∀ i, as.set w i = xs ++ i :: ys) ∧ ∀ i, as.insertIdx w i = xs ++ i :: a :: ys := by
  induction as generalizing w with
  | nil => cases ha
  | cons b as ih =>
    cases w with
    | zero =>
      cases ha
      exact ⟨[], as, rfl, rfl, fun _ => rfl, fun _ => rfl⟩
    | succ w =>
      obtain ⟨xs, ys, rfl, hErase, hSet, hInsert⟩ := ih ha
      refine ⟨b :: xs, ys, rfl, ?_, fun i => ?_, fun i => ?_⟩
      · rw [List.eraseIdx_cons_succ, hErase]
        rfl
      · rw [List.set_cons_succ, hSet]
        rfl
      · rw [List.insertIdx_succ_cons, hInsert]
        rfl

theorem detachAt_run (hWf : WellFormed 0 h kids) (hp : Mutable 0 h p)
    (ha : (kids p)[w]? = some a) :
    ∃ h', detach (some p) (some a) h = .ok ((), h') ∧
      WellFormed 0 h' ((eraseAt kids p w).apply kids) ∧ IsRoot ((eraseAt kids p w).apply kids) a ∧
      (h'.nodes a).isSome := by
  obtain ⟨xs, ys, hEq, hErase, -⟩ := split_at ha
  obtain ⟨h', hRun, hEdited, hRoot⟩ := detachChild_run hWf hp hEq
  have hApply : (eraseAt kids p w).apply kids = Function.update kids p (xs ++ ys) := by
    rw [ListOp.apply, eraseAt, hErase]
    rfl
  have haKid : a ∈ kids p := List.mem_of_getElem? ha
  obtain ⟨c, hBody⟩ := hEdited.body
  have hLive : (h'.nodes a).isSome := by
    obtain ⟨n, hn⟩ := hWf.trees.child_live haKid
    rw [← isSome_body, hBody, setChild_of_ne (ne_of_child hWf.trees.forest haKid), isSome_body, hn]
    rfl
  rw [hApply]
  exact ⟨h', hRun, hEdited.wf, hRoot, hLive⟩

theorem deleteAt_run (hWf : WellFormed 0 h kids) (hp : Mutable 0 h p)
    (ha : (kids p)[w]? = some a) :
    ∃ h' h'', detach (some p) (some a) h = .ok ((), h') ∧
      freeCjson (some a) h' = .ok ((), h'') ∧
      WellFormed 0 h'' ((deleteAt kids p w).apply kids) := by
  obtain ⟨h', hRun, hWf', hRoot, hLive⟩ := detachAt_run hWf hp ha
  obtain ⟨n, hn⟩ := Option.isSome_iff_exists.mp hLive
  obtain ⟨V, hV⟩ := exists_subtree hWf'.trees (Nat.zero_le a) hn
  have hApply : (deleteAt kids p w).apply kids = prune ((eraseAt kids p w).apply kids) a := by
    simp only [ListOp.apply, deleteAt, eraseAt, ha, Option.elim]
  rw [hApply]
  exact ⟨h', _, hRun, freeCjson_run hWf'.bounded hV, hWf'.free hRoot hV⟩

theorem overwriteAt_run (hWf : WellFormed 0 h kids) (hp : Mutable 0 h p)
    (hi : Handed 0 h kids p i) (ha : (kids p)[w]? = some a) :
    ∃ h', replaceViaPointer (some p) (some a) (some i) h = .ok (true, h') ∧
      WellFormed 0 h' ((overwriteAt kids p i w).apply kids) := by
  obtain ⟨xs, ys, hEq, -, hSet, -⟩ := split_at ha
  obtain ⟨h', V, hReplaced, hV, hRun⟩ := replaceChild_run hWf hp hi hEq
  refine ⟨_, hRun, ?_⟩
  have hApply : (overwriteAt kids p i w).apply kids
      = prune (Function.update kids p (xs ++ i :: ys)) a := by
    simp only [ListOp.apply, overwriteAt, ha, hSet, Option.elim]
  rw [hApply]
  exact hReplaced.wf.free hReplaced.root hV

/-- A position that a lookup returns is one of the list. -/
theorem indexIn_getElem {which : Int} {as : List Addr} (hw : indexIn which as = some w) :
    ∃ a, as[w]? = some a := by
  unfold indexIn at hw
  split_ifs at hw with hIn
  cases hw
  exact ⟨as[which.toNat], List.getElem?_eq_getElem (by omega)⟩

theorem keyIn_getElem {cs : Bool} {string : Ptr} {as : List Addr}
    (hw : keyIn h cs string as = some w) : ∃ a, as[w]? = some a := by
  unfold keyIn at hw
  obtain ⟨k, -, hFind⟩ := Option.bind_eq_some_iff.mp hw
  obtain ⟨hLt, -⟩ := List.findIdx?_eq_some_iff_getElem.mp hFind
  exact ⟨as[w], List.getElem?_eq_getElem hLt⟩

theorem idxOf_getElem {as : List Addr} (ha : a ∈ as) :
    ∃ w, as.idxOf? a = some w ∧ as[w]? = some a := by
  have hSome : (as.idxOf? a).isSome := by
    rw [List.isSome_idxOf?]
    exact ha
  obtain ⟨w, hw⟩ := Option.isSome_iff_exists.mp hSome
  obtain ⟨hLt, hEq, -⟩ := List.findIdx?_eq_some_iff_getElem.mp hw
  exact ⟨w, hw, by rw [List.getElem?_eq_getElem hLt, eq_of_beq hEq]⟩

end Found

/-! ## The calls -/

namespace Edit

variable {h : Heap} {kids : Addr → List Addr}

/-- The call runs through and leaves a well-formed heap with its list operation carried out. -/
def Refines (h : Heap) (kids : Addr → List Addr) (e : Edit) : Prop :=
  ∃ r h', e.run h = .ok (r, h') ∧ WellFormed 0 h' (e.after h kids)

/-- A call that changes nothing. -/
theorem refines_skip {e : Edit} {r : Reply} (hWf : WellFormed 0 h kids)
    (hRun : e.run h = .ok (r, h)) (hOp : e.listOp h kids = none) : e.Refines h kids := by
  refine ⟨r, h, hRun, ?_⟩
  rw [after, hOp]
  exact hWf

/-- A call that checks the type of the container first. -/
theorem refines_checked {e : Edit} {p : Addr} {t : TypeWord} {x : M Bool} {op : Option ListOp}
    (hWf : WellFormed 0 h kids) (hp : Mutable 0 h p)
    (hCall : e.run = Reply.flag <$> (do
      let a ← load (some p)
      if tag a.type_ ≠ t then
        return false
      x))
    (hOp : e.listOp h kids = if hasTag h t p then op else none)
    (hx : ∃ b h', x h = .ok (b, h') ∧ WellFormed 0 h' (op.elim kids (·.apply kids))) :
    e.Refines h kids := by
  obtain ⟨-, n, hn, -⟩ := hp
  have hHas : hasTag h t p = (tag n.type_ == t) := by
    rw [hasTag, hn]
    rfl
  by_cases hTag : tag n.type_ = t
  · obtain ⟨b, h', hRun, hWf'⟩ := hx
    refine ⟨.flag b, h', ?_, ?_⟩
    · rw [hCall]
      refine Run.map_run_ok ?_
      rw [Run.bind_run_ok (load_run hn), if_neg (not_not_intro hTag), hRun]
    · rw [after, hOp, hHas, if_pos (by simpa using hTag)]
      exact hWf'
  · refine refines_skip (r := .flag false) hWf ?_ ?_
    · rw [hCall]
      refine Run.map_run_ok ?_
      rw [Run.bind_run_ok (load_run hn), if_pos hTag]
      rfl
    · rw [hOp, hHas, if_neg (by simpa using hTag)]

theorem addItemToArray_refines (hWf : WellFormed 0 h kids) {array item : Ptr}
    (hAdm : (addItemToArray array item).Admissible h kids) :
    (addItemToArray array item).Refines h kids := by
  cases array with
  | none => exact refines_skip (r := .flag false) hWf rfl rfl
  | some p =>
    cases item with
    | none => exact refines_skip (r := .flag false) hWf rfl rfl
    | some i =>
      obtain ⟨hp, hi⟩ := hAdm p i rfl rfl
      obtain ⟨h', hRun, hEdited⟩ := attach_run hWf hp hi
      refine refines_checked hWf hp rfl rfl ⟨true, h', ?_, hEdited.wf⟩
      rw [Run.bind_run_ok hRun]
      rfl

theorem addItemToObject_refines (hWf : WellFormed 0 h kids) {object name item : Ptr}
    (hAdm : (addItemToObject object name item).Admissible h kids) :
    (addItemToObject object name item).Refines h kids := by
  cases object with
  | none => exact refines_skip (r := .flag false) hWf rfl rfl
  | some p =>
    cases name with
    | none => exact refines_skip (r := .flag false) hWf rfl rfl
    | some s =>
      cases item with
      | none => exact refines_skip (r := .flag false) hWf rfl rfl
      | some i =>
        obtain ⟨hp, hi, hs⟩ := hAdm p s i rfl rfl rfl
        obtain ⟨m, hm⟩ := Option.isSome_iff_exists.mp hi.live
        refine refines_checked hWf hp rfl (ite_and ..) ?_
        by_cases hNamed : (h.text (some s)).isSome ∧ h.outcomes 0 = true
        · obtain ⟨k, hk⟩ := Option.isSome_iff_exists.mp hNamed.1
          obtain ⟨h', hRun, hEdited⟩ := attachNamedChild_run hWf hp hi hs hm hk hNamed.2
          rw [if_pos hNamed]
          exact ⟨true, h', hRun, hEdited.wf⟩
        · obtain ⟨h', hRun, hEq⟩ := attachNamedChild_fail (p := p) (i := i) hs hNamed
          rw [if_neg hNamed]
          refine ⟨false, h', hRun, ?_⟩
          rcases hEq with rfl | rfl
          · exact hWf
          · exact hWf.of_nodes hWf.bounded.tick rfl

theorem addItemToObjectCS_refines (hWf : WellFormed 0 h kids) {object name item : Ptr}
    (hAdm : (addItemToObjectCS object name item).Admissible h kids) :
    (addItemToObjectCS object name item).Refines h kids := by
  cases object with
  | none => exact refines_skip (r := .flag false) hWf rfl rfl
  | some p =>
    cases name with
    | none => exact refines_skip (r := .flag false) hWf rfl rfl
    | some s =>
      cases item with
      | none => exact refines_skip (r := .flag false) hWf rfl rfl
      | some i =>
        obtain ⟨hp, hi⟩ := hAdm p s i rfl rfl rfl
        obtain ⟨m, hm⟩ := Option.isSome_iff_exists.mp hi.live
        obtain ⟨h', hRekey, hAttach, hEdited⟩ :=
          rekey_attach_run hWf hp hi isReference_setConst (some s) hm
        have hCall := congrArg (Reply.flag <$> ·) (cjsonAddItemToObjectCS_eq p s i)
        refine refines_checked hWf hp hCall rfl ⟨true, h', ?_, hEdited.wf⟩
        rw [Run.bind_run_ok hRekey, Run.bind_run_ok hAttach]
        rfl

/-- The children of a node that may be changed are its list. -/
theorem childAtIndex_kids (hWf : WellFormed 0 h kids) {p : Addr} (hp : Mutable 0 h p)
    (which : Int) :
    childAtIndex (some p) which h = .ok ((indexIn which (kids p)).bind ((kids p)[·]?), h) := by
  obtain ⟨hN, n, hn, hRef⟩ := hp
  exact childAtIndex_run hWf.bounded hn (hWf.trees.lists hN hn hRef) (hWf.trees.forest.nodup p)

theorem getObjectItemImpl_kids (hWf : WellFormed 0 h kids) {p : Addr} (hp : Mutable 0 h p)
    (hKeys : KeysReadable h (kids p)) (string : Ptr) (hs : ∀ s, string = some s → h.Readable s)
    (cs : Bool) :
    getObjectItemImpl (some p) string cs h
      = .ok ((keyIn h cs string (kids p)).bind ((kids p)[·]?), h) := by
  obtain ⟨hN, n, hn, hRef⟩ := hp
  exact getObjectItemImpl_run hWf.bounded hn (hWf.trees.lists hN hn hRef)
    (hWf.trees.forest.nodup p) hKeys hs

/-- The item goes in front of the child at the index, or to the end past the last one. -/
theorem insertAt_run (hWf : WellFormed 0 h kids) {p i : Addr} {which : Int} (hp : Mutable 0 h p)
    (hi : Handed 0 h kids p i) (hNonneg : 0 ≤ which) :
    ∃ h', (match (indexIn which (kids p)).bind ((kids p)[·]?) with
        | none => attachChild (some p) (some i)
        | some a => spliceBefore p a i) h = .ok ((), h') ∧
      WellFormed 0 h' ((insertAt kids p which.toNat i).apply kids) := by
  cases hw : indexIn which (kids p) with
  | none =>
    have hPast : min which.toNat (kids p).length = (kids p).length := by
      unfold indexIn at hw
      split_ifs at hw
      omega
    obtain ⟨h', hRun, hEdited⟩ := attach_run hWf hp hi
    refine ⟨h', hRun, ?_⟩
    rw [ListOp.apply, insertAt, hPast, List.insertIdx_length_self]
    exact hEdited.wf
  | some w =>
    obtain ⟨a, ha⟩ := indexIn_getElem hw
    have hIn : min which.toNat (kids p).length = w := by
      unfold indexIn at hw
      split_ifs at hw
      cases hw
      omega
    obtain ⟨xs, ys, hEq, -, -, hInsert⟩ := split_at ha
    obtain ⟨h', hRun, hEdited⟩ := insertChild_run hWf hp hi hEq
    refine ⟨h', ?_, ?_⟩
    · rw [show (some w).bind ((kids p)[·]?) = some a from ha]
      exact hRun
    · rw [ListOp.apply, insertAt, hIn, hInsert]
      exact hEdited.wf

theorem insertItemInArray_refines (hWf : WellFormed 0 h kids) {array newitem : Ptr} {which : Int}
    (hAdm : (insertItemInArray array which newitem).Admissible h kids) :
    (insertItemInArray array which newitem).Refines h kids := by
  cases array with
  | none => exact refines_skip (r := .flag false) hWf rfl rfl
  | some p =>
    cases newitem with
    | none => exact refines_skip (r := .flag false) hWf rfl rfl
    | some i =>
      obtain ⟨hp, hi⟩ := hAdm p i rfl rfl
      by_cases hNeg : which < 0
      · refine refines_skip (r := .flag false) hWf (Run.map_run_ok ?_) ?_
        · rw [cjsonInsertItemInArray, if_pos (Or.inr (Or.inr hNeg))]
          rfl
        · rw [listOp, if_neg fun hAnd => absurd hAnd.1 (by omega)]
      · obtain ⟨h', hRun, hWf'⟩ := insertAt_run hWf hp hi (Int.not_lt.mp hNeg)
        have hCall := congrArg (Reply.flag <$> ·) (cjsonInsertItemInArray_eq p i hNeg)
        have hOp : (insertItemInArray (some p) which (some i)).listOp h kids =
            if hasTag h cjsonArray p then some (insertAt kids p which.toNat i) else none := by
          rw [listOp, ite_and, if_pos (Int.not_lt.mp hNeg)]
        refine refines_checked hWf hp hCall hOp ⟨true, h', ?_, hWf'⟩
        rw [Run.bind_run_ok (childAtIndex_kids hWf hp which)]
        cases hFound : (indexIn which (kids p)).bind ((kids p)[·]?) with
        | none =>
          rw [hFound] at hRun
          exact Run.bind_run_ok hRun
        | some a =>
          rw [hFound] at hRun
          exact Run.bind_run_ok hRun

/-! ### Detach and delete -/

/-- The common part of the calls that take a found child out. -/
theorem detachFound_refines (hWf : WellFormed 0 h kids) {p : Addr} (hp : Mutable 0 h p)
    {find : M Ptr} {position : Option Nat}
    (hFind : find h = .ok (position.bind ((kids p)[·]?), h))
    (hIn : ∀ w, position = some w → ∃ a, (kids p)[w]? = some a) :
    ∃ q h', (do
        let item ← find
        if item.isNone then
          return none
        detach (some p) item
        return item : M Ptr) h = .ok (q, h') ∧
      WellFormed 0 h' ((position.map (eraseAt kids p)).elim kids (·.apply kids)) := by
  rw [Run.bind_run_ok hFind]
  cases position with
  | none => exact ⟨none, h, rfl, hWf⟩
  | some w =>
    obtain ⟨a, ha⟩ := hIn w rfl
    obtain ⟨h', hRun, hWf', -, -⟩ := detachAt_run hWf hp ha
    refine ⟨some a, h', ?_, hWf'⟩
    rw [show (some w).bind ((kids p)[·]?) = some a from ha]
    show (detach (some p) (some a) >>= fun _ => pure (some a)) h = _
    rw [Run.bind_run_ok hRun]
    rfl

/-- The common part of the calls that delete a found child. -/
theorem deleteFound_refines (hWf : WellFormed 0 h kids) {p : Addr} (hp : Mutable 0 h p)
    {find : M Ptr} {position : Option Nat}
    (hFind : find h = .ok (position.bind ((kids p)[·]?), h))
    (hIn : ∀ w, position = some w → ∃ a, (kids p)[w]? = some a) :
    ∃ h', ((do
        let item ← find
        if item.isNone then
          return none
        detach (some p) item
        return item : M Ptr) >>= fun item => if item.isSome then freeCjson item else pure ()) h
        = .ok ((), h') ∧
      WellFormed 0 h' ((position.map (deleteAt kids p)).elim kids (·.apply kids)) := by
  rw [bind_assoc, Run.bind_run_ok hFind]
  cases position with
  | none => exact ⟨h, rfl, hWf⟩
  | some w =>
    obtain ⟨a, ha⟩ := hIn w rfl
    obtain ⟨h', h'', hRun, hFree, hWf'⟩ := deleteAt_run hWf hp ha
    refine ⟨h'', ?_, hWf'⟩
    rw [show (some w).bind ((kids p)[·]?) = some a from ha]
    show ((detach (some p) (some a) >>= fun _ => pure (some a)) >>= fun item =>
      if item.isSome then freeCjson item else pure ()) h = _
    rw [bind_assoc, Run.bind_run_ok hRun]
    exact hFree

theorem detachItemViaPointer_refines (hWf : WellFormed 0 h kids) {parent item : Ptr}
    (hAdm : (detachItemViaPointer parent item).Admissible h kids) :
    (detachItemViaPointer parent item).Refines h kids := by
  cases parent with
  | none => exact refines_skip (r := .item none) hWf rfl rfl
  | some p =>
    cases item with
    | none => exact refines_skip (r := .item none) hWf rfl rfl
    | some a =>
      obtain ⟨hp, ha⟩ := hAdm p a rfl rfl
      obtain ⟨w, hw, haw⟩ := idxOf_getElem ha
      obtain ⟨h', hRun, hWf', -, -⟩ := detachAt_run hWf hp haw
      refine ⟨.item (some a), h', Run.map_run_ok ?_, ?_⟩
      · show (detach (some p) (some a) >>= fun _ => pure (some a)) h = _
        rw [Run.bind_run_ok hRun]
        rfl
      · rw [after, listOp, hw]
        exact hWf'

theorem detachItemFromArray_refines (hWf : WellFormed 0 h kids) {array : Ptr} {which : Int}
    (hAdm : (detachItemFromArray array which).Admissible h kids) :
    (detachItemFromArray array which).Refines h kids := by
  cases array with
  | none => exact refines_skip (r := .item none) hWf rfl rfl
  | some p =>
    have hp := hAdm p rfl
    obtain ⟨q, h', hRun, hWf'⟩ := detachFound_refines hWf hp (childAtIndex_kids hWf hp which)
      fun w hw => indexIn_getElem hw
    exact ⟨.item q, h', Run.map_run_ok hRun, hWf'⟩

/-- The lookup of a key, for any pointer to it that is allowed. -/
theorem getObjectItemImpl_adm (hWf : WellFormed 0 h kids) {p : Addr} {string : Ptr} {P : Prop}
    (hAdm : ∀ s, string = some s → Mutable 0 h p ∧ KeysReadable h (kids p) ∧ h.Readable s ∧ P)
    (cs : Bool) :
    (string = none ∨ (Mutable 0 h p ∧ P)) ∧ getObjectItemImpl (some p) string cs h
      = .ok ((keyIn h cs string (kids p)).bind ((kids p)[·]?), h) := by
  cases string with
  | none => exact ⟨Or.inl rfl, rfl⟩
  | some s =>
    obtain ⟨hp, hKeys, hs, hP⟩ := hAdm s rfl
    refine ⟨Or.inr ⟨hp, hP⟩, getObjectItemImpl_kids hWf hp hKeys _ (fun t ht => ?_) cs⟩
    cases ht
    exact hs

theorem detachItemFromObject_refines (hWf : WellFormed 0 h kids) {cs : Bool} {object string : Ptr}
    (hAdm : (detachItemFromObject cs object string).Admissible h kids) :
    (detachItemFromObject cs object string).Refines h kids := by
  cases object with
  | none => cases cs <;> exact refines_skip (r := .item none) hWf rfl rfl
  | some p =>
    obtain ⟨hArg, hFind⟩ := getObjectItemImpl_adm hWf (P := True)
      (fun s hs => by simpa using hAdm p s rfl hs) cs
    rcases hArg with rfl | ⟨hp, -⟩
    · cases cs <;> exact refines_skip (r := .item none) hWf rfl rfl
    · obtain ⟨q, h', hRun, hWf'⟩ := detachFound_refines hWf hp hFind fun w hw => keyIn_getElem hw
      refine ⟨.item q, h', ?_, hWf'⟩
      cases cs <;> exact Run.map_run_ok hRun

theorem deleteItemFromArray_refines (hWf : WellFormed 0 h kids) {array : Ptr} {which : Int}
    (hAdm : (deleteItemFromArray array which).Admissible h kids) :
    (deleteItemFromArray array which).Refines h kids := by
  cases array with
  | none => exact refines_skip (r := .done) hWf rfl rfl
  | some p =>
    have hp := hAdm p rfl
    obtain ⟨h', hRun, hWf'⟩ := deleteFound_refines hWf hp (childAtIndex_kids hWf hp which)
      fun w hw => indexIn_getElem hw
    exact ⟨.done, h', Run.map_run_ok hRun, hWf'⟩

theorem deleteItemFromObject_refines (hWf : WellFormed 0 h kids) {cs : Bool} {object string : Ptr}
    (hAdm : (deleteItemFromObject cs object string).Admissible h kids) :
    (deleteItemFromObject cs object string).Refines h kids := by
  cases object with
  | none => cases cs <;> exact refines_skip (r := .done) hWf rfl rfl
  | some p =>
    obtain ⟨hArg, hFind⟩ := getObjectItemImpl_adm hWf (P := True)
      (fun s hs => by simpa using hAdm p s rfl hs) cs
    rcases hArg with rfl | ⟨hp, -⟩
    · cases cs <;> exact refines_skip (r := .done) hWf rfl rfl
    · obtain ⟨h', hRun, hWf'⟩ := deleteFound_refines hWf hp hFind fun w hw => keyIn_getElem hw
      refine ⟨.done, h', ?_, hWf'⟩
      cases cs <;> exact Run.map_run_ok hRun

/-! ### Replace -/

/-- The common part of the calls that replace a found child. -/
theorem replaceFound_refines (hWf : WellFormed 0 h kids) {p : Addr} (hp : Mutable 0 h p)
    {find : M Ptr} {position : Option Nat} {newitem : Ptr}
    (hFind : find h = .ok (position.bind ((kids p)[·]?), h))
    (hIn : ∀ w, position = some w → ∃ a, (kids p)[w]? = some a)
    (hNew : ∀ i, newitem = some i → Handed 0 h kids p i) :
    ∃ b h', (do
        let item ← find
        if item.isNone then
          return false
        replaceViaPointer (some p) item newitem : M Bool) h = .ok (b, h') ∧
      WellFormed 0 h' ((newitem.bind fun i => position.map (overwriteAt kids p i)).elim kids
        (·.apply kids)) := by
  rw [Run.bind_run_ok hFind]
  cases position with
  | none => exact ⟨false, h, rfl, by cases newitem <;> exact hWf⟩
  | some w =>
    obtain ⟨a, ha⟩ := hIn w rfl
    rw [show (some w).bind ((kids p)[·]?) = some a from ha]
    cases newitem with
    | none => exact ⟨false, h, rfl, hWf⟩
    | some i =>
      obtain ⟨h', hRun, hWf'⟩ := overwriteAt_run hWf hp (hNew i rfl) ha
      exact ⟨true, h', hRun, hWf'⟩

theorem replaceItemViaPointer_refines (hWf : WellFormed 0 h kids) {parent item replacement : Ptr}
    (hAdm : (replaceItemViaPointer parent item replacement).Admissible h kids) :
    (replaceItemViaPointer parent item replacement).Refines h kids := by
  cases parent with
  | none => exact refines_skip (r := .flag false) hWf rfl rfl
  | some p =>
    cases item with
    | none => exact refines_skip (r := .flag false) hWf rfl rfl
    | some a =>
      cases replacement with
      | none => exact refines_skip (r := .flag false) hWf rfl rfl
      | some i =>
        obtain ⟨hp, ha, hi⟩ := hAdm p a i rfl rfl rfl
        obtain ⟨w, hw, haw⟩ := idxOf_getElem ha
        obtain ⟨h', hRun, hWf'⟩ := overwriteAt_run hWf hp hi haw
        refine ⟨.flag true, h', Run.map_run_ok hRun, ?_⟩
        rw [after, listOp, hw]
        exact hWf'

theorem replaceItemInArray_refines (hWf : WellFormed 0 h kids) {array newitem : Ptr} {which : Int}
    (hAdm : (replaceItemInArray array which newitem).Admissible h kids) :
    (replaceItemInArray array which newitem).Refines h kids := by
  cases array with
  | none => exact refines_skip (r := .flag false) hWf rfl rfl
  | some p =>
    obtain ⟨hp, hNew⟩ := hAdm p rfl
    obtain ⟨b, h', hRun, hWf'⟩ := replaceFound_refines hWf hp (childAtIndex_kids hWf hp which)
      (fun w hw => indexIn_getElem hw) hNew
    refine ⟨.flag b, h', Run.map_run_ok hRun, ?_⟩
    cases newitem <;> exact hWf'

theorem replaceItemInObject_refines (hWf : WellFormed 0 h kids) {cs : Bool}
    {object string newitem : Ptr}
    (hAdm : (replaceItemInObject cs object string newitem).Admissible h kids) :
    (replaceItemInObject cs object string newitem).Refines h kids := by
  cases object with
  | none => cases cs <;> exact refines_skip (r := .flag false) hWf rfl rfl
  | some p =>
    obtain ⟨hArg, hFind⟩ := getObjectItemImpl_adm hWf (hAdm p · rfl) cs
    rcases hArg with rfl | ⟨hp, hNew⟩
    · cases newitem <;> cases cs <;> exact refines_skip (r := .flag false) hWf rfl rfl
    · obtain ⟨b, h', hRun, hWf'⟩ := replaceFound_refines hWf hp hFind
        (fun w hw => keyIn_getElem hw) hNew
      refine ⟨.flag b, h', ?_, ?_⟩
      · cases cs <;> exact Run.map_run_ok hRun
      · cases newitem <;> exact hWf'

theorem refines (e : Edit) (hWf : WellFormed 0 h kids) (hAdm : e.Admissible h kids) :
    e.Refines h kids := by
  cases e with
  | addItemToArray => exact addItemToArray_refines hWf hAdm
  | addItemToObject => exact addItemToObject_refines hWf hAdm
  | addItemToObjectCS => exact addItemToObjectCS_refines hWf hAdm
  | insertItemInArray => exact insertItemInArray_refines hWf hAdm
  | detachItemViaPointer => exact detachItemViaPointer_refines hWf hAdm
  | detachItemFromArray => exact detachItemFromArray_refines hWf hAdm
  | detachItemFromObject => exact detachItemFromObject_refines hWf hAdm
  | deleteItemFromArray => exact deleteItemFromArray_refines hWf hAdm
  | deleteItemFromObject => exact deleteItemFromObject_refines hWf hAdm
  | replaceItemViaPointer => exact replaceItemViaPointer_refines hWf hAdm
  | replaceItemInArray => exact replaceItemInArray_refines hWf hAdm
  | replaceItemInObject => exact replaceItemInObject_refines hWf hAdm

/-- Every call that moves items between lists of children runs through on a well-formed heap
and leaves a well-formed heap: the children of the one changed node are those of the list
operation, and all other lists of children are as before. -/
theorem run_refines_listOp (e : Edit) (hWf : WellFormed 0 h kids) (hAdm : e.Admissible h kids) :
    ∃ r h', e.run h = .ok (r, h') ∧ WellFormed 0 h' (e.after h kids) :=
  refines e hWf hAdm

/-- `[null, null, null]` at `0` and `[null]` at `4`. -/
def twoArrays : Heap where
  nodes a := [{ CNode.zeroed with type_ := cjsonArray, child := some 1 },
    { CNode.zeroed with type_ := cjsonNull, next := some 2 },
    { CNode.zeroed with type_ := cjsonNull, prev := some 1, next := some 3 },
    { CNode.zeroed with type_ := cjsonNull, prev := some 2 },
    { CNode.zeroed with type_ := cjsonArray, child := some 5 },
    { CNode.zeroed with type_ := cjsonNull }][a]?
  bufs _ := none
  brk := 6
  outcomes _ := true
  misuses := []
  lastError := none

def twoLists (a : Addr) : List Addr := if a = 0 then [1, 2, 3] else if a = 4 then [5] else []

theorem mem_twoLists {a c : Nat} :
    c ∈ twoLists a ↔ a = 0 ∧ (c = 1 ∨ c = 2 ∨ c = 3) ∨ a = 4 ∧ c = 5 := by
  unfold twoLists
  split_ifs <;> simp_all

/-- Every node of the two arrays, with its children. -/
theorem twoArrays_nodes {a : Nat} {n : CNode} (hn : twoArrays.nodes a = some n) :
    a < 6 ∧ n.isRef = false ∧ IsList twoArrays.link n.child (twoLists a) ∧
      (IsRoot twoLists a → n.prev = none ∧ n.next = none) := by
  have hLt : a < 6 := (List.getElem?_eq_some_iff.mp hn).1
  have hNot : ∀ {p c}, c ∈ twoLists p → ¬ IsRoot twoLists c := fun hc hRoot => hRoot _ hc
  have hCases : a = 0 ∨ a = 1 ∨ a = 2 ∨ a = 3 ∨ a = 4 ∨ a = 5 := by omega
  rcases hCases with rfl | rfl | rfl | rfl | rfl | rfl
  · cases hn
    exact ⟨hLt, rfl, ⟨some 3, rfl, some 2, rfl, rfl, some 3, rfl, rfl, none, rfl, rfl, rfl⟩,
      fun _ => ⟨rfl, rfl⟩⟩
  · cases hn
    exact ⟨hLt, rfl, isList_nil, fun hRoot => absurd hRoot (hNot (p := 0) (by decide))⟩
  · cases hn
    exact ⟨hLt, rfl, isList_nil, fun hRoot => absurd hRoot (hNot (p := 0) (by decide))⟩
  · cases hn
    exact ⟨hLt, rfl, isList_nil, fun hRoot => absurd hRoot (hNot (p := 0) (by decide))⟩
  · cases hn
    exact ⟨hLt, rfl, ⟨some 5, rfl, none, rfl, rfl, rfl⟩, fun _ => ⟨rfl, rfl⟩⟩
  · cases hn
    exact ⟨hLt, rfl, isList_nil, fun _ => ⟨rfl, rfl⟩⟩

theorem wellFormed_twoArrays : WellFormed 0 twoArrays twoLists where
  bounded := ⟨fun {a} ha => List.getElem?_eq_none ha, fun _ => rfl⟩
  trees := by
    refine ⟨fun {a n} _ hn _ => (twoArrays_nodes hn).2.2.1, fun {a c} hc => ?_,
      fun a => ?_, fun {a b c : Nat} hc hc' => ?_, ?_⟩
    · refine ⟨Nat.zero_le c, Nat.zero_le a, ?_⟩
      rcases mem_twoLists.mp hc with ⟨rfl, -⟩ | ⟨rfl, -⟩
      · exact ⟨_, rfl, rfl⟩
      · exact ⟨_, rfl, rfl⟩
    · unfold twoLists
      split_ifs <;> decide
    · rw [mem_twoLists] at hc hc'
      have hEq : a = b := by omega
      exact hEq
    · refine Subrelation.wf (fun {c a : Nat} hc => ?_) (measure fun a => 6 - a).wf
      show 6 - c < 6 - a
      rw [mem_twoLists] at hc
      omega

theorem isRoot_twoLists {i : Nat} (hi : i = 0 ∨ i = 4) : IsRoot twoLists i := by
  intro p hp
  rw [mem_twoLists] at hp
  omega

/-- The second array is the root of another tree. -/
theorem handed_twoArrays : Handed 0 twoArrays twoLists 0 4 := by
  refine ⟨Nat.zero_le 4, rfl, isRoot_twoLists (Or.inr rfl), fun hBelow => ?_⟩
  rcases below_iff.mp hBelow with hEq | ⟨c, hc, hBelow⟩
  · cases hEq
  · rcases mem_twoLists.mp hc with ⟨hEq, -⟩ | ⟨-, rfl⟩
    · cases hEq
    · rw [below_leaf rfl] at hBelow
      cases hBelow

/-- The second array is inserted between the items of the first one. -/
theorem run_refines_listOp_twoArrays :
    ∃ r h', (insertItemInArray (some 0) 1 (some 4)).run twoArrays = .ok (r, h') ∧
      WellFormed 0 h' ((insertItemInArray (some 0) 1 (some 4)).after twoArrays twoLists) := by
  apply run_refines_listOp _ wellFormed_twoArrays
  intro p i hp hi
  cases hp
  cases hi
  exact ⟨⟨le_refl 0, _, rfl, rfl⟩, handed_twoArrays⟩

end Edit

end CjsonRs.Ffi
