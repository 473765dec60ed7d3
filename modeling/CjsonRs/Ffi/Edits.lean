import CjsonRs.Ffi.Free
import CjsonRs.Ffi.Lookup

/-!
# Moving nodes between trees

The steps that `cjson-rs-ffi` edits trees with, on a heap of trees: attach a root, take a
child out, put a root in front of a child or in the place of one, free a root. Each leaves a
heap of trees; only the list of one parent changes, as the list operation says.
-/

namespace CjsonRs.Ffi

open CjsonRs.Core Library Library.Link Library.Forest

/-- A heap whose nodes from `N` on form the trees `kids`. -/
structure WellFormed (N : Addr) (h : Heap) (kids : Addr → List Addr) : Prop where
  bounded : h.Bounded
  trees : Represents N h kids

variable {N : Addr} {h h' : Heap} {a i p x : Addr} {n m : CNode} {c : Ptr}
  {kids : Addr → List Addr} {xs ys touched ks : List Addr}

/-- A node that may get children. -/
def Mutable (N : Addr) (h : Heap) (p : Addr) : Prop :=
  N ≤ p ∧ ∃ n, h.nodes p = some n ∧ n.isRef = false

/-- A root of another tree than the one of `p`. -/
structure Handed (N : Addr) (h : Heap) (kids : Addr → List Addr) (p i : Addr) : Prop where
  above : N ≤ i
  live : (h.nodes i).isSome
  root : IsRoot kids i
  apart : ¬ Below kids i p

theorem Rewritten.bounded {L : Addr → Option (Link Addr)} {b : Addr → Option CNode}
    (hW : Rewritten h h' L b) (hBounded : h.Bounded) (hb : ∀ a, h.body a = none → b a = none) :
    h'.Bounded := by
  have hBrk : h'.brk = h.brk := by rw [hW.rest]
  have hBufs : h'.bufs = h.bufs := by rw [hW.rest]
  refine ⟨fun {a} ha => ?_, fun {s} hs => ?_⟩
  · rw [hBrk] at ha
    have hNone : h'.body a = none := by
      rw [hW.body]
      exact hb a (by rw [Heap.body, hBounded.nodes ha]; rfl)
    exact Option.map_eq_none_iff.mp hNone
  · rw [hBrk] at hs
    rw [hBufs, hBounded.bufs hs]

theorem setChild_eq_none {b : Addr → Option CNode} (hb : b a = none) :
    setChild b p c a = none := by
  by_cases ha : a = p
  · subst ha
    rw [setChild, Function.update_self, hb]
    rfl
  · rw [setChild_of_ne ha, hb]

/-- An edit of the list of `p`: what it leaves. -/
structure Edited (N : Addr) (h h' : Heap) (kids : Addr → List Addr) (p : Addr)
    (ks touched : List Addr) : Prop where
  wf : WellFormed N h' (Function.update kids p ks)
  kept : ∀ x, x ≠ p → x ∉ touched → h'.nodes x = h.nodes x
  body : ∃ c, h'.body = setChild h.body p c
  rest : h' = { h with nodes := h'.nodes }

/-- An edit leaves the types of the nodes. -/
theorem Edited.mutable (hEdited : Edited N h h' kids p ks touched) (hx : Mutable N h x) :
    Mutable N h' x := by
  obtain ⟨hN, n, hn, hRef⟩ := hx
  obtain ⟨c, hBody⟩ := hEdited.body
  have hShape : (h'.body x).map CNode.type_ = (h.body x).map CNode.type_ := by
    rw [hBody]
    by_cases hxp : x = p
    · subst hxp
      rw [setChild_self (body_eq hn), body_eq hn]
      rfl
    · rw [setChild_of_ne hxp]
  rw [body_eq hn] at hShape
  obtain ⟨m, hm, hType⟩ := Option.map_eq_some_iff.mp hShape
  obtain ⟨n', hn', rfl⟩ := node_of_body hm
  refine ⟨hN, n', hn', ?_⟩
  have hEq : n'.type_ = n.type_ := hType
  rw [CNode.isRef, hEq]
  exact hRef

/-- A splice is an edit. -/
theorem edited_of_spliced (hWf : WellFormed N h kids) (hp : Mutable N h p)
    (hSpliced : Spliced h h' p ks touched) (hW : Rewritten h h' h'.link (setChild h.body p c))
    (hTouched : ∀ x ∈ touched, x ∈ kids p ∨ IsRoot kids x) (hks : ∀ x ∈ ks, N ≤ x)
    (hForest : IsForest (Function.update kids p ks)) : Edited N h h' kids p ks touched := by
  obtain ⟨hN, n, hn, hRef⟩ := hp
  refine ⟨⟨hW.bounded hWf.bounded fun a ha => setChild_eq_none ha, ?_⟩, fun x hx hOff => ?_,
    ⟨c, hW.body⟩, hW.rest⟩
  · exact hWf.trees.splice hSpliced hN hn hRef hTouched hks hForest
  · exact nodes_congr (hSpliced.off x hOff) (by rw [hW.body, setChild_of_ne hx])

theorem Handed.not_mem (hi : Handed N h kids p i) : i ∉ kids p := hi.root p

theorem Handed.ne (hi : Handed N h kids p i) : i ≠ p := by
  rintro rfl
  exact hi.apart (below_refl i)

theorem Handed.link (hi : Handed N h kids p i) : (h.link i).isSome := by
  rw [isSome_link]
  exact hi.live

/-- The list of `p` with `i` put in. -/
theorem forest_insert (hWf : WellFormed N h kids) (hi : Handed N h kids p i)
    (hEq : kids p = xs ++ ys) : IsForest (Function.update kids p (xs ++ i :: ys)) := by
  have hNodup := hWf.trees.forest.nodup p
  have hNew := hi.not_mem
  rw [hEq] at hNodup hNew
  refine hWf.trees.forest.graft hi.root hi.apart ?_ fun c hc => ?_
  · rw [List.nodup_middle]
    exact List.nodup_cons.mpr ⟨hNew, hNodup⟩
  · rw [hEq]
    simpa [or_left_comm] using hc

/-- A root that was put behind the children of `p`. -/
theorem edited_attach (hWf : WellFormed N h kids) (hp : Mutable N h p) (hi : Handed N h kids p i)
    (hSpliced : Spliced h h' p (kids p ++ [i]) (kids p ++ [i]))
    (hW : Rewritten h h' h'.link (setChild h.body p c)) :
    Edited N h h' kids p (kids p ++ [i]) (kids p ++ [i]) := by
  refine edited_of_spliced hWf hp hSpliced hW (fun x hx => ?_) (fun x hx => ?_) ?_
  · rcases List.mem_append.mp hx with hx | hx
    · exact Or.inl hx
    · rw [List.mem_singleton.mp hx]
      exact Or.inr hi.root
  · rcases List.mem_append.mp hx with hx | hx
    · exact (hWf.trees.parent hx).1
    · rw [List.mem_singleton.mp hx]
      exact hi.above
  · exact forest_insert hWf hi (List.append_nil _).symm

theorem attach_run (hWf : WellFormed N h kids) (hp : Mutable N h p) (hi : Handed N h kids p i) :
    ∃ h', attachChild (some p) (some i) h = .ok ((), h') ∧
      Edited N h h' kids p (kids p ++ [i]) (kids p ++ [i]) := by
  obtain ⟨hN, n, hn, hRef⟩ := id hp
  have hList := hWf.trees.lists hN hn hRef
  obtain ⟨h', c, hRun, hSpliced, hW⟩ := attachChild_run hWf.bounded (body_eq hn) hList
    (hWf.trees.forest.nodup p) hi.link hi.not_mem
  exact ⟨h', hRun, edited_attach hWf hp hi hSpliced hW⟩

/-- The list of `p` with the child `a` taken out. -/
theorem forest_remove (hWf : WellFormed N h kids) (hEq : kids p = xs ++ a :: ys) :
    IsForest (Function.update kids p (xs ++ ys)) := by
  refine hWf.trees.forest.shrink fun x => ?_
  by_cases hx : x = p
  · subst hx
    rw [Function.update_self, hEq]
    exact (List.Sublist.refl xs).append (List.sublist_cons_self a ys)
  · rw [Function.update_of_ne hx]

/-- A child that was taken out of its list is a root. -/
theorem isRoot_removed (hWf : WellFormed N h kids) (hEq : kids p = xs ++ a :: ys) (ha : a ∉ ks) :
    IsRoot (Function.update kids p ks) a := by
  intro q hq
  by_cases hqp : q = p
  · rw [hqp, Function.update_self] at hq
    exact ha hq
  · rw [Function.update_of_ne hqp] at hq
    exact hqp (hWf.trees.forest.parent hq (by rw [hEq]; simp))

theorem detachChild_run (hWf : WellFormed N h kids) (hp : Mutable N h p)
    (hEq : kids p = xs ++ a :: ys) :
    ∃ h', detach (some p) (some a) h = .ok ((), h') ∧
      Edited N h h' kids p (xs ++ ys) (kids p) ∧ IsRoot (Function.update kids p (xs ++ ys)) a := by
  obtain ⟨hN, n, hn, hRef⟩ := hp
  have hNodup := hWf.trees.forest.nodup p
  have hList := hWf.trees.lists hN hn hRef
  rw [hEq] at hNodup hList
  obtain ⟨h', c, hRun, hSpliced, hW, -⟩ := detach_run (body_eq hn) hList hNodup
  rw [← hEq] at hSpliced
  obtain ⟨-, -, haXs, haYs, -⟩ := nodup_around hNodup
  refine ⟨h', hRun, edited_of_spliced hWf ⟨hN, n, hn, hRef⟩ hSpliced hW ?_ ?_ ?_, ?_⟩
  · exact fun x hx => Or.inl hx
  · intro x hx
    refine (hWf.trees.parent (a := p) ?_).1
    rw [hEq]
    rcases List.mem_append.mp hx with hx | hx <;> simp [hx]
  · exact forest_remove hWf hEq
  · exact isRoot_removed hWf hEq (by simp [haXs, haYs])

theorem insertChild_run (hWf : WellFormed N h kids) (hp : Mutable N h p)
    (hi : Handed N h kids p i) (hEq : kids p = xs ++ a :: ys) :
    ∃ h', spliceBefore p a i h = .ok ((), h') ∧
      Edited N h h' kids p (xs ++ i :: a :: ys) (xs ++ i :: a :: ys) := by
  obtain ⟨hN, n, hn, hRef⟩ := hp
  have hNodup := hWf.trees.forest.nodup p
  have hList := hWf.trees.lists hN hn hRef
  have hNew := hi.not_mem
  rw [hEq] at hNodup hList hNew
  obtain ⟨h', c, hRun, hSpliced, hW⟩ := spliceBefore_run (body_eq hn) hList hNodup hi.link hNew
  have hMem : ∀ x ∈ xs ++ i :: a :: ys, x ∈ kids p ∨ x = i := by
    intro x hx
    rw [hEq]
    simp only [List.mem_append, List.mem_cons] at hx ⊢
    tauto
  refine ⟨h', hRun, edited_of_spliced hWf ⟨hN, n, hn, hRef⟩ hSpliced hW ?_ ?_ ?_⟩
  · intro x hx
    rcases hMem x hx with hx | rfl
    · exact Or.inl hx
    · exact Or.inr hi.root
  · intro x hx
    rcases hMem x hx with hx | rfl
    · exact (hWf.trees.parent hx).1
    · exact hi.above
  · exact forest_insert hWf hi hEq

/-! ## Replacing -/

/-- The key of `a` is handed over to `i`, which has none. -/
def passKey (a i : Addr) : M Unit := do
  let n ← load (some a)
  if n.string.isSome then
    let r ← load (some i)
    if r.string.isNone then
      store (some i) ({ · with string := n.string })
      store (some a) ({ · with string := none })

/-- The replacement has no key of its own, so that it is given the member's. -/
def Moved (ma mi : CNode) : Prop := ma.string.isSome ∧ mi.string.isNone

instance (ma mi : CNode) : Decidable (Moved ma mi) := inferInstanceAs (Decidable (_ ∧ _))

/-- The fields of the nodes after `passKey`, with the nodes `ma` at `a` and `mi` at `i`. -/
def moveKey (b : Addr → Option CNode) (a i : Addr) (ma mi : CNode) : Addr → Option CNode :=
  if Moved ma mi then
    Function.update (Function.update b i (some { mi with string := ma.string })) a
      (some { ma with string := none })
  else b

theorem redirect_bind {α : Type} (p : Addr) (q v : Ptr) (rest : M α) :
    (redirect p q v >>= fun _ => rest) =
      if q.isSome then store q ({ · with next := v }) >>= fun _ => rest
      else store (some p) ({ · with child := v }) >>= fun _ => rest := by
  cases q <;> rfl

theorem redirectBack_bind {α : Type} (q v : Ptr) (rest : M α) :
    (redirectBack q v >>= fun _ => rest) =
      if q.isSome then store q ({ · with prev := v }) >>= fun _ => rest else rest := by
  cases q <;> rfl

theorem cjsonInsertItemInArray_eq (p i : Addr) {which : Int} (hWhich : ¬ which < 0) :
    cjsonInsertItemInArray (some p) which (some i) = (do
      let a ← load (some p)
      if tag a.type_ ≠ cjsonArray then
        return false
      match ← childAtIndex (some p) which with
      | none =>
        attachChild (some p) (some i)
        return true
      | some existing =>
        spliceBefore p existing i
        return true) := by
  have hRedirect : ∀ (q : Ptr) (rest : M Bool), (redirect p q (some i) >>= fun _ => rest) =
      if q.isNone then store (some p) ({ · with child := some i }) >>= fun _ => rest
      else store q ({ · with next := some i }) >>= fun _ => rest := by
    intro q rest
    cases q <;> rfl
  simp only [cjsonInsertItemInArray, Option.isNone_some, Bool.false_eq_true, hWhich, or_self,
    if_false, spliceBefore, bind_assoc, hRedirect]
  congr 1
  funext a
  split
  · rfl
  · congr 1
    funext existing
    cases existing <;> rfl

theorem replaceViaPointer_eq (p a i : Addr) :
    replaceViaPointer (some p) (some a) (some i) = (do
      spliceOver p a i
      passKey a i
      store (some a) ({ · with prev := none })
      store (some a) ({ · with next := none })
      freeCjson (some a)
      return true) := by
  simp only [replaceViaPointer, Option.isNone_some, Bool.false_eq_true, or_self, if_false,
    spliceOver, passKey, bind_assoc]
  simp only [redirect_bind, redirectBack_bind, Run.ite_bind, bind_assoc, pure_bind]

section MoveKey

variable {L : Addr → Option (Link Addr)} {b : Addr → Option CNode} {ma mi : CNode}

theorem moveKey_of_ne (ha : x ≠ a) (hi : x ≠ i) : moveKey b a i ma mi x = b x := by
  unfold moveKey
  split
  · rw [Function.update_of_ne ha, Function.update_of_ne hi]
  · rfl

theorem moveKey_self (ha : b a = some ma) :
    moveKey b a i ma mi a = some (if Moved ma mi then { ma with string := none } else ma) := by
  unfold moveKey
  by_cases hMoved : Moved ma mi
  · rw [if_pos hMoved, if_pos hMoved, Function.update_self]
  · rw [if_neg hMoved, if_neg hMoved, ha]

theorem moveKey_new (hi : b i = some mi) (hai : a ≠ i) :
    moveKey b a i ma mi i = some (if Moved ma mi then { mi with string := ma.string } else mi) := by
  unfold moveKey
  by_cases hMoved : Moved ma mi
  · rw [if_pos hMoved, if_pos hMoved, Function.update_of_ne hai.symm, Function.update_self]
  · rw [if_neg hMoved, if_neg hMoved, hi]

/-- Handing over a key changes no shape. -/
theorem shape_moveKey (ha : b a = some ma) (hi : b i = some mi) :
    (moveKey b a i ma mi x).map CNode.shape = (b x).map CNode.shape := by
  unfold moveKey
  split
  · by_cases hxa : x = a
    · subst hxa
      rw [Function.update_self, ha]
      rfl
    · rw [Function.update_of_ne hxa]
      by_cases hxi : x = i
      · subst hxi
        rw [Function.update_self, hi]
        rfl
      · rw [Function.update_of_ne hxi]
  · rfl

theorem passKey_run (hW : Rewritten h h' L b) (ha : b a = some ma) (hi : b i = some mi)
    (hai : a ≠ i) :
    ∃ h'', passKey a i h' = .ok ((), h'') ∧ Rewritten h h'' L (moveKey b a i ma mi) := by
  have hBody : ∀ {x m}, b x = some m → ∃ n, h'.nodes x = some n ∧ n.body = m := by
    intro x m hx
    rw [← hW.body] at hx
    exact node_of_body hx
  obtain ⟨na, hna, rfl⟩ := hBody ha
  obtain ⟨ni, hni, rfl⟩ := hBody hi
  rw [passKey, Run.bind_run_ok (load_run hna), moveKey]
  cases hString : na.string with
  | none => exact ⟨h', rfl, by rwa [if_neg (by simp [Moved, CNode.body, hString])]⟩
  | some s =>
    simp only [Option.isSome_some, if_true]
    rw [Run.bind_run_ok (load_run hni)]
    cases hNone : ni.string with
    | some t => exact ⟨h', rfl, by rwa [if_neg (by simp [Moved, CNode.body, hNone])]⟩
    | none =>
      obtain ⟨h₁, hRun₁, hW₁⟩ := store_body hW hi ({ · with string := some s }) (fun _ => rfl)
        (fun _ => rfl) (fun _ => rfl)
      have ha₁ : Function.update b i (some { ni.body with string := some s }.body) a
          = some na.body := by rw [Function.update_of_ne hai, ha]
      obtain ⟨h₂, hRun₂, hW₂⟩ := store_body hW₁ ha₁ ({ · with string := none }) (fun _ => rfl)
        (fun _ => rfl) (fun _ => rfl)
      refine ⟨h₂, ?_, ?_⟩
      · simp only [Option.isNone_none, if_true]
        rw [Run.bind_run_ok hRun₁, hRun₂]
      · rw [if_pos (by simp [Moved, CNode.body, hString, hNone]),
          show na.body.string = some s from hString]
        exact hW₂

end MoveKey

/-- The heap in which `i` has taken the place of the child `a` of `p`, right before `a` is
freed. -/
structure Replaced (N : Addr) (h h' : Heap) (kids : Addr → List Addr) (p a i : Addr)
    (ks : List Addr) : Prop where
  wf : WellFormed N h' (Function.update kids p ks)
  root : IsRoot (Function.update kids p ks) a
  kept : ∀ x, x ≠ p → x ≠ i → x ∉ kids p → h'.nodes x = h.nodes x
  body : ∃ c ma mi, h.body a = some ma ∧ h.body i = some mi ∧
    h'.body = moveKey (setChild h.body p c) a i ma mi
  rest : h' = { h with nodes := h'.nodes }

/-- The children of `p` with the root `i` in the place of `a`. -/
theorem exchange_forest (hWf : WellFormed N h kids) (hi : Handed N h kids p i)
    (hEq : kids p = xs ++ a :: ys) : IsForest (Function.update kids p (xs ++ i :: ys)) := by
  have hNodup := hWf.trees.forest.nodup p
  have hNew := hi.not_mem
  rw [hEq] at hNodup hNew
  refine hWf.trees.forest.graft hi.root hi.apart ?_ fun c hc => ?_
  · rw [List.nodup_middle]
    refine List.nodup_cons.mpr ⟨?_, ?_⟩
    · simp only [List.mem_append, List.mem_cons, not_or] at hNew ⊢
      exact ⟨hNew.1, hNew.2.2⟩
    · exact hNodup.sublist ((List.Sublist.refl xs).append (List.sublist_cons_self a ys))
  · rw [hEq]
    simp only [List.mem_append, List.mem_cons] at hc ⊢
    tauto

theorem spliced_of_replace {ma mi : CNode} {q r : Ptr} (hWf : WellFormed N h kids)
    (hi : Handed N h kids p i) (hEq : kids p = xs ++ a :: ys) (hn : h.nodes p = some n)
    (hAround : Around h.link n.child xs a ys q r) (ha : h.body a = some ma)
    (hmi : h.body i = some mi)
    (hW : Rewritten h h' (Link.replace h.link a i q r)
      (moveKey (setChild h.body p (entry n.child q (some i))) a i ma mi)) :
    Spliced h h' p (xs ++ i :: ys) (i :: kids p) := by
  have hNodup := hWf.trees.forest.nodup p
  have hNew := hi.not_mem
  have hap : a ≠ p := ne_of_child hWf.trees.forest (by rw [hEq]; simp : a ∈ kids p)
  rw [hEq] at hNodup hNew
  have hBodyA : setChild h.body p (entry n.child q (some i)) a = some ma := by
    rw [setChild_of_ne hap, ha]
  have hBodyI : setChild h.body p (entry n.child q (some i)) i = some mi := by
    rw [setChild_of_ne hi.ne, hmi]
  have hShape : ∀ x, h'.shape x
      = (setChild h.body p (entry n.child q (some i)) x).map CNode.shape := by
    intro x
    rw [← shape_moveKey hBodyA hBodyI, ← hW.body]
    unfold Heap.shape Heap.body
    rw [Option.map_map]
    rfl
  refine ⟨⟨n.shape, entry n.child q (some i), shape_eq hn, ?_, ?_⟩, fun x hx => ?_,
    fun x hx => ?_⟩
  · rw [hShape, setChild_self (body_eq hn)]
    rfl
  · rw [hW.link]
    exact replace_isList hAround hNodup hNew
  · rw [List.mem_cons, not_or, hEq] at hx
    rw [hW.link, replace_of_ne hAround hx.2 hx.1]
  · rw [hShape, setChild_of_ne hx]
    unfold Heap.shape Heap.body
    rw [Option.map_map]
    rfl

theorem replaced_of_rewritten {ma mi : CNode} {q r : Ptr} (hWf : WellFormed N h kids)
    (hp : Mutable N h p) (hi : Handed N h kids p i) (hEq : kids p = xs ++ a :: ys)
    (hn : h.nodes p = some n) (hAround : Around h.link n.child xs a ys q r)
    (ha : h.body a = some ma) (hmi : h.body i = some mi)
    (hW : Rewritten h h' (Link.replace h.link a i q r)
      (moveKey (setChild h.body p (entry n.child q (some i))) a i ma mi)) :
    Replaced N h h' kids p a i (xs ++ i :: ys) := by
  obtain ⟨hN, n', hn', hRef⟩ := hp
  rw [hn] at hn'
  cases hn'
  have hNodup := hWf.trees.forest.nodup p
  rw [hEq] at hNodup
  obtain ⟨-, -, haXs, haYs, -⟩ := nodup_around hNodup
  have haKid : a ∈ kids p := by rw [hEq]; simp
  have hai : a ≠ i := fun hEq => hi.root p (hEq ▸ haKid)
  have hSpliced := spliced_of_replace hWf hi hEq hn hAround ha hmi hW
  have hNone : ∀ x, h.body x = none →
      moveKey (setChild h.body p (entry n.child q (some i))) a i ma mi x = none := by
    intro x hx
    have hxa : x ≠ a := by
      rintro rfl
      rw [ha] at hx
      cases hx
    have hxi : x ≠ i := by
      rintro rfl
      rw [hmi] at hx
      cases hx
    rw [moveKey_of_ne hxa hxi, setChild_eq_none hx]
  refine ⟨⟨hW.bounded hWf.bounded hNone, ?_⟩, ?_, fun x hxp hxi hx => ?_, ?_, hW.rest⟩
  · refine hWf.trees.splice hSpliced hN hn hRef (fun x hx => ?_) (fun x hx => ?_)
      (exchange_forest hWf hi hEq)
    · rcases List.mem_cons.mp hx with hx | hx
      · rw [hx]
        exact Or.inr hi.root
      · exact Or.inl hx
    · rw [mem_around_iff haXs haYs, ← hEq] at hx
      rcases hx with hx | hx
      · rw [hx]
        exact hi.above
      · exact (hWf.trees.parent hx.1).1
  · exact isRoot_removed hWf hEq (by simp [haXs, haYs, hai])
  · have hxa : x ≠ a := fun hxa => hx (hxa ▸ haKid)
    refine nodes_congr (hSpliced.off x ?_) ?_
    · simp [hxi, hx]
    · rw [hW.body, moveKey_of_ne hxa hxi, setChild_of_ne hxp]
  · exact ⟨_, ma, mi, ha, hmi, hW.body⟩

/-- Putting a root in the place of the child `a`, which is freed: the links of nodes that are
neither children of `p` nor the new one are as before. -/
theorem replaceChild_links (hWf : WellFormed N h kids) (hp : Mutable N h p)
    (hi : Handed N h kids p i) (hEq : kids p = xs ++ a :: ys) :
    ∃ h' V, Replaced N h h' kids p a i (xs ++ i :: ys) ∧
      Subtree h' (Function.update kids p (xs ++ i :: ys)) a V ∧
      (∀ x, x ∉ i :: kids p → h'.link x = h.link x) ∧
      replaceViaPointer (some p) (some a) (some i) h
        = .ok (true, h'.freeAll (h'.blocksOf V)) := by
  obtain ⟨hN, n, hn, hRef⟩ := hp
  have hNodup := hWf.trees.forest.nodup p
  have hList := hWf.trees.lists hN hn hRef
  have hNew := hi.not_mem
  have haKid : a ∈ kids p := by rw [hEq]; simp
  have hap : a ≠ p := ne_of_child hWf.trees.forest haKid
  have hip : i ≠ p := hi.ne
  have hai : a ≠ i := fun hEq => hi.root p (hEq ▸ haKid)
  rw [hEq] at hNodup hList hNew
  obtain ⟨na, hna⟩ := hWf.trees.child_live haKid
  obtain ⟨ni, hni⟩ := Option.isSome_iff_exists.mp hi.live
  obtain ⟨h₁, q, r, hAround, hRun₁, hW₁⟩ :=
    spliceOver_run (body_eq hn) hList hNodup hi.link hNew
  have ha₁ : setChild h.body p (entry n.body.child q (some i)) a = some na.body := by
    rw [setChild_of_ne hap, body_eq hna]
  have hi₁ : setChild h.body p (entry n.body.child q (some i)) i = some ni.body := by
    rw [setChild_of_ne hip, body_eq hni]
  obtain ⟨h₂, hRun₂, hW₂⟩ := passKey_run hW₁ ha₁ hi₁ hai
  have hLive : (setPrevAt (setNextAt (setLink h.link i q r) q (some i)) r (some i) a).isSome := by
    refine isSome_setPrevAt _ (isSome_setNextAt _ ?_)
    rw [setLink_of_ne hai, hAround.cell]
    rfl
  obtain ⟨h₃, hRun₃, hW₃⟩ := store_prev hW₂ hLive none
  obtain ⟨h₄, hRun₄, hW₄⟩ := store_next hW₃ (isSome_setPrev _ hLive) none
  rw [setNext_setPrev hLive] at hW₄
  have hReplaced : Replaced N h h₄ kids p a i (xs ++ i :: ys) :=
    replaced_of_rewritten hWf ⟨hN, n, hn, hRef⟩ hi hEq hn hAround (body_eq hna) (body_eq hni) hW₄
  obtain ⟨n₄, hn₄⟩ : ∃ n₄, h₄.nodes a = some n₄ := by
    have hSome : (h₄.link a).isSome := by
      rw [hW₄.link, setLink_self]
      rfl
    rw [isSome_link] at hSome
    exact Option.isSome_iff_exists.mp hSome
  obtain ⟨V, hV⟩ := exists_subtree hReplaced.wf.trees (hWf.trees.parent haKid).1 hn₄
  refine ⟨h₄, V, hReplaced, hV, fun x hx => ?_, ?_⟩
  · rw [hEq, List.mem_cons, not_or] at hx
    rw [hW₄.link]
    exact replace_of_ne hAround hx.2 hx.1
  · rw [replaceViaPointer_eq, Run.bind_run_ok hRun₁, Run.bind_run_ok hRun₂, Run.bind_run_ok hRun₃,
      Run.bind_run_ok hRun₄, Run.bind_run_ok (freeCjson_run hReplaced.wf.bounded hV)]
    rfl

theorem replaceChild_run (hWf : WellFormed N h kids) (hp : Mutable N h p)
    (hi : Handed N h kids p i) (hEq : kids p = xs ++ a :: ys) :
    ∃ h' V, Replaced N h h' kids p a i (xs ++ i :: ys) ∧
      Subtree h' (Function.update kids p (xs ++ i :: ys)) a V ∧
      replaceViaPointer (some p) (some a) (some i) h
        = .ok (true, h'.freeAll (h'.blocksOf V)) := by
  obtain ⟨h', V, hReplaced, hV, -, hRun⟩ := replaceChild_links hWf hp hi hEq
  exact ⟨h', V, hReplaced, hV, hRun⟩

/-- Freeing a root of a well-formed heap. -/
theorem WellFormed.free {V : List Addr} (hWf : WellFormed N h kids) (hRoot : IsRoot kids a)
    (hV : Subtree h kids a V) : WellFormed N (h.freeAll (h.blocksOf V)) (prune kids a) :=
  ⟨hWf.bounded.freeAll, hWf.trees.free hRoot hV⟩

/-! ## Keys -/

/-- A node gets the key `q`, with `flag` for its type: its own key is freed first. -/
def rekey (i : Addr) (flag : TypeWord → TypeWord) (q : Ptr) : M Unit := do
  let c ← load (some i)
  if c.string.isSome ∧ !c.constKey then
    hookFree (c.string.map .buf)
  store (some i) fun n => { n with type_ := flag n.type_ }
  store (some i) ({ · with string := q })

/-- The heap after `rekey` of the node `n` at `i`. -/
def Heap.rekeyed (h : Heap) (i : Addr) (n : CNode) (flag : TypeWord → TypeWord) (q : Ptr) : Heap :=
  (h.freeAll (n.ownKey.toList.map .buf)).setNode i { n with type_ := flag n.type_, string := q }

theorem cjsonAddItemToObjectCS_eq (p s i : Addr) :
    cjsonAddItemToObjectCS (some p) (some s) (some i) = (do
      let o ← load (some p)
      if tag o.type_ ≠ cjsonObject then
        return false
      rekey i setConst (some s)
      attachChild (some p) (some i)
      return true) := by
  simp only [cjsonAddItemToObjectCS, Option.isNone_some, Bool.false_eq_true, or_self, if_false,
    rekey, bind_assoc]
  simp only [Run.ite_bind, bind_assoc]

theorem attachNamedChild_eq (p s i : Addr) :
    attachNamedChild (some p) (some s) (some i) = (do
      match ← loadStr (some s) with
      | none => return false
      | some keyStr =>
        let keyBuf ← allocCstr keyStr
        if keyBuf.isNone then
          return false
        rekey i clearConst keyBuf
        attachChild (some p) (some i)
        return true) := by
  simp only [attachNamedChild, Option.isNone_some, Bool.false_eq_true, or_self, if_false,
    rekey, bind_assoc]
  congr 1
  funext r
  cases r with
  | none => rfl
  | some k => simp only [Run.ite_bind, bind_assoc]

theorem nodes_freeTexts (ts : List Addr) : (h.freeAll (ts.map .buf)).nodes = h.nodes := by
  funext x
  rw [Heap.nodes_freeAll, if_neg (by simp)]

theorem rekey_run (hn : h.nodes i = some n) (flag : TypeWord → TypeWord) (q : Ptr) :
    rekey i flag q h = .ok ((), h.rekeyed i n flag q) := by
  have hFree : (if n.string.isSome ∧ !n.constKey then hookFree (n.string.map .buf) else pure ()) h
      = .ok ((), h.freeAll (n.ownKey.toList.map .buf)) := by
    unfold CNode.ownKey
    cases hConst : n.constKey with
    | true => simp
    | false =>
      cases n.string with
      | none => rfl
      | some s => rfl
  have hn' : (h.freeAll (n.ownKey.toList.map .buf)).nodes i = some n := by
    rw [nodes_freeTexts, hn]
  have hRekey : rekey i flag q = load (some i) >>= fun c =>
      (if c.string.isSome ∧ !c.constKey then hookFree (c.string.map .buf) else pure ()) >>= fun _ =>
        store (some i) (fun n => { n with type_ := flag n.type_ }) >>= fun _ =>
          store (some i) ({ · with string := q }) := by
    simp only [rekey, Run.ite_bind, pure_bind]
  rw [hRekey, Run.bind_run_ok (load_run hn), Run.bind_run_ok hFree,
    Run.bind_run_ok (store_run hn' _), store_run Heap.setNode_self, Heap.rekeyed]
  simp only [Heap.setNode, Function.update_idem]

theorem WellFormed.congr (hWf : WellFormed N h kids) (hBounded : h'.Bounded)
    (hLink : h'.link = h.link) (hShape : h'.shape = h.shape) : WellFormed N h' kids :=
  ⟨hBounded, hWf.trees.congr hLink hShape⟩

theorem WellFormed.of_nodes (hWf : WellFormed N h kids) (hBounded : h'.Bounded)
    (hNodes : h'.nodes = h.nodes) : WellFormed N h' kids := by
  refine hWf.congr hBounded ?_ ?_
  · unfold Heap.link
    rw [hNodes]
  · unfold Heap.shape
    rw [hNodes]

theorem Heap.Bounded.setNode (hBounded : h.Bounded) (hn : h.nodes a = some n) :
    (h.setNode a m).Bounded where
  nodes {x} hx := by
    have hxa : x ≠ a := by
      rintro rfl
      rw [hBounded.nodes hx] at hn
      cases hn
    rw [Heap.setNode_ne hxa, hBounded.nodes hx]
  bufs hs := hBounded.bufs hs

/-- A write that keeps the links and the shape of a node keeps the trees. -/
theorem WellFormed.setNode (hWf : WellFormed N h kids) (hn : h.nodes a = some n)
    (hPrev : m.prev = n.prev) (hNext : m.next = n.next) (hShape : m.shape = n.shape) :
    WellFormed N (h.setNode a m) kids := by
  refine hWf.congr (hWf.bounded.setNode hn) ?_ ?_
  · rw [link_setNode, hPrev, hNext, ← link_eq hn, Function.update_eq_self]
  · funext x
    unfold Heap.shape
    by_cases hx : x = a
    · rw [hx, Heap.setNode_self, hn, Option.map_some, Option.map_some, hShape]
    · rw [Heap.setNode_ne hx]

theorem WellFormed.rekeyed (hWf : WellFormed N h kids) (hn : h.nodes i = some n)
    {flag : TypeWord → TypeWord} (hFlag : ∀ t, isReference (flag t) = isReference t) (q : Ptr) :
    WellFormed N (h.rekeyed i n flag q) kids := by
  refine (hWf.of_nodes hWf.bounded.freeAll (nodes_freeTexts _)).setNode (n := n) ?_ rfl rfl ?_
  · rw [nodes_freeTexts, hn]
  · show (isReference (flag n.type_), n.child) = _
    rw [hFlag]
    rfl

theorem Heap.rekeyed_ne {flag : TypeWord → TypeWord} {q : Ptr} (hx : x ≠ i) :
    (h.rekeyed i n flag q).nodes x = h.nodes x := by
  rw [Heap.rekeyed, Heap.setNode_ne hx, nodes_freeTexts]

theorem Heap.rekeyed_self {flag : TypeWord → TypeWord} {q : Ptr} :
    (h.rekeyed i n flag q).nodes i = some { n with type_ := flag n.type_, string := q } :=
  Heap.setNode_self

/-- A root with a new key can still be added to `p`. -/
theorem Handed.rekeyed {flag : TypeWord → TypeWord} {q : Ptr} (hp : Mutable N h p)
    (hi : Handed N h kids p i) :
    Mutable N (h.rekeyed i n flag q) p ∧ Handed N (h.rekeyed i n flag q) kids p i := by
  obtain ⟨hN, m, hm, hRef⟩ := hp
  refine ⟨⟨hN, m, ?_, hRef⟩, hi.above, ?_, hi.root, hi.apart⟩
  · rw [Heap.rekeyed_ne (Ne.symm hi.ne), hm]
  · rw [Heap.rekeyed_self]
    rfl

/-! ## Allocation -/

theorem allocCstr_run (k : Str) (h : Heap) :
    allocCstr k h = if h.outcomes 0 then .ok (some h.brk, h.tick.pushBuf (encode k ++ [0]))
      else .ok (none, h.tick) := rfl

theorem Heap.Bounded.tick (hBounded : h.Bounded) : h.tick.Bounded :=
  ⟨hBounded.nodes, hBounded.bufs⟩

theorem Heap.Bounded.pushBuf (hBounded : h.Bounded) (bytes : List UInt8) :
    (h.pushBuf bytes).Bounded where
  nodes {a} ha := hBounded.nodes (Nat.le_of_succ_le ha)
  bufs {s} hs := by
    have hne : s ≠ h.brk := Nat.ne_of_gt hs
    show Function.update h.bufs h.brk _ s = none
    rw [Function.update_of_ne hne, hBounded.bufs (Nat.le_of_succ_le hs)]

theorem Handed.of_nodes (hNodes : h'.nodes = h.nodes) (hp : Mutable N h p)
    (hi : Handed N h kids p i) : Mutable N h' p ∧ Handed N h' kids p i := by
  refine ⟨?_, hi.above, ?_, hi.root, hi.apart⟩
  · unfold Mutable
    rw [hNodes]
    exact hp
  · rw [hNodes]
    exact hi.live

/-- Giving a root a key and adding it to `p`. -/
theorem rekey_attach_run (hWf : WellFormed N h kids) (hp : Mutable N h p)
    (hi : Handed N h kids p i) {flag : TypeWord → TypeWord}
    (hFlag : ∀ t, isReference (flag t) = isReference t) (q : Ptr) (hn : h.nodes i = some n) :
    ∃ h', rekey i flag q h = .ok ((), h.rekeyed i n flag q) ∧
      attachChild (some p) (some i) (h.rekeyed i n flag q) = .ok ((), h') ∧
      Edited N (h.rekeyed i n flag q) h' kids p (kids p ++ [i]) (kids p ++ [i]) := by
  have hRekeyed : Mutable N (h.rekeyed i n flag q) p ∧ Handed N (h.rekeyed i n flag q) kids p i :=
    Handed.rekeyed hp hi
  obtain ⟨hp', hi'⟩ := hRekeyed
  obtain ⟨h', hRun, hEdited⟩ := attach_run (hWf.rekeyed hn hFlag q) hp' hi'
  exact ⟨h', rekey_run hn flag q, hRun, hEdited⟩

/-- Naming a root and adding it to `p`. -/
theorem attachNamedChild_run (hWf : WellFormed N h kids) (hp : Mutable N h p)
    (hi : Handed N h kids p i) {s : Addr} {k : Str} (hs : h.Readable s) (hm : h.nodes i = some m)
    (hText : h.text (some s) = some k) (hAlloc : h.outcomes 0 = true) :
    ∃ h', attachNamedChild (some p) (some s) (some i) h = .ok (true, h') ∧
      Edited N ((h.tick.pushBuf (encode k ++ [0])).rekeyed i m clearConst (some h.brk)) h' kids p
        (kids p ++ [i]) (kids p ++ [i]) := by
  have hWf' : WellFormed N (h.tick.pushBuf (encode k ++ [0])) kids :=
    hWf.of_nodes (hWf.bounded.tick.pushBuf _) rfl
  have hNodes : (h.tick.pushBuf (encode k ++ [0])).nodes = h.nodes := rfl
  obtain ⟨hp', hi'⟩ := Handed.of_nodes hNodes hp hi
  obtain ⟨h', hRekey, hAttach, hEdited⟩ :=
    rekey_attach_run hWf' hp' hi' isReference_clearConst (some h.brk) hm
  refine ⟨h', ?_, hEdited⟩
  have hAllocRun := allocCstr_run k h
  rw [if_pos hAlloc] at hAllocRun
  rw [attachNamedChild_eq, Run.bind_run_ok (loadStr_text hs), hText]
  show (allocCstr k >>= fun keyBuf => _) h = _
  rw [Run.bind_run_ok hAllocRun]
  show (rekey i clearConst (some h.brk) >>= fun _ => attachChild (some p) (some i) >>= fun _ => _)
    _ = _
  rw [Run.bind_run_ok hRekey, Run.bind_run_ok hAttach]
  rfl

/-- Naming a node fails when the name is not a text or cannot be copied. -/
theorem attachNamedChild_fail {s : Addr} (hs : h.Readable s)
    (hFail : ¬ ((h.text (some s)).isSome ∧ h.outcomes 0 = true)) :
    ∃ h', attachNamedChild (some p) (some s) (some i) h = .ok (false, h') ∧
      (h' = h ∨ h' = h.tick) := by
  rw [attachNamedChild_eq, Run.bind_run_ok (loadStr_text hs)]
  cases hText : h.text (some s) with
  | none => exact ⟨h, rfl, Or.inl rfl⟩
  | some k =>
    have hAlloc : ¬ h.outcomes 0 = true := by
      rw [hText] at hFail
      exact fun hYes => hFail ⟨rfl, hYes⟩
    have hAllocRun := allocCstr_run k h
    rw [if_neg hAlloc] at hAllocRun
    refine ⟨h.tick, ?_, Or.inr rfl⟩
    show (allocCstr k >>= fun keyBuf => _) h = _
    rw [Run.bind_run_ok hAllocRun]
    rfl

end CjsonRs.Ffi
