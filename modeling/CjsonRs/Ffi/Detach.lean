import CjsonRs.Ffi.Keys

/-!
# Detaching by pointer

`detach` never tests that the item is a child of the parent. It takes the item out of the
list it is in, by its links, and lets the parent's list start behind an item that nothing
precedes. A parent that owns its children loses a child, or nothing, exactly when the item is one
of them, or it has none and the item no siblings. A parent that only refers to its children shows
the end of the list of another node; this works for the children behind the first one it shows.
-/

namespace CjsonRs.Ffi

open CjsonRs.Core Library Library.Link Library.Forest

variable {h h' : Heap} {a p q x : Addr} {m : CNode} {kids : Addr → List Addr}
  {xs ys ks ks' : List Addr}

/-- The children of a node: the walk from its `child` pointer. -/
def HasChildren (h : Heap) (q : Addr) (ks : List Addr) : Prop :=
  ∃ n, h.nodes q = some n ∧ Path h.link n.child ks

/-- Roots have no siblings. -/
def RootsApart (h : Heap) (kids : Addr → List Addr) : Prop :=
  ∀ x, IsRoot kids x → (h.nodes x).isSome → h.link x = some ⟨none, none⟩

/-- The lists of children without `a` in that of `p`, if it is there. -/
def without (kids : Addr → List Addr) (p a : Addr) : Addr → List Addr :=
  if a ∈ kids p then Function.update kids p ((kids p).erase a) else kids

/-- The node `p` with the children `ks` has lost `a` from them if it had it. Every other node that
owns its children has them as before, or has lost `a` with `p`. -/
def OnlyDetaches (h h' : Heap) (kids : Addr → List Addr) (p a : Addr) (ks : List Addr) : Prop :=
  HasChildren h' p (ks.erase a) ∧ ∀ q, q ≠ p → Mutable 0 h q →
    HasChildren h' q (kids q) ∨ a ∈ ks ∧ HasChildren h' q ((kids q).erase a)

/-- A root or an only child. -/
def Alone (kids : Addr → List Addr) (a : Addr) : Prop := IsRoot kids a ∨ ∃ q, kids q = [a]

/-- The item is one of the children `ks` of `p`, and `p` owns them or the item is not the first; or
it has no siblings, and is the child of `p` unless `p` has none. -/
def SafeToDetach (h : Heap) (kids : Addr → List Addr) (p a : Addr) (ks : List Addr) : Prop :=
  Mutable 0 h p ∧ a ∈ ks ∨ a ∈ ks.tail ∨ (a ∈ ks ∨ ks = []) ∧ Alone kids a

theorem hasChildren_unique (hks : HasChildren h q ks) (hks' : HasChildren h q ks') : ks = ks' := by
  obtain ⟨n, hn, hPath⟩ := hks
  obtain ⟨n', hn', hPath'⟩ := hks'
  cases hn.symm.trans hn'
  exact hPath.unique hPath'

theorem hasChildren_of_isList {c : Ptr} (hq : h.body q = some m) (hc : m.child = c)
    (hList : IsList h.link c ks) : HasChildren h q ks := by
  obtain ⟨n, hn, rfl⟩ := node_of_body hq
  exact ⟨n, hn, hc ▸ hList.path⟩

theorem WellFormed.hasChildren (hWf : WellFormed 0 h kids) (hq : Mutable 0 h q) :
    HasChildren h q (kids q) := by
  obtain ⟨hN, n, hn, hRef⟩ := hq
  exact ⟨n, hn, (hWf.trees.lists hN hn hRef).path⟩

theorem without_of_mem (hMem : a ∈ kids p) :
    without kids p a = Function.update kids p ((kids p).erase a) := if_pos hMem

/-- A child in the middle of a list is erased where it stands. -/
theorem erase_middle (hNodup : (xs ++ a :: ys).Nodup) : (xs ++ a :: ys).erase a = xs ++ ys := by
  have hNot : a ∉ xs := (nodup_around hNodup).2.2.1
  rw [List.erase_append_right _ hNot, List.erase_cons_head]

/-! ## The cases -/

/-- Nothing happens to an item without siblings and a parent without children. -/
theorem detach_alone (hp : h.body p = some m) (hNone : m.child = none)
    (ha : h.link a = some ⟨none, none⟩) : detach (some p) (some a) h = .ok ((), h) := by
  obtain ⟨h', hRun, hW⟩ := detach_links hp ha nofun nofun
  have hLink : h'.link = h.link := by
    rw [hW.link]
    exact (congrArg _ ha.symm).trans (Function.update_eq_self a h.link)
  have hBody : h'.body = h.body := by
    rw [hW.body]
    exact setChild_same hp hNone
  have hNodes : h'.nodes = h.nodes :=
    funext fun x => nodes_congr (congrFun hLink x) (congrFun hBody x)
  have hSame : h' = h := by
    rw [hW.rest, hNodes]
  rw [hRun, hSame]

/-- A child is taken out of the list of its parent. -/
theorem detach_child (hWf : WellFormed 0 h kids) (hRoots : RootsApart h kids)
    (hp : Mutable 0 h p) (ha : a ∈ kids p) :
    ∃ h', detach (some p) (some a) h = .ok ((), h') ∧ WellFormed 0 h' (without kids p a) ∧
      RootsApart h' (without kids p a) ∧ OnlyDetaches h h' kids p a (kids p) := by
  obtain ⟨xs, ys, hEq⟩ := List.append_of_mem ha
  have hNodup := hWf.trees.forest.nodup p
  rw [hEq] at hNodup
  have hErase : (kids p).erase a = xs ++ ys := by rw [hEq, erase_middle hNodup]
  obtain ⟨h', hRun, hEdited, -⟩ := detachChild_run hWf hp hEq
  have hKids : ∀ q, Mutable 0 h q → HasChildren h' q (Function.update kids p (xs ++ ys) q) :=
    fun q hq => hEdited.wf.hasChildren (hEdited.mutable hq)
  have hOnly : OnlyDetaches h h' kids p a (kids p) := by
    refine ⟨?_, fun q hqp hq => ?_⟩
    · have hks := hKids p hp
      rw [Function.update_self, ← hErase] at hks
      exact hks
    · have hks := hKids q hq
      rw [Function.update_of_ne hqp] at hks
      exact Or.inl hks
  rw [without_of_mem ha, hErase]
  refine ⟨h', hRun, hEdited.wf, fun x hx hLive => ?_, hOnly⟩
  obtain ⟨hN, n, hn, hRef⟩ := hp
  have hList := hWf.trees.lists hN hn hRef
  rw [hEq] at hList
  obtain ⟨q, r, hAround⟩ := hList.around
  have hNear := around_isSome hAround
  obtain ⟨h₁, hRun₁, hW⟩ := detach_links (body_eq hn) hAround.cell hNear.1 hNear.2
  cases hRun.symm.trans hRun₁
  rw [hW.link]
  by_cases hxa : x = a
  · rw [hxa]
    exact setLink_self a none none
  · have hxList : x ∉ xs ++ a :: ys := by
      intro hMem
      refine hx p ?_
      rw [Function.update_self]
      simp only [List.mem_append, List.mem_cons] at hMem ⊢
      tauto
    have hxRoot : IsRoot kids x := by
      intro q hq
      by_cases hqp : q = p
      · rw [hqp, hEq] at hq
        exact hxList hq
      · exact hx q (by rwa [Function.update_of_ne hqp])
    rw [unlink_of_ne hAround hxList]
    refine hRoots x hxRoot ?_
    rw [← isSome_link, ← unlink_of_ne hAround hxList, ← hW.link, isSome_link]
    exact hLive

/-- A node is a root or a child of some node. -/
theorem isRoot_or_child (kids : Addr → List Addr) (a : Addr) :
    IsRoot kids a ∨ ∃ c, a ∈ kids c := by
  by_cases hRoot : IsRoot kids a
  · exact Or.inl hRoot
  · exact Or.inr (not_forall_not.mp hRoot)

/-- A node that owns its children, by its other fields. -/
theorem WellFormed.list (hWf : WellFormed 0 h kids) (hp : Mutable 0 h p) :
    ∃ m, h.body p = some m ∧ IsList h.link m.child (kids p) := by
  obtain ⟨hN, n, hn, hRef⟩ := hp
  have hList := hWf.trees.lists hN hn hRef
  exact ⟨n.body, body_eq hn, hList⟩

/-- The list of the parent starts behind an item that nothing precedes. -/
theorem children_of_parent (hp : h.body p = some m) {r : Ptr}
    (hW : h'.body = setChild h.body p (entry m.child none r)) (hks : HasChildren h' p ks) :
    r = none → ks = [] := by
  rintro rfl
  obtain ⟨n, hn, hPath⟩ := hks
  have hBody := body_eq hn
  rw [hW, setChild_self hp] at hBody
  have hChild : n.child = none := (congrArg CNode.child (Option.some.inj hBody)).symm
  rw [hChild] at hPath
  cases ks with
  | nil => rfl
  | cons b bs => cases hPath.1

/-- What is left without `a` is nothing. -/
theorem mem_or_nil_of_erase (hErase : ks.erase a = []) : a ∈ ks ∨ ks = [] := by
  by_cases hMem : a ∈ ks
  · exact Or.inl hMem
  · rw [List.erase_of_not_mem hMem] at hErase
    exact Or.inr hErase

theorem mem_tail_of_walk (hMem : a ∈ ks) (hHead : ∀ ks', ks ≠ a :: ks') : a ∈ ks.tail := by
  cases ks with
  | nil => cases hMem
  | cons b ks =>
    rcases List.mem_cons.mp hMem with rfl | hTail
    · exact absurd rfl (hHead ks)
    · exact hTail

/-- Detaching something that `p` does not own changes another list, unless `p` shows the item
behind its first child, or the item has no siblings and is the child of `p` or `p` has none. -/
theorem detach_elsewhere (hWf : WellFormed 0 h kids) (hRoots : RootsApart h kids)
    (hp : HasChildren h p ks) (ha : (h.nodes a).isSome) (hNot : a ∉ kids p) :
    ∃ h', detach (some p) (some a) h = .ok ((), h') ∧
      (OnlyDetaches h h' kids p a ks → a ∈ ks.tail ∨ (a ∈ ks ∨ ks = []) ∧ Alone kids a) := by
  obtain ⟨n, hn, hPathP⟩ := hp
  have hm := body_eq hn
  rcases isRoot_or_child kids a with hRoot | ⟨c, hc⟩
  · -- a root: the list of the parent is dropped
    obtain ⟨h', hRun, hW⟩ := detach_links hm (hRoots a hRoot ha) nofun nofun
    refine ⟨h', hRun, fun hOnly => Or.inr ⟨mem_or_nil_of_erase ?_, Or.inl hRoot⟩⟩
    exact children_of_parent hm hW.body hOnly.1 rfl
  · have hcp : c ≠ p := fun hEq => hNot (hEq ▸ hc)
    obtain ⟨-, hMutable⟩ := hWf.trees.parent hc
    obtain ⟨mc, hmc, hListC⟩ := hWf.list (p := c) hMutable
    obtain ⟨xs, ys, hEq⟩ := List.append_of_mem hc
    have hNodup := hWf.trees.forest.nodup c
    rw [hEq] at hNodup hListC
    obtain ⟨q, r, hAround⟩ := hListC.around
    have hNear := around_isSome hAround
    obtain ⟨h', hRun, hW⟩ := detach_links hm hAround.cell hNear.1 hNear.2
    have hLink : h'.link a = some ⟨none, none⟩ := by
      rw [hW.link]
      exact setLink_self a none none
    refine ⟨h', hRun, fun hOnly => ?_⟩
    have hks := hOnly.2 c hcp hMutable
    rw [hEq] at hks
    have hmc' : h'.body c = some mc := by rw [hW.body, setChild_of_ne hcp, hmc]
    rcases hAround.prev_mem with ⟨rfl, rfl⟩ | ⟨b, hb, rfl⟩
    · -- the first child: its own list is cut behind it, the rest becomes that of the parent
      have hHead : HasChildren h' c [a] := by
        refine hasChildren_of_isList hmc' hListC.path.1 ⟨some a, rfl, none, hLink, rfl, rfl⟩
      have hYs : ys = [] := by
        rcases hks with hks | ⟨-, hks⟩
        · exact (List.cons.inj (hasChildren_unique hks hHead)).2
        · rw [List.nil_append, List.erase_cons_head] at hks
          rw [hasChildren_unique hks hHead] at hNodup
          simp at hNodup
      subst hYs
      obtain ⟨-, hr⟩ | ⟨y, hy, -⟩ := hAround.next_mem
      · exact Or.inr ⟨mem_or_nil_of_erase (children_of_parent hm hW.body hOnly.1 hr),
          Or.inr ⟨c, hEq⟩⟩
      · cases hy
    · -- a later child: it is gone from its own list
      have hList : IsList h'.link mc.child (xs ++ ys) := by
        rw [hW.link]
        exact unlink_isList hAround hNodup
      rcases hks with hks | ⟨hMem, -⟩
      · have hLength := congrArg List.length
          (hasChildren_unique hks (hasChildren_of_isList hmc' rfl hList))
        simp only [List.length_append, List.length_cons] at hLength
        omega
      · refine Or.inl (mem_tail_of_walk hMem fun ks' hks' => ?_)
        -- A list of `p` that started with the item would now end behind it.
        subst hks'
        have hHead : HasChildren h' p [a] := by
          have hBody : h'.body p = some n.body := by
            rw [hW.body]
            exact (congrFun (setChild_same hm rfl) p).trans hm
          exact hasChildren_of_isList hBody hPathP.1 ⟨some a, rfl, none, hLink, rfl, rfl⟩
        have hOnlyP := hOnly.1
        rw [List.erase_cons_head] at hOnlyP
        cases hasChildren_unique hOnlyP hHead
        obtain ⟨-, l, hl, hNext, l', hl', hNone⟩ := hPathP
        cases hl.symm.trans hl'
        cases hNext.symm.trans hNone

/-! ## An item without siblings -/

theorem Alone.link (hAlone : Alone kids a) (hWf : WellFormed 0 h kids)
    (hRoots : RootsApart h kids) (ha : (h.nodes a).isSome) :
    h.link a = some ⟨none, none⟩ := by
  rcases hAlone with hRoot | ⟨c, hc⟩
  · exact hRoots a hRoot ha
  · obtain ⟨-, hMutable⟩ := hWf.trees.parent (a := c) (c := a) (by rw [hc]; simp)
    obtain ⟨mc, -, hListC⟩ := hWf.list (p := c) hMutable
    rw [hc] at hListC
    obtain ⟨-, -, l, hl, -, rfl⟩ := hListC
    exact hl

/-- A node with a next one is in a list of children, with the next one behind it. -/
theorem WellFormed.siblings {b y : Addr} {l : Link Addr} (hWf : WellFormed 0 h kids)
    (hRoots : RootsApart h kids) (hl : h.link b = some l) (hNext : l.next = some y) :
    ∃ c us vs, Mutable 0 h c ∧ kids c = us ++ b :: y :: vs ∧ ∃ l', h.link y = some l' ∧
      l'.prev = some b := by
  have hLive : (h.nodes b).isSome := by
    rw [← isSome_link, hl]
    rfl
  rcases isRoot_or_child kids b with hRoot | ⟨c, hc⟩
  · cases hl.symm.trans (hRoots b hRoot hLive)
    cases hNext
  · obtain ⟨-, hMutable⟩ := hWf.trees.parent hc
    obtain ⟨mc, -, hListC⟩ := hWf.list (p := c) hMutable
    obtain ⟨us, ys, hEq⟩ := List.append_of_mem hc
    rw [hEq] at hListC
    obtain ⟨q, r, hAround⟩ := hListC.around
    cases hl.symm.trans hAround.cell
    obtain ⟨q', hBack⟩ := hAround.back
    cases ys with
    | nil => cases hNext.symm.trans hBack.2.symm
    | cons z vs =>
      obtain ⟨hz, r', hCell, -⟩ := hBack
      cases hNext.symm.trans hz
      exact ⟨c, us, vs, hMutable, hEq, ⟨some b, r'⟩, hCell, rfl⟩

/-- A walk that meets a node without siblings meets nothing else. -/
theorem walk_alone (hWf : WellFormed 0 h kids) (hRoots : RootsApart h kids)
    (hp : HasChildren h p ks) (hLink : h.link a = some ⟨none, none⟩) (hMem : a ∈ ks) :
    ks = [a] := by
  obtain ⟨n, -, hPath⟩ := hp
  obtain ⟨xs, ys, rfl⟩ := List.append_of_mem hMem
  rcases hPath.before with ⟨rfl, -⟩ | ⟨b, l, hl, hNext⟩
  · obtain ⟨-, l, hl, hRest⟩ := hPath
    cases hLink.symm.trans hl
    cases ys with
    | nil => rfl
    | cons y ys => cases hRest.1
  · obtain ⟨c, us, vs, -, -, l', hl', hPrev⟩ := hWf.siblings hRoots hl hNext
    cases hLink.symm.trans hl'
    cases hPrev

/-! ## An item behind the first child -/

/-- The parent does not matter for an item that has one before it. -/
theorem detach_behind {b : Addr} {r : Ptr} {m' : CNode} (hp : h.body p = some m)
    (hq : h.body q = some m') (ha : h.link a = some ⟨some b, r⟩) (hb : (h.link b).isSome)
    (hr : ∀ x, r = some x → (h.link x).isSome) :
    detach (some p) (some a) h = detach (some q) (some a) h := by
  have hb' : ∀ x, some b = some x → (h.link x).isSome := fun x hx => by
    cases hx
    exact hb
  obtain ⟨h₁, hRun₁, hW₁⟩ := detach_links hp ha hb' hr
  obtain ⟨h₂, hRun₂, hW₂⟩ := detach_links hq ha hb' hr
  have hBody₁ : h₁.body = h.body := hW₁.body.trans (setChild_same hp rfl)
  have hBody₂ : h₂.body = h.body := hW₂.body.trans (setChild_same hq rfl)
  have hNodes : h₁.nodes = h₂.nodes := funext fun x =>
    nodes_congr (congrFun (hW₁.link.trans hW₂.link.symm) x)
      (congrFun (hBody₁.trans hBody₂.symm) x)
  have hSame : h₁ = h₂ := by
    rw [hW₁.rest, hW₂.rest, hNodes]
  rw [hRun₁, hRun₂, hSame]

/-- A node that shows several children shows the end of a list that another one owns. -/
theorem WellFormed.shown {d y : Addr} (hWf : WellFormed 0 h kids) (hRoots : RootsApart h kids)
    (hPath : Path h.link (some d) (d :: y :: ks)) :
    ∃ c us, Mutable 0 h c ∧ kids c = us ++ d :: y :: ks := by
  obtain ⟨-, l, hl, hNext, -⟩ := id hPath
  obtain ⟨c, us, vs, hMutable, hEq, -⟩ := hWf.siblings hRoots hl hNext
  obtain ⟨mc, -, hListC⟩ := hWf.list hMutable
  rw [hEq] at hListC
  exact ⟨c, us, hMutable, by rw [hEq, hListC.path.suffix.unique hPath]⟩

/-- A node that refers to its children may refer to others. -/
theorem WellFormed.refer {c : Ptr} (hWf : WellFormed 0 h kids) (hm : h.body p = some m)
    (hRef : m.isRef = true) (hW : Rewritten h h' h.link (setChild h.body p c)) :
    WellFormed 0 h' kids := by
  have hOwner : ∀ {x n}, h.nodes x = some n → n.isRef = false → x ≠ p := by
    rintro x n hn hOwn rfl
    cases hm.symm.trans (body_eq hn)
    cases hOwn.symm.trans hRef
  refine ⟨hW.bounded hWf.bounded fun _ => setChild_eq_none, fun {x n'} hN hn' hOwn => ?_,
    fun {x c} hc => ?_, hWf.trees.forest⟩
  · have hxp : x ≠ p := by
      rintro rfl
      have hBody := body_eq hn'
      rw [hW.body, setChild_self hm] at hBody
      have hSame := congrArg CNode.isRef (Option.some.inj hBody)
      cases hRef.symm.trans (hSame.trans hOwn)
    have hBody := body_eq hn'
    rw [hW.body, setChild_of_ne hxp] at hBody
    obtain ⟨n, hn, hEq⟩ := node_of_body hBody
    have hOwn' : n.isRef = false := (congrArg CNode.isRef hEq).trans hOwn
    have hChild : n.body.child = n'.body.child := congrArg CNode.child hEq
    have hList := hWf.trees.lists hN hn hOwn'
    rw [show n.child = n'.child from hChild] at hList
    rw [hW.link]
    exact hList
  · obtain ⟨hc₀, hx₀, n, hn, hOwn⟩ := hWf.trees.parent hc
    have hBody : h'.body x = some n.body := by
      rw [hW.body, setChild_of_ne (hOwner hn hOwn), body_eq hn]
    obtain ⟨n', hn', hEq⟩ := node_of_body hBody
    exact ⟨hc₀, hx₀, n', hn', (congrArg CNode.isRef hEq).trans hOwn⟩

/-- Detaching an item without siblings that is the child of `p`, or from a node without children,
empties the list of `p`. -/
theorem detach_unlinked (hWf : WellFormed 0 h kids) (hRoots : RootsApart h kids)
    (hp : HasChildren h p ks) (hLink : h.link a = some ⟨none, none⟩) (hNot : a ∉ kids p)
    (hks : a ∈ ks ∨ ks = []) :
    ∃ h', detach (some p) (some a) h = .ok ((), h') ∧ OnlyDetaches h h' kids p a ks ∧
      WellFormed 0 h' kids ∧ RootsApart h' kids := by
  have hErase : ks.erase a = [] := by
    rcases hks with hMem | rfl
    · rw [walk_alone hWf hRoots hp hLink hMem, List.erase_cons_head]
    · rfl
  have hp' := hp
  obtain ⟨n, hn, hPath⟩ := hp'
  have hm := body_eq hn
  obtain ⟨h', hRun, hW⟩ := detach_links hm hLink nofun nofun
  have hSame : h'.link = h.link := by
    rw [hW.link]
    exact (congrArg _ hLink.symm).trans (Function.update_eq_self a h.link)
  have hChild : h'.body p = some { n.body with child := none } := by
    rw [hW.body]
    exact setChild_self hm
  have hOthers : ∀ q, q ≠ p → Mutable 0 h q →
      HasChildren h' q (kids q) ∨ a ∈ ks ∧ HasChildren h' q ((kids q).erase a) := by
    intro q hqp hq
    obtain ⟨m, hBody, hList⟩ := hWf.list hq
    apply Or.inl
    refine hasChildren_of_isList (m := m) ?_ rfl (by rw [hSame]; exact hList)
    rw [hW.body, setChild_of_ne hqp, hBody]
  have hWf' : WellFormed 0 h' kids := by
    by_cases hRef : n.isRef = true
    · have hW' : Rewritten h h' h.link (setChild h.body p none) := ⟨hSame, hW.body, hW.rest⟩
      exact hWf.refer hm hRef hW'
    · have hMutable : Mutable 0 h p := ⟨Nat.zero_le p, n, hn, Bool.eq_false_iff.mpr hRef⟩
      have hNil : ks = [] := by
        rcases hks with hMem | hNil
        · rw [hasChildren_unique hp (hWf.hasChildren hMutable)] at hMem
          exact absurd hMem hNot
        · exact hNil
      rw [hNil] at hPath
      cases hRun.symm.trans (detach_alone hm hPath hLink)
      exact hWf
  refine ⟨h', hRun, ⟨?_, hOthers⟩, hWf', fun x hx hLive => ?_⟩
  · rw [hErase]
    obtain ⟨n', hn', hEq⟩ := node_of_body hChild
    have hNone : n'.body.child = none := by rw [hEq]
    exact ⟨n', hn', hNone⟩
  · rw [hSame]
    apply hRoots x hx
    rw [← isSome_link, ← hSame, isSome_link]
    exact hLive

/-- Detaching an item that `p` shows behind its first child is detaching it from its owner. -/
theorem detach_shown (hWf : WellFormed 0 h kids) (hRoots : RootsApart h kids)
    (hp : HasChildren h p ks) (hMem : a ∈ ks.tail) :
    ∃ h', detach (some p) (some a) h = .ok ((), h') ∧ OnlyDetaches h h' kids p a ks ∧
      ∃ kids', WellFormed 0 h' kids' ∧ RootsApart h' kids' := by
  obtain ⟨n, hn, hPath⟩ := hp
  obtain ⟨d, zs, ws, rfl⟩ : ∃ d zs ws, ks = (d :: zs) ++ a :: ws := by
    cases ks with
    | nil => cases hMem
    | cons d ks =>
      obtain ⟨zs, ws, rfl⟩ := List.append_of_mem hMem
      exact ⟨d, zs, ws, rfl⟩
  have hFirst : n.child = some d := hPath.1
  -- The walk of `p` is the end of the list of `c`.
  obtain ⟨c, us, hMutable, hEq⟩ :
      ∃ c us, Mutable 0 h c ∧ kids c = us ++ ((d :: zs) ++ a :: ws) := by
    rw [hFirst] at hPath
    cases zs with
    | nil => exact hWf.shown hRoots hPath
    | cons z zs => exact hWf.shown hRoots hPath
  have hSplit : us ++ ((d :: zs) ++ a :: ws) = (us ++ d :: zs) ++ a :: ws := by simp
  have hNodup := hWf.trees.forest.nodup c
  rw [hEq] at hNodup
  have haKid : a ∈ kids c := by
    rw [hEq]
    simp
  have hErase : ((d :: zs) ++ a :: ws).erase a = d :: (zs ++ ws) :=
    erase_middle (List.nodup_append.mp hNodup).2.1
  have hEraseC : (kids c).erase a = us ++ d :: (zs ++ ws) := by
    rw [hEq, hSplit, erase_middle (hSplit ▸ hNodup)]
    simp
  obtain ⟨h', hRun, hWf', hRoots', hHas, hOthers⟩ := detach_child hWf hRoots hMutable haKid
  -- The item has another one before it, so only its links count.
  obtain ⟨mc, hmc, hListC⟩ := hWf.list hMutable
  rw [hEq, hSplit] at hListC
  obtain ⟨q, r, hAround⟩ := hListC.around
  have hNear := around_isSome hAround
  obtain ⟨b, rfl⟩ : ∃ b, q = some b := by
    rcases hAround.prev_mem with ⟨hNil, -⟩ | ⟨b, -, hb⟩
    · simp at hNil
    · exact ⟨b, hb⟩
  have hSameRun : detach (some p) (some a) h = .ok ((), h') := by
    rw [detach_behind (body_eq hn) hmc hAround.cell (hNear.1 b rfl) hNear.2]
    exact hRun
  obtain ⟨h₁, hRun₁, hW⟩ := detach_links (body_eq hn) hAround.cell hNear.1 hNear.2
  cases hSameRun.symm.trans hRun₁
  refine ⟨h', hSameRun, ⟨?_, fun q hqp hq => ?_⟩, _, hWf', hRoots'⟩
  · have hBody : h'.body p = some n.body :=
      (congrFun hW.body p).trans ((congrFun (setChild_same (body_eq hn) rfl) p).trans (body_eq hn))
    obtain ⟨n', hn', hSame⟩ := node_of_body hBody
    rw [hEraseC] at hHas
    obtain ⟨m, -, hWalk⟩ := hHas
    have hChild : n'.body.child = n.body.child := by rw [hSame]
    refine ⟨n', hn', ?_⟩
    rw [show n'.child = n.child from hChild, hFirst, hErase]
    exact hWalk.suffix
  · by_cases hqc : q = c
    · rw [hqc]
      exact Or.inr ⟨by simp, hHas⟩
    · rcases hOthers q hqc hq with hKept | ⟨-, hLost⟩
      · exact Or.inl hKept
      · exact Or.inr ⟨by simp, hLost⟩

theorem viaPointer_run (hRun : detach (some p) (some a) h = .ok ((), h')) :
    cjsonDetachItemViaPointer (some p) (some a) h = .ok (some a, h') := by
  show (detach (some p) (some a) >>= fun _ => pure (some a)) h = _
  rw [Run.bind_run_ok hRun]
  rfl

/-- `cJSON_DetachItemViaPointer` on a well-formed heap, for every parent whose children can be
walked, its own or those of another node, and every live item: it removes nothing but a child of
the parent exactly when the item is one of the children, and not the first that a parent shows
without owning it; or when it has no siblings, and is the child of the parent unless that has
none. Then the heap stays well formed. -/
theorem detachItemViaPointer_iff (hWf : WellFormed 0 h kids) (hRoots : RootsApart h kids)
    (hp : HasChildren h p ks) (ha : (h.nodes a).isSome) :
    ∃ h', cjsonDetachItemViaPointer (some p) (some a) h = .ok (some a, h') ∧
      (OnlyDetaches h h' kids p a ks ↔ SafeToDetach h kids p a ks) ∧
      (SafeToDetach h kids p a ks → ∃ kids', WellFormed 0 h' kids' ∧ RootsApart h' kids') := by
  by_cases hMem : a ∈ kids p
  · obtain ⟨-, hMutable⟩ := hWf.trees.parent hMem
    have hks : ks = kids p := hasChildren_unique hp (hWf.hasChildren hMutable)
    obtain ⟨h', hRun, hWf', hRoots', hOnly⟩ := detach_child hWf hRoots hMutable hMem
    rw [hks]
    exact ⟨h', viaPointer_run hRun, iff_of_true hOnly (Or.inl ⟨hMutable, hMem⟩),
      fun _ => ⟨_, hWf', hRoots'⟩⟩
  · obtain ⟨h', hRun, hOnly⟩ := detach_elsewhere hWf hRoots hp ha hMem
    have hStill : SafeToDetach h kids p a ks → OnlyDetaches h h' kids p a ks ∧
        ∃ kids', WellFormed 0 h' kids' ∧ RootsApart h' kids' := by
      intro hSafe
      rcases hSafe with ⟨hMutable, hks⟩ | hTail | ⟨hks, hAlone⟩
      · rw [hasChildren_unique hp (hWf.hasChildren hMutable)] at hks
        exact absurd hks hMem
      · obtain ⟨h'', hRun', hRest⟩ := detach_shown hWf hRoots hp hTail
        cases hRun.symm.trans hRun'
        exact hRest
      · obtain ⟨h'', hRun', hOnly', hRest⟩ := detach_unlinked hWf hRoots hp
          (hAlone.link hWf hRoots ha) hMem hks
        cases hRun.symm.trans hRun'
        exact ⟨hOnly', kids, hRest⟩
    exact ⟨h', viaPointer_run hRun, ⟨fun h => Or.inr (hOnly h), fun hSafe => (hStill hSafe).1⟩,
      fun hSafe => (hStill hSafe).2⟩

theorem rootsApart_twoArrays : RootsApart Edit.twoArrays Edit.twoLists := by
  intro x hRoot hLive
  obtain ⟨n, hn⟩ := Option.isSome_iff_exists.mp hLive
  obtain ⟨hPrev, hNext⟩ := (Edit.twoArrays_nodes hn).2.2.2 hRoot
  rw [link_eq hn, hPrev, hNext]

/-- Detaching the item in the middle of an array. -/
theorem detachItemViaPointer_iff_twoArrays :
    ∃ h', cjsonDetachItemViaPointer (some 0) (some 2) Edit.twoArrays = .ok (some 2, h') ∧
      (OnlyDetaches Edit.twoArrays h' Edit.twoLists 0 2 [1, 2, 3] ↔
        SafeToDetach Edit.twoArrays Edit.twoLists 0 2 [1, 2, 3]) ∧
      (SafeToDetach Edit.twoArrays Edit.twoLists 0 2 [1, 2, 3] →
        ∃ kids', WellFormed 0 h' kids' ∧ RootsApart h' kids') :=
  detachItemViaPointer_iff Edit.wellFormed_twoArrays rootsApart_twoArrays
    (Edit.wellFormed_twoArrays.hasChildren ⟨Nat.zero_le 0, _, rfl, rfl⟩) rfl

/-! ## Detaching twice -/

theorem rootsApart_otherKey : RootsApart otherKey otherKids := by
  intro x _ hLive
  obtain ⟨n, hn⟩ := Option.isSome_iff_exists.mp hLive
  rw [link_eq hn]
  unfold otherKey at hn
  simp only at hn
  split at hn <;> cases hn <;> rfl

theorem mutable_otherKey : Mutable 0 otherKey 0 := ⟨Nat.zero_le 0, _, rfl, rfl⟩

theorem children_otherKey : HasChildren otherKey 0 [1] :=
  wellFormed_otherKey.hasChildren mutable_otherKey

/-- An item that has left the object, as after a first call with it: a second call drops the
member that is still there. -/
theorem detachItemViaPointer_drops : ¬ ∀ (h : Heap) (kids : Addr → List Addr) (p a : Addr)
    (ks : List Addr), WellFormed 0 h kids → RootsApart h kids → HasChildren h p ks →
    (h.nodes a).isSome →
    ∃ h', cjsonDetachItemViaPointer (some p) (some a) h = .ok (some a, h') ∧
      OnlyDetaches h h' kids p a ks := by
  intro hAll
  obtain ⟨h', hRun, hOnly⟩ := hAll otherKey otherKids 0 2 [1] wellFormed_otherKey
    rootsApart_otherKey children_otherKey rfl
  have hks : HasChildren h' 0 [1] := hOnly.1
  have hDropped : (match cjsonDetachItemViaPointer (some 0) (some 2) otherKey with
      | .ok (_, h') => (h'.nodes 0).elim false fun n => decide (n.child = none)
      | .error _ => false) = true := by decide +kernel
  rw [hRun] at hDropped
  obtain ⟨n, hn, hPath⟩ := hks
  simp only [hn, Option.elim, decide_eq_true_eq] at hDropped
  cases hPath.1.symm.trans hDropped

end CjsonRs.Ffi
