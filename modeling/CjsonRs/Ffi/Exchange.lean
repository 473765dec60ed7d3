import CjsonRs.Ffi.Detach
import CjsonRs.Ffi.Separate

/-!
# Replacing an item, itself included

`replace_via_pointer` splices the replacement in and frees the item. When both are the same node
the splice changes nothing, and the container keeps a pointer to the freed node. When the
replacement is the root of another tree, a freed node is left behind only by a reference into the
tree of the item.
-/

namespace CjsonRs.Ffi

open CjsonRs.Core Library Library.Link Library.Forest

variable {h g : Heap} {a b i p x y : Addr} {n m : CNode} {q r : Ptr} {kids : Addr → List Addr}
  {xs ys ks : List Addr}

/-! ## The calls -/

/-- How a call names the child to be replaced. -/
inductive Place where
  | pointer (item : Ptr)
  | index (which : Int)
  | key (caseSensitive : Bool) (string : Ptr)

namespace Place

/-- The child. -/
def find (parent : Ptr) : Place → M Ptr
  | pointer item => pure item
  | index which => childAtIndex parent which
  | key caseSensitive string => getObjectItemImpl parent string caseSensitive

/-- The call. -/
def replace (parent newitem : Ptr) : Place → M Bool
  | pointer item => cjsonReplaceItemViaPointer parent item newitem
  | index which => cjsonReplaceItemInArray parent which newitem
  | key false string => cjsonReplaceItemInObject parent string newitem
  | key true string => cjsonReplaceItemInObjectCaseSensitive parent string newitem

theorem replace_run {place : Place} (hFind : place.find (some p) h = .ok (some a, h)) :
    place.replace (some p) q h = replaceViaPointer (some p) (some a) q h := by
  cases place with
  | pointer item =>
    cases hFind
    rfl
  | index which => exact Run.bind_run_ok hFind
  | key caseSensitive string => cases caseSensitive <;> exact Run.bind_run_ok hFind

end Place

/-! ## What is left below the container -/

/-- Every node that can be reached from `p` is live, and `p` has `k` children. -/
def Intact (h : Heap) (p : Addr) (k : Nat) : Prop :=
  (∀ x, Reaches h p x → (h.nodes x).isSome) ∧ ∃ ks, HasChildren h p ks ∧ ks.length = k

/-- A pointer that stays when `i` becomes a child of `p`: one to a first child, or one to a sibling
outside of the list of `p`. -/
def Leads (h : Heap) (kids : Addr → List Addr) (p i x y : Addr) : Prop :=
  ∃ n, h.nodes x = some n ∧ ((x ≠ p ∧ n.child = some y) ∨ (x ∉ i :: kids p ∧ n.next = some y))

/-- What is found from the children of `p` when `i` stands for `a` among them. -/
def Remains (h : Heap) (kids : Addr → List Addr) (p a i x : Addr) : Prop :=
  ∃ k, (k = i ∨ (k ∈ kids p ∧ k ≠ a)) ∧ Relation.ReflTransGen (Leads h kids p i) k x

/-- Nothing that remains is dead or is freed with `a`. -/
def Clear (h : Heap) (kids : Addr → List Addr) (p a i : Addr) : Prop :=
  ∀ x, Remains h kids p a i x → (h.nodes x).isSome ∧ ¬ Below kids a x

/-! ## The item itself -/

/-- A write of what is already there. -/
theorem store_same {f : CNode → CNode} (ha : h.nodes a = some n) (hf : f n = n) :
    store (some a) f h = .ok ((), h) := by
  rw [store_run ha, hf, setNode_same ha]

/-- Splicing a node over itself writes the links that are there. -/
theorem spliceOver_self (hp : h.nodes p = some m) (hAround : Around h.link m.child xs a ys q r) :
    spliceOver p a a h = .ok ((), h) := by
  obtain ⟨n, hn, hPrev, hNext⟩ := node_of_link hAround.cell
  have hPrev : n.prev = q := hPrev
  have hNext : n.next = r := hNext
  have hLoad : load (some a) h = .ok (n, h) := load_run hn
  have hRedirect : redirect p n.prev (some a) h = .ok ((), h) := by
    rw [hPrev]
    rcases hAround.before with ⟨hq, hc⟩ | ⟨b, q', hq, hb⟩
    · rw [hq]
      apply store_same hp
      rw [← hc]
    · obtain ⟨nb, hnb, -, hOn⟩ := node_of_link hb
      rw [hq]
      apply store_same hnb
      rw [← show nb.next = some a from hOn]
  have hBack : redirectBack n.next (some a) h = .ok ((), h) := by
    rw [hNext]
    rcases hAround.behind with hr | ⟨b, r', hr, hb⟩
    · rw [hr]
      rfl
    · obtain ⟨nb, hnb, hOff, -⟩ := node_of_link hb
      rw [hr]
      apply store_same hnb
      rw [← show nb.prev = some a from hOff]
  rw [spliceOver, Run.bind_run_ok hLoad, Run.bind_run_ok (store_same hn rfl),
    Run.bind_run_ok hLoad, Run.bind_run_ok (store_same hn rfl), Run.bind_run_ok hLoad,
    Run.bind_run_ok hRedirect, Run.bind_run_ok hLoad, hBack]

/-- A node has a key to hand over to itself or it needs none. -/
theorem passKey_self (ha : h.nodes a = some n) : passKey a a h = .ok ((), h) := by
  rw [passKey, Run.bind_run_ok (load_run ha)]
  cases hString : n.string with
  | none => rfl
  | some s =>
    simp only [Option.isSome_some, if_true]
    rw [Run.bind_run_ok (load_run ha), hString]
    rfl

/-- A tree with the links of its root set to `NULL`. -/
theorem TreeAt.detached (hTree : TreeAt h kids a) (hn : h.nodes a = some n) :
    TreeAt (h.setNode a n.body) kids a := by
  have hNode : ∀ {x m}, (h.setNode a n.body).nodes x = some m →
      ∃ m', h.nodes x = some m' ∧ m'.isRef = m.isRef ∧ m'.child = m.child := by
    intro x m hm
    by_cases hxa : x = a
    · rw [hxa, Heap.setNode_self, Option.some.injEq] at hm
      rw [hxa, ← hm]
      exact ⟨n, hn, rfl, rfl⟩
    · rw [Heap.setNode_ne hxa] at hm
      exact ⟨m, hm, rfl, rfl⟩
  refine ⟨fun {x} hx => ?_, fun {x m} hx hm hRef => ?_, fun {x m} hx hm hRef => ?_, hTree.forest⟩
  · by_cases hxa : x = a
    · rw [hxa, Heap.setNode_self]
      rfl
    · rw [Heap.setNode_ne hxa]
      exact hTree.live hx
  · obtain ⟨m', hm', hSame, hChild⟩ := hNode hm
    rw [← hChild]
    refine (hTree.lists hx hm' (hSame.trans hRef)).congr fun y hy => ?_
    have hya : y ≠ a := fun hEq => not_below_child hTree.forest (hEq ▸ hy) hx
    unfold Heap.link
    rw [Heap.setNode_ne hya]
  · obtain ⟨m', hm', hSame, -⟩ := hNode hm
    exact hTree.reference hx hm' (hSame.trans hRef)

/-- A child that is replaced by itself is freed with what is below it; nothing else changes. -/
theorem replaceSelf_run (hWf : WellFormed 0 h kids) (hp : h.nodes p = some m)
    (hAround : Around h.link m.child xs a ys q r) :
    ∃ g, replaceViaPointer (some p) (some a) (some a) h = .ok (true, g) ∧ g.nodes a = none ∧
      ∀ x, ¬ Below kids a x → g.nodes x = h.nodes x := by
  classical
  obtain ⟨n, hn, -⟩ := node_of_link hAround.cell
  have hTree : TreeAt h kids a := hWf.trees.treeAt (Nat.zero_le a) (by rw [hn]; rfl)
  obtain ⟨V, hV⟩ := (hTree.detached hn).subtree
  have hStore : (h.setNode a { n with prev := none }).setNode a n.body = h.setNode a n.body := by
    simp only [Heap.setNode, Function.update_idem]
  have hRun : replaceViaPointer (some p) (some a) (some a) h
      = .ok (true, (h.setNode a n.body).freeAll ((h.setNode a n.body).blocksOf V)) := by
    rw [replaceViaPointer_eq, Run.bind_run_ok (spliceOver_self hp hAround),
      Run.bind_run_ok (passKey_self hn), Run.bind_run_ok (store_run hn _),
      Run.bind_run_ok (store_run Heap.setNode_self _)]
    show (freeCjson (some a) >>= fun _ => pure true)
      ((h.setNode a { n with prev := none }).setNode a n.body) = _
    rw [hStore, Run.bind_run_ok (freeCjson_run (hWf.bounded.setNode hn) hV)]
    rfl
  refine ⟨_, hRun, ?_, fun x hx => ?_⟩
  · rw [nodes_freeSubtree hV, if_pos (below_refl a)]
  · have hxa : x ≠ a := by
      rintro rfl
      exact hx (below_refl x)
    rw [nodes_freeSubtree hV, if_neg hx, Heap.setNode_ne hxa]

/-- A segment of a list leads to the node behind it. -/
theorem points_of_seg (hSeg : Seg h.link q r xs q' (some a)) :
    ∃ b, r = some b ∧ Relation.ReflTransGen (Points h) b a := by
  induction xs generalizing q r with
  | nil => exact ⟨a, hSeg.2.symm, Relation.ReflTransGen.refl⟩
  | cons x xs ih =>
    obtain ⟨hr, next, hLink, hSeg⟩ := hSeg
    obtain ⟨b, hNext, hb⟩ := ih hSeg
    obtain ⟨n, hn, -, hSame⟩ := node_of_link hLink
    exact ⟨x, hr, Relation.ReflTransGen.head ⟨n, hn, Or.inr (hSame.trans hNext)⟩ hb⟩

/-- An item that is replaced by itself is freed, and can still be reached. -/
theorem replace_self (hWf : WellFormed 0 h kids) (hp : Mutable 0 h p) (ha : a ∈ kids p) :
    ∃ g, replaceViaPointer (some p) (some a) (some a) h = .ok (true, g) ∧ Reaches g p a ∧
      g.nodes a = none := by
  obtain ⟨hN, m, hm, hRef⟩ := hp
  have hForest := hWf.trees.forest
  obtain ⟨xs, ys, hEq⟩ := List.append_of_mem ha
  have hList := hWf.trees.lists hN hm hRef
  rw [hEq] at hList
  obtain ⟨q, r, hAround⟩ := hList.around
  obtain ⟨g, hRun, hDead, hKept⟩ := replaceSelf_run hWf hm hAround
  have hFront : Seg g.link none m.child xs q (some a) := by
    refine hAround.front.congr fun x hx => ?_
    have hNodup := hForest.nodup p
    rw [hEq] at hNodup
    obtain ⟨-, -, hNot, -⟩ := nodup_around hNodup
    have hxKid : x ∈ kids p := by simp [hEq, hx]
    have hxa : x ≠ a := ne_of_mem_of_not_mem hx hNot
    unfold Heap.link
    rw [hKept x (siblings_apart hForest hxKid ha hxa (below_refl x))]
  obtain ⟨c, hc, hSteps⟩ := points_of_seg hFront
  have hm' : g.nodes p = some m := (hKept p (not_below_child hForest ha)).trans hm
  exact ⟨g, hRun, Or.inr ⟨m, c, hm', hc, hSteps⟩, hDead⟩

/-! ## The root of another tree -/

/-- In `g` the children of `p` are `ks`, in which `i` stands for the freed node `a`. -/
structure Exchanged (h g : Heap) (kids : Addr → List Addr) (p a i : Addr) (ks : List Addr) :
    Prop where
  list : ∃ m, g.nodes p = some m ∧ IsList g.link m.child ks
  mem : ∀ k, k ∈ ks ↔ k = i ∨ (k ∈ kids p ∧ k ≠ a)
  length : ks.length = (kids p).length
  live : ∀ x, (g.nodes x).isSome ↔ (h.nodes x).isSome ∧ ¬ Below kids a x
  child : ∀ x m, x ≠ p → g.nodes x = some m → ∃ n, h.nodes x = some n ∧ n.child = m.child
  next : ∀ x m, x ∉ i :: kids p → g.nodes x = some m → ∃ n, h.nodes x = some n ∧ n.next = m.next

/-- The container, right before the old child is freed. -/
theorem Replaced.container {h₁ : Heap} (hReplaced : Replaced 0 h h₁ kids p a i ks)
    (hp : Mutable 0 h p) (hpa : p ≠ a) (hpi : p ≠ i) : Mutable 0 h₁ p := by
  obtain ⟨hN, n, hn, hRef⟩ := hp
  obtain ⟨c, ma, mi, -, -, hBody⟩ := hReplaced.body
  have hP : h₁.body p = some { n.body with child := c } := by
    rw [hBody, moveKey_of_ne hpa hpi, setChild_self (body_eq hn)]
  obtain ⟨m, hm, hEq⟩ := node_of_body hP
  have hType : m.body.type_ = n.type_ := by rw [hEq]; rfl
  refine ⟨hN, m, hm, ?_⟩
  rw [CNode.isRef, show m.type_ = n.type_ from hType]
  exact hRef

/-- Nodes other than the container have the children they had, and are live if they were. -/
theorem Parts.node {h₁ : Heap} {kids₁ : Addr → List Addr} {ma mi : CNode}
    (hParts : Parts h h₁ kids kids₁ p a i ma mi) (hxp : x ≠ p) :
    (h₁.body x).map CNode.child = (h.body x).map CNode.child := by
  by_cases hxa : x = a
  · rw [hxa, hParts.member, hParts.live.1]
    by_cases hMoved : Moved ma mi
    · rw [if_pos hMoved]
      rfl
    · rw [if_neg hMoved]
  · by_cases hxi : x = i
    · rw [hxi, hParts.new, hParts.live.2]
      by_cases hMoved : Moved ma mi
      · rw [if_pos hMoved]
        rfl
      · rw [if_neg hMoved]
    · rw [hParts.same x hxa hxi hxp]

theorem Parts.isSome_nodes {h₁ : Heap} {kids₁ : Addr → List Addr} {ma mi : CNode}
    (hParts : Parts h h₁ kids kids₁ p a i ma mi) (hxp : x ≠ p) :
    (h₁.nodes x).isSome = (h.nodes x).isSome := by
  have hMap := congrArg Option.isSome (hParts.node hxp)
  rw [Option.isSome_map, Option.isSome_map, isSome_body, isSome_body] at hMap
  exact hMap

theorem replace_other (hWf : WellFormed 0 h kids) (hp : Mutable 0 h p) (ha : a ∈ kids p)
    (hi : Handed 0 h kids p i) :
    ∃ g ks, replaceViaPointer (some p) (some a) (some i) h = .ok (true, g) ∧
      Exchanged h g kids p a i ks := by
  classical
  obtain ⟨xs, ys, hEq⟩ := List.append_of_mem ha
  obtain ⟨h₁, V, hReplaced, hV, hOff, hRun⟩ := replaceChild_links hWf hp hi hEq
  obtain ⟨ma, mi, hParts⟩ := parts_of_replaced hWf hi hEq hReplaced
  have hNodup := hWf.trees.forest.nodup p
  rw [hEq] at hNodup
  obtain ⟨-, -, haXs, haYs, -⟩ := nodup_around hNodup
  have hpa : p ≠ a := (ne_of_child hWf.trees.forest ha).symm
  have hKept : ∀ x, ¬ Below kids a x →
      (h₁.freeAll (h₁.blocksOf V)).nodes x = h₁.nodes x := by
    intro x hx
    rw [nodes_freeSubtree hV, if_neg ((hParts.below x).not.mpr hx)]
  have hLeft : ∀ x m, (h₁.freeAll (h₁.blocksOf V)).nodes x = some m →
      ¬ Below kids a x ∧ h₁.nodes x = some m := by
    intro x m hm
    rw [nodes_freeSubtree hV] at hm
    split_ifs at hm with hx
    exact ⟨(hParts.below x).not.mp hx, hm⟩
  obtain ⟨-, m, hm, hRef⟩ := hReplaced.container hp hpa hi.ne.symm
  refine ⟨_, xs ++ i :: ys, hRun, ⟨m, (hKept p hParts.apart.2).trans hm, ?_⟩, fun k => ?_, ?_,
    fun x => ?_, fun x m' hxp hm' => ?_, fun x m' hx hm' => ?_⟩
  · have hWf' := hReplaced.wf.free hReplaced.root hV
    have hList := hWf'.trees.lists (Nat.zero_le p) ((hKept p hParts.apart.2).trans hm) hRef
    rw [prune_of_not_below ((hParts.below p).not.mpr hParts.apart.2),
      Function.update_self] at hList
    exact hList
  · rw [hEq, mem_around_iff haXs haYs]
  · rw [hEq]
    simp
  · have hLive : (h₁.nodes x).isSome = (h.nodes x).isSome := by
      by_cases hxp : x = p
      · obtain ⟨-, n, hn, -⟩ := hp
        rw [hxp, hm, hn]
        rfl
      · exact hParts.isSome_nodes hxp
    rw [← hLive, nodes_freeSubtree hV]
    by_cases hx : Below kids a x
    · rw [if_pos ((hParts.below x).mpr hx)]
      simp [hx]
    · rw [if_neg ((hParts.below x).not.mpr hx)]
      simp [hx]
  · obtain ⟨-, hm₁⟩ := hLeft x m' hm'
    have hMap := hParts.node hxp
    rw [body_eq hm₁] at hMap
    obtain ⟨b, hb, hChild⟩ := Option.map_eq_some_iff.mp hMap.symm
    obtain ⟨n, hn, hBody⟩ := node_of_body hb
    rw [← hBody] at hChild
    exact ⟨n, hn, hChild⟩
  · obtain ⟨-, hm₁⟩ := hLeft x m' hm'
    have hLink := hOff x hx
    rw [link_eq hm₁] at hLink
    obtain ⟨n, hn, -, hNext⟩ := node_of_link hLink.symm
    exact ⟨n, hn, hNext⟩

namespace Exchanged

/-- A pointer that stays is still there if its node is. -/
theorem points_of_leads (hEx : Exchanged h g kids p a i ks) (hLeads : Leads h kids p i x y)
    (hx : (g.nodes x).isSome) : Points g x y := by
  obtain ⟨m, hm⟩ := Option.isSome_iff_exists.mp hx
  obtain ⟨n, hn, hPointer⟩ := hLeads
  rcases hPointer with ⟨hxp, hChild⟩ | ⟨hOut, hNext⟩
  · obtain ⟨n', hn', hSame⟩ := hEx.child x m hxp hm
    rw [hn, Option.some.injEq] at hn'
    exact ⟨m, hm, Or.inl (by rw [← hSame, ← hn', hChild])⟩
  · obtain ⟨n', hn', hSame⟩ := hEx.next x m hOut hm
    rw [hn, Option.some.injEq] at hn'
    exact ⟨m, hm, Or.inr (by rw [← hSame, ← hn', hNext])⟩

theorem remains_of_mem (hEx : Exchanged h g kids p a i ks) (hx : x ∈ ks) :
    Remains h kids p a i x :=
  ⟨x, (hEx.mem x).mp hx, Relation.ReflTransGen.refl⟩

/-- The first child of the container remains. -/
theorem remains_first {m : CNode} (hEx : Exchanged h g kids p a i ks) (hm : g.nodes p = some m)
    (hc : m.child = some x) : Remains h kids p a i x := by
  obtain ⟨m', hm', hList⟩ := hEx.list
  rw [hm, Option.some.injEq] at hm'
  rw [← hm', hc] at hList
  obtain ⟨bs, hEq⟩ := hList.cons
  apply hEx.remains_of_mem
  rw [hEq]
  exact List.mem_cons_self

/-- A pointer from a node that remains leads to one that remains. -/
theorem remains_step (hEx : Exchanged h g kids p a i ks) (hRemains : Remains h kids p a i x)
    (hStep : Points g x y) : Remains h kids p a i y := by
  obtain ⟨m, hm, hPointer⟩ := hStep
  obtain ⟨k, hk, hWay⟩ := hRemains
  rcases hPointer with hChild | hNext
  · by_cases hxp : x = p
    · exact hEx.remains_first (hxp ▸ hm) hChild
    · obtain ⟨n, hn, hSame⟩ := hEx.child x m hxp hm
      exact ⟨k, hk, hWay.tail ⟨n, hn, Or.inl ⟨hxp, hSame.trans hChild⟩⟩⟩
  · by_cases hx : x ∈ ks
    · obtain ⟨_, -, hList⟩ := hEx.list
      exact hEx.remains_of_mem (next_mem hList hx hm hNext)
    · -- The freed node is no longer there, so that `x` is outside of the list.
      have hxa : x ≠ a := by
        intro hEq
        have hLive : (g.nodes x).isSome := by rw [hm]; rfl
        exact ((hEx.live x).mp hLive).2 (hEq ▸ below_refl x)
      have hOut : x ∉ i :: kids p := by
        intro hMem
        apply hx
        rw [hEx.mem]
        exact (List.mem_cons.mp hMem).imp id fun hKid => ⟨hKid, hxa⟩
      obtain ⟨n, hn, hSame⟩ := hEx.next x m hOut hm
      exact ⟨k, hk, hWay.tail ⟨n, hn, Or.inr ⟨hOut, hSame.trans hNext⟩⟩⟩

/-- What can be reached after the exchange is what remains, as long as that is live. -/
theorem reaches_live_iff (hEx : Exchanged h g kids p a i ks) :
    (∀ x, Reaches g p x → (g.nodes x).isSome) ↔ Clear h kids p a i := by
  obtain ⟨m, hm, hList⟩ := hEx.list
  constructor
  · intro hLive x hRemains
    obtain ⟨k, hk, hSteps⟩ := hRemains
    obtain ⟨c, hc, hFirst⟩ := points_of_path hList.path ((hEx.mem k).mpr hk)
    have hReach : Relation.ReflTransGen (Points g) c x := by
      induction hSteps with
      | refl => exact hFirst
      | @tail y z _ hStep ih =>
        exact ih.tail (hEx.points_of_leads hStep (hLive y (Or.inr ⟨m, c, hm, hc, ih⟩)))
    exact (hEx.live x).mp (hLive x (Or.inr ⟨m, c, hm, hc, hReach⟩))
  · intro hClear x hReaches
    rcases hReaches with hEq | ⟨m', c, hm', hc, hSteps⟩
    · rw [hEq, hm]
      rfl
    suffices hRemains : Remains h kids p a i x from (hEx.live x).mpr (hClear x hRemains)
    induction hSteps with
    | refl => exact hEx.remains_first hm' hc
    | tail _ hStep ih => exact hEx.remains_step ih hStep

theorem intact_iff (hEx : Exchanged h g kids p a i ks) :
    Intact g p (kids p).length ↔ Clear h kids p a i := by
  obtain ⟨m, hm, hList⟩ := hEx.list
  rw [Intact, hEx.reaches_live_iff]
  exact and_iff_left ⟨ks, ⟨m, hm, hList.path⟩, hEx.length⟩

end Exchanged

/-! ## References -/

/-- Without references nothing that remains is freed. -/
theorem clear_of_owned (hWf : WellFormed 0 h kids) (ha : a ∈ kids p) (hi : Handed 0 h kids p i)
    (hOwned : ∀ x n, h.nodes x = some n → n.isRef = false) : Clear h kids p a i := by
  rintro x ⟨k, hk, hSteps⟩
  have hBelow : Below kids k x := by
    induction hSteps with
    | refl => exact below_refl k
    | @tail y z _ hStep ih =>
      obtain ⟨n, hn, ⟨-, hChild⟩ | ⟨hOut, hNext⟩⟩ := hStep
      · have hList := hWf.trees.lists (Nat.zero_le y) hn (hOwned y n hn)
        rw [hChild] at hList
        obtain ⟨bs, hEq⟩ := hList.cons
        exact ih.trans (below_child (by rw [hEq]; exact List.mem_cons_self))
      · rcases below_tail ih with hEq | ⟨b, hb, hy⟩
        · rw [hEq, List.mem_cons, not_or] at hOut
          exact absurd hk (by tauto)
        · obtain ⟨-, -, m, hm, hRef⟩ := hWf.trees.parent hy
          have hList := hWf.trees.lists (Nat.zero_le b) hm hRef
          exact hb.trans (below_child (next_mem hList hy hn hNext))
  rcases hk with hk | ⟨hk, hka⟩
  · rw [hk] at hBelow
    obtain ⟨n, hn⟩ := Option.isSome_iff_exists.mp hi.live
    obtain ⟨m, hm⟩ := hWf.trees.below_live hn hBelow
    exact ⟨by rw [hm]; rfl, (new_apart hWf hi ha hBelow).1⟩
  · obtain ⟨n, hn⟩ := hWf.trees.child_live hk
    obtain ⟨m, hm⟩ := hWf.trees.below_live hn hBelow
    exact ⟨by rw [hm]; rfl, (others_apart hWf hi ha hk hka hBelow).1⟩

/-- A replacement keeps everything that can be reached from the container live, and the number of
its children, just when the replacement is not the item itself and no reference among what stays
leads into the tree of the item or to a dead node. -/
theorem replace_intact_iff {place : Place} (hWf : WellFormed 0 h kids) (hp : Mutable 0 h p)
    (hFind : place.find (some p) h = .ok (some a, h)) (ha : a ∈ kids p)
    (hi : i = a ∨ Handed 0 h kids p i) :
    ∃ g, place.replace (some p) (some i) h = .ok (true, g) ∧
      (Intact g p (kids p).length ↔ i ≠ a ∧ Clear h kids p a i) := by
  rw [Place.replace_run hFind]
  rcases hi with hia | hi
  · obtain ⟨g, hRun, hReach, hDead⟩ := replace_self hWf hp ha
    rw [hia]
    refine ⟨g, hRun, fun hIntact => ?_, fun hCond => absurd rfl hCond.1⟩
    have hLive := hIntact.1 a hReach
    rw [hDead] at hLive
    cases hLive
  · obtain ⟨g, ks, hRun, hEx⟩ := replace_other hWf hp ha hi
    have hia : i ≠ a := by
      rintro rfl
      exact hi.root p ha
    exact ⟨g, hRun, hEx.intact_iff.trans (and_iff_right hia).symm⟩

theorem owned_otherKey (hn : otherKey.nodes x = some n) : n.isRef = false := by
  unfold otherKey at hn
  simp only at hn
  split at hn <;> cases hn <;> rfl

theorem replace_intact_iff_otherKey :
    ∃ g, (Place.index 0).replace (some 0) (some 2) otherKey = .ok (true, g) ∧ Intact g 0 1 := by
  have hChild : (1 : Addr) ∈ otherKids 0 := List.mem_singleton_self 1
  have hFind : (Place.index 0).find (some 0) otherKey = .ok (some 1, otherKey) := rfl
  obtain ⟨g, hRun, hIff⟩ := replace_intact_iff wellFormed_otherKey mutable_otherKey hFind hChild
    (Or.inr handed_otherKey)
  have hClear : Clear otherKey otherKids 0 1 2 :=
    clear_of_owned wellFormed_otherKey hChild handed_otherKey fun _ _ => owned_otherKey
  exact ⟨g, hRun, hIff.mpr ⟨by decide, hClear⟩⟩

/-- A child that is replaced by itself is freed under its container. -/
theorem replace_frees_child : ¬ ∀ {h g : Heap} {kids : Addr → List Addr} {p a i : Addr}
    {place : Place}, WellFormed 0 h kids → Mutable 0 h p →
    place.find (some p) h = .ok (some a, h) → a ∈ kids p → (i = a ∨ Handed 0 h kids p i) →
    place.replace (some p) (some i) h = .ok (true, g) → Intact g p (kids p).length := by
  intro hAll
  have hChild : (1 : Addr) ∈ otherKids 0 := List.mem_singleton_self 1
  have hFind : (Place.pointer (some 1)).find (some 0) otherKey = .ok (some 1, otherKey) := rfl
  obtain ⟨g, hRun, hReach, hDead⟩ := replace_self wellFormed_otherKey mutable_otherKey hChild
  have hIntact := hAll wellFormed_otherKey mutable_otherKey hFind hChild (Or.inl rfl) hRun
  have hLive := hIntact.1 1 hReach
  rw [hDead] at hLive
  cases hLive

end CjsonRs.Ffi
