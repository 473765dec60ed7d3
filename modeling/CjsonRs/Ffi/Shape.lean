import CjsonRs.Ffi.Api
import CjsonRs.Library.Forest
import CjsonRs.Library.Links
import Mathlib.Data.List.Perm.Subperm

/-!
# The shape of a heap

A node is its links (`Heap.link`) and the rest of its fields (`Heap.body`); the code that
moves nodes between lists of children changes only links and `child` pointers, and
`Spliced` is what it leaves. `Represents N h kids` says that the nodes at addresses from `N`
on form ordered trees: the children of `a` are the doubly linked list `kids a`. A heap is
well formed when `Represents 0 h kids` for some `kids`; a call that builds nodes only needs
this of the nodes it has built itself.
-/

namespace CjsonRs.Ffi

open CjsonRs.Core Library Library.Link Library.Forest

/-- A node without its links. -/
def CNode.body (n : CNode) : CNode := { n with prev := none, next := none }

/-- Whether a node is a reference, and its `child` pointer. -/
def CNode.shape (n : CNode) : Bool × Ptr := (n.isRef, n.child)

namespace Heap

/-- The links of the nodes. -/
def link (h : Heap) (a : Addr) : Option (Link Addr) := (h.nodes a).map fun n => ⟨n.prev, n.next⟩

/-- The nodes without their links. -/
def body (h : Heap) (a : Addr) : Option CNode := (h.nodes a).map CNode.body

/-- The shapes of the nodes. -/
def shape (h : Heap) (a : Addr) : Option (Bool × Ptr) := (h.nodes a).map CNode.shape

/-- Nothing lives from the break on. -/
structure Bounded (h : Heap) : Prop where
  nodes : ∀ {a}, h.brk ≤ a → h.nodes a = none
  bufs : ∀ {s}, h.brk ≤ s → h.bufs s = none

theorem Bounded.lt {h : Heap} (hBounded : h.Bounded) {a : Addr} {n : CNode}
    (ha : h.nodes a = some n) : a < h.brk := by
  by_contra hLe
  rw [hBounded.nodes (Nat.le_of_not_lt hLe)] at ha
  cases ha

theorem Bounded.lt_buf {h : Heap} (hBounded : h.Bounded) {s : Addr} {b : Buf}
    (hs : h.bufs s = some b) : s < h.brk := by
  by_contra hLe
  rw [hBounded.bufs (Nat.le_of_not_lt hLe)] at hs
  cases hs

end Heap

variable {h h' h'' : Heap} {a p x : Addr} {n m : CNode} {c : Ptr}

theorem link_eq (ha : h.nodes a = some n) : h.link a = some ⟨n.prev, n.next⟩ := by
  rw [Heap.link, ha]
  rfl

theorem body_eq (ha : h.nodes a = some n) : h.body a = some n.body := by
  rw [Heap.body, ha]
  rfl

/-- A node is its links and its other fields. -/
theorem nodes_eq {l : Link Addr} (hl : h.link a = some l) (hb : h.body a = some m) :
    h.nodes a = some { m with prev := l.prev, next := l.next } := by
  unfold Heap.link at hl
  unfold Heap.body at hb
  cases hn : h.nodes a with
  | none =>
    rw [hn] at hb
    cases hb
  | some n =>
    rw [hn] at hl hb
    cases hl
    cases hb
    rfl

theorem isSome_link : (h.link a).isSome = (h.nodes a).isSome := by
  unfold Heap.link
  exact Option.isSome_map ..

theorem isSome_body : (h.body a).isSome = (h.nodes a).isSome := by
  unfold Heap.body
  exact Option.isSome_map ..

theorem nodes_congr (hLink : h'.link a = h.link a) (hBody : h'.body a = h.body a) :
    h'.nodes a = h.nodes a := by
  cases hn : h.nodes a with
  | none =>
    have hNone := isSome_link (h := h') (a := a)
    rw [hLink, isSome_link, hn] at hNone
    exact Option.isNone_iff_eq_none.mp (by rw [← Option.not_isSome, ← hNone]; rfl)
  | some n =>
    rw [link_eq hn] at hLink
    rw [body_eq hn] at hBody
    have hNode := nodes_eq hLink hBody
    exact hNode

theorem link_setNode : (h.setNode a n).link = Function.update h.link a (some ⟨n.prev, n.next⟩) := by
  funext x
  by_cases hx : x = a
  · subst hx
    rw [Function.update_self, link_eq Heap.setNode_self]
  · rw [Function.update_of_ne hx, Heap.link, Heap.link, Heap.setNode_ne hx]

theorem body_setNode : (h.setNode a n).body = Function.update h.body a (some n.body) := by
  funext x
  by_cases hx : x = a
  · subst hx
    rw [Function.update_self, body_eq Heap.setNode_self]
  · rw [Function.update_of_ne hx, Heap.body, Heap.body, Heap.setNode_ne hx]

theorem shape_eq (ha : h.nodes a = some n) : h.shape a = some n.shape := by
  rw [Heap.shape, ha]
  rfl

theorem shape_of_body (hb : h.body a = some m) : h.shape a = some m.shape := by
  unfold Heap.body at hb
  obtain ⟨n, hn, rfl⟩ := Option.map_eq_some_iff.mp hb
  have hShape := shape_eq hn
  exact hShape

/-- The shapes are a part of the other fields. -/
theorem shape_congr (hBody : h'.body x = h.body x) : h'.shape x = h.shape x := by
  unfold Heap.body at hBody
  unfold Heap.shape
  cases hn : h.nodes x with
  | none =>
    rw [hn] at hBody
    rw [Option.map_eq_none_iff.mp hBody]
  | some n =>
    rw [hn] at hBody
    obtain ⟨n', hn', hEq⟩ := Option.map_eq_some_iff.mp hBody
    rw [hn']
    have hShape := congrArg CNode.shape hEq
    exact congrArg some hShape

/-- Give the node `p` the child pointer `c`. -/
def setChild (b : Addr → Option CNode) (p : Addr) (c : Ptr) : Addr → Option CNode :=
  Function.update b p ((b p).map ({ · with child := c }))

theorem setChild_of_ne {b : Addr → Option CNode} (hx : x ≠ p) : setChild b p c x = b x :=
  Function.update_of_ne hx _ _

theorem setChild_self {b : Addr → Option CNode} (hb : b p = some m) :
    setChild b p c p = some { m with child := c } := by
  rw [setChild, Function.update_self, hb]
  rfl

theorem setChild_same {b : Addr → Option CNode} (hb : b p = some m) (hc : m.child = c) :
    setChild b p c = b := by
  funext x
  by_cases hx : x = p
  · rw [hx, setChild_self hb, hb, ← hc]
  · exact setChild_of_ne hx

/-! ## Writing links -/

/-- `h'` is `h` with the links `L` and the other fields `b`. -/
structure Rewritten (h h' : Heap) (L : Addr → Option (Link Addr)) (b : Addr → Option CNode) :
    Prop where
  link : h'.link = L
  body : h'.body = b
  rest : h' = { h with nodes := h'.nodes }

theorem Rewritten.refl (h : Heap) : Rewritten h h h.link h.body := ⟨rfl, rfl, rfl⟩

section Writes

variable {L : Addr → Option (Link Addr)} {b : Addr → Option CNode}

theorem Rewritten.live (hW : Rewritten h h' L b) (ha : (L a).isSome) :
    ∃ n, h'.nodes a = some n := by
  rw [← hW.link, isSome_link] at ha
  exact Option.isSome_iff_exists.mp ha

theorem Rewritten.setNode (hW : Rewritten h h' L b) :
    Rewritten h (h'.setNode a n) (Function.update L a (some ⟨n.prev, n.next⟩))
      (Function.update b a (some n.body)) where
  link := by rw [link_setNode, hW.link]
  body := by rw [body_setNode, hW.body]
  rest := by
    rw [hW.rest]
    rfl

theorem store_next (hW : Rewritten h h' L b) (ha : (L a).isSome) (v : Ptr) :
    ∃ h'', store (some a) ({ · with next := v }) h' = .ok ((), h'') ∧
      Rewritten h h'' (setNext L a v) b := by
  obtain ⟨n, hn⟩ := hW.live ha
  refine ⟨_, store_run hn _, ?_⟩
  have hW' := hW.setNode (a := a) (n := { n with next := v })
  have hb : Function.update b a (some n.body) = b := by
    rw [← hW.body, ← body_eq hn, Function.update_eq_self]
  have hL : setNext L a v = Function.update L a (some ⟨n.prev, v⟩) := by
    rw [setNext, ← hW.link, link_eq hn]
    rfl
  rw [hL, ← hb]
  exact hW'

theorem store_prev (hW : Rewritten h h' L b) (ha : (L a).isSome) (v : Ptr) :
    ∃ h'', store (some a) ({ · with prev := v }) h' = .ok ((), h'') ∧
      Rewritten h h'' (setPrev L a v) b := by
  obtain ⟨n, hn⟩ := hW.live ha
  refine ⟨_, store_run hn _, ?_⟩
  have hW' := hW.setNode (a := a) (n := { n with prev := v })
  have hb : Function.update b a (some n.body) = b := by
    rw [← hW.body, ← body_eq hn, Function.update_eq_self]
  have hL : setPrev L a v = Function.update L a (some ⟨v, n.next⟩) := by
    rw [setPrev, ← hW.link, link_eq hn]
    rfl
  rw [hL, ← hb]
  exact hW'

/-- A write that only changes fields other than the links. -/
theorem store_body (hW : Rewritten h h' L b) (hb : b a = some m) (f : CNode → CNode)
    (hPrev : ∀ n, (f n).prev = n.prev) (hNext : ∀ n, (f n).next = n.next)
    (hBody : ∀ n, (f n).body = (f n.body).body) :
    ∃ h'', store (some a) f h' = .ok ((), h'') ∧
      Rewritten h h'' L (Function.update b a (some (f m).body)) := by
  have hLive := isSome_body (h := h') (a := a)
  rw [hW.body, hb] at hLive
  obtain ⟨n, hn⟩ := Option.isSome_iff_exists.mp hLive.symm
  refine ⟨_, store_run hn _, ?_⟩
  have hW' := hW.setNode (a := a) (n := f n)
  have hL : Function.update L a (some ⟨(f n).prev, (f n).next⟩) = L := by
    rw [hPrev, hNext, ← hW.link, ← link_eq hn, Function.update_eq_self]
  have hm : m = n.body := by
    rw [← hW.body, body_eq hn] at hb
    exact (Option.some.inj hb).symm
  rw [hL, hBody n, ← hm] at hW'
  exact hW'

theorem store_child (hW : Rewritten h h' L b) (hb : (b a).isSome) (v : Ptr) :
    ∃ h'', store (some a) ({ · with child := v }) h' = .ok ((), h'') ∧
      Rewritten h h'' L (setChild b a v) := by
  obtain ⟨m, hm⟩ := Option.isSome_iff_exists.mp hb
  obtain ⟨h'', hRun, hW'⟩ :=
    store_body hW hm ({ · with child := v }) (fun _ => rfl) (fun _ => rfl) (fun _ => rfl)
  refine ⟨h'', hRun, ?_⟩
  have hSame : m.body = m := by
    rw [← hW.body] at hm
    obtain ⟨n, hn, rfl⟩ := Option.map_eq_some_iff.mp hm
    rfl
  have hEq : setChild b a v = Function.update b a (some { m with child := v }.body) := by
    rw [setChild, hm, ← hSame]
    rfl
  rw [hEq]
  exact hW'

end Writes

/-! ## Splices -/

/-- Let what comes after the pointer back `q` be `v`: the list is entered at the `child`
pointer of `p` when `q` is `NULL`. -/
def redirect (p : Addr) : Ptr → Ptr → M Unit
  | none, v => store (some p) ({ · with child := v })
  | some a, v => store (some a) ({ · with next := v })

/-- Let what comes before the pointer on `q`, if anything is there, be `v`. -/
def redirectBack : Ptr → Ptr → M Unit
  | none, _ => pure ()
  | some a, v => store (some a) ({ · with prev := v })

section Redirect

variable {L : Addr → Option (Link Addr)} {b : Addr → Option CNode} {q : Ptr}

theorem redirect_run (hW : Rewritten h h' L b) (hp : b p = some m)
    (hq : ∀ a, q = some a → (L a).isSome) (v : Ptr) :
    ∃ h'', redirect p q v h' = .ok ((), h'') ∧
      Rewritten h h'' (setNextAt L q v) (setChild b p (entry m.child q v)) := by
  cases q with
  | none => exact store_child hW (by rw [hp]; rfl) v
  | some a =>
    obtain ⟨h'', hRun, hW'⟩ := store_next hW (hq a rfl) v
    refine ⟨h'', hRun, ?_⟩
    have hEq : setChild b p (entry m.child (some a) v) = b := setChild_same hp rfl
    rw [hEq]
    exact hW'

theorem redirectBack_run (hW : Rewritten h h' L b) (hq : ∀ a, q = some a → (L a).isSome)
    (v : Ptr) :
    ∃ h'', redirectBack q v h' = .ok ((), h'') ∧ Rewritten h h'' (setPrevAt L q v) b := by
  cases q with
  | none => exact ⟨h', rfl, hW⟩
  | some a => exact store_prev hW (hq a rfl) v

end Redirect

/-- In `h'` the list `ks` starts at the `child` pointer of `p`; otherwise only the links of
the nodes `touched` are different from those of `h`. -/
structure Spliced (h h' : Heap) (p : Addr) (ks touched : List Addr) : Prop where
  list : ∃ m c, h.shape p = some m ∧ h'.shape p = some (m.1, c) ∧ IsList h'.link c ks
  off : ∀ x, x ∉ touched → h'.link x = h.link x
  shape : ∀ x, x ≠ p → h'.shape x = h.shape x

theorem Spliced.of_body {ks touched : List Addr} (hp : h.body p = some m)
    (hBody : h'.body = setChild h.body p c) (hList : IsList h'.link c ks)
    (hOff : ∀ x, x ∉ touched → h'.link x = h.link x) : Spliced h h' p ks touched where
  list := ⟨m.shape, c, shape_of_body hp, shape_of_body (by rw [hBody, setChild_self hp]), hList⟩
  off := hOff
  shape x hx := shape_congr (by rw [hBody, setChild_of_ne hx])

theorem node_of_link {l : Link Addr} (hl : h.link a = some l) :
    ∃ n, h.nodes a = some n ∧ n.prev = l.prev ∧ n.next = l.next := by
  unfold Heap.link at hl
  obtain ⟨n, hn, rfl⟩ := Option.map_eq_some_iff.mp hl
  exact ⟨n, hn, rfl, rfl⟩

/-- The neighbours of a cell of a list are cells. -/
theorem around_isSome {L : Addr → Option (Link Addr)} {xs ys : List Addr} {q r : Ptr}
    (h : Around L c xs a ys q r) :
    (∀ b, q = some b → (L b).isSome) ∧ ∀ b, r = some b → (L b).isSome := by
  have hCell : ∀ b ∈ xs ++ a :: ys, (L b).isSome := by
    intro b hb
    obtain ⟨p, hList⟩ := h.isList
    obtain ⟨l, hl⟩ := hList.cell hb
    rw [hl]
    rfl
  constructor
  · rintro b rfl
    rcases h.prev_mem with ⟨-, hNone⟩ | ⟨b', hb', hSome⟩
    · cases hNone
    · cases hSome
      exact hCell b (List.mem_append_left _ hb')
  · rintro b rfl
    rcases h.next_mem with ⟨-, hNone⟩ | ⟨b', hb', hSome⟩
    · cases hNone
    · cases hSome
      exact hCell b (List.mem_append_right _ (List.mem_cons_of_mem a hb'))

/-- A list of children keeps below the break. -/
theorem length_le_brk (hBounded : h.Bounded) {as : List Addr} (hList : IsList h.link c as)
    (hNodup : as.Nodup) : as.length ≤ h.brk := by
  have hSub : as ⊆ List.range h.brk := by
    intro a ha
    obtain ⟨q, hSeg⟩ := hList
    obtain ⟨l, hl⟩ := hSeg.cell ha
    obtain ⟨n, hn, -⟩ := node_of_link hl
    exact List.mem_range.mpr (hBounded.lt hn)
  have hLength := (List.subperm_of_subset hNodup hSub).length_le
  rw [List.length_range] at hLength
  exact hLength

theorem detach_eq (p a : Addr) :
    detach (some p) (some a) = (do
      let i ← load (some a)
      redirect p i.prev i.next
      redirectBack i.next i.prev
      store (some a) ({ · with next := none })
      store (some a) ({ · with prev := none })) := by
  simp only [detach, Option.isNone_some, Bool.false_eq_true, if_false, Option.isSome_some, if_true]
  congr 1
  funext i
  cases i.prev <;> cases i.next <;> rfl

/-- `detach`, by the links of the node. -/
theorem detach_links {q r : Ptr} (hp : h.body p = some m) (ha : h.link a = some ⟨q, r⟩)
    (hq : ∀ b, q = some b → (h.link b).isSome) (hr : ∀ b, r = some b → (h.link b).isSome) :
    ∃ h', detach (some p) (some a) h = .ok ((), h') ∧
      Rewritten h h' (unlink h.link a q r) (setChild h.body p (entry m.child q r)) := by
  obtain ⟨n, hn, rfl, rfl⟩ := node_of_link ha
  have hSome : (h.link a).isSome := by rw [ha]; rfl
  obtain ⟨h₁, hRun₁, hW₁⟩ := redirect_run (Rewritten.refl h) hp hq n.next
  obtain ⟨h₂, hRun₂, hW₂⟩ :=
    redirectBack_run hW₁ (fun b hb => isSome_setNextAt _ (hr b hb)) n.prev
  have ha₂ : (setPrevAt (setNextAt h.link n.prev n.next) n.next n.prev a).isSome :=
    isSome_setPrevAt _ (isSome_setNextAt _ hSome)
  obtain ⟨h₃, hRun₃, hW₃⟩ := store_next hW₂ ha₂ none
  obtain ⟨h₄, hRun₄, hW₄⟩ := store_prev hW₃ (isSome_setNext none ha₂) none
  rw [setPrev_setNext ha₂] at hW₄
  refine ⟨h₄, ?_, hW₄⟩
  rw [detach_eq, Run.bind_run_ok (load_run hn), Run.bind_run_ok hRun₁, Run.bind_run_ok hRun₂,
    Run.bind_run_ok hRun₃, hRun₄]

/-- Taking a child out of its list. -/
theorem detach_run {xs ys : List Addr} (hp : h.body p = some m)
    (hList : IsList h.link m.child (xs ++ a :: ys)) (hNodup : (xs ++ a :: ys).Nodup) :
    ∃ h' c, detach (some p) (some a) h = .ok ((), h') ∧
      Spliced h h' p (xs ++ ys) (xs ++ a :: ys) ∧
      Rewritten h h' h'.link (setChild h.body p c) ∧ h'.link a = some ⟨none, none⟩ := by
  obtain ⟨q, r, hAround⟩ := hList.around
  have hNear := around_isSome hAround
  obtain ⟨h', hRun, hW⟩ := detach_links hp hAround.cell hNear.1 hNear.2
  refine ⟨h', _, hRun, Spliced.of_body hp hW.body ?_ ?_, ⟨rfl, hW.body, hW.rest⟩, ?_⟩
  · rw [hW.link]
    exact unlink_isList hAround hNodup
  · intro x hx
    rw [hW.link]
    exact unlink_of_ne hAround hx
  · rw [hW.link]
    exact setLink_self a none none

theorem findTail_run {xs : List Addr} {t : Addr} {q : Ptr} {fuel : Nat}
    (hSeg : Seg h.link q (some a) (xs ++ [t]) (some t) none) (hFuel : xs.length < fuel) :
    findTail fuel a h = .ok (t, h) := by
  induction xs generalizing a q fuel with
  | nil =>
    obtain ⟨hHead, n, hLink, -, rfl⟩ := hSeg
    cases hHead
    obtain ⟨n, hn, -, hNext⟩ := node_of_link hLink
    obtain ⟨fuel, rfl⟩ := Nat.exists_eq_succ_of_ne_zero (Nat.ne_of_gt hFuel)
    rw [findTail, Run.bind_run_ok (load_run hn), hNext]
    rfl
  | cons x xs ih =>
    obtain ⟨hHead, next, hLink, hSeg⟩ := hSeg
    cases hHead
    obtain ⟨n, hn, -, hNext⟩ := node_of_link hLink
    obtain ⟨fuel, rfl⟩ := Nat.exists_eq_succ_of_ne_zero (Nat.ne_zero_of_lt hFuel)
    rw [List.length_cons, Nat.succ_lt_succ_iff] at hFuel
    obtain ⟨y, hy⟩ : ∃ y, next = some y := by
      cases xs with
      | nil => exact ⟨t, hSeg.1⟩
      | cons y xs => exact ⟨y, hSeg.1⟩
    subst hy
    rw [findTail, Run.bind_run_ok (load_run hn), hNext]
    exact ih hSeg hFuel

/-- The `child` pointer of a node. -/
theorem node_of_body (hp : h.body p = some m) : ∃ n, h.nodes p = some n ∧ n.body = m :=
  Option.map_eq_some_iff.mp hp

theorem isList_isSome {ks : List Addr} (hList : IsList h.link c ks) (ha : a ∈ ks) :
    (h.link a).isSome := by
  obtain ⟨q, hSeg⟩ := hList
  obtain ⟨l, hl⟩ := hSeg.cell ha
  rw [hl]
  rfl

/-- Adding a node to an empty list of children. -/
theorem attachChild_first (hp : h.body p = some m) (hNone : m.child = none)
    (ha : (h.link a).isSome) :
    ∃ h', attachChild (some p) (some a) h = .ok ((), h') ∧
      Rewritten h h' (setLink h.link a none none) (setChild h.body p (some a)) := by
  obtain ⟨n, hn, rfl⟩ := node_of_body hp
  obtain ⟨h₁, hRun₁, hW₁⟩ := store_child (Rewritten.refl h) (by rw [hp]; rfl) (some a)
  obtain ⟨h₂, hRun₂, hW₂⟩ := store_prev hW₁ ha none
  obtain ⟨h₃, hRun₃, hW₃⟩ := store_next hW₂ (isSome_setPrev none ha) none
  rw [setNext_setPrev ha] at hW₃
  refine ⟨h₃, ?_, hW₃⟩
  rw [attachChild, Run.bind_run_ok (load_run hn), show n.child = none from hNone]
  show (store (some p) _ >>= fun _ => _) h = _
  rw [Run.bind_run_ok hRun₁, Run.bind_run_ok hRun₂, hRun₃]

/-- Adding a node behind the last child `t`. -/
theorem attachChild_last {xs : List Addr} {t : Addr} (hBounded : h.Bounded)
    (hp : h.body p = some m) (hList : IsList h.link m.child (xs ++ [t]))
    (hNodup : (xs ++ [t]).Nodup) (ha : (h.link a).isSome) :
    ∃ h', attachChild (some p) (some a) h = .ok ((), h') ∧
      Rewritten h h' (pushBack h.link t a) h.body := by
  obtain ⟨n, hn, rfl⟩ := node_of_body hp
  have hLength := length_le_brk hBounded hList hNodup
  have ht : (h.link t).isSome := isList_isSome hList (by simp)
  obtain ⟨q, hSeg⟩ := hList
  obtain ⟨first, hFirst⟩ : ∃ first, n.child = some first := by
    cases xs with
    | nil => exact ⟨t, hSeg.1⟩
    | cons x xs => exact ⟨x, hSeg.1⟩
  have hTail : findTail h.fuel first h = .ok (t, h) := by
    rcases hSeg.last with ⟨hNil, -⟩ | ⟨zs, t', hEq, rfl⟩
    · simp at hNil
    · obtain ⟨-, hSingle⟩ := List.append_inj' hEq rfl
      cases hSingle
      rw [show n.body.child = some first from hFirst] at hSeg
      refine findTail_run hSeg ?_
      simp only [List.length_append, List.length_singleton] at hLength
      unfold Heap.fuel
      omega
  have ha₁ : (setNext h.link t (some a) a).isSome := isSome_setNext _ ha
  obtain ⟨h₁, hRun₁, hW₁⟩ := store_next (Rewritten.refl h) ht (some a)
  obtain ⟨h₂, hRun₂, hW₂⟩ := store_prev hW₁ ha₁ (some t)
  obtain ⟨h₃, hRun₃, hW₃⟩ := store_next hW₂ (isSome_setPrev _ ha₁) none
  rw [setNext_setPrev ha₁] at hW₃
  refine ⟨h₃, ?_, hW₃⟩
  rw [attachChild, Run.bind_run_ok (load_run hn), hFirst]
  show (get >>= fun h => findTail h.fuel first >>= fun tail => _) h = _
  rw [Run.bind_run_ok (Run.get_run h), Run.bind_run_ok hTail, Run.bind_run_ok hRun₁,
    Run.bind_run_ok hRun₂, hRun₃]

/-- Adding a node at the end of a list of children. -/
theorem attachChild_run {ks : List Addr} (hBounded : h.Bounded) (hp : h.body p = some m)
    (hList : IsList h.link m.child ks) (hNodup : ks.Nodup) (ha : (h.link a).isSome)
    (hNew : a ∉ ks) :
    ∃ h' c, attachChild (some p) (some a) h = .ok ((), h') ∧
      Spliced h h' p (ks ++ [a]) (ks ++ [a]) ∧
      Rewritten h h' h'.link (setChild h.body p c) := by
  rcases List.eq_nil_or_concat ks with rfl | ⟨xs, t, rfl⟩
  · have hNone : m.child = none := by
      obtain ⟨q, -, hNone⟩ := hList
      exact hNone.symm
    obtain ⟨h', hRun, hW⟩ := attachChild_first hp hNone ha
    refine ⟨h', some a, hRun, Spliced.of_body hp hW.body ?_ ?_, ⟨rfl, hW.body, hW.rest⟩⟩
    · rw [hW.link]
      exact setLink_isList
    · intro x hx
      rw [hW.link]
      exact setLink_of_ne (by simpa using hx) none none
  · rw [List.concat_eq_append] at hList hNodup hNew ⊢
    obtain ⟨h', hRun, hW⟩ := attachChild_last hBounded hp hList hNodup ha
    have hSame : h.body = setChild h.body p m.child := (setChild_same hp rfl).symm
    rw [hSame] at hW
    refine ⟨h', m.child, hRun, Spliced.of_body hp hW.body ?_ ?_, ⟨rfl, hW.body, hW.rest⟩⟩
    · rw [hW.link]
      exact pushBack_isList hList hNodup hNew
    · intro x hx
      rw [hW.link]
      simp only [List.mem_append, List.mem_singleton, not_or] at hx
      exact pushBack_of_ne hx.1.2 hx.2

/-- The links of a node among its siblings are written in front of `a`. -/
def spliceBefore (p a i : Addr) : M Unit := do
  let e ← load (some a)
  store (some i) ({ · with prev := e.prev })
  store (some i) ({ · with next := some a })
  let e ← load (some a)
  redirect p e.prev (some i)
  store (some a) ({ · with prev := some i })

/-- The links of a node among its siblings are taken over from `a`. -/
def spliceOver (p a i : Addr) : M Unit := do
  let n ← load (some a)
  store (some i) ({ · with prev := n.prev })
  let n ← load (some a)
  store (some i) ({ · with next := n.next })
  let n ← load (some a)
  redirect p n.prev (some i)
  let n ← load (some a)
  redirectBack n.next (some i)

/-- A read of a node that only got another `child` pointer still reads its links. -/
theorem load_links {L : Addr → Option (Link Addr)} {b : Addr → Option CNode} {l : Link Addr}
    (hW : Rewritten h h' L b) (hLink : L a = some l) :
    ∃ n, load (some a) h' = .ok (n, h') ∧ n.prev = l.prev ∧ n.next = l.next := by
  rw [← hW.link] at hLink
  obtain ⟨n, hn, hPrev, hNext⟩ := node_of_link hLink
  exact ⟨n, load_run hn, hPrev, hNext⟩

section Splice

variable {xs ys : List Addr} {i : Addr}

/-- Adding a node in front of the child `a`. -/
theorem spliceBefore_run (hp : h.body p = some m) (hList : IsList h.link m.child (xs ++ a :: ys))
    (hNodup : (xs ++ a :: ys).Nodup) (hi : (h.link i).isSome) (hNew : i ∉ xs ++ a :: ys) :
    ∃ h' c, spliceBefore p a i h = .ok ((), h') ∧
      Spliced h h' p (xs ++ i :: a :: ys) (xs ++ i :: a :: ys) ∧
      Rewritten h h' h'.link (setChild h.body p c) := by
  obtain ⟨q, r, hAround⟩ := hList.around
  have hNear := around_isSome hAround
  have hai : a ≠ i := fun hEq => hNew (by simp [hEq])
  have ha : (h.link a).isSome := by rw [hAround.cell]; rfl
  obtain ⟨n, hLoad, hPrev, -⟩ := load_links (Rewritten.refl h) hAround.cell
  obtain ⟨h₁, hRun₁, hW₁⟩ := store_prev (Rewritten.refl h) hi n.prev
  obtain ⟨h₂, hRun₂, hW₂⟩ := store_next hW₁ (isSome_setPrev _ hi) (some a)
  rw [setNext_setPrev hi] at hW₂
  have hKept : setLink h.link i n.prev (some a) a = some ⟨q, r⟩ := by
    rw [setLink_of_ne hai, hAround.cell]
  obtain ⟨n', hLoad', hPrev', -⟩ := load_links hW₂ hKept
  have hLive : ∀ x, (h.link x).isSome → (setLink h.link i n.prev (some a) x).isSome := by
    intro x hx
    by_cases hxi : x = i
    · rw [hxi, setLink_self]
      rfl
    · rw [setLink_of_ne hxi]
      exact hx
  obtain ⟨h₃, hRun₃, hW₃⟩ :=
    redirect_run hW₂ hp (fun b hb => hLive b (hNear.1 b (hPrev'.symm.trans hb))) (some i)
  obtain ⟨h₄, hRun₄, hW₄⟩ := store_prev hW₃ (isSome_setNextAt _ (hLive a ha)) (some i)
  rw [hPrev, hPrev'] at hW₄
  refine ⟨h₄, _, ?_, Spliced.of_body hp hW₄.body ?_ ?_, ⟨rfl, hW₄.body, hW₄.rest⟩⟩
  · rw [spliceBefore, Run.bind_run_ok hLoad, Run.bind_run_ok hRun₁, Run.bind_run_ok hRun₂,
      Run.bind_run_ok hLoad', Run.bind_run_ok hRun₃, hRun₄]
  · rw [hW₄.link]
    exact insertBefore_isList hAround hNodup hNew
  · intro x hx
    rw [hW₄.link]
    simp only [List.mem_append, List.mem_cons, not_or] at hx
    exact insertBefore_of_ne hAround (by simp [hx]) hx.2.1

/-- Putting a node in the place of the child `a`. -/
theorem spliceOver_run (hp : h.body p = some m) (hList : IsList h.link m.child (xs ++ a :: ys))
    (hNodup : (xs ++ a :: ys).Nodup) (hi : (h.link i).isSome) (hNew : i ∉ xs ++ a :: ys) :
    ∃ h' q r, Around h.link m.child xs a ys q r ∧ spliceOver p a i h = .ok ((), h') ∧
      Rewritten h h' (setPrevAt (setNextAt (setLink h.link i q r) q (some i)) r (some i))
        (setChild h.body p (entry m.child q (some i))) := by
  obtain ⟨q, r, hAround⟩ := hList.around
  have hNear := around_isSome hAround
  obtain ⟨-, -, haXs, -, -⟩ := nodup_around hNodup
  have hai : a ≠ i := fun hEq => hNew (by simp [hEq])
  obtain ⟨n, hLoad, hPrev, -⟩ := load_links (Rewritten.refl h) hAround.cell
  obtain ⟨h₁, hRun₁, hW₁⟩ := store_prev (Rewritten.refl h) hi n.prev
  have hKept : setPrev h.link i n.prev a = some ⟨q, r⟩ := by
    rw [setPrev_of_ne hai, hAround.cell]
  obtain ⟨n₁, hLoad₁, -, hNext₁⟩ := load_links hW₁ hKept
  obtain ⟨h₂, hRun₂, hW₂⟩ := store_next hW₁ (isSome_setPrev _ hi) n₁.next
  rw [setNext_setPrev hi, hPrev, hNext₁] at hW₂
  have hKept₂ : setLink h.link i q r a = some ⟨q, r⟩ := by
    rw [setLink_of_ne hai, hAround.cell]
  obtain ⟨n₂, hLoad₂, hPrev₂, -⟩ := load_links hW₂ hKept₂
  have hLive : ∀ x, (h.link x).isSome → (setLink h.link i q r x).isSome := by
    intro x hx
    by_cases hxi : x = i
    · rw [hxi, setLink_self]
      rfl
    · rw [setLink_of_ne hxi]
      exact hx
  obtain ⟨h₃, hRun₃, hW₃⟩ :=
    redirect_run hW₂ hp (fun b hb => hLive b (hNear.1 b (hPrev₂.symm.trans hb))) (some i)
  rw [hPrev₂] at hW₃
  have hKept₃ : setNextAt (setLink h.link i q r) q (some i) a = some ⟨q, r⟩ := by
    rw [setNextAt_of_ne (hAround.prev_ne haXs), hKept₂]
  obtain ⟨n₃, hLoad₃, -, hNext₃⟩ := load_links hW₃ hKept₃
  obtain ⟨h₄, hRun₄, hW₄⟩ := redirectBack_run hW₃
    (fun b hb => isSome_setNextAt _ (hLive b (hNear.2 b (hNext₃.symm.trans hb)))) (some i)
  rw [hNext₃] at hW₄
  refine ⟨h₄, q, r, hAround, ?_, hW₄⟩
  rw [spliceOver, Run.bind_run_ok hLoad, Run.bind_run_ok hRun₁, Run.bind_run_ok hLoad₁,
    Run.bind_run_ok hRun₂, Run.bind_run_ok hLoad₂, Run.bind_run_ok hRun₃, Run.bind_run_ok hLoad₃,
    hRun₄]

end Splice

/-! ## Trees -/

/-- The nodes of `h` at addresses from `N` on form ordered trees: the children of a node that
is not a reference are the doubly linked list `kids a`, and no node is in two lists. -/
structure Represents (N : Addr) (h : Heap) (kids : Addr → List Addr) : Prop where
  lists : ∀ {a n}, N ≤ a → h.nodes a = some n → n.isRef = false → IsList h.link n.child (kids a)
  parent : ∀ {a c}, c ∈ kids a → N ≤ c ∧ N ≤ a ∧ ∃ n, h.nodes a = some n ∧ n.isRef = false
  forest : IsForest kids

namespace Represents

variable {N : Addr} {kids : Addr → List Addr} {ks touched : List Addr} {i : Addr}

theorem child_isSome (hRep : Represents N h kids) (hc : i ∈ kids p) : (h.link i).isSome := by
  obtain ⟨-, hN, n, hn, hRef⟩ := hRep.parent hc
  exact isList_isSome (hRep.lists hN hn hRef) hc

theorem child_live (hRep : Represents N h kids) (hc : i ∈ kids p) : ∃ n, h.nodes i = some n := by
  have hSome := hRep.child_isSome hc
  rw [isSome_link] at hSome
  exact Option.isSome_iff_exists.mp hSome

/-- What is below a live node is live. -/
theorem below_live (hRep : Represents N h kids) (ha : h.nodes a = some n)
    (hBelow : Below kids a x) : ∃ n, h.nodes x = some n := by
  rcases below_tail hBelow with rfl | ⟨q, -, hx⟩
  · exact ⟨n, ha⟩
  · exact hRep.child_live hx

theorem below_above (hRep : Represents N h kids) (ha : N ≤ a) (hBelow : Below kids a x) :
    N ≤ x := by
  rcases below_tail hBelow with rfl | ⟨q, -, hx⟩
  · exact ha
  · exact (hRep.parent hx).1

/-- A node without a shape that owns children has none. -/
theorem kids_eq_nil (hRep : Represents N h kids)
    (ha : ∀ n, h.nodes a = some n → N ≤ a → n.isRef = true) : kids a = [] := by
  rw [List.eq_nil_iff_forall_not_mem]
  intro c hc
  obtain ⟨-, hN, n, hn, hRef⟩ := hRep.parent hc
  rw [ha n hn hN] at hRef
  cases hRef

/-- The children of a node are determined by the heap. -/
theorem unique {kids' : Addr → List Addr} (hRep : Represents N h kids)
    (hRep' : Represents N h kids') : kids = kids' := by
  funext a
  by_cases ha : ∃ n, h.nodes a = some n ∧ N ≤ a ∧ n.isRef = false
  · obtain ⟨n, hn, hN, hRef⟩ := ha
    exact (hRep.lists hN hn hRef).unique (hRep'.lists hN hn hRef)
  · have hNot : ∀ n, h.nodes a = some n → N ≤ a → n.isRef = true := by
      intro n hn hN
      by_contra hRef
      exact ha ⟨n, hn, hN, by simpa using hRef⟩
    rw [hRep.kids_eq_nil hNot, hRep'.kids_eq_nil hNot]

/-- Trees only depend on the links and the shapes. -/
theorem congr (hRep : Represents N h kids) (hLink : h'.link = h.link)
    (hShape : h'.shape = h.shape) : Represents N h' kids where
  lists := by
    intro a n' hN hn' hRef
    have hShapeA := congrFun hShape a
    rw [shape_eq hn'] at hShapeA
    obtain ⟨n, hn, hEq⟩ := Option.map_eq_some_iff.mp hShapeA.symm
    have hRef' : n.isRef = false := (congrArg Prod.fst hEq).trans hRef
    have hChild : n.child = n'.child := congrArg Prod.snd hEq
    rw [hLink, ← hChild]
    exact hRep.lists hN hn hRef'
  parent := by
    intro a c hc
    obtain ⟨hNc, hNa, n, hn, hRef⟩ := hRep.parent hc
    have hShapeA := congrFun hShape a
    rw [shape_eq hn] at hShapeA
    obtain ⟨n', hn', hEq⟩ := Option.map_eq_some_iff.mp hShapeA
    exact ⟨hNc, hNa, n', hn', (congrArg Prod.fst hEq).trans hRef⟩
  forest := hRep.forest

/-- A splice below `p` that only touches children of `p` and roots leaves the other lists. -/
theorem splice_lists (hRep : Represents N h kids) (hSpliced : Spliced h h' p ks touched)
    (hp : N ≤ p) (hn : h.nodes p = some n) (hRef : n.isRef = false)
    (hTouched : ∀ x ∈ touched, x ∈ kids p ∨ IsRoot kids x) (hks : ∀ x ∈ ks, N ≤ x) :
    (∀ a m, N ≤ a → h'.nodes a = some m → m.isRef = false →
      IsList h'.link m.child (Function.update kids p ks a)) ∧
    ∀ a x, x ∈ Function.update kids p ks a →
      N ≤ x ∧ N ≤ a ∧ ∃ m, h'.nodes a = some m ∧ m.isRef = false := by
  obtain ⟨s, c, hs, hs', hList⟩ := hSpliced.list
  rw [shape_eq hn] at hs
  cases hs
  obtain ⟨np, hnp, hShape⟩ := Option.map_eq_some_iff.mp hs'
  have hRefP : np.isRef = false := (congrArg Prod.fst hShape).trans hRef
  have hChildP : np.child = c := congrArg Prod.snd hShape
  refine ⟨fun a m' hN hm' hRef' => ?_, fun a x hx => ?_⟩
  · by_cases ha : a = p
    · subst ha
      rw [hnp] at hm'
      cases hm'
      rw [Function.update_self, hChildP]
      exact hList
    · -- The list of another node was not touched.
      have hShapeA := hSpliced.shape a ha
      rw [shape_eq hm'] at hShapeA
      obtain ⟨m, hm, hEq⟩ := Option.map_eq_some_iff.mp hShapeA.symm
      have hRefA : m.isRef = false := (congrArg Prod.fst hEq).trans hRef'
      have hChildA : m.child = m'.child := congrArg Prod.snd hEq
      rw [Function.update_of_ne ha, ← hChildA]
      refine (hRep.lists hN hm hRefA).congr fun x hx => hSpliced.off x fun hTouch => ?_
      rcases hTouched x hTouch with hMem | hRoot
      · exact ha (hRep.forest.parent hx hMem)
      · exact hRoot a hx
  · by_cases ha : a = p
    · subst ha
      rw [Function.update_self] at hx
      exact ⟨hks x hx, hp, np, hnp, hRefP⟩
    · rw [Function.update_of_ne ha] at hx
      obtain ⟨hNx, hNa, m, hm, hRefA⟩ := hRep.parent hx
      have hShapeA := hSpliced.shape a ha
      rw [shape_eq hm] at hShapeA
      obtain ⟨m', hm', hEq⟩ := Option.map_eq_some_iff.mp hShapeA
      exact ⟨hNx, hNa, m', hm', (congrArg Prod.fst hEq).trans hRefA⟩

/-- Such a splice leaves trees, when its lists are those of a forest. -/
theorem splice (hRep : Represents N h kids) (hSpliced : Spliced h h' p ks touched) (hp : N ≤ p)
    (hn : h.nodes p = some n) (hRef : n.isRef = false)
    (hTouched : ∀ x ∈ touched, x ∈ kids p ∨ IsRoot kids x) (hks : ∀ x ∈ ks, N ≤ x)
    (hForest : IsForest (Function.update kids p ks)) :
    Represents N h' (Function.update kids p ks) := by
  obtain ⟨hLists, hParent⟩ := hRep.splice_lists hSpliced hp hn hRef hTouched hks
  exact ⟨hLists _ _, hParent _ _, hForest⟩

end Represents

end CjsonRs.Ffi
