import CjsonRs.Ffi.Contents

/-!
# Building a tree exactly

`Formed h h' kids a t` is a finished tree: since `h` the nodes below `a` were built with the
contents `t`, and nothing else happened. A new node, a text for its root and one more child each
keep it. `Takes x h k ok fail` counts the allocations of a call: when the next `k` succeed it uses
up just these and returns with `ok`, and otherwise it returns with `fail`.
-/

namespace CjsonRs.Ffi

open CjsonRs.Core Library Library.Link Library.Forest

/-! ## Allocations of a call -/

/-- The next `k` allocations succeed. -/
def Heap.Plenty (h : Heap) (k : Nat) : Prop := ∀ i < k, h.outcomes i = true

/-- `k` answers of the malloc hook are used up. -/
def Spent (h h' : Heap) (k : Nat) : Prop := ∀ n, h'.outcomes n = h.outcomes (n + k)

/-- The call `x` takes `k` allocations to return with `ok`, and returns with `fail` when one of
them fails. -/
def Takes {α : Type} (x : M α) (h : Heap) (k : Nat) (ok fail : α → Heap → Prop) : Prop :=
  (h.Plenty k ∧ ∃ r h', x h = .ok (r, h') ∧ Spent h h' k ∧ ok r h') ∨
    (¬ h.Plenty k ∧ ∃ r h', x h = .ok (r, h') ∧ fail r h')

variable {h h' h'' g : Heap} {a i x : Addr} {n m : CNode} {c d : Content} {q : Ptr}
  {kids kids' : Addr → List Addr} {roots : List Addr} {t u : Rose Content}
  {ts us : List (Rose Content)} {j k : Nat}

theorem spent_zero : Spent h h 0 := fun _ => rfl

theorem spent_tick : Spent h h.tick 1 := fun _ => rfl

theorem Spent.trans (hSpent : Spent h h' j) (hSpent' : Spent h' h'' k) :
    Spent h h'' (j + k) := by
  intro n
  rw [hSpent' n, hSpent (n + k), Nat.add_assoc, Nat.add_comm k j]

theorem Spent.plenty_iff (hSpent : Spent h h' j) :
    h.Plenty (j + k) ↔ h.Plenty j ∧ h'.Plenty k := by
  constructor
  · intro hPlenty
    refine ⟨fun i hi => hPlenty i (by omega), fun i hi => ?_⟩
    rw [hSpent i]
    apply hPlenty
    omega
  · rintro ⟨hFirst, hRest⟩ i hi
    rcases Nat.lt_or_ge i j with hij | hij
    · exact hFirst i hij
    · have hOutcome := hRest (i - j) (by omega)
      rw [hSpent, Nat.sub_add_cancel hij] at hOutcome
      exact hOutcome

theorem plenty_zero : h.Plenty 0 := fun _ hi => absurd hi (Nat.not_lt_zero _)

theorem plenty_one : h.Plenty 1 ↔ h.outcomes 0 = true := by
  constructor
  · exact fun hPlenty => hPlenty 0 Nat.one_pos
  · intro hYes i hi
    obtain rfl : i = 0 := by omega
    exact hYes

theorem Heap.Plenty.mono (hPlenty : h.Plenty k) (hLe : j ≤ k) : h.Plenty j :=
  fun i hi => hPlenty i (Nat.lt_of_lt_of_le hi hLe)

section Takes

variable {α β : Type} {f : α → M β} {ok fail ok' fail' : α → Heap → Prop} {y : M α}
  {okNext failNext : β → Heap → Prop} {r r' : α}

theorem takes_pure (hOk : ok r h) : Takes (pure r) h 0 ok fail :=
  Or.inl ⟨plenty_zero, r, h, rfl, spent_zero, hOk⟩

/-- One allocation. -/
theorem takes_alloc (hRun : y h = if h.outcomes 0 then .ok (r, h') else .ok (r', h''))
    (hSpent : Spent h h' 1) (hOk : ok r h') (hFail : fail r' h'') : Takes y h 1 ok fail := by
  unfold Takes
  rw [plenty_one]
  by_cases hYes : h.outcomes 0 = true
  · rw [if_pos hYes] at hRun
    exact Or.inl ⟨hYes, r, h', hRun, hSpent, hOk⟩
  · rw [if_neg hYes] at hRun
    exact Or.inr ⟨hYes, r', h'', hRun, hFail⟩

/-- One call after another. -/
theorem Takes.bind (hTakes : Takes y h j ok fail)
    (hOk : ∀ r h', ok r h' → Takes (f r) h' k okNext failNext)
    (hFail : ∀ r h', fail r h' → ∃ r' h'', f r h' = .ok (r', h'') ∧ failNext r' h'') :
    Takes (y >>= f) h (j + k) okNext failNext := by
  rcases hTakes with ⟨hFirst, r, h', hRun, hSpent, hr⟩ | ⟨hNo, r, h', hRun, hr⟩
  · unfold Takes
    rw [hSpent.plenty_iff, Run.bind_run_ok hRun]
    rcases hOk r h' hr with ⟨hRest, r', h'', hRun', hSpent', hr'⟩ | ⟨hNo, r', h'', hRun', hr'⟩
    · exact Or.inl ⟨⟨hFirst, hRest⟩, r', h'', hRun', hSpent.trans hSpent', hr'⟩
    · exact Or.inr ⟨fun hBoth => hNo hBoth.2, r', h'', hRun', hr'⟩
  · obtain ⟨r', h'', hRun', hr'⟩ := hFail r h' hr
    refine Or.inr ⟨fun hAll => hNo (hAll.mono (Nat.le_add_right j k)), r', h'', ?_, hr'⟩
    rw [Run.bind_run_ok hRun, hRun']

/-- A first call without allocations. -/
theorem takes_bind_of_run (hRun : y h = .ok (r, h')) (hSpent : Spent h h' 0)
    (hTakes : Takes (f r) h' k okNext failNext) : Takes (y >>= f) h k okNext failNext := by
  have hFirst : Takes y h 0 (fun r₁ h₁ => r₁ = r ∧ h₁ = h') fun _ _ => False :=
    Or.inl ⟨plenty_zero, r, h', hRun, hSpent, rfl, rfl⟩
  rw [← Nat.zero_add k]
  apply hFirst.bind
  · intro r₁ h₁ ⟨hr, hh⟩
    rw [hr, hh]
    exact hTakes
  · intro r₁ h₁ hFalse
    exact hFalse.elim

theorem Takes.mono (hTakes : Takes y h k ok fail) (hOk : ∀ r h', ok r h' → ok' r h')
    (hFail : ∀ r h', fail r h' → fail' r h') : Takes y h k ok' fail' := by
  rcases hTakes with ⟨hYes, r, h', hRun, hSpent, hr⟩ | ⟨hNo, r, h', hRun, hr⟩
  · exact Or.inl ⟨hYes, r, h', hRun, hSpent, hOk r h' hr⟩
  · exact Or.inr ⟨hNo, r, h', hRun, hFail r h' hr⟩

theorem Takes.congr {y' : M α} (hTakes : Takes y h k ok fail) (hSame : y' h = y h) :
    Takes y' h k ok fail := by
  unfold Takes
  rw [hSame]
  exact hTakes

end Takes

/-! ## Finished trees -/

/-- The blocks of a tree that owns its texts. -/
def blocksIn (t : Rose Content) : Nat := t.total Content.blocks

/-- Since `h` the tree at `a` was built with the contents `t`, and nothing else happened. -/
structure Formed (h h' : Heap) (kids : Addr → List Addr) (a : Addr) (t : Rose Content) :
    Prop where
  grown : Grown h h' kids [a]
  bears : Bears h' kids a t
  link : h'.link a = some ⟨none, none⟩
  /-- No block is a node and a buffer. -/
  distinct : ∀ x, h.brk ≤ x → (h'.nodes x).isSome → h'.bufs x = none

/-- A call that builds a tree with the contents `t`, with one allocation for every block, or
nothing for want of memory. -/
def Forms (x : M Ptr) (h : Heap) (t : Rose Content) : Prop :=
  Takes x h (blocksIn t) (fun q h' => ∃ a kids, q = some a ∧ Formed h h' kids a t)
    fun q h' => q = none ∧ Built h none h'

namespace Formed

theorem root (hFormed : Formed h h' kids a t) :
    h.brk ≤ a ∧ (h'.nodes a).isSome ∧ IsRoot kids a :=
  hFormed.grown.root a (List.mem_singleton_self a)

theorem lt (hFormed : Formed h h' kids a t) : a < h'.brk := by
  obtain ⟨n, hn⟩ := Option.isSome_iff_exists.mp hFormed.root.2.1
  exact hFormed.grown.bounded.lt hn

end Formed

/-- A new node without links and texts. -/
structure Bare (n : CNode) : Prop where
  prev : n.prev = none
  next : n.next = none
  child : n.child = none
  valuestring : n.valuestring = none
  string : n.string = none
  own : n.isRef = false
  key : n.constKey = false

/-- The content of a node without texts. -/
def CNode.content (n : CNode) : Content := ⟨n.type_, none, n.valueint, n.valuedouble, none⟩

theorem Bare.leaf (hBare : Bare n) : Leaf n where
  texts := by
    rw [CNode.texts, CNode.ownValue, CNode.ownKey, hBare.valuestring, hBare.string, ite_self,
      ite_self]
    rfl
  key := hBare.key
  child := Or.inr hBare.child

theorem formed_leaf (hBounded : h.Bounded) (hBare : Bare n) :
    Formed h (h.tick.pushNode n) (fun _ => []) h.brk (.node n.content []) := by
  have hNode : (h.tick.pushNode n).nodes h.brk = some n := pushNode_self (h := h.tick)
  refine ⟨grown_leaf hBounded hBare.leaf, ⟨⟨n, hNode, hBare.own, hBare.key, ?_⟩, rfl⟩, ?_,
    fun x hx _ => hBounded.bufs hx⟩
  · refine ⟨rfl, ?_, rfl, rfl, ?_⟩
    · rw [hBare.valuestring]
      rfl
    · rw [hBare.string]
      rfl
  · rw [link_eq hNode, hBare.prev, hBare.next]

/-! ## A text for the root -/

theorem bufsKept_pushBuf (hBounded : h.Bounded) (bytes : List UInt8) :
    BufsKept h ((h.tick.pushBuf bytes).setNode a m) := by
  intro s b hs
  have hne : s ≠ h.brk := Nat.ne_of_lt (hBounded.lt_buf hs)
  show Function.update h.bufs h.brk _ s = some b
  rw [Function.update_of_ne hne, hs]

theorem setNode_same (hn : h.nodes a = some n) : h.setNode a n = h := by
  unfold Heap.setNode
  rw [← hn, Function.update_eq_self]

theorem texts_setString {s : Addr} (hConst : n.constKey = false) (hNone : n.string = none) :
    ({ n with string := some s } : CNode).texts = n.texts ++ [s] := by
  show n.ownValue.toList ++ (if n.constKey then none else some s).toList
    = n.ownValue.toList ++ (if n.constKey then none else n.string).toList ++ [s]
  rw [hConst, hNone]
  simp

theorem stored_pushBuf (bytes : List UInt8) :
    Stored ((h.tick.pushBuf (bytes ++ [0])).setNode a m) (some h.brk) (some bytes) :=
  ⟨bytes, Function.update_self .., rfl⟩

/-- The root of a finished tree gets a text in a new buffer. -/
theorem Formed.retext (hFormed : Formed h h' kids a (.node c ts)) (hn : h'.nodes a = some n)
    (bytes : List UInt8) (hPrev : m.prev = n.prev) (hNext : m.next = n.next)
    (hShape : m.shape = n.shape) (hConst : m.constKey = false)
    (hTexts : m.texts.Perm (h'.brk :: n.texts))
    (hd : HasContent (Stored ((h'.tick.pushBuf bytes).setNode a m)) m d) :
    Formed h ((h'.tick.pushBuf bytes).setNode a m) kids a (.node d ts) := by
  have hGrown := hFormed.grown
  obtain ⟨⟨n', hn', hRef, -, -⟩, hTs⟩ := hFormed.bears
  rw [hn] at hn'
  cases hn'
  have hOwn : m.isRef = n.isRef := congrArg Prod.fst hShape
  have hBufs : BufsKept h' ((h'.tick.pushBuf bytes).setNode a m) :=
    bufsKept_pushBuf hGrown.bounded bytes
  refine ⟨hGrown.retext hFormed.root.1 hn bytes hPrev hNext hShape hConst hTexts,
    ⟨⟨m, Heap.setNode_self, hOwn.trans hRef, hConst, hd⟩, ?_⟩, ?_, fun x hx hLive => ?_⟩
  · refine (bears_frame hBufs).2 ts (kids a) hTs fun b hb x hx => ⟨?_, rfl⟩
    have hxa : x ≠ a := by
      intro hEq
      rw [hEq] at hx
      exact not_below_child hGrown.sound.wf.trees.forest hb hx
    exact bare_of_nodes (Heap.setNode_ne hxa)
  · rw [link_eq Heap.setNode_self, hPrev, hNext, ← link_eq hn]
    exact hFormed.link
  · have hOld : (h'.nodes x).isSome := by
      by_cases hxa : x = a
      · rw [hxa, hn]
        rfl
      · rw [Heap.setNode_ne hxa] at hLive
        exact hLive
    obtain ⟨m', hm'⟩ := Option.isSome_iff_exists.mp hOld
    have hNe : x ≠ h'.brk := Nat.ne_of_lt (hGrown.bounded.lt hm')
    show Function.update h'.bufs h'.brk _ x = none
    rw [Function.update_of_ne hNe]
    exact hFormed.distinct x hx hOld

/-! ## One more child -/

namespace Formed

theorem apart (hFormed : Formed h h' kids a t) (hChild : Formed h' h'' kids' i u) : a ≠ i :=
  Nat.ne_of_lt (Nat.lt_of_lt_of_le hFormed.lt hChild.root.1)

/-- What is below a child was there when the tree was finished, and is not its root. -/
theorem below_old {b : Addr} (hFormed : Formed h h' kids a t) (hb : b ∈ kids a)
    (hx : Below kids b x) : x ≠ a ∧ x < h'.brk := by
  have hTrees := hFormed.grown.sound.wf.trees
  have hIn := hTrees.inside hFormed.grown.bounded
  constructor
  · intro hEq
    rw [hEq] at hx
    exact not_below_child hTrees.forest hb hx
  · rcases below_tail hx with hEq | ⟨p, -, hp⟩
    · rw [hEq]
      exact (hIn a b hb).2
    · exact (hIn p x hp).2

/-- A finished tree next to one that was built before it. -/
theorem slot (hFormed : Formed h h' kids a t) (hChild : Formed h' h'' kids' i u) :
    ∃ n, h''.nodes a = some n ∧ IsList h''.link n.child (kids a) ∧ (kids a).Nodup ∧
      i ∉ kids a := by
  have hBoth := hFormed.grown.trans hChild.grown
  have hKids : joinAt h'.brk kids kids' a = kids a := if_pos hFormed.lt
  obtain ⟨c, ts⟩ := t
  obtain ⟨⟨n, hn, hRef, -⟩, -⟩ := hFormed.bears
  have hn' : h''.nodes a = some n := (hChild.grown.ext.nodes hFormed.lt).trans hn
  have hList := hBoth.sound.wf.trees.lists hFormed.root.1 hn' hRef
  rw [hKids] at hList
  refine ⟨n, hn', hList, hFormed.grown.sound.wf.trees.forest.nodup a, fun hMem => ?_⟩
  have hLt := (hFormed.grown.sound.wf.trees.inside hFormed.grown.bounded a i hMem).2
  exact absurd hChild.root.1 (Nat.not_le.mpr hLt)

/-- A finished tree becomes the last child of the one that was built before it. -/
theorem attach (hFormed : Formed h h' kids a (.node c ts)) (hChild : Formed h' h'' kids' i u)
    (hSpliced : Spliced h'' g a (kids a ++ [i]) (kids a ++ [i]))
    (hW : Rewritten h'' g g.link (setChild h''.body a q)) :
    ∃ kids'', Formed h g kids'' a (.node c (ts ++ [u])) ∧ kids'' a = kids a ++ [i] := by
  have hBoth := hFormed.grown.trans hChild.grown
  have haLt := hFormed.lt
  have hKids : joinAt h'.brk kids kids' a = kids a := if_pos haLt
  have hHanded := hBoth.handed (i := i) (a := a) (by simp) (by simp) (hFormed.apart hChild)
  obtain ⟨hNode, hTs⟩ := hFormed.bears
  obtain ⟨n, hn, hRef, -⟩ := hNode
  have hn' : h''.nodes a = some n := (hChild.grown.ext.nodes haLt).trans hn
  have hMutable : Mutable h.brk h'' a := ⟨hFormed.root.1, n, hn', hRef⟩
  have hEdited := edited_attach hBoth.sound.wf hMutable hHanded (by rw [hKids]; exact hSpliced) hW
  have hTouched : ∀ x ∈ joinAt h'.brk kids kids' a ++ [i], h.brk ≤ x := by
    intro x hx
    rcases List.mem_append.mp hx with hx | hx
    · exact (hBoth.sound.wf.trees.parent hx).1
    · rw [List.mem_singleton.mp hx]
      exact hHanded.above
  have hGrown := hBoth.attach (List.mem_singleton_self a) hEdited hTouched
  rw [hKids] at hGrown
  -- Nothing but links has changed since the child was finished.
  have hBare : ∀ x, g.bare x = h''.bare x := fun _ => bare_of_setChild hn' hW
  have hBufs : BufsKept h'' g := by
    intro s b hs
    rw [hW.rest]
    exact hs
  have hBufs' : BufsKept h' g := fun s b hs =>
    hBufs s b ((hChild.grown.ext.bufs (hFormed.grown.bounded.lt_buf hs)).trans hs)
  have hOld : ∀ x, x < h'.brk → g.bare x = h'.bare x := fun x hx =>
    (hBare x).trans (bare_of_nodes (hChild.grown.ext.nodes hx))
  refine ⟨_, ⟨hGrown, ⟨?_, ?_⟩, ?_, fun x hx hLive => ?_⟩, Function.update_self ..⟩
  · exact node_frame hBufs' (hOld a haLt) hFormed.bears.1
  · rw [Function.update_self]
    refine bearsAll_append.mpr ⟨kids a, [i], rfl, ?_, bearsAll_singleton.mpr ⟨i, rfl, ?_⟩⟩
    · refine (bears_frame hBufs').2 ts (kids a) hTs fun b hb x hx => ?_
      obtain ⟨hxa, hxLt⟩ := hFormed.below_old hb hx
      refine ⟨hOld x hxLt, ?_⟩
      rw [Function.update_of_ne hxa]
      exact if_pos hxLt
    · refine (bears_frame hBufs).1 u i hChild.bears fun x hx => ⟨hBare x, ?_⟩
      have hxGe := hChild.grown.sound.wf.trees.below_above hChild.root.1 hx
      rw [Function.update_of_ne (Nat.ne_of_gt (Nat.lt_of_lt_of_le haLt hxGe))]
      exact if_neg (Nat.not_lt.mpr hxGe)
  · have hOff : a ∉ kids a ++ [i] := by
      rw [List.mem_append, List.mem_singleton, not_or]
      refine ⟨fun hMem => ?_, hFormed.apart hChild⟩
      exact ne_of_child hFormed.grown.sound.wf.trees.forest hMem rfl
    rw [hSpliced.off a hOff, link_eq hn', ← link_eq hn]
    exact hFormed.link
  · have hOldLive : (h''.nodes x).isSome := by
      rw [← isSome_bare, ← hBare x, isSome_bare]
      exact hLive
    have hSame : g.bufs = h''.bufs := by rw [hW.rest]
    rw [hSame]
    rcases Nat.lt_or_ge x h'.brk with hLt | hGe
    · rw [hChild.grown.ext.nodes hLt] at hOldLive
      rw [hChild.grown.ext.bufs hLt]
      exact hFormed.distinct x hx hOldLive
    · exact hChild.distinct x hGe hOldLive

end Formed

end CjsonRs.Ffi
