import CjsonRs.Ffi.Shape

/-!
# Freeing a tree

`Frees h p V` says which nodes `free_cjson` releases from a list of children, in the order in
which it does. Each is released with the texts it owns: its `valuestring` unless it is a
reference, and its key unless that is constant. In a well-formed heap these are the nodes of
the subtree, and what is left is well formed when the freed node was a root.
-/

namespace CjsonRs.Ffi

open CjsonRs.Core Library Library.Link Library.Forest

/-! ## Blocks -/

namespace CNode

/-- The `valuestring` that a node frees. -/
def ownValue (n : CNode) : Ptr := if n.isRef then none else n.valuestring

/-- The key that a node frees. -/
def ownKey (n : CNode) : Ptr := if n.constKey then none else n.string

/-- The texts that a node frees. -/
def texts (n : CNode) : List Addr := n.ownValue.toList ++ n.ownKey.toList

/-- What is freed with a node, in order. -/
def blocks (n : CNode) (a : Addr) : List Block := n.texts.map .buf ++ [.node a]

end CNode

namespace Heap

/-- What is freed with the node at `a`. -/
def blocksAt (h : Heap) (a : Addr) : List Block := (h.nodes a).elim [] fun n => n.blocks a

/-- What is freed with the nodes `V`. -/
def blocksOf (h : Heap) (V : List Addr) : List Block := V.flatMap h.blocksAt

variable {h g : Heap} {a s : Addr} {n : CNode} {B : List Block} {V W : List Addr}

theorem blocksAt_eq (ha : h.nodes a = some n) : h.blocksAt a = n.blocks a := by
  rw [blocksAt, ha]
  rfl

theorem blocksOf_append : h.blocksOf (V ++ W) = h.blocksOf V ++ h.blocksOf W :=
  List.flatMap_append

theorem blocksOf_cons : h.blocksOf (a :: V) = h.blocksAt a ++ h.blocksOf V := rfl

theorem node_mem_blocksOf (hLive : ∀ a ∈ V, (h.nodes a).isSome) :
    .node a ∈ h.blocksOf V ↔ a ∈ V := by
  simp only [blocksOf, List.mem_flatMap]
  constructor
  · rintro ⟨x, hx, hMem⟩
    obtain ⟨n, hn⟩ := Option.isSome_iff_exists.mp (hLive x hx)
    rw [blocksAt_eq hn] at hMem
    have hax : a = x := by simpa [CNode.blocks] using hMem
    rw [hax]
    exact hx
  · intro ha
    obtain ⟨n, hn⟩ := Option.isSome_iff_exists.mp (hLive a ha)
    refine ⟨a, ha, ?_⟩
    rw [blocksAt_eq hn]
    simp [CNode.blocks]

theorem buf_mem_blocksOf :
    .buf s ∈ h.blocksOf V ↔ ∃ a ∈ V, ∃ n, h.nodes a = some n ∧ s ∈ n.texts := by
  simp only [blocksOf, List.mem_flatMap]
  constructor
  · rintro ⟨a, ha, hMem⟩
    cases hn : h.nodes a with
    | none =>
      rw [blocksAt, hn] at hMem
      cases hMem
    | some n =>
      rw [blocksAt_eq hn] at hMem
      exact ⟨a, ha, n, hn, by simpa [CNode.blocks] using hMem⟩
  · rintro ⟨a, ha, n, hn, hMem⟩
    refine ⟨a, ha, ?_⟩
    rw [blocksAt_eq hn]
    simpa [CNode.blocks] using hMem

/-! ## What freeing leaves -/

theorem nodes_free (b : Block) :
    (h.free b).nodes a = if b = .node a then none else h.nodes a := by
  cases b with
  | node x =>
    by_cases hax : x = a
    · subst hax
      rw [if_pos rfl, free]
      split
      · exact Function.update_self ..
      · rename_i hDead
        exact Option.not_isSome_iff_eq_none.mp hDead
    · rw [if_neg (by simpa using hax), free]
      split
      · exact Function.update_of_ne (Ne.symm hax) _ _
      · rfl
  | buf x =>
    rw [if_neg (by simp), free]
    split <;> rfl

theorem nodes_freeAll : (h.freeAll B).nodes a = if .node a ∈ B then none else h.nodes a := by
  induction B generalizing h with
  | nil => simp
  | cons b B ih =>
    rw [show h.freeAll (b :: B) = (h.free b).freeAll B from rfl, ih, nodes_free]
    by_cases hB : .node a ∈ B
    · simp [hB]
    · simp [hB, eq_comm]

theorem bufs_free (b : Block) :
    (h.free b).bufs s = if b = .buf s ∧ (h.bufs s).any Buf.owned then none else h.bufs s := by
  cases b with
  | node x =>
    rw [if_neg (by simp), free]
    split <;> rfl
  | buf x =>
    by_cases hsx : x = s
    · subst hsx
      rw [free]
      split
      · rename_i hOwned
        rw [if_pos ⟨rfl, hOwned⟩]
        exact Function.update_self ..
      · rename_i hNot
        rw [if_neg fun hAnd => hNot hAnd.2]
    · rw [if_neg (by simp [hsx]), free]
      split
      · exact Function.update_of_ne (Ne.symm hsx) _ _
      · rfl

theorem bufs_freeAll :
    (h.freeAll B).bufs s = if .buf s ∈ B ∧ (h.bufs s).any Buf.owned then none else h.bufs s := by
  induction B generalizing h with
  | nil => simp
  | cons b B ih =>
    rw [show h.freeAll (b :: B) = (h.free b).freeAll B from rfl, ih, bufs_free]
    by_cases hOwned : (h.bufs s).any Buf.owned
    · by_cases hb : b = .buf s
      · simp [hb, hOwned]
      · have hb' : Block.buf s ≠ b := fun hEq => hb hEq.symm
        simp [hb, hb', hOwned]
    · simp [hOwned]

/-- A block that the free hook may be handed. -/
def Freeable (h : Heap) : Block → Prop
  | .node a => (h.nodes a).isSome
  | .buf s => (h.bufs s).any Buf.owned

theorem free_misuses {b : Block} (hb : h.Freeable b) : (h.free b).misuses = h.misuses := by
  cases b with
  | node a =>
    have hLive : (h.nodes a).isSome := hb
    rw [free, if_pos hLive]
    rfl
  | buf s =>
    have hOwned : (h.bufs s).any Buf.owned := hb
    rw [free, if_pos hOwned]
    rfl

theorem misuses_free {b : Block} (hb : ¬ h.Freeable b) :
    (h.free b).misuses = h.misuses ++ [b] := by
  cases b with
  | node a =>
    have hDead : ¬ (h.nodes a).isSome := hb
    rw [free, if_neg hDead]
  | buf s =>
    have hNot : ¬ (h.bufs s).any Buf.owned := hb
    rw [free, if_neg hNot]

theorem Freeable.free_of_ne {b b' : Block} (hb : h.Freeable b) (hne : b' ≠ b) :
    (h.free b').Freeable b := by
  cases b with
  | node a =>
    show ((h.free b').nodes a).isSome
    rw [nodes_free, if_neg hne]
    exact hb
  | buf s =>
    show ((h.free b').bufs s).any Buf.owned
    rw [bufs_free, if_neg fun hAnd => hne hAnd.1]
    exact hb

/-- Nothing is misused when every block is handed over once and may be. -/
theorem freeAll_misuses (hNodup : B.Nodup) (hB : ∀ b ∈ B, h.Freeable b) :
    (h.freeAll B).misuses = h.misuses := by
  induction B generalizing h with
  | nil => rfl
  | cons b B ih =>
    obtain ⟨hb, hNodup⟩ := List.nodup_cons.mp hNodup
    rw [show h.freeAll (b :: B) = (h.free b).freeAll B from rfl, ih hNodup]
    · exact free_misuses (hB b List.mem_cons_self)
    · intro b' hb'
      refine (hB b' (List.mem_cons_of_mem b hb')).free_of_ne ?_
      rintro rfl
      exact hb hb'

@[simp] theorem free_outcomes (b : Block) : (h.free b).outcomes = h.outcomes := by
  cases b <;> simp only [free] <;> split <;> rfl

@[simp] theorem freeAll_outcomes : (h.freeAll B).outcomes = h.outcomes := by
  induction B generalizing h with
  | nil => rfl
  | cons b B ih => exact ih.trans (free_outcomes b)

@[simp] theorem free_lastError (b : Block) : (h.free b).lastError = h.lastError := by
  cases b <;> simp only [free] <;> split <;> rfl

@[simp] theorem freeAll_lastError : (h.freeAll B).lastError = h.lastError := by
  induction B generalizing h with
  | nil => rfl
  | cons b B ih => exact ih.trans (free_lastError b)

theorem Bounded.freeAll (hBounded : h.Bounded) : (h.freeAll B).Bounded where
  nodes {a} ha := by
    rw [freeAll_brk] at ha
    rw [nodes_freeAll, hBounded.nodes ha, ite_self]
  bufs {s} hs := by
    rw [freeAll_brk] at hs
    rw [bufs_freeAll, hBounded.bufs hs, ite_self]

end Heap

/-! ## What `free_cjson` releases -/

variable {h g : Heap} {a p x : Addr} {n : CNode} {c : Ptr} {V V' : List Addr}

/-- The nodes that are released from a list of children, in order. -/
inductive Frees (h : Heap) : Ptr → List Addr → Prop
  | nil : Frees h none []
  | ref {a : Addr} {n : CNode} {V : List Addr} (ha : h.nodes a = some n) (hRef : n.isRef = true)
      (hNext : Frees h n.next V) : Frees h (some a) (a :: V)
  | own {a : Addr} {n : CNode} {V V' : List Addr} (ha : h.nodes a = some n)
      (hRef : n.isRef = false) (hKids : Frees h n.child V') (hNext : Frees h n.next V) :
      Frees h (some a) (V' ++ a :: V)

/-- The nodes that are released with the node at `a`, in order. -/
def FreesTree (h : Heap) (a : Addr) (V : List Addr) : Prop :=
  ∃ n V', h.nodes a = some n ∧ V = V' ++ [a] ∧
    ((n.isRef = true ∧ V' = []) ∨ (n.isRef = false ∧ Frees h n.child V'))

/-- The end of `free_cjson`: the key, unless it is constant, and the node. -/
def freeKey (a : Addr) : M Unit := do
  let n ← load (some a)
  if n.string.isSome ∧ !n.constKey then
    hookFree (n.string.map .buf)
  hookFree (some (.node a))

theorem freeNode_succ (fuel : Nat) (a : Addr) :
    freeNode (fuel + 1) (some a) = (do
      let n ← load (some a)
      if !n.isRef then
        freeChildren fuel n.child
        let n ← load (some a)
        hookFree (n.valuestring.map .buf)
      freeKey a) := rfl

theorem freeChildren_succ (fuel : Nat) (a : Addr) :
    freeChildren (fuel + 1) (some a) = (do
      let n ← load (some a)
      freeNode fuel (some a)
      freeChildren fuel n.next) := rfl

theorem hookFree_run (q : Ptr) :
    hookFree (q.map .buf) g = .ok ((), g.freeAll (q.toList.map .buf)) := by
  cases q <;> rfl

theorem freeKey_run (ha : g.nodes a = some n) :
    freeKey a g = .ok ((), g.freeAll (n.ownKey.toList.map .buf ++ [.node a])) := by
  rw [freeKey, Run.bind_run_ok (load_run ha), CNode.ownKey]
  cases hConst : n.constKey with
  | true =>
    simp only [Bool.not_true, Bool.false_eq_true, and_false, if_false]
    rfl
  | false =>
    cases hString : n.string with
    | none =>
      simp only [Option.isSome_none, Bool.false_eq_true, false_and, if_false]
      rfl
    | some s =>
      simp only [Option.isSome_some, Bool.not_false, and_self, if_true, Bool.false_eq_true,
        if_false]
      rfl

/-- Freeing a reference. -/
theorem freeNode_ref (ha : g.nodes a = some n) (hRef : n.isRef = true) (fuel : Nat) :
    freeNode (fuel + 1) (some a) g = .ok ((), g.freeAll (n.blocks a)) := by
  have hBlocks : n.blocks a = n.ownKey.toList.map .buf ++ [.node a] := by
    simp [CNode.blocks, CNode.texts, CNode.ownValue, hRef]
  rw [freeNode_succ, Run.bind_run_ok (load_run ha), hBlocks]
  simp only [hRef, Bool.not_true, Bool.false_eq_true, if_false]
  exact freeKey_run ha

/-- Freeing a node and what is below it. -/
theorem freeNode_own {B : List Block} {fuel : Nat} (ha : g.nodes a = some n)
    (hRef : n.isRef = false) (hKids : freeChildren fuel n.child g = .ok ((), g.freeAll B))
    (hB : .node a ∉ B) :
    freeNode (fuel + 1) (some a) g = .ok ((), g.freeAll (B ++ n.blocks a)) := by
  have hBlocks : n.blocks a
      = n.valuestring.toList.map .buf ++ (n.ownKey.toList.map .buf ++ [.node a]) := by
    simp [CNode.blocks, CNode.texts, CNode.ownValue, hRef]
  have ha₁ : (g.freeAll B).nodes a = some n := by rw [Heap.nodes_freeAll, if_neg hB, ha]
  have ha₂ : ((g.freeAll B).freeAll (n.valuestring.toList.map .buf)).nodes a = some n := by
    rw [Heap.nodes_freeAll, if_neg (by simp), ha₁]
  rw [freeNode_succ, Run.bind_run_ok (load_run ha), hBlocks, Heap.freeAll_append,
    Heap.freeAll_append]
  simp only [hRef, Bool.not_false, if_true]
  rw [Run.bind_run_ok hKids, Run.bind_run_ok (load_run ha₁), Run.bind_run_ok (hookFree_run _)]
  exact freeKey_run ha₂

theorem Frees.live (hV : Frees h c V) : ∀ a ∈ V, (h.nodes a).isSome := by
  induction hV with
  | nil => simp
  | ref ha _ _ ih =>
    intro x hx
    rcases List.mem_cons.mp hx with rfl | hx
    · rw [ha]
      rfl
    · exact ih x hx
  | own ha _ _ _ ihKids ihNext =>
    intro x hx
    rcases List.mem_append.mp hx with hx | hx
    · exact ihKids x hx
    · rcases List.mem_cons.mp hx with rfl | hx
      · rw [ha]
        rfl
      · exact ihNext x hx

/-- The nodes that were not released are still there. -/
theorem freeAll_kept (hV : ∀ a ∈ V, (h.nodes a).isSome) (hx : x ∉ V) :
    (g.freeAll (h.blocksOf V)).nodes x = g.nodes x := by
  rw [Heap.nodes_freeAll, if_neg]
  rw [Heap.node_mem_blocksOf hV]
  exact hx

/-- Freeing a list of children, on a heap that agrees on what is released. -/
theorem freeChildren_run (hV : Frees h c V) {fuel : Nat} (hNodup : V.Nodup)
    (hEq : ∀ a ∈ V, g.nodes a = h.nodes a) (hFuel : 2 * V.length ≤ fuel) :
    freeChildren fuel c g = .ok ((), g.freeAll (h.blocksOf V)) := by
  induction hV generalizing g fuel with
  | nil => cases fuel <;> rfl
  | @ref a n V ha hRef hNext ih =>
    simp only [List.length_cons] at hFuel
    obtain ⟨fuel, rfl⟩ := Nat.exists_eq_add_of_le' (show 2 ≤ fuel by omega)
    obtain ⟨haV, hNodup⟩ := List.nodup_cons.mp hNodup
    have ha' : g.nodes a = some n := (hEq a List.mem_cons_self).trans ha
    have hBlocks : n.blocks a = h.blocksOf [a] := by
      rw [Heap.blocksOf_cons, Heap.blocksAt_eq ha]
      exact (List.append_nil _).symm
    rw [show fuel + 2 = fuel + 1 + 1 from rfl, freeChildren_succ, Run.bind_run_ok (load_run ha'),
      Run.bind_run_ok (freeNode_ref ha' hRef fuel), Heap.blocksOf_cons, Heap.blocksAt_eq ha,
      Heap.freeAll_append]
    refine ih hNodup (fun x hx => ?_) (by omega)
    rw [hBlocks, freeAll_kept (by simp [ha])]
    · exact hEq x (List.mem_cons_of_mem a hx)
    · rw [List.mem_singleton]
      exact ne_of_mem_of_not_mem hx haV
  | @own a n V V' ha hRef hKids hNext ihKids ihNext =>
    simp only [List.length_append, List.length_cons] at hFuel
    obtain ⟨fuel, rfl⟩ := Nat.exists_eq_add_of_le' (show 2 ≤ fuel by omega)
    obtain ⟨hNodup', hNodupA, hDisjoint⟩ := List.nodup_append.mp hNodup
    obtain ⟨haV, hNodupV⟩ := List.nodup_cons.mp hNodupA
    have haV' : a ∉ V' := fun hMem => hDisjoint a hMem a List.mem_cons_self rfl
    have ha' : g.nodes a = some n := (hEq a (by simp)).trans ha
    have hKidsRun : freeChildren fuel n.child g = .ok ((), g.freeAll (h.blocksOf V')) :=
      ihKids hNodup' (fun x hx => hEq x (List.mem_append_left _ hx)) (by omega)
    have hNot : .node a ∉ h.blocksOf V' := by
      rw [Heap.node_mem_blocksOf hKids.live]
      exact haV'
    have hBlocks : h.blocksOf V' ++ n.blocks a = h.blocksOf (V' ++ [a]) := by
      rw [Heap.blocksOf_append, Heap.blocksOf_cons, Heap.blocksAt_eq ha]
      exact congrArg _ (List.append_nil _).symm
    have hLive : ∀ x ∈ V' ++ [a], (h.nodes x).isSome := by
      intro x hx
      rcases List.mem_append.mp hx with hx | hx
      · exact hKids.live x hx
      · rw [List.mem_singleton.mp hx, ha]
        rfl
    rw [show fuel + 2 = fuel + 1 + 1 from rfl, freeChildren_succ, Run.bind_run_ok (load_run ha'),
      Run.bind_run_ok (freeNode_own ha' hRef hKidsRun hNot), hBlocks,
      show V' ++ a :: V = V' ++ [a] ++ V by simp, Heap.blocksOf_append (V := V' ++ [a]),
      Heap.freeAll_append]
    have hFuelV : 2 * V.length ≤ fuel + 1 := by omega
    refine ihNext hNodupV (fun x hx => ?_) hFuelV
    rw [freeAll_kept hLive]
    · exact hEq x (by simp [hx])
    · intro hMem
      rcases List.mem_append.mp hMem with hMem | hMem
      · exact hDisjoint x hMem x (List.mem_cons_of_mem a hx) rfl
      · rw [List.mem_singleton.mp hMem] at hx
        exact haV hx

/-- Freeing a tree. -/
theorem freeNode_run (hV : FreesTree h a V) {fuel : Nat} (hNodup : V.Nodup)
    (hFuel : 2 * V.length ≤ fuel) :
    freeNode fuel (some a) h = .ok ((), h.freeAll (h.blocksOf V)) := by
  obtain ⟨n, V', ha, rfl, hKids⟩ := hV
  simp only [List.length_append, List.length_singleton] at hFuel
  obtain ⟨fuel, rfl⟩ := Nat.exists_eq_add_of_le' (show 1 ≤ fuel by omega)
  have hBlocks : h.blocksOf (V' ++ [a]) = h.blocksOf V' ++ n.blocks a := by
    rw [Heap.blocksOf_append, Heap.blocksOf_cons, Heap.blocksAt_eq ha]
    exact congrArg _ (List.append_nil _)
  rw [hBlocks]
  rcases hKids with ⟨hRef, rfl⟩ | ⟨hRef, hKids⟩
  · exact freeNode_ref ha hRef fuel
  · obtain ⟨hNodup', -, hDisjoint⟩ := List.nodup_append.mp hNodup
    have hKidsRun : freeChildren fuel n.child h = .ok ((), h.freeAll (h.blocksOf V')) :=
      freeChildren_run hKids hNodup' (fun _ _ => rfl) (by omega)
    refine freeNode_own ha hRef hKidsRun ?_
    rw [Heap.node_mem_blocksOf hKids.live]
    exact fun hMem => hDisjoint a hMem a (by simp) rfl

/-! ## Freeing in a well-formed heap -/

section Trees

variable {N : Addr} {kids : Addr → List Addr}

/-- The nodes below `a` are live and form the tree `kids`: the children of a node are its list,
or none when it is a reference. -/
structure TreeAt (h : Heap) (kids : Addr → List Addr) (a : Addr) : Prop where
  live : ∀ {p}, Below kids a p → (h.nodes p).isSome
  lists : ∀ {p n}, Below kids a p → h.nodes p = some n → n.isRef = false →
    IsList h.link n.child (kids p)
  reference : ∀ {p n}, Below kids a p → h.nodes p = some n → n.isRef = true → kids p = []
  forest : IsForest kids

theorem TreeAt.child (hTree : TreeAt h kids a) {c : Addr} (hc : c ∈ kids a) : TreeAt h kids c where
  live hp := hTree.live ((below_child hc).trans hp)
  lists hp := hTree.lists ((below_child hc).trans hp)
  reference hp := hTree.reference ((below_child hc).trans hp)
  forest := hTree.forest

theorem Represents.treeAt (hRep : Represents N h kids) (hN : N ≤ a) (ha : (h.nodes a).isSome) :
    TreeAt h kids a where
  live hp := by
    obtain ⟨n, hn⟩ := Option.isSome_iff_exists.mp ha
    obtain ⟨m, hm⟩ := hRep.below_live hn hp
    rw [hm]
    rfl
  lists hp := hRep.lists (hRep.below_above hN hp)
  reference {p n} _ hn hRef := hRep.kids_eq_nil fun m hm _ => by
    rw [hn] at hm
    cases hm
    exact hRef
  forest := hRep.forest

/-- What is released with a node is what is below it. -/
def Subtree (h : Heap) (kids : Addr → List Addr) (a : Addr) (V : List Addr) : Prop :=
  FreesTree h a V ∧ V.Nodup ∧ ∀ x, x ∈ V ↔ Below kids a x

/-- The subtrees of a list of siblings are released one after the other. -/
theorem frees_siblings (hForest : IsForest kids) {p : Addr}
    (hKids : ∀ a ∈ kids p, ∃ V, Subtree h kids a V) {q q' : Ptr} {as : List Addr}
    (hSeg : Seg h.link q c as q' none) (hSub : ∀ a ∈ as, a ∈ kids p) (hNodup : as.Nodup) :
    ∃ V, Frees h c V ∧ V.Nodup ∧ ∀ x, x ∈ V ↔ ∃ a ∈ as, Below kids a x := by
  induction as generalizing q c with
  | nil =>
    obtain ⟨-, rfl⟩ := hSeg
    exact ⟨[], Frees.nil, List.nodup_nil, by simp⟩
  | cons a as ih =>
    obtain ⟨rfl, next, hLink, hSeg⟩ := hSeg
    obtain ⟨ha, hNodup⟩ := List.nodup_cons.mp hNodup
    obtain ⟨V, hFrees, hNodupV, hMemV⟩ :=
      ih hSeg (fun b hb => hSub b (List.mem_cons_of_mem a hb)) hNodup
    obtain ⟨n, hn, -, rfl⟩ := node_of_link hLink
    obtain ⟨W, ⟨n', W', hn', rfl, hTree⟩, hNodupW, hMemW⟩ := hKids a (hSub a List.mem_cons_self)
    rw [hn] at hn'
    cases hn'
    refine ⟨W' ++ [a] ++ V, ?_, ?_, ?_⟩
    · rcases hTree with ⟨hRef, rfl⟩ | ⟨hRef, hTree⟩
      · exact Frees.ref hn hRef hFrees
      · have hOwn := Frees.own hn hRef hTree hFrees
        rw [List.append_assoc]
        exact hOwn
    · refine List.nodup_append.mpr ⟨hNodupW, hNodupV, ?_⟩
      rintro x hx y hy rfl
      obtain ⟨b, hb, hBelow⟩ := (hMemV x).mp hy
      have hab : a ≠ b := fun hEq => ha (hEq ▸ hb)
      exact siblings_apart hForest (hSub a List.mem_cons_self)
        (hSub b (List.mem_cons_of_mem a hb)) hab ((hMemW x).mp hx) hBelow
    · intro x
      rw [List.mem_append, hMemW, hMemV]
      simp

/-- A tree can be freed, with all that is below its root. -/
theorem TreeAt.subtree (hTree : TreeAt h kids a) : ∃ V, Subtree h kids a V := by
  have hForest := hTree.forest
  induction a using hForest.wf.induction with
  | _ a ih =>
    have hKids : ∀ c ∈ kids a, ∃ V, Subtree h kids c V :=
      fun c hc => ih c hc (hTree.child hc)
    obtain ⟨n, ha⟩ := Option.isSome_iff_exists.mp (hTree.live (below_refl a))
    cases hRef : n.isRef with
    | true =>
      have hLeaf := hTree.reference (below_refl a) ha hRef
      refine ⟨[a], ⟨n, [], ha, rfl, Or.inl ⟨hRef, rfl⟩⟩, List.nodup_singleton a, fun x => ?_⟩
      rw [below_leaf hLeaf, List.mem_singleton]
    | false =>
      obtain ⟨q, hSeg⟩ := hTree.lists (below_refl a) ha hRef
      obtain ⟨V, hFrees, hNodup, hMem⟩ :=
        frees_siblings hForest hKids hSeg (fun _ hb => hb) (hForest.nodup a)
      refine ⟨V ++ [a], ⟨n, V, ha, rfl, Or.inr ⟨hRef, hFrees⟩⟩, ?_, fun x => ?_⟩
      · refine List.nodup_append.mpr ⟨hNodup, List.nodup_singleton a, ?_⟩
        rintro x hx y hy rfl
        obtain ⟨c, hc, hBelow⟩ := (hMem x).mp hx
        rw [List.mem_singleton] at hy
        subst hy
        exact not_below_child hForest hc hBelow
      · rw [List.mem_append, hMem, List.mem_singleton, below_iff, or_comm]

/-- Every live node can be freed, with what is below it. -/
theorem exists_subtree (hRep : Represents N h kids) (hN : N ≤ a) (ha : h.nodes a = some n) :
    ∃ V, Subtree h kids a V :=
  (hRep.treeAt hN (Option.isSome_iff_exists.mpr ⟨n, ha⟩)).subtree

theorem Subtree.live (hV : Subtree h kids a V) : ∀ x ∈ V, (h.nodes x).isSome := by
  obtain ⟨⟨n, V', ha, rfl, hKids⟩, -⟩ := hV
  intro x hx
  rcases List.mem_append.mp hx with hx | hx
  · rcases hKids with ⟨-, rfl⟩ | ⟨-, hKids⟩
    · cases hx
    · exact hKids.live x hx
  · rw [List.mem_singleton.mp hx, ha]
    rfl

/-- A subtree has no more nodes than there are addresses below the break. -/
theorem Subtree.length_le (hV : Subtree h kids a V) (hBounded : h.Bounded) : V.length ≤ h.brk := by
  have hSub : V ⊆ List.range h.brk := by
    intro x hx
    obtain ⟨n, hn⟩ := Option.isSome_iff_exists.mp (hV.live x hx)
    exact List.mem_range.mpr (hBounded.lt hn)
  have hLe := (List.subperm_of_subset hV.2.1 hSub).length_le
  rw [List.length_range] at hLe
  exact hLe

/-- `cJSON_Delete` on a heap of trees. -/
theorem freeCjson_run (hBounded : h.Bounded) (hV : Subtree h kids a V) :
    freeCjson (some a) h = .ok ((), h.freeAll (h.blocksOf V)) := by
  have hLength := hV.length_le hBounded
  refine freeNode_run hV.1 hV.2.1 ?_
  unfold Heap.fuel
  omega

theorem nodes_freeSubtree (hV : Subtree h kids a V) [Decidable (Below kids a x)] :
    (h.freeAll (h.blocksOf V)).nodes x = if Below kids a x then none else h.nodes x := by
  rw [Heap.nodes_freeAll]
  refine if_congr ?_ rfl rfl
  rw [Heap.node_mem_blocksOf hV.live]
  exact hV.2.2 x

/-- Freeing a root leaves the other trees. -/
theorem Represents.free (hRep : Represents N h kids) (hRoot : IsRoot kids a)
    (hV : Subtree h kids a V) :
    Represents N (h.freeAll (h.blocksOf V)) (prune kids a) where
  lists := by
    classical
    intro x n hN hn hRef
    rw [nodes_freeSubtree hV] at hn
    split_ifs at hn with hx
    rw [prune_of_not_below hx]
    refine (hRep.lists hN hn hRef).congr fun y hy => ?_
    -- A child of a node that was kept was kept: its parent would be below `a` otherwise.
    have hy' : ¬ Below kids a y := by
      intro hBelow
      rcases below_tail hBelow with rfl | ⟨q, hq, hyq⟩
      · exact hRoot x hy
      · rw [hRep.forest.parent hyq hy] at hq
        exact hx hq
    unfold Heap.link
    rw [nodes_freeSubtree hV, if_neg hy']
  parent := by
    classical
    intro x c hc
    by_cases hx : Below kids a x
    · rw [prune_of_below hx] at hc
      cases hc
    · rw [prune_of_not_below hx] at hc
      obtain ⟨hNc, hNx, n, hn, hRef⟩ := hRep.parent hc
      exact ⟨hNc, hNx, n, by rw [nodes_freeSubtree hV, if_neg hx, hn], hRef⟩
  forest := hRep.forest.prune a

end Trees

end CjsonRs.Ffi
