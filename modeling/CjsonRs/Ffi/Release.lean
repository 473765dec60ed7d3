import CjsonRs.Ffi.Owned

/-!
# What deleting a tree releases

A tree owns its nodes, reached through parents that are no references, their values unless they
are references, and their keys unless these are constant. `free_cjson` hands exactly these blocks
to the free hook, each once. A read of a freed node would fault, so a call that returns has
made none.
-/

namespace CjsonRs.Ffi

open CjsonRs.Core Library Library.Link Library.Forest

variable {h : Heap} {a x s : Addr} {n : CNode} {kids : Addr → List Addr} {V : List Addr}

/-- A tree whose flags agree with its pointers: an owned text is a live buffer of the library,
and owned by one field of one node. Nothing is said of a borrowed value, of a constant key, of
what a reference points to and of the nodes outside the tree. -/
structure OwnTree (h : Heap) (kids : Addr → List Addr) (a : Addr) : Prop where
  tree : TreeAt h kids a
  lib : ∀ {x s}, Below kids a x → s ∈ h.textsAt x → h.Lib s
  nodup : ∀ {x}, Below kids a x → (h.textsAt x).Nodup
  sole : ∀ {x y s}, Below kids a x → Below kids a y → s ∈ h.textsAt x → s ∈ h.textsAt y → x = y

/-- The blocks that the tree of `a` owns. -/
def OwnedBlock (h : Heap) (kids : Addr → List Addr) (a : Addr) : Block → Prop
  | .node x => Below kids a x
  | .buf s => ∃ x n, Below kids a x ∧ h.nodes x = some n ∧
      (n.isRef = false ∧ n.valuestring = some s ∨ n.constKey = false ∧ n.string = some s)

/-- What is released with a tree is what it owns. -/
theorem Subtree.mem_blocks (hV : Subtree h kids a V) (b : Block) :
    b ∈ h.blocksOf V ↔ OwnedBlock h kids a b := by
  cases b with
  | node x => exact (Heap.node_mem_blocksOf hV.live).trans (hV.2.2 x)
  | buf s =>
    rw [Heap.buf_mem_blocksOf]
    constructor
    · rintro ⟨x, hx, n, hn, hs⟩
      exact ⟨x, n, (hV.2.2 x).mp hx, hn, mem_texts.mp hs⟩
    · rintro ⟨x, n, hx, hn, hs⟩
      exact ⟨x, (hV.2.2 x).mpr hx, n, hn, mem_texts.mpr hs⟩

theorem OwnTree.freeable (hTree : OwnTree h kids a) (hV : Subtree h kids a V) :
    (h.blocksOf V).Nodup ∧ ∀ b ∈ h.blocksOf V, h.Freeable b := by
  have hBelow : ∀ x ∈ V, Below kids a x := fun x hx => (hV.2.2 x).mp hx
  refine freeable_blocks hV.live hV.2.1 (fun x hx => hTree.nodup (hBelow x hx)) ?_ ?_
  · exact fun x hx s hs => hTree.lib (hBelow x hx) hs
  · exact fun x hx y hy s hs hs' => hTree.sole (hBelow x hx) (hBelow y hy) hs hs'

/-- `free_cjson` hands the blocks of the tree to the free hook, each exactly once and each while
it is live, and leaves every other block as it was. -/
theorem freeCjson_releases (hBounded : h.Bounded) (hTree : OwnTree h kids a) :
    ∃ blocks, blocks.Nodup ∧ (∀ b, b ∈ blocks ↔ OwnedBlock h kids a b) ∧
      (∀ b ∈ blocks, h.Freeable b) ∧ freeCjson (some a) h = .ok ((), h.freeAll blocks) ∧
      (h.freeAll blocks).misuses = h.misuses ∧
      (∀ x, (h.freeAll blocks).nodes x = if .node x ∈ blocks then none else h.nodes x) ∧
      ∀ s, (h.freeAll blocks).bufs s = if .buf s ∈ blocks then none else h.bufs s := by
  obtain ⟨V, hV⟩ := hTree.tree.subtree
  obtain ⟨hNodup, hFreeable⟩ := hTree.freeable hV
  refine ⟨h.blocksOf V, hNodup, hV.mem_blocks, hFreeable, freeCjson_run hBounded hV,
    Heap.freeAll_misuses hNodup hFreeable, fun x => Heap.nodes_freeAll, fun s => ?_⟩
  rw [Heap.bufs_freeAll]
  refine if_congr ?_ rfl rfl
  exact and_iff_left_of_imp fun hs => hFreeable (.buf s) hs

/-! ## A tree with borrowed parts -/

/-- An array at 0 with a string that borrows its value and its key, a reference to the list of
the array at 4, and a string of its own; the buffers from 6 on are two names of the caller, two
texts of the library and one of the list at 4. -/
def borrowing : Heap where
  nodes a := [
    { CNode.zeroed with type_ := cjsonArray, child := some 1 },
    { CNode.zeroed with type_ := setConst (asReference cjsonString), valuestring := some 6,
                        string := some 7, next := some 2 },
    { CNode.zeroed with type_ := asReference cjsonArray, child := some 5, prev := some 1,
                        next := some 3 },
    { CNode.zeroed with type_ := cjsonString, valuestring := some 8, string := some 9,
                        prev := some 2 },
    { CNode.zeroed with type_ := cjsonArray, child := some 5 },
    { CNode.zeroed with type_ := cjsonString, valuestring := some 10 }][a]?
  bufs s := if s < 6 then none else
    [⟨[0x61, 0], false⟩, ⟨[0x62, 0], false⟩, ⟨[0x63, 0], true⟩, ⟨[0x64, 0], true⟩,
      ⟨[0x65, 0], true⟩][s - 6]?
  brk := 11
  outcomes _ := true
  misuses := []
  lastError := none

/-- The array at 0 has three children. -/
def borrowingKids (a : Addr) : List Addr := if a = 0 then [1, 2, 3] else []

theorem below_borrowingKids (hx : Below borrowingKids 0 x) : x = 0 ∨ x = 1 ∨ x = 2 ∨ x = 3 := by
  rcases below_iff.mp hx with rfl | ⟨c, hc, hBelow⟩
  · exact Or.inl rfl
  · have hMem : c ∈ [1, 2, 3] := hc
    simp only [List.mem_cons, List.not_mem_nil, or_false] at hMem
    rcases hMem with rfl | rfl | rfl
    · exact Or.inr (Or.inl ((below_leaf rfl).mp hBelow))
    · exact Or.inr (Or.inr (Or.inl ((below_leaf rfl).mp hBelow)))
    · exact Or.inr (Or.inr (Or.inr ((below_leaf rfl).mp hBelow)))

theorem forest_borrowingKids : IsForest borrowingKids where
  nodup a := by
    unfold borrowingKids
    split
    · decide
    · exact List.nodup_nil
  parent {a b c} ha hb := by
    unfold borrowingKids at ha hb
    split at ha
    · rename_i hA
      split at hb
      · rename_i hB
        exact hA.trans hB.symm
      · cases hb
    · cases ha
  wf := by
    have hLeaf : ∀ c, c ≠ 0 → Acc (fun c a => c ∈ borrowingKids a) c := by
      intro c hc
      constructor
      intro y hy
      rw [borrowingKids, if_neg hc] at hy
      cases hy
    constructor
    intro a
    constructor
    intro c hc
    apply hLeaf
    rintro rfl
    unfold borrowingKids at hc
    split at hc
    · exact absurd hc (by decide)
    · cases hc

theorem ownTree_borrowing : OwnTree borrowing borrowingKids 0 where
  tree := by
    refine ⟨fun {p} hp => ?_, fun {p n} hp hn hRef => ?_, fun {p n} hp hn hRef => ?_,
      forest_borrowingKids⟩
    · rcases below_borrowingKids hp with rfl | rfl | rfl | rfl <;> rfl
    · rcases below_borrowingKids hp with rfl | rfl | rfl | rfl
      · cases hn
        exact ⟨some 3, rfl, _, rfl, rfl, _, rfl, rfl, _, rfl, rfl, rfl⟩
      · cases hn
        cases hRef
      · cases hn
        cases hRef
      · cases hn
        exact isList_nil
    · rcases below_borrowingKids hp with rfl | rfl | rfl | rfl
      · cases hn
        cases hRef
      · rfl
      · rfl
      · rfl
  lib {x s} hx hs := by
    rcases below_borrowingKids hx with rfl | rfl | rfl | rfl
    · cases hs
    · cases hs
    · cases hs
    · have hMem : s ∈ [8, 9] := hs
      simp only [List.mem_cons, List.not_mem_nil, or_false] at hMem
      rcases hMem with rfl | rfl <;> rfl
  nodup {x} hx := by
    rcases below_borrowingKids hx with rfl | rfl | rfl | rfl
    · exact List.nodup_nil
    · exact List.nodup_nil
    · exact List.nodup_nil
    · change [8, 9].Nodup
      decide
  sole {x y s} hx hy hs hs' := by
    rcases below_borrowingKids hx with rfl | rfl | rfl | rfl
    · cases hs
    · cases hs
    · cases hs
    · rcases below_borrowingKids hy with rfl | rfl | rfl | rfl
      · cases hs'
      · cases hs'
      · cases hs'
      · rfl

theorem bounded_borrowing : borrowing.Bounded where
  nodes {a} ha := List.getElem?_eq_none (Nat.le_trans (by decide) ha)
  bufs {s} hs := by
    have hFar : ∀ k : Nat, 11 ≤ k → ¬ k < 6 ∧ 5 ≤ k - 6 := by omega
    obtain ⟨hNot, hLong⟩ := hFar s hs
    change (if s < 6 then none else _) = none
    rw [if_neg hNot]
    exact List.getElem?_eq_none hLong

/-- The borrowed texts, the constant key and the list at 4 stay. -/
theorem freeCjson_releases_borrowing :
    ∃ blocks, blocks.Nodup ∧ (∀ b, b ∈ blocks ↔ OwnedBlock borrowing borrowingKids 0 b) ∧
      (∀ b ∈ blocks, borrowing.Freeable b) ∧
      freeCjson (some 0) borrowing = .ok ((), borrowing.freeAll blocks) ∧
      (borrowing.freeAll blocks).misuses = borrowing.misuses ∧
      (∀ x, (borrowing.freeAll blocks).nodes x =
        if .node x ∈ blocks then none else borrowing.nodes x) ∧
      ∀ s, (borrowing.freeAll blocks).bufs s =
        if .buf s ∈ blocks then none else borrowing.bufs s :=
  freeCjson_releases bounded_borrowing ownTree_borrowing

end CjsonRs.Ffi
