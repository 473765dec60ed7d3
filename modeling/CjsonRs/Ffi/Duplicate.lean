import CjsonRs.Ffi.Construct

/-!
# Copies

`duplicate`, on every heap and from every node, either builds one tree on new blocks or returns
`NULL` and leaves nothing behind, wherever on its way down the allocation fails. It returns when
the tree of its source can be read.
-/

namespace CjsonRs.Ffi

open CjsonRs.Core Library Library.Link Library.Forest

variable {h h₀ h' g g' : Heap} {a b s : Addr} {n m : CNode} {p q src : Ptr} {S : Prop}
  {kids : Addr → List Addr} {l : Label} {ts : List CTree} {x : Option (List UInt8)}

/-! ## Texts -/

theorem TextAt.readable (hText : TextAt h q x) : ∀ s, q = some s → h.Readable s := by
  rintro s rfl
  obtain ⟨b, hb, hNul, -⟩ := hText
  exact ⟨b, hb, hNul⟩

/-- An unset text field of the node `n`, with its assignment. -/
structure TextField (set : Ptr → CNode → CNode) (n : CNode) : Prop where
  unset : set none n = n
  prev : ∀ q, (set q n).prev = n.prev
  next : ∀ q, (set q n).next = n.next
  shape : ∀ q, (set q n).shape = n.shape
  const : ∀ q, (set q n).constKey = n.constKey
  texts : ∀ s, (set (some s) n).texts.Perm (s :: n.texts)

theorem textField_valuestring (hRef : n.isRef = false) (hNone : n.valuestring = none) :
    TextField (fun q n => { n with valuestring := q }) n where
  unset := by rw [← hNone]
  prev _ := rfl
  next _ := rfl
  shape _ := rfl
  const _ := rfl
  texts s := by rw [texts_setValue hRef hNone]

theorem textField_string (hConst : n.constKey = false) (hNone : n.string = none) :
    TextField (fun q n => { n with string := q }) n where
  unset := by rw [← hNone]
  prev _ := rfl
  next _ := rfl
  shape _ := rfl
  const _ := rfl
  texts s := by
    rw [texts_setString hConst hNone]
    exact List.perm_append_singleton s n.texts

/-- A text of a new node is copied, or the node is freed. -/
theorem duplicateString_meets {set : Ptr → CNode → CNode} (hGrown : Grown h g kids [a])
    (hn : g.nodes a = some n) (hConst : n.constKey = false) (hSet : TextField set n)
    (hRead : S → ∀ s, src = some s → g.Readable s) :
    Run.Meets (duplicateString (some a) src set) g S fun ok g' =>
      (ok = false ∧ Built h none g') ∨
      (ok = true ∧ ∃ q, Grown h g' kids [a] ∧ g'.nodes a = some (set q n)) := by
  have haN := (hGrown.root a (List.mem_singleton_self a)).1
  have hKept : Grown h g kids [a] ∧ g.nodes a = some (set none n) := by
    rw [hSet.unset]
    exact ⟨hGrown, hn⟩
  cases src with
  | none => exact Run.meets_pure (Or.inr ⟨rfl, none, hKept⟩)
  | some s =>
    show Run.Meets (loadStr (some s) >>= fun r => _) g S _
    refine (loadStr_meets fun hS => hRead hS s rfl).bind ?_
    rintro r _ ⟨rfl, -⟩
    cases r with
    | none => exact Run.meets_pure (Or.inr ⟨rfl, none, hKept⟩)
    | some str =>
      have hAlloc := allocCstr_run str g
      by_cases hYes : g.outcomes 0 = true
      · rw [if_pos hYes] at hAlloc
        have hn₁ : (g.tick.pushBuf (encode str ++ [0])).nodes a = some n := hn
        refine Run.meets_bind_of_run hAlloc (Run.meets_bind_of_run (store_run hn₁ _) ?_)
        refine Run.meets_pure (Or.inr ⟨rfl, some g.brk, ?_, Heap.setNode_self⟩)
        exact hGrown.retext haN hn _ (hSet.prev _) (hSet.next _) (hSet.shape _)
          ((hSet.const _).trans hConst) (hSet.texts _)
      · rw [if_neg hYes] at hAlloc
        have hn₁ : g.tick.nodes a = some n := hn
        have hSame : g.tick.setNode a (set none n) = g.tick := by
          rw [hSet.unset]
          exact setNode_same hn₁
        obtain ⟨g', hFree, hBuilt⟩ := hGrown.tick.free
        refine Run.meets_bind_of_run hAlloc (Run.meets_bind_of_run (store_run hn₁ _) ?_)
        rw [hSame]
        exact Run.meets_bind_of_run hFree (Run.meets_pure (Or.inl ⟨rfl, hBuilt⟩))

/-! ## Nodes -/

/-- The source at `a` can be read: its texts and, for a recursive copy, what is below it. -/
def Copyable (h : Heap) (recurse : Bool) (fuel : Nat) (a : Addr) : Prop :=
  0 < fuel ∧ ∃ n l ts, h.nodes a = some n ∧ Labelled h n l ∧
    (recurse = true → DenotesList h n.child ts ∧ 2 * CTree.stepsList ts < fuel)

/-- The list of sources at `q` can be read. -/
def CopyableList (h : Heap) (fuel : Nat) (q : Ptr) : Prop :=
  ∃ ts, DenotesList h q ts ∧ 2 * CTree.stepsList ts ≤ fuel

/-- What `duplicate` copies from the node itself, apart from its texts. -/
def CNode.copy (n : CNode) : CNode :=
  { CNode.zeroed with
    type_ := clearFlags n.type_
    valuedouble := n.valuedouble
    valueint := n.valueint }

theorem leaf_copy (n : CNode) : Leaf n.copy :=
  leaf_bare (Or.inr rfl) (Or.inr rfl) (isConst_clearFlags n.type_) rfl

/-- The texts of a new copy, and its children. -/
def fillCopy (recurse : Bool) (fuel : Nat) (a : Addr) (i : CNode) : M Ptr := do
  let copied ← duplicateString (some a) i.valuestring fun p n => { n with valuestring := p }
  if !copied then
    return none
  let copied ← duplicateString (some a) i.string fun p n => { n with string := p }
  if !copied then
    return none
  if recurse then
    let copied ← duplicateChildren fuel (some a) i.child
    if !copied then
      return none
  return some a

theorem duplicateNode_succ (recurse : Bool) (fuel : Nat) (b : Addr) :
    duplicateNode recurse (fuel + 1) (some b) = (do
      let node ← allocNode
      if node.isNone then
        return none
      let i ← load (some b)
      store node ({ · with type_ := clearFlags i.type_ })
      store node ({ · with valuedouble := i.valuedouble })
      store node ({ · with valueint := i.valueint })
      let copied ← duplicateString node i.valuestring fun p n => { n with valuestring := p }
      if !copied then
        return none
      let copied ← duplicateString node i.string fun p n => { n with string := p }
      if !copied then
        return none
      if recurse then
        let copied ← duplicateChildren fuel node i.child
        if !copied then
          return none
      return node) := rfl

theorem duplicateChildren_succ (fuel : Nat) (node : Ptr) (b : Addr) :
    duplicateChildren (fuel + 1) node (some b) = (do
      let dstChild ← duplicateNode true fuel (some b)
      if dstChild.isNone then
        freeCjson node
        return false
      attachChild node dstChild
      let s ← load (some b)
      duplicateChildren fuel node s.next) := rfl

/-- The source of a copy, read after the first allocation. -/
theorem Copyable.node {recurse : Bool} {fuel : Nat} (hCopy : Copyable h₀ recurse fuel b)
    (hBounded : h₀.Bounded) (hExt : Extends h₀ g) (hn : g.nodes b = some n) :
    (∀ s, n.valuestring = some s → h₀.Readable s) ∧ (∀ s, n.string = some s → h₀.Readable s) ∧
      (recurse = true → ∃ ts, DenotesList h₀ n.child ts ∧ 2 * CTree.stepsList ts < fuel) := by
  obtain ⟨-, m, l, ts, hm, hl, hTs⟩ := hCopy
  rw [hExt.node hBounded hm] at hn
  cases hn
  exact ⟨hl.valuestring.readable, hl.string.readable, fun hYes => ⟨ts, hTs hYes⟩⟩

/-- The first source of a list, and the rest of the list. -/
theorem CopyableList.cons {fuel : Nat} (hCopy : CopyableList h (fuel + 1) (some b)) :
    Copyable h true fuel b ∧
      ∃ n, h.nodes b = some n ∧ CopyableList h fuel n.next := by
  obtain ⟨ts, hTs, hFuel⟩ := hCopy
  cases ts with
  | nil => cases hTs
  | cons t ts =>
    obtain ⟨_, n, ⟨⟩, hn, ht, hTs⟩ := hTs
    cases t with
    | node l us =>
      obtain ⟨n', hn', hl, hUs⟩ := ht
      simp only [CTree.stepsList, CTree.steps] at hFuel
      refine ⟨⟨by omega, n', l, us, hn', hl, fun _ => ⟨hUs, by omega⟩⟩, n, hn, ts, hTs, by omega⟩

/-- The texts and the children of a new copy are filled in, or it is freed. -/
theorem fillCopy_meets {recurse : Bool} {fuel : Nat} (hBounded : h₀.Bounded) (hFrom : Extends h₀ h)
    (hChildren : ∀ src g, Filled h a true g → Run.Meets (duplicateChildren fuel (some a) src) g
      (CopyableList h₀ fuel src) (Filled h a)) (hGrown : Grown h g kids [a])
    (hn : g.nodes a = some n.copy)
    (hSource : S → (∀ s, n.valuestring = some s → h₀.Readable s) ∧
      (∀ s, n.string = some s → h₀.Readable s) ∧
      (recurse = true → CopyableList h₀ fuel n.child)) :
    Run.Meets (fillCopy recurse fuel a n) g S (Built h) := by
  have hN := (hGrown.root a (List.mem_singleton_self a)).1
  have hConst : n.copy.constKey = false := isConst_clearFlags n.type_
  have hRef : n.copy.isRef = false := isReference_clearFlags n.type_
  rw [fillCopy]
  refine (duplicateString_meets hGrown hn hConst (textField_valuestring hRef rfl)
    fun hS s hs => (hFrom.trans hGrown.ext).readable hBounded ((hSource hS).1 s hs)).bind ?_
  rintro ok g₁ (⟨rfl, hNone⟩ | ⟨rfl, q, hGrown₁, hn₁⟩)
  · exact Run.meets_pure hNone
  refine (duplicateString_meets hGrown₁ hn₁ hConst (textField_string hConst rfl)
    fun hS s hs => (hFrom.trans hGrown₁.ext).readable hBounded ((hSource hS).2.1 s hs)).bind ?_
  rintro ok g₂ (⟨rfl, hNone⟩ | ⟨rfl, q', hGrown₂, hn₂⟩)
  · exact Run.meets_pure hNone
  cases recurse with
  | false => exact Run.meets_pure ⟨kids, hGrown₂⟩
  | true =>
    have hFilled : Filled h a true g₂ := ⟨kids, hGrown₂, fun _ => ⟨hN, _, hn₂, hRef⟩⟩
    refine ((hChildren n.child g₂ hFilled).weaken fun hS => (hSource hS).2.2 rfl).bind ?_
    rintro ok g₃ ⟨kids', hGrown₃, -⟩
    cases ok <;> exact Run.meets_pure ⟨kids', hGrown₃⟩

/-- One copy or none, when the children are copied. -/
theorem duplicateNode_meets {recurse : Bool} {fuel : Nat} (hBounded₀ : h₀.Bounded)
    (hFrom : Extends h₀ h) (hBounded : h.Bounded)
    (hChildren : ∀ src g, Filled h h.brk true g →
      Run.Meets (duplicateChildren fuel (some h.brk) src) g (CopyableList h₀ fuel src)
        (Filled h h.brk)) :
    Run.Meets (duplicateNode recurse (fuel + 1) (some b)) h (Copyable h₀ recurse (fuel + 1) b)
      (Built h) := by
  rw [duplicateNode_succ]
  have hAlloc := allocNode_run h
  by_cases hYes : h.outcomes 0 = true
  · rw [if_pos hYes] at hAlloc
    have hExt : Extends h₀ (h.tick.pushNode .zeroed) := hFrom.trans (extends_pushNode _)
    refine Run.meets_bind_of_run hAlloc ?_
    refine (load_meets fun hCopy : Copyable h₀ recurse (fuel + 1) b => ?_).bind ?_
    · obtain ⟨-, n, l, ts, hn, -⟩ := hCopy
      rw [hExt.node hBounded₀ hn]
      rfl
    rintro n _ ⟨rfl, hn⟩
    refine Run.meets_bind_of_run (store_pushNode _) ?_
    refine Run.meets_bind_of_run (store_pushNode _) ?_
    refine Run.meets_bind_of_run (store_pushNode _) ?_
    refine fillCopy_meets hBounded₀ hFrom hChildren (grown_leaf hBounded (leaf_copy n))
      (pushNode_self (h := h.tick)) fun hCopy => ?_
    obtain ⟨hValue, hString, hTs⟩ := Copyable.node hCopy hBounded₀ hExt hn
    refine ⟨hValue, hString, fun hYes => ?_⟩
    obtain ⟨ts, hTs, hFuel⟩ := hTs hYes
    exact ⟨ts, hTs, Nat.le_of_lt_succ hFuel⟩
  · rw [if_neg hYes] at hAlloc
    exact Run.meets_bind_of_run hAlloc (Run.meets_pure (built_tick hBounded))

/-- One list of copies or none, when its first tree and the rest are copied. -/
theorem duplicateChildren_meets {fuel : Nat} (hBounded : h₀.Bounded) (hFrom : Extends h₀ h)
    (hNode : ∀ b g, Extends h₀ g → g.Bounded →
      Run.Meets (duplicateNode true fuel (some b)) g (Copyable h₀ true fuel b) (Built g))
    (hRest : ∀ src g, Filled h a true g →
      Run.Meets (duplicateChildren fuel (some a) src) g (CopyableList h₀ fuel src) (Filled h a))
    (hFilled : Filled h a true g) :
    Run.Meets (duplicateChildren (fuel + 1) (some a) (some b)) g
      (CopyableList h₀ (fuel + 1) (some b)) (Filled h a) := by
  obtain ⟨kids, hGrown, hMutable⟩ := hFilled
  rw [duplicateChildren_succ]
  refine ((hNode b g (hFrom.trans hGrown.ext) hGrown.bounded).weaken
    fun hCopy => (CopyableList.cons hCopy).1).bind ?_
  rintro d g' ⟨kids', hNew⟩
  cases d with
  | none =>
    obtain ⟨h', hRun, hFilled, -⟩ := filled_free hGrown ⟨kids', hNew⟩
    exact Run.meets_bind_of_run hRun (Run.meets_pure hFilled)
  | some d =>
    obtain ⟨h', hRun, hFilled⟩ := filled_attach hGrown (hMutable rfl) hNew
    have hExt : Extends h₀ h' := hFrom.trans hFilled.ext
    refine Run.meets_bind_of_run hRun ((load_meets fun hCopy => ?_).bind ?_)
    · obtain ⟨-, n, hn, -⟩ := CopyableList.cons hCopy
      rw [hExt.node hBounded hn]
      rfl
    rintro n _ ⟨rfl, hn⟩
    refine (hRest n.next h' hFilled).weaken fun hCopy => ?_
    obtain ⟨-, m, hm, hNext⟩ := CopyableList.cons hCopy
    rw [hExt.node hBounded hm] at hn
    cases hn
    exact hNext

/-- One copy or none, and one list of copies or none. -/
theorem duplicate_meets (hBounded : h₀.Bounded) (fuel : Nat) :
    (∀ recurse b h, Extends h₀ h → h.Bounded →
      Run.Meets (duplicateNode recurse fuel (some b)) h (Copyable h₀ recurse fuel b) (Built h)) ∧
    ∀ a src h g, Extends h₀ h → Filled h a true g →
      Run.Meets (duplicateChildren fuel (some a) src) g (CopyableList h₀ fuel src)
        (Filled h a) := by
  induction fuel with
  | zero =>
    refine ⟨fun recurse b h _ _ => ?_, fun a src h g _ hFilled => ?_⟩
    · exact Run.meets_fault rfl fun hCopy => Nat.lt_irrefl 0 hCopy.1
    · cases src with
      | none => exact Run.meets_pure hFilled
      | some b =>
        refine Run.meets_fault rfl ?_
        rintro ⟨ts, hTs, hFuel⟩
        cases ts with
        | nil => cases hTs
        | cons t ts =>
          simp only [CTree.stepsList] at hFuel
          omega
  | succ fuel ih =>
    obtain ⟨ihNode, ihChildren⟩ := ih
    refine ⟨fun recurse b h hFrom hBounded' => ?_, fun a src h g hFrom hFilled => ?_⟩
    · apply duplicateNode_meets hBounded hFrom hBounded'
      exact fun src g => ihChildren h.brk src h g hFrom
    · cases src with
      | none => exact Run.meets_pure hFilled
      | some b =>
        apply duplicateChildren_meets hBounded hFrom (fun b g => ihNode true b g) _ hFilled
        exact fun src g => ihChildren a src h g hFrom

/-- `duplicate` builds one tree on new blocks, or nothing. -/
theorem duplicate_copies (hBounded : h.Bounded) (item : Ptr) (recurse : Bool) :
    Run.Meets (duplicate item recurse) h (∀ b, item = some b → Copyable h recurse h.fuel b)
      (Built h) := by
  show Run.Meets (duplicateNode recurse h.fuel item) h _ (Built h)
  cases item with
  | none => exact Run.meets_pure (built_none hBounded)
  | some b =>
    exact ((duplicate_meets hBounded h.fuel).1 recurse b h (Extends.refl h) hBounded).weaken
      fun hCopy => hCopy b rfl

/-- A node whose tree can be read has a copy. -/
theorem Denotes.copyable (hBounded : h.Bounded) {t : CTree} (ht : Denotes h b t) :
    Copyable h true h.fuel b := by
  have hSteps := steps_le_brk hBounded ht
  cases t with
  | node l ts =>
    obtain ⟨n, hn, hl, hTs⟩ := ht
    simp only [CTree.steps] at hSteps
    exact ⟨Nat.succ_pos _, n, l, ts, hn, hl, fun _ => ⟨hTs, by unfold Heap.fuel; omega⟩⟩

end CjsonRs.Ffi
