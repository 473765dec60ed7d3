import CjsonRs.Ffi.Shape
import CjsonRs.Ffi.Lookup

/-!
# Reading a tree

`Denotes h a t` says that walking the `child` and `next` pointers from `a`, through references
too, gives the tree `t`. What the readers of a tree return is a function of `t`; they reach
their end because no path through a tree comes back to a node.
-/

namespace CjsonRs.Ffi

open CjsonRs.Core Library

/-- What the readers see of a node: the texts are the bytes in front of the first NUL. -/
structure Label where
  tag : TypeWord
  valuestring : Option (List UInt8)
  valuedouble : F64
  string : Option (List UInt8)

/-- A tree of nodes. -/
inductive CTree where
  | node (label : Label) (children : List CTree)

/-- The text at a pointer. -/
def TextAt (h : Heap) (q : Ptr) (text : Option (List UInt8)) : Prop :=
  match q with
  | none => text = none
  | some s => ∃ b, h.bufs s = some b ∧ 0 ∈ b.bytes ∧ text = some (cstr b.bytes)

/-- What the readers see of the node `n`. -/
structure Labelled (h : Heap) (n : CNode) (l : Label) : Prop where
  tag : tag n.type_ = l.tag
  valuestring : TextAt h n.valuestring l.valuestring
  valuedouble : n.valuedouble = l.valuedouble
  string : TextAt h n.string l.string

mutual

/-- The tree at a node. -/
def Denotes (h : Heap) (a : Addr) : CTree → Prop
  | .node l ts => ∃ n, h.nodes a = some n ∧ Labelled h n l ∧ DenotesList h n.child ts

/-- The trees of a list of nodes. -/
def DenotesList (h : Heap) (q : Ptr) : List CTree → Prop
  | [] => q = none
  | t :: ts => ∃ a n, q = some a ∧ h.nodes a = some n ∧ Denotes h a t ∧ DenotesList h n.next ts

end

mutual

/-- The number of nodes of a tree. -/
def CTree.size : CTree → Nat
  | .node _ ts => sizeList ts + 1

def CTree.sizeList : List CTree → Nat
  | [] => 0
  | t :: ts => t.size + sizeList ts

end

mutual

/-- The greatest number of nodes on a path of `child` and `next` pointers. -/
def CTree.steps : CTree → Nat
  | .node _ ts => stepsList ts + 1

def CTree.stepsList : List CTree → Nat
  | [] => 0
  | t :: ts => max t.steps (stepsList ts + 1)

end

namespace CTree

/-- Induction over a tree with the hypothesis of every child. -/
theorem induct {P : CTree → Prop} {Q : List CTree → Prop}
    (node : ∀ l ts, Q ts → P (.node l ts)) (nil : Q [])
    (cons : ∀ t ts, P t → Q ts → Q (t :: ts)) : (∀ t, P t) ∧ ∀ ts, Q ts := by
  refine ⟨fun t => ?_, fun ts => ?_⟩
  · exact @CTree.rec P Q (fun l ts => node l ts) nil (fun t ts => cons t ts) t
  · exact @CTree.rec_1 P Q (fun l ts => node l ts) nil (fun t ts => cons t ts) ts

theorem size_pos (t : CTree) : 0 < t.size := by
  cases t
  simp only [size]
  omega

end CTree

variable {h : Heap} {a : Addr} {q : Ptr} {n : CNode} {t t' : CTree} {ts ts' : List CTree}
  {l l' : Label} {x x' : Option (List UInt8)}

/-! ## A tree is determined by its root -/

theorem TextAt.unique (hx : TextAt h q x) (hx' : TextAt h q x') : x = x' := by
  cases q with
  | none => exact Eq.trans hx (Eq.symm hx')
  | some s =>
    obtain ⟨b, hb, -, rfl⟩ := hx
    obtain ⟨b', hb', -, rfl⟩ := hx'
    rw [hb] at hb'
    cases hb'
    rfl

theorem Labelled.unique (hl : Labelled h n l) (hl' : Labelled h n l') : l = l' := by
  cases l
  cases l'
  congr
  · exact hl.tag.symm.trans hl'.tag
  · exact hl.valuestring.unique hl'.valuestring
  · exact hl.valuedouble.symm.trans hl'.valuedouble
  · exact hl.string.unique hl'.string

theorem denotes_unique : (∀ t a t', Denotes h a t → Denotes h a t' → t = t') ∧
    ∀ ts q ts', DenotesList h q ts → DenotesList h q ts' → ts = ts' := by
  refine CTree.induct ?_ ?_ ?_
  · rintro l ts ih a ⟨l', ts'⟩ ⟨n, hn, hl, hTs⟩ ⟨n', hn', hl', hTs'⟩
    rw [hn] at hn'
    cases hn'
    rw [hl.unique hl', ih n.child ts' hTs hTs']
  · rintro q ts' rfl hTs'
    cases ts' with
    | nil => rfl
    | cons t ts' =>
      obtain ⟨a, n, hNone, -⟩ := hTs'
      cases hNone
  · rintro t ts ihT ihTs q ts' ⟨a, n, rfl, hn, ht, hTs⟩ hTs'
    cases ts' with
    | nil => cases hTs'
    | cons t' ts' =>
      obtain ⟨a', n', hEq, hn', ht', hTs'⟩ := hTs'
      cases hEq
      rw [hn] at hn'
      cases hn'
      rw [ihT a t' ht ht', ihTs n.next ts' hTs hTs']

/-! ## Paths are short -/

/-- The nodes passed on the way to a list of trees: a tree with more nodes starts at each. -/
def Passed (h : Heap) (vis : List Addr) (ts : List CTree) : Prop :=
  ∀ a ∈ vis, (h.nodes a).isSome ∧ ∀ ts', DenotesList h (some a) ts' →
    CTree.sizeList ts < CTree.sizeList ts'

theorem Passed.mono {vis : List Addr} (hVis : Passed h vis ts)
    (hLe : CTree.sizeList ts' ≤ CTree.sizeList ts) : Passed h vis ts' := by
  intro a ha
  exact ⟨(hVis a ha).1, fun us hUs => Nat.lt_of_le_of_lt hLe ((hVis a ha).2 us hUs)⟩

/-- Passing the first node of a list. -/
theorem Passed.cons {vis : List Addr} (hVis : Passed h vis (t :: ts)) (hn : h.nodes a = some n)
    (hDenotes : DenotesList h (some a) (t :: ts))
    (hLt : CTree.sizeList ts' < CTree.sizeList (t :: ts)) : Passed h (a :: vis) ts' := by
  intro b hb
  rcases List.mem_cons.mp hb with rfl | hb
  · refine ⟨by rw [hn]; rfl, fun us hUs => ?_⟩
    rw [← denotes_unique.2 _ _ _ hDenotes hUs]
    exact hLt
  · exact hVis.mono (Nat.le_of_lt hLt) b hb

theorem length_le_brk_of_live (hBounded : h.Bounded) {vis : List Addr} (hNodup : vis.Nodup)
    (hLive : ∀ a ∈ vis, (h.nodes a).isSome) : vis.length ≤ h.brk := by
  have hSub : vis ⊆ List.range h.brk := by
    intro a ha
    obtain ⟨n, hn⟩ := Option.isSome_iff_exists.mp (hLive a ha)
    exact List.mem_range.mpr (hBounded.lt hn)
  have hLength := (List.subperm_of_subset hNodup hSub).length_le
  rw [List.length_range] at hLength
  exact hLength

/-- A path never comes back to a node, as the trees get smaller on the way. -/
theorem steps_le (hBounded : h.Bounded) :
    (∀ t a vis, Denotes h a t → (a :: vis).Nodup →
      (∀ l ts, t = .node l ts → Passed h (a :: vis) ts) → t.steps + vis.length ≤ h.brk) ∧
    ∀ ts q vis, DenotesList h q ts → vis.Nodup → Passed h vis ts →
      CTree.stepsList ts + vis.length ≤ h.brk := by
  refine CTree.induct ?_ ?_ ?_
  · rintro l ts ih a vis ⟨n, hn, -, hTs⟩ hNodup hPassed
    have hLe := ih n.child (a :: vis) hTs hNodup (hPassed l ts rfl)
    simp only [CTree.steps, List.length_cons] at hLe ⊢
    omega
  · rintro q vis - hNodup hPassed
    simp only [CTree.stepsList, Nat.zero_add]
    exact length_le_brk_of_live hBounded hNodup fun a ha => (hPassed a ha).1
  · intro t ts ihT ihTs q vis hDenotes hNodup hPassed
    obtain ⟨a, n, rfl, hn, ht, hTs⟩ := id hDenotes
    have ha : a ∉ vis := fun hMem => Nat.lt_irrefl _ ((hPassed a hMem).2 _ hDenotes)
    have hNodup' : (a :: vis).Nodup := List.nodup_cons.mpr ⟨ha, hNodup⟩
    have hPos := t.size_pos
    have hT : t.steps + vis.length ≤ h.brk := by
      refine ihT a vis ht hNodup' fun l us hEq => hPassed.cons hn hDenotes ?_
      subst hEq
      simp only [CTree.sizeList, CTree.size]
      omega
    have hRest : CTree.stepsList ts + (a :: vis).length ≤ h.brk := by
      refine ihTs n.next (a :: vis) hTs hNodup' (hPassed.cons hn hDenotes ?_)
      simp only [CTree.sizeList]
      omega
    simp only [CTree.stepsList, List.length_cons] at hRest ⊢
    omega

/-- The fuel is enough for a path through a tree. -/
theorem steps_le_brk (hBounded : h.Bounded) (ht : Denotes h a t) : t.steps ≤ h.brk := by
  refine (steps_le hBounded).1 t a [] ht (List.nodup_singleton a) ?_
  rintro l ts rfl b hb
  rw [List.mem_singleton.mp hb]
  obtain ⟨n, hn, hl, hTs⟩ := id ht
  refine ⟨by rw [hn]; rfl, fun us hUs => ?_⟩
  -- The list at `a` starts with the tree at `a`.
  cases us with
  | nil => cases hUs
  | cons u us =>
    obtain ⟨b', n', hEq, hn', hu, -⟩ := hUs
    cases hEq
    rw [← denotes_unique.1 _ _ _ ht hu]
    simp only [CTree.sizeList, CTree.size]
    omega

/-! ## The value of a tree -/

/-- The text of a `valuestring` or of a key: empty for `NULL`, `none` when it is not UTF-8. -/
def labelText : Option (List UInt8) → Option Str
  | none => some []
  | some bytes => fromUtf8 bytes

/-- The key in a label. -/
def CTree.label : CTree → Label
  | .node l _ => l

mutual

/-- What `cjson_to_value` makes of a tree. -/
def CTree.toValue : CTree → Option Value
  | .node l ts =>
    if l.tag = cjsonNull then some .null
    else if l.tag = cjsonTrue then some (.bool true)
    else if l.tag = cjsonFalse then some (.bool false)
    else if l.tag = cjsonNumber then some (.number l.valuedouble)
    else if l.tag = cjsonString ∨ l.tag = cjsonRaw then (labelText l.valuestring).map .string
    else if l.tag = cjsonArray then (toItems ts).map .array
    else if l.tag = cjsonObject then (toMembers ts).map .object
    else none

def CTree.toItems : List CTree → Option (List Value)
  | [] => some []
  | t :: ts =>
    match t.toValue with
    | none => none
    | some v => (toItems ts).map (v :: ·)

def CTree.toMembers : List CTree → Option (List (Str × Value))
  | [] => some []
  | t :: ts =>
    match labelText t.label.string with
    | none => none
    | some key =>
      match t.toValue with
      | none => none
      | some v => (toMembers ts).map ((key, v) :: ·)

end

theorem CTree.toItems_cons {vs : List Value} : CTree.toItems (t :: ts) = some vs ↔
    ∃ v us, t.toValue = some v ∧ CTree.toItems ts = some us ∧ vs = v :: us := by
  rw [CTree.toItems]
  cases t.toValue with
  | none => simp
  | some v => simp [eq_comm]

theorem CTree.toMembers_cons {ms : List (Str × Value)} : CTree.toMembers (t :: ts) = some ms ↔
    ∃ key v us, labelText t.label.string = some key ∧ t.toValue = some v ∧
      CTree.toMembers ts = some us ∧ ms = (key, v) :: us := by
  rw [CTree.toMembers]
  cases labelText t.label.string with
  | none => simp
  | some key =>
    cases t.toValue with
    | none => simp
    | some v => simp [eq_comm]

theorem textOrEmpty_run (hx : TextAt h q x) : textOrEmpty q h = .ok (labelText x, h) := by
  cases q with
  | none =>
    rw [show x = none from hx]
    rfl
  | some s =>
    obtain ⟨b, hb, hNul, rfl⟩ := hx
    exact loadStr_run hb hNul

theorem Denotes.labelled (ht : Denotes h a t) : ∃ n, h.nodes a = some n ∧ Labelled h n t.label := by
  cases t
  obtain ⟨n, hn, hl, -⟩ := ht
  exact ⟨n, hn, hl⟩

section Steps

variable {fuel : Nat}

theorem nodeToValue_succ : nodeToValue (fuel + 1) (some a) = (do
    let n ← load (some a)
    if tag n.type_ = cjsonNull then return some .null
    else if tag n.type_ = cjsonTrue then return some (.bool true)
    else if tag n.type_ = cjsonFalse then return some (.bool false)
    else if tag n.type_ = cjsonNumber then return some (.number n.valuedouble)
    else if tag n.type_ = cjsonString ∨ tag n.type_ = cjsonRaw then do
      let s ← textOrEmpty n.valuestring
      return s.map .string
    else if tag n.type_ = cjsonArray then do
      let items ← itemsToValues fuel n.child
      return items.map .array
    else if tag n.type_ = cjsonObject then do
      let members ← membersToValues fuel n.child
      return members.map .object
    else return none) := rfl

theorem itemsToValues_succ : itemsToValues (fuel + 1) (some a) = (do
    match ← nodeToValue fuel (some a) with
    | none => return none
    | some v =>
      let n ← load (some a)
      let items ← itemsToValues fuel n.next
      return items.map (v :: ·)) := rfl

theorem membersToValues_succ : membersToValues (fuel + 1) (some a) = (do
    let n ← load (some a)
    match ← textOrEmpty n.string with
    | none => return none
    | some key =>
      match ← nodeToValue fuel (some a) with
      | none => return none
      | some v =>
        let members ← membersToValues fuel n.next
        return members.map ((key, v) :: ·)) := rfl

/-- A node, given what is read below it. -/
theorem nodeToValue_node (hn : h.nodes a = some n) (hl : Labelled h n l)
    (hItems : itemsToValues fuel n.child h = .ok (CTree.toItems ts, h))
    (hMembers : membersToValues fuel n.child h = .ok (CTree.toMembers ts, h)) :
    nodeToValue (fuel + 1) (some a) h = .ok ((CTree.node l ts).toValue, h) := by
  have hText := textOrEmpty_run hl.valuestring
  rw [nodeToValue_succ, Run.bind_run_ok (load_run hn), CTree.toValue, hl.tag, hl.valuedouble]
  simp only [Run.ite_run, Run.bind_run_ok hText, Run.bind_run_ok hItems, Run.bind_run_ok hMembers,
    Run.pure_run]
  split_ifs <;> rfl

theorem itemsToValues_cons (hn : h.nodes a = some n)
    (hNode : nodeToValue fuel (some a) h = .ok (t.toValue, h))
    (hRest : itemsToValues fuel n.next h = .ok (CTree.toItems ts, h)) :
    itemsToValues (fuel + 1) (some a) h = .ok (CTree.toItems (t :: ts), h) := by
  rw [itemsToValues_succ, Run.bind_run_ok hNode, CTree.toItems]
  cases t.toValue with
  | none => rfl
  | some v =>
    show (load (some a) >>= fun n => itemsToValues fuel n.next >>= fun items => _) h = _
    rw [Run.bind_run_ok (load_run hn), Run.bind_run_ok hRest]
    rfl

theorem membersToValues_cons (hn : h.nodes a = some n) (hl : Labelled h n t.label)
    (hNode : nodeToValue fuel (some a) h = .ok (t.toValue, h))
    (hRest : membersToValues fuel n.next h = .ok (CTree.toMembers ts, h)) :
    membersToValues (fuel + 1) (some a) h = .ok (CTree.toMembers (t :: ts), h) := by
  rw [membersToValues_succ, Run.bind_run_ok (load_run hn),
    Run.bind_run_ok (textOrEmpty_run hl.string), CTree.toMembers]
  cases labelText t.label.string with
  | none => rfl
  | some key =>
    show (nodeToValue fuel (some a) >>= fun r => _) h = _
    rw [Run.bind_run_ok hNode]
    cases t.toValue with
    | none => rfl
    | some v =>
      show (membersToValues fuel n.next >>= fun members => _) h = _
      rw [Run.bind_run_ok hRest]
      rfl

end Steps

/-- A list of trees takes one step for each tree and two for each level. -/
theorem toValue_run :
    (∀ t a fuel, Denotes h a t → 2 * t.steps ≤ fuel →
      nodeToValue fuel (some a) h = .ok (t.toValue, h)) ∧
    ∀ ts q fuel, DenotesList h q ts → 2 * CTree.stepsList ts + 1 ≤ fuel →
      itemsToValues fuel q h = .ok (CTree.toItems ts, h) ∧
      membersToValues fuel q h = .ok (CTree.toMembers ts, h) := by
  refine CTree.induct ?_ ?_ ?_
  · rintro l ts ih a fuel ⟨n, hn, hl, hTs⟩ hFuel
    simp only [CTree.steps] at hFuel
    obtain ⟨fuel, rfl⟩ := Nat.exists_eq_add_of_le' (show 1 ≤ fuel by omega)
    obtain ⟨hItems, hMembers⟩ := ih n.child fuel hTs (by omega)
    exact nodeToValue_node hn hl hItems hMembers
  · rintro q fuel rfl -
    constructor <;> cases fuel <;> rfl
  · rintro t ts ihT ihTs q fuel ⟨a, n, rfl, hn, ht, hTs⟩ hFuel
    simp only [CTree.stepsList] at hFuel
    obtain ⟨fuel, rfl⟩ := Nat.exists_eq_add_of_le' (show 1 ≤ fuel by omega)
    have hNode := ihT a fuel ht (by omega)
    obtain ⟨hItems, hMembers⟩ := ihTs n.next fuel hTs (by omega)
    obtain ⟨m, hm, hl⟩ := ht.labelled
    rw [hn] at hm
    cases hm
    exact ⟨itemsToValues_cons hn hNode hItems, membersToValues_cons hn hl hNode hMembers⟩

/-- Reading a tree gives its value. -/
theorem cjsonToValue_run (hBounded : h.Bounded) (ht : Denotes h a t) :
    cjsonToValue (some a) h = .ok (t.toValue, h) := by
  have hSteps := steps_le_brk hBounded ht
  refine toValue_run.1 t a h.fuel ht ?_
  unfold Heap.fuel
  omega

end CjsonRs.Ffi
