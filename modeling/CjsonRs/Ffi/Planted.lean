import CjsonRs.Ffi.Formed

/-!
# The tree of a value

What `value_to_cjson` builds for a value: the contents `contentsOf v`, of which the readers see
the tree `CTree.ofValue v`. `Shows h kids a t` reads the tree `t` off the lists of children.
-/

namespace CjsonRs.Ffi

open CjsonRs.Core Library Library.Link Library.Forest

mutual

/-- The tree at the node `a`, with the lists of children `kids`. -/
def Shows (h : Heap) (kids : Addr → List Addr) (a : Addr) : CTree → Prop
  | .node l ts =>
    (∃ n, h.nodes a = some n ∧ n.isRef = false ∧ Labelled h n l) ∧ ShowsAll h kids (kids a) ts

/-- The trees of a list of siblings. -/
def ShowsAll (h : Heap) (kids : Addr → List Addr) (as : List Addr) : List CTree → Prop
  | [] => as = []
  | t :: ts => ∃ a as', as = a :: as' ∧ Shows h kids a t ∧ ShowsAll h kids as' ts

end

variable {N : Addr} {h h' h'' : Heap} {a i p x : Addr} {n m : CNode} {q c : Ptr} {d : Content}
  {kids kids' : Addr → List Addr} {as ks : List Addr} {t : CTree} {ts : List CTree}
  {u : Rose Content} {us : List (Rose Content)} {k : Str}

/-! ## Trees of a well-formed heap -/

theorem denotesList_of_seg {q' : Ptr} (hSeg : Seg h.link q' c as q none)
    (hAll : ShowsAll h kids as ts)
    (hEach : ∀ t ∈ ts, ∀ a ∈ as, Shows h kids a t → Denotes h a t) : DenotesList h c ts := by
  induction ts generalizing as c q' with
  | nil =>
    obtain rfl := hAll
    exact hSeg.2.symm
  | cons t ts ih =>
    obtain ⟨a, as', rfl, ht, hTs⟩ := hAll
    obtain ⟨rfl, next, hLink, hSeg⟩ := hSeg
    obtain ⟨n, hn, -, rfl⟩ := node_of_link hLink
    refine ⟨a, n, rfl, hn, hEach t List.mem_cons_self a List.mem_cons_self ht, ?_⟩
    refine ih hSeg hTs fun u hu b hb => ?_
    exact hEach u (List.mem_cons_of_mem t hu) b (List.mem_cons_of_mem a hb)

/-- The readers find the tree that the lists of children show. -/
theorem denotes_of_shows (hRep : Represents N h kids) :
    (∀ t a, N ≤ a → Shows h kids a t → Denotes h a t) ∧
    ∀ ts : List CTree, ∀ t ∈ ts, ∀ a, N ≤ a → Shows h kids a t → Denotes h a t := by
  refine CTree.induct ?_ ?_ ?_
  · rintro l ts ih a hN ⟨⟨n, hn, hRef, hl⟩, hTs⟩
    obtain ⟨q, hSeg⟩ := hRep.lists hN hn hRef
    refine ⟨n, hn, hl, denotesList_of_seg hSeg hTs fun t ht b hb => ?_⟩
    exact ih t ht b (hRep.parent hb).1
  · rintro t ht
    cases ht
  · rintro t ts ihT ihTs u hu
    rcases List.mem_cons.mp hu with rfl | hu
    · exact ihT
    · exact ihTs u hu

/-- The lists of children show what the readers see of the contents. -/
theorem shows_of_bears :
    (∀ u a, Bears h kids a u → Shows h kids a (seen (u.map Content.cut))) ∧
    ∀ us as, BearsAll h kids as us → ShowsAll h kids as (seenAll (Rose.mapAll Content.cut us)) := by
  apply Rose.induct
  · intro c us ih a ⟨⟨n, hn, hRef, _, hc⟩, hUs⟩
    exact ⟨⟨n, hn, hRef, hc.cut.labelled⟩, ih (kids a) hUs⟩
  · intro as hNil
    exact hNil
  · intro u us ihU ihUs as ⟨a, as', hEq, hu, hUs⟩
    exact ⟨a, as', hEq, ihU a hu, ihUs as' hUs⟩

/-! ## Planted trees -/

/-- The tree `t` was built at the root `a` since `h`. -/
structure Planted (h h' : Heap) (kids : Addr → List Addr) (a : Addr) (t : CTree) : Prop where
  grown : Grown h h' kids [a]
  shows : Shows h' kids a t
  link : h'.link a = some ⟨none, none⟩

/-- An allocation failed, and the trees below `roots` are what is left. -/
def Failed (h h' : Heap) (roots : List Addr) : Prop :=
  (∃ kids, Grown h h' kids roots) ∧ ∃ k, h.outcomes k = false

/-- The text that is read back from a copied string. -/
def copied (s : Str) : Option (List UInt8) := some (cstr (encode s ++ [0]))

/-- A tree as the member with the key `k`. -/
def CTree.named (k : Str) : CTree → CTree
  | .node l ts => .node { l with string := copied k } ts

mutual

/-- The tree of a value. -/
def CTree.ofValue : Value → CTree
  | .null => .node ⟨cjsonNull, none, ⟨0⟩, none⟩ []
  | .bool b => .node ⟨if b then cjsonTrue else cjsonFalse, none, ⟨0⟩, none⟩ []
  | .number n => .node ⟨cjsonNumber, none, n, none⟩ []
  | .string s => .node ⟨cjsonString, copied s, ⟨0⟩, none⟩ []
  | .array items => .node ⟨cjsonArray, none, ⟨0⟩, none⟩ (ofItems items)
  | .object members => .node ⟨cjsonObject, none, ⟨0⟩, none⟩ (ofMembers members)

def CTree.ofItems : List Value → List CTree
  | [] => []
  | v :: items => ofValue v :: ofItems items

def CTree.ofMembers : List (Str × Value) → List CTree
  | [] => []
  | (k, v) :: members => (ofValue v).named k :: ofMembers members

end

/-! ## Contents -/

/-- A node without texts of its own. -/
def plain (type : TypeWord) : Content := ⟨type, none, 0, ⟨0⟩, none⟩

/-- Contents with a key. -/
def keyed (k : Str) : Rose Content → Rose Content
  | .node c ts => .node { c with string := some (encode k) } ts

mutual

/-- The contents of the tree of a value. -/
def contentsOf : Value → Rose Content
  | .null => .node (plain cjsonNull) []
  | .bool b => .node (plain (if b then cjsonTrue else cjsonFalse)) []
  | .number n => .node ⟨cjsonNumber, none, clampToInt n, n, none⟩ []
  | .string s => .node { plain cjsonString with valuestring := some (encode s) } []
  | .array items => .node (plain cjsonArray) (itemContents items)
  | .object members => .node (plain cjsonObject) (memberContents members)

def itemContents : List Value → List (Rose Content)
  | [] => []
  | v :: items => contentsOf v :: itemContents items

def memberContents : List (Str × Value) → List (Rose Content)
  | [] => []
  | (k, v) :: members => keyed k (contentsOf v) :: memberContents members

end

/-- What the readers see of the contents that a value is given. -/
def view (u : Rose Content) : CTree := seen (u.map Content.cut)

theorem cut_encode (s : Str) : (some (encode s)).map cstr = copied s := by
  rw [copied, cstr_terminator, Option.map_some]

theorem view_keyed (k : Str) (u : Rose Content) : view (keyed k u) = (view u).named k := by
  obtain ⟨c, ts⟩ := u
  rw [view, view, keyed, Rose.map, Rose.map, seen, seen, CTree.named, ← cut_encode]
  rfl

theorem view_contentsOf (v : Value) : view (contentsOf v) = .ofValue v := by
  refine @Value.rec (fun v => view (contentsOf v) = .ofValue v)
    (fun items => seenAll (Rose.mapAll Content.cut (itemContents items)) = CTree.ofItems items)
    (fun members =>
      seenAll (Rose.mapAll Content.cut (memberContents members)) = CTree.ofMembers members)
    (fun m => view (contentsOf m.2) = .ofValue m.2)
    ?_ ?_ ?_ ?_ ?_ ?_ ?_ ?_ ?_ ?_ (fun _ _ h => h) v
  · rfl
  · intro b
    cases b <;> rfl
  · intro n
    have hTag : tag cjsonNumber = cjsonNumber := rfl
    change CTree.node ⟨tag cjsonNumber, none, n, none⟩ [] = _
    rw [hTag, CTree.ofValue]
  · intro s
    have hTag : tag cjsonString = cjsonString := rfl
    change CTree.node ⟨tag cjsonString, (some (encode s)).map cstr, ⟨0⟩, none⟩ [] = _
    rw [hTag, cut_encode, CTree.ofValue]
  · intro items ih
    rw [CTree.ofValue, ← ih]
    rfl
  · intro members ih
    rw [CTree.ofValue, ← ih]
    rfl
  · rfl
  · intro v items ihV ih
    rw [CTree.ofItems, ← ihV, ← ih]
    rfl
  · rfl
  · intro m members ihV ih
    rw [CTree.ofMembers, ← ihV, ← ih, ← view_keyed]
    rfl

theorem Formed.planted (hFormed : Formed h h' kids a u) : Planted h h' kids a (view u) :=
  ⟨hFormed.grown, shows_of_bears.1 u a hFormed.bears, hFormed.link⟩

theorem Planted.root (hPlanted : Planted h h' kids a t) :
    h.brk ≤ a ∧ (h'.nodes a).isSome ∧ IsRoot kids a :=
  hPlanted.grown.root a (List.mem_singleton_self a)

/-! ## A child behind the others -/

/-- The node `i`, which has no links, is put behind the last child of `p`. -/
def placeLast (p : Addr) (last : Ptr) (i : Addr) : M Unit := do
  store (some i) ({ · with prev := last })
  redirect p last (some i)

theorem linkChild_item (p i : Addr) (last : Ptr) :
    linkChild (some p) last none (some i) = (do
      placeLast p last i
      return some (some i)) := by
  simp only [linkChild, placeLast, Option.isNone_some, Bool.false_eq_true, if_false, bind_assoc,
    pure_bind]
  funext _
  cases last <;> rfl

theorem linkChild_member (p i : Addr) (last : Ptr) (k : Str) :
    linkChild (some p) last (some k) (some i) = (do
      let string ← allocCstr k
      store (some i) ({ · with string := string })
      if string.isNone then
        freeCjson (some i)
        return none
      placeLast p last i
      return some (some i)) := by
  simp only [linkChild, placeLast, Option.isNone_some, Bool.false_eq_true, if_false, bind_assoc,
    pure_bind]
  congr 1
  funext string
  congr 1
  funext _
  cases string <;> cases last <;> rfl

theorem placeLast_run (hp : h.body p = some m) (hList : IsList h.link m.child ks)
    (hNodup : ks.Nodup) (hi : h.link i = some ⟨none, none⟩) (hNew : i ∉ ks) :
    ∃ h' c, placeLast p ks.getLast? i h = .ok ((), h') ∧
      Spliced h h' p (ks ++ [i]) (ks ++ [i]) ∧
      Rewritten h h' h'.link (setChild h.body p c) ∧
      h'.link i = some ⟨ks.getLast?, none⟩ := by
  have hi' : (h.link i).isSome := by rw [hi]; rfl
  have hLast : ∀ b, ks.getLast? = some b → (setPrev h.link i ks.getLast? b).isSome := by
    intro b hb
    exact isSome_setPrev _ (isList_isSome hList (List.mem_of_getLast? hb))
  obtain ⟨h₁, hRun₁, hW₁⟩ := store_prev (Rewritten.refl h) hi' ks.getLast?
  obtain ⟨h₂, hRun₂, hW₂⟩ := redirect_run hW₁ hp hLast (some i)
  have hPrev : setPrev h.link i ks.getLast? = setLink h.link i ks.getLast? none := by
    rw [setPrev, hi]
    rfl
  rw [hPrev] at hW₂
  have hRun : placeLast p ks.getLast? i h = .ok ((), h₂) := by
    rw [placeLast, Run.bind_run_ok hRun₁, hRun₂]
  rcases List.eq_nil_or_concat ks with rfl | ⟨xs, b, rfl⟩
  · refine ⟨h₂, _, hRun, Spliced.of_body hp hW₂.body ?_ fun x hx => ?_, ⟨rfl, hW₂.body, hW₂.rest⟩,
      ?_⟩
    · rw [hW₂.link]
      exact setLink_isList
    · rw [hW₂.link]
      exact setLink_of_ne (by simpa using hx) none none
    · rw [hW₂.link]
      exact setLink_self i none none
  · rw [List.concat_eq_append] at hList hNodup hNew hW₂ hRun ⊢
    rw [List.getLast?_concat] at hW₂ hRun ⊢
    have hib : b ≠ i := fun hEq => hNew (by simp [hEq])
    -- Writing the link of `i` first makes no difference.
    have hPush : setNextAt (setLink h.link i (some b) none) (some b) (some i)
        = pushBack h.link b i := by
      show setNext (setLink h.link i (some b) none) b (some i) = _
      rw [setNext, setLink_of_ne hib, pushBack, setNext, setLink, setLink,
        Function.update_comm hib.symm]
    rw [hPush] at hW₂
    refine ⟨h₂, _, hRun, Spliced.of_body hp hW₂.body ?_ fun x hx => ?_, ⟨rfl, hW₂.body, hW₂.rest⟩,
      ?_⟩
    · rw [hW₂.link]
      have hPushed := pushBack_isList hList hNodup hNew
      exact hPushed
    · rw [hW₂.link]
      simp only [List.mem_append, List.mem_singleton, not_or] at hx
      exact pushBack_of_ne hx.1.2 hx.2
    · rw [hW₂.link]
      exact setLink_self i (some b) none

end CjsonRs.Ffi
