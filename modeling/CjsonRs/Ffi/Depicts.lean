import CjsonRs.Ffi.Documents

/-!
# Heaps that depict documents

A heap depicts labels when every live node shows its label, is no reference, and no other address
has one. Links may change without changing a label, and so may buffers that no node uses: a node
uses the texts that it owns and the constant keys that the client has lent to it.
-/

namespace CjsonRs.Ffi

open CjsonRs.Core Library Library.Link Library.Forest

variable {h h' g : Heap} {a i p s x : Addr} {n m ma mi : CNode} {q c : Ptr}
  {text : Option (List UInt8)} {l : Option Label} {L : Addr → Option Label} {T V : List Addr}
  {kids : Addr → List Addr} {ks touched : List Addr} {D : Documents} {cs : Bool} {t : CTree}

/-! ## Labels of a heap -/

theorem TextAt.chars (hText : TextAt h q text) : h.chars q = text := by
  cases q with
  | none => exact Eq.symm hText
  | some s =>
    obtain ⟨b, hb, -, rfl⟩ := hText
    simp only [Heap.chars, Option.bind_eq_bind, Option.bind_some, hb]
    rfl

theorem textAt_chars (hRead : h.Readable s) : TextAt h (some s) (h.chars (some s)) := by
  obtain ⟨b, hb, hNul⟩ := hRead
  refine ⟨b, hb, hNul, ?_⟩
  simp only [Heap.chars, Option.bind_eq_bind, Option.bind_some, hb]
  rfl

theorem text_eq_chars (q : Ptr) : h.text q = (h.chars q).bind fromUtf8 := by
  cases q with
  | none => rfl
  | some s =>
    simp only [Heap.text, Heap.chars, Option.bind_eq_bind, Option.bind_some]
    cases h.bufs s <;> rfl

/-- The label that the readers see of a node. -/
def Heap.label (h : Heap) (a : Addr) : Option Label :=
  (h.nodes a).map fun n => ⟨tag n.type_, h.chars n.valuestring, n.valuedouble, h.chars n.string⟩

/-- The node at `x` shows the label `l` and is no reference, or there is neither. -/
def Wears (h : Heap) (x : Addr) (l : Option Label) : Prop :=
  match h.nodes x with
  | none => l = none
  | some n => n.isRef = false ∧ ∃ k, l = some k ∧ Labelled h n k

/-- The heap has nodes with these labels. -/
def Depicts (h : Heap) (L : Addr → Option Label) : Prop := ∀ x, Wears h x (L x)

theorem wears_none (hNone : h.nodes x = none) : Wears h x l ↔ l = none := by
  simp only [Wears, hNone]

theorem wears_some (hn : h.nodes x = some n) :
    Wears h x l ↔ n.isRef = false ∧ ∃ k, l = some k ∧ Labelled h n k := by
  simp only [Wears, hn]

theorem Wears.label (hWears : Wears h x l) : h.label x = l := by
  unfold Heap.label
  cases hn : h.nodes x with
  | none =>
    rw [wears_none hn] at hWears
    exact hWears.symm
  | some n =>
    rw [wears_some hn] at hWears
    obtain ⟨-, k, rfl, hk⟩ := hWears
    rw [Option.map_some, hk.tag, hk.valuestring.chars, hk.valuedouble, hk.string.chars]

namespace Depicts

theorem node (hDepicts : Depicts h L) (hn : h.nodes x = some n) :
    n.isRef = false ∧ ∃ k, L x = some k ∧ Labelled h n k := (wears_some hn).mp (hDepicts x)

theorem isSome (hDepicts : Depicts h L) : (L x).isSome = (h.nodes x).isSome := by
  cases hn : h.nodes x with
  | none => rw [(wears_none hn).mp (hDepicts x)]; rfl
  | some n =>
    obtain ⟨-, k, hk, -⟩ := hDepicts.node hn
    rw [hk]
    rfl

end Depicts

/-! ## Trees -/

theorem shows_of_tree (hDepicts : Depicts h D.label) :
    (∀ t a, D.Tree a t → Shows h D.children a t) ∧
    ∀ ts as, D.Trees as ts → ShowsAll h D.children as ts := by
  apply CTree.induct
  · intro l ts ih a ⟨hLabel, hTs⟩
    refine ⟨?_, ih (D.children a) hTs⟩
    have hLive := hDepicts.isSome (x := a)
    rw [hLabel] at hLive
    obtain ⟨n, hn⟩ := Option.isSome_iff_exists.mp hLive.symm
    obtain ⟨hRef, k, hk, hl⟩ := hDepicts.node hn
    cases hLabel.symm.trans hk
    exact ⟨n, hn, hRef, hl⟩
  · intro as hNil
    exact hNil
  · intro t ts ihT ihTs as ⟨a, as', hEq, ht, hTs⟩
    exact ⟨a, as', hEq, ihT a ht, ihTs as' hTs⟩

theorem tree_of_shows (hDepicts : Depicts h D.label) :
    (∀ t a, Shows h D.children a t → D.Tree a t) ∧
    ∀ ts as, ShowsAll h D.children as ts → D.Trees as ts := by
  apply CTree.induct
  · intro l ts ih a ⟨⟨n, hn, _, hl⟩, hTs⟩
    refine ⟨?_, ih (D.children a) hTs⟩
    obtain ⟨-, k, hk, hl'⟩ := hDepicts.node hn
    rw [hk, hl.unique hl']
  · intro as hNil
    exact hNil
  · intro t ts ihT ihTs as ⟨a, as', hEq, ht, hTs⟩
    exact ⟨a, as', hEq, ihT a ht, ihTs as' hTs⟩

/-- Every node is the root of a tree. -/
theorem Depicts.exists_tree (hDepicts : Depicts h D.label) (hTrees : Represents 0 h D.children)
    (ha : (h.nodes a).isSome) : ∃ t, D.Tree a t := by
  induction a using hTrees.forest.wf.induction with
  | _ a ih =>
    obtain ⟨n, hn⟩ := Option.isSome_iff_exists.mp ha
    obtain ⟨-, k, hk, -⟩ := hDepicts.node hn
    have hAll : ∀ as : List Addr, (∀ b ∈ as, b ∈ D.children a) → ∃ ts, D.Trees as ts := by
      intro as
      induction as with
      | nil => exact fun _ => ⟨[], rfl⟩
      | cons b as ihAs =>
        intro hSub
        have hb := hSub b List.mem_cons_self
        obtain ⟨m, hm⟩ := hTrees.child_live hb
        obtain ⟨t, ht⟩ := ih b hb (Option.isSome_iff_exists.mpr ⟨m, hm⟩)
        obtain ⟨ts, hTs⟩ := ihAs fun d hd => hSub d (List.mem_cons_of_mem b hd)
        exact ⟨t :: ts, b, as, rfl, ht, hTs⟩
    obtain ⟨ts, hTs⟩ := hAll _ fun _ hb => hb
    exact ⟨.node k ts, hk, hTs⟩

theorem denotes_of_tree (hDepicts : Depicts h D.label) (hTrees : Represents 0 h D.children)
    (ht : D.Tree a t) : Denotes h a t :=
  (denotes_of_shows hTrees).1 t a (Nat.zero_le a) ((shows_of_tree hDepicts).1 t a ht)

/-! ## Lookup -/

theorem Depicts.hasTag_eq (hDepicts : Depicts h D.label) (w : TypeWord) (a : Addr) :
    D.hasTag w a = hasTag h w a := by
  unfold Documents.hasTag hasTag
  cases hn : h.nodes a with
  | none => rw [(wears_none hn).mp (hDepicts a)]; rfl
  | some n =>
    obtain ⟨-, k, hk, hl⟩ := hDepicts.node hn
    rw [hk, Option.any_some, Option.any_some, hl.tag]

theorem Depicts.hasTag_node (hDepicts : Depicts h D.label) (hn : h.nodes a = some n)
    (w : TypeWord) : D.hasTag w a = (tag n.type_ == w) := by
  rw [hDepicts.hasTag_eq, hasTag, hn, Option.any_some]

theorem Depicts.key_eq (hDepicts : Depicts h D.label) (a : Addr) :
    (D.string a).bind fromUtf8 = h.key a := by
  unfold Documents.string Heap.key
  cases hn : h.nodes a with
  | none => rw [(wears_none hn).mp (hDepicts a)]; rfl
  | some n =>
    obtain ⟨-, k, hk, hl⟩ := hDepicts.node hn
    rw [hk, Option.bind_some, ← hl.string.chars, ← text_eq_chars]
    rfl

theorem Depicts.keyIn_eq (hDepicts : Depicts h D.label) (string : Ptr) (as : List Addr) :
    D.keyIn cs (h.text string) as = keyIn h cs string as := by
  unfold Documents.keyIn keyIn Heap.matchesKey
  simp only [hDepicts.key_eq]

/-! ## What does not change a label -/

/-- The node uses the text at `s`. -/
def CNode.Uses (n : CNode) (s : Addr) : Prop := n.valuestring = some s ∨ n.string = some s

theorem TextAt.of_bufs (hText : TextAt h q text)
    (hBufs : ∀ s, q = some s → h'.bufs s = h.bufs s) : TextAt h' q text := by
  cases q with
  | none => exact hText
  | some s =>
    obtain ⟨b, hb, hNul, hEq⟩ := hText
    exact ⟨b, (hBufs s rfl).trans hb, hNul, hEq⟩

theorem Labelled.of_bufs {k : Label} (hl : Labelled h n k)
    (hTag : Ffi.tag m.type_ = Ffi.tag n.type_) (hValue : m.valuestring = n.valuestring)
    (hDouble : m.valuedouble = n.valuedouble) (hString : m.string = n.string)
    (hBufs : ∀ s, n.Uses s → h'.bufs s = h.bufs s) :
    Labelled h' m k where
  tag := hTag.trans hl.tag
  valuestring := by
    rw [hValue]
    exact hl.valuestring.of_bufs fun s hs => hBufs s (Or.inl hs)
  valuedouble := hDouble.trans hl.valuedouble
  string := by
    rw [hString]
    exact hl.string.of_bufs fun s hs => hBufs s (Or.inr hs)

/-- A node keeps its label with its bare fields and the texts it uses. -/
theorem Wears.of_bare (hWears : Wears h x l) (hBare : h'.bare x = h.bare x)
    (hBufs : ∀ n s, h.nodes x = some n → n.Uses s → h'.bufs s = h.bufs s) : Wears h' x l := by
  cases hn : h.nodes x with
  | none =>
    have hNone : h'.nodes x = none := by
      unfold Heap.bare at hBare
      rw [hn] at hBare
      exact Option.map_eq_none_iff.mp hBare
    rw [wears_none hNone]
    exact (wears_none hn).mp hWears
  | some n =>
    obtain ⟨hRef, k, hk, hl⟩ := (wears_some hn).mp hWears
    unfold Heap.bare at hBare
    rw [hn] at hBare
    obtain ⟨m, hm, hEq⟩ := Option.map_eq_some_iff.mp hBare
    obtain ⟨hType, hValue, -, hDouble, hString⟩ := bare_eq_iff.mp hEq
    refine (wears_some hm).mpr ⟨?_, k, hk, ?_⟩
    · rw [CNode.isRef, hType]
      exact hRef
    · exact hl.of_bufs (by rw [hType]) hValue hDouble hString fun s hs => hBufs n s hn hs

theorem Depicts.of_bare (hDepicts : Depicts h L) (hBare : ∀ x, h'.bare x = h.bare x)
    (hBufs : h'.bufs = h.bufs) : Depicts h' L :=
  fun x => (hDepicts x).of_bare (hBare x) fun _ s _ _ => by rw [hBufs]

theorem bare_eq_body (x : Addr) :
    h.bare x = (h.body x).map fun n => { n with child := none } := by
  rw [Heap.bare, Heap.body, Option.map_map]
  rfl

theorem bare_of_body_setChild (hBody : h'.body x = setChild h.body p c x) :
    h'.bare x = h.bare x := by
  rw [bare_eq_body, bare_eq_body, hBody]
  by_cases hx : x = p
  · rw [hx, setChild, Function.update_self, Option.map_map]
    rfl
  · rw [setChild_of_ne hx]

/-- Links and first children are no part of a label. -/
theorem Depicts.edited (hDepicts : Depicts h L) (hEdited : Edited 0 h h' kids p ks touched) :
    Depicts h' L := by
  obtain ⟨c, hBody⟩ := hEdited.body
  have hBare : ∀ x, h'.bare x = h.bare x := fun x => bare_of_body_setChild (congrFun hBody x)
  exact hDepicts.of_bare hBare (by rw [hEdited.rest])

/-- What a node uses is its own or lent to it. -/
theorem uses_cases (hOwned : Owned 0 h) (hn : h.nodes x = some n) (hRef : n.isRef = false)
    (hs : n.Uses s) :
    s ∈ h.textsAt x ∨ ∃ b, h.bufs s = some b ∧ b.owned = false ∧ n.constKey = true ∧
      n.string = some s := by
  rw [textsAt_eq hn, mem_texts]
  rcases hs with hs | hs
  · exact Or.inl (Or.inl ⟨hRef, hs⟩)
  · cases hConst : n.constKey with
    | false => exact Or.inl (Or.inr ⟨rfl, hs⟩)
    | true =>
      obtain ⟨u, b, hu, hb, hNot⟩ := hOwned.lent (Nat.zero_le x) hn hConst
      cases hs.symm.trans hu
      exact Or.inr ⟨b, hb, hNot, rfl, hs⟩

/-- What another node frees is not used here. -/
theorem bufs_of_uses (hOwned : Owned 0 h) (hn : h.nodes x = some n) (hRef : n.isRef = false)
    (hs : n.Uses s) {blocks : List Block}
    (hBlocks : ∀ s, .buf s ∈ blocks → ∃ y, y ≠ x ∧ s ∈ h.textsAt y) :
    (h.freeAll blocks).bufs s = h.bufs s := by
  rw [Heap.bufs_freeAll, if_neg]
  intro hFreed
  obtain ⟨y, hyx, hy⟩ := hBlocks s hFreed.1
  rcases uses_cases hOwned hn hRef hs with hMem | ⟨b, hb, hNot, -⟩
  · exact hyx (hOwned.sole (Nat.zero_le y) (Nat.zero_le x) hy hMem)
  · rw [hb, Option.any_some, hNot] at hFreed
    exact Bool.false_ne_true hFreed.2

/-- A subtree is freed. -/
theorem Depicts.free {L' : Addr → Option Label} (hDepicts : Depicts h L) (hOwned : Owned 0 h)
    (hV : Subtree h kids a V) (hGone : ∀ x, Below kids a x → L' x = none)
    (hKept : ∀ x, ¬ Below kids a x → L' x = L x) : Depicts (h.freeAll (h.blocksOf V)) L' := by
  intro x
  have hNodes : (h.freeAll (h.blocksOf V)).nodes x = if x ∈ V then none else h.nodes x := by
    rw [Heap.nodes_freeAll]
    exact if_congr (Heap.node_mem_blocksOf hV.live) rfl rfl
  by_cases hx : x ∈ V
  · rw [if_pos hx] at hNodes
    rw [wears_none hNodes]
    exact hGone x ((hV.2.2 x).mp hx)
  · rw [if_neg hx] at hNodes
    have hWears := hDepicts x
    rw [hKept x fun hBelow => hx ((hV.2.2 x).mpr hBelow)]
    apply hWears.of_bare (bare_of_nodes hNodes)
    intro n s hn hs
    apply bufs_of_uses hOwned hn ((wears_some hn).mp hWears).1 hs
    intro u hu
    obtain ⟨y, hy, hMem⟩ := (buf_mem hV.live).mp hu
    exact ⟨y, fun hEq => hx (hEq ▸ hy), hMem⟩

/-! ## Nodes that change -/

/-- A text that is not freed can still be read. -/
theorem TextAt.kept {lost : Ptr} (hText : TextAt h q text)
    (hKept : ∀ {s b}, h.bufs s = some b → g.bufs s = some b)
    (hNot : ∀ s, q = some s → lost ≠ some s ∨ ∃ b, h.bufs s = some b ∧ b.owned = false) :
    TextAt (g.freeAll (lost.toList.map .buf)) q text := by
  cases q with
  | none => exact hText
  | some s =>
    obtain ⟨b, hb, hNul, hEq⟩ := hText
    refine ⟨b, ?_, hNul, hEq⟩
    rcases hNot s rfl with hNe | ⟨b', hb', hOwned⟩
    · rw [Heap.bufs_freeAll, if_neg, hKept hb]
      intro hFreed
      obtain ⟨s', hs', hEq⟩ := List.mem_map.mp hFreed.1
      cases hEq
      exact hNe (Option.mem_toList.mp hs')
    · cases hb.symm.trans hb'
      exact bufs_freeTexts (hKept hb) hOwned

/-- The node `a` gets another label; one of its texts may be freed. -/
theorem Depicts.swapped {lost : Ptr} {k : Label} (hDepicts : Depicts h L) (hOwned : Owned 0 h)
    (hn : h.nodes a = some n) (hNodes : g.nodes = h.nodes)
    (hKept : ∀ {s b}, h.bufs s = some b → g.bufs s = some b)
    (hLost : ∀ s, lost = some s → s ∈ n.texts) (hRef : m.isRef = false)
    (hl : Labelled (g.freeAll (lost.toList.map .buf)) m k) :
    Depicts ((g.freeAll (lost.toList.map .buf)).setNode a m) (Function.update L a (some k)) := by
  intro x
  by_cases hx : x = a
  · rw [hx, Function.update_self]
    exact (wears_some Heap.setNode_self).mpr
      ⟨hRef, k, rfl, hl.tag, hl.valuestring, hl.valuedouble, hl.string⟩
  · rw [Function.update_of_ne hx]
    have hSame : ((g.freeAll (lost.toList.map .buf)).setNode a m).nodes x = h.nodes x := by
      rw [Heap.setNode_ne hx, nodes_freeTexts, hNodes]
    cases hy : h.nodes x with
    | none =>
      rw [wears_none (hSame.trans hy)]
      exact (wears_none hy).mp (hDepicts x)
    | some y =>
      obtain ⟨hRefY, ky, hky, hly⟩ := hDepicts.node hy
      have hNot : ∀ s, y.Uses s → lost ≠ some s ∨ ∃ b, h.bufs s = some b ∧ b.owned = false := by
        intro s hs
        rcases uses_cases hOwned hy hRefY hs with hMem | ⟨b, hb, hFalse, -⟩
        · left
          intro hEq
          have hMemA := hLost s hEq
          rw [← textsAt_eq hn] at hMemA
          exact hx (hOwned.sole (Nat.zero_le x) (Nat.zero_le a) hMem hMemA)
        · exact Or.inr ⟨b, hb, hFalse⟩
      refine (wears_some (hSame.trans hy)).mpr ⟨hRefY, ky, hky, hly.tag, ?_, hly.valuedouble, ?_⟩
      · exact hly.valuestring.kept hKept fun s hs => hNot s (Or.inl hs)
      · exact hly.string.kept hKept fun s hs => hNot s (Or.inr hs)

/-- The own key of a node is not its other text. -/
theorem ownKey_ne (hOwned : Owned 0 h) (hn : h.nodes a = some n) (hRef : n.isRef = false)
    (hs : n.valuestring = some s) : n.ownKey ≠ some s := by
  intro hKey
  have hNodup := hOwned.nodup (Nat.zero_le a)
  rw [textsAt_eq hn, CNode.texts, List.nodup_append] at hNodup
  apply hNodup.2.2 s _ s _ rfl
  · rw [CNode.ownValue, hRef, hs]
    exact List.mem_singleton_self s
  · rw [hKey]
    exact List.mem_singleton_self s

/-- A node gets another key. -/
theorem Depicts.rekeyed {flag : TypeWord → TypeWord} (hDepicts : Depicts h D.label)
    (hOwned : Owned 0 h) (hm : h.nodes i = some m) (hNodes : g.nodes = h.nodes)
    (hKept : ∀ {s b}, h.bufs s = some b → g.bufs s = some b)
    (hTag : ∀ w, tag (flag w) = tag w) (hFlag : ∀ w, isReference (flag w) = isReference w)
    (hText : TextAt (g.freeAll (m.ownKey.toList.map .buf)) q text) :
    Depicts (g.rekeyed i m flag q) (D.rekey (i, text)).label := by
  obtain ⟨hRef, k, hk, hl⟩ := hDepicts.node hm
  have hLabel : (D.rekey (i, text)).label
      = Function.update D.label i (some { k with string := text }) := by
    rw [Documents.rekey, Documents.relabel, hk]
    rfl
  rw [hLabel]
  have hRef' : CNode.isRef { m with type_ := flag m.type_, string := q } = false :=
    (hFlag m.type_).trans hRef
  apply hDepicts.swapped hOwned hm hNodes hKept _ hRef'
  · refine ⟨(hTag m.type_).trans hl.tag, ?_, hl.valuedouble, hText⟩
    apply hl.valuestring.kept hKept
    intro s hs
    exact Or.inl (ownKey_ne hOwned hm hRef hs)
  · intro s hs
    rw [CNode.texts, hs]
    exact List.mem_append_right _ (List.mem_singleton_self s)

/-- A node gets another `valuestring`. -/
theorem Depicts.newValue {bytes : List UInt8} (hDepicts : Depicts h D.label) (hOwned : Owned 0 h)
    (hBounded : h.Bounded) (hn : h.nodes a = some n) (hNul : 0 ∈ bytes) :
    Depicts (((h.tick.pushBuf bytes).freeAll (n.valuestring.toList.map .buf)).setNode a
        { n with valuestring := some h.brk })
      (D.relabel a ({ · with valuestring := some (cstr bytes) })).label := by
  obtain ⟨hRef, k, hk, hl⟩ := hDepicts.node hn
  have hLabel : (D.relabel a ({ · with valuestring := some (cstr bytes) })).label
      = Function.update D.label a (some { k with valuestring := some (cstr bytes) }) := by
    rw [Documents.relabel, hk]
    rfl
  rw [hLabel]
  have hNew : ¬ n.valuestring = some h.brk := by
    intro hEq
    have hText := hl.valuestring
    rw [hEq] at hText
    obtain ⟨b, hb, -⟩ := hText
    exact Nat.lt_irrefl _ (hBounded.lt_buf hb)
  apply hDepicts.swapped (g := h.tick.pushBuf bytes) (m := { n with valuestring := some h.brk })
    hOwned hn rfl (fun hb => bufs_pushBuf hBounded bytes hb) _ hRef
  · refine ⟨hl.tag, ⟨⟨bytes, true⟩, ?_, hNul, rfl⟩, hl.valuedouble, ?_⟩
    · rw [Heap.bufs_freeAll, if_neg]
      · exact Function.update_self ..
      · intro hFreed
        obtain ⟨s, hs, hEq⟩ := List.mem_map.mp hFreed.1
        cases hEq
        exact hNew (Option.mem_toList.mp hs)
    · apply hl.string.kept (fun hb => bufs_pushBuf hBounded bytes hb)
      intro s hs
      rcases uses_cases hOwned hn hRef (Or.inr hs) with hMem | ⟨b, hb, hFalse, -⟩
      · left
        intro hValue
        have hConst : n.constKey = false := by
          rw [Bool.eq_false_iff]
          intro hConst
          obtain ⟨u, b, hu, hb, hFalse⟩ := hOwned.lent (Nat.zero_le a) hn hConst
          cases hs.symm.trans hu
          have hLib := (hOwned.live (Nat.zero_le a) hMem).2
          rw [Heap.Lib, hb, Option.any_some, hFalse] at hLib
          cases hLib
        apply ownKey_ne hOwned hn hRef hValue
        rw [CNode.ownKey, hConst, hs]
        rfl
      · exact Or.inr ⟨b, hb, hFalse⟩
  · intro s hs
    rw [mem_texts]
    exact Or.inl ⟨hRef, hs⟩

/-- A node gets other numbers. -/
theorem Depicts.setNumbers (hDepicts : Depicts h D.label) (hn : h.nodes a = some n) (y : Int)
    (d : F64) :
    Depicts (h.setNode a { n with valuedouble := d, valueint := y })
      (D.relabel a ({ · with valuedouble := d })).label := by
  obtain ⟨hRef, k, hk, hl⟩ := hDepicts.node hn
  have hLabel : (D.relabel a ({ · with valuedouble := d })).label
      = Function.update D.label a (some { k with valuedouble := d }) := by
    rw [Documents.relabel, hk]
    rfl
  rw [hLabel]
  intro x
  by_cases hx : x = a
  · rw [hx, Function.update_self]
    exact (wears_some Heap.setNode_self).mpr
      ⟨hRef, _, rfl, hl.tag, hl.valuestring, rfl, hl.string⟩
  · rw [Function.update_of_ne hx]
    apply (hDepicts x).of_bare (bare_of_nodes (Heap.setNode_ne hx))
    intro _ _ _ _
    rfl

/-! ## Replaced members -/

theorem wears_of_body {k : Label} (hBody : h.body x = some m) (hRef : m.isRef = false)
    (hl : Labelled h m k) : Wears h x (some k) := by
  obtain ⟨n, hn, rfl⟩ := node_of_body hBody
  exact (wears_some hn).mpr ⟨hRef, k, rfl, hl.tag, hl.valuestring, hl.valuedouble, hl.string⟩

/-- Before the old member is freed, its key has passed to the replacement, if that has none. -/
theorem Depicts.replaced (hDepicts : Depicts h D.label)
    (hReplaced : Replaced 0 h h' kids p a i ks) (hai : a ≠ i) :
    ∃ L', Depicts h' L' ∧
      ∀ x, x ≠ a → L' x = (D.rekey (i, (D.string i).or (D.string a))).label x := by
  obtain ⟨c, ma, mi, hma, hmi, hBody⟩ := hReplaced.body
  have hBufs : h'.bufs = h.bufs := by rw [hReplaced.rest]
  obtain ⟨na, hna, rfl⟩ := node_of_body hma
  obtain ⟨ni, hni, rfl⟩ := node_of_body hmi
  obtain ⟨hRefA, ka, hka, hla⟩ := hDepicts.node hna
  obtain ⟨hRefI, ki, hki, hli⟩ := hDepicts.node hni
  have hKeyA : D.string a = ka.string := by rw [Documents.string, hka, Option.bind_some]
  have hKeyI : D.string i = ki.string := by rw [Documents.string, hki, Option.bind_some]
  have hText : ∀ {q text}, TextAt h q text → TextAt h' q text := by
    intro q text hText
    apply hText.of_bufs
    intro s _
    rw [hBufs]
  rw [hKeyA, hKeyI]
  by_cases hMoved : Moved na.body ni.body
  · rw [moveKey, if_pos hMoved] at hBody
    have hNone : ki.string = none := by
      rw [← hli.string.chars, show ni.string = none from Option.isNone_iff_eq_none.mp hMoved.2]
      rfl
    refine ⟨Function.update (Function.update D.label i (some { ki with string := ka.string })) a
      (some { ka with string := none }), fun x => ?_, fun x hx => ?_⟩
    · by_cases hxa : x = a
      · subst hxa
        rw [Function.update_self]
        have hNew : h'.body x = some { na.body with string := none } := by
          rw [hBody, Function.update_self]
        exact wears_of_body hNew hRefA ⟨hla.tag, hText hla.valuestring, hla.valuedouble, rfl⟩
      rw [Function.update_of_ne hxa]
      by_cases hxi : x = i
      · subst hxi
        rw [Function.update_self]
        have hNew : h'.body x = some { ni.body with string := na.body.string } := by
          rw [hBody, Function.update_of_ne hxa, Function.update_self]
        exact wears_of_body hNew hRefI
          ⟨hli.tag, hText hli.valuestring, hli.valuedouble, hText hla.string⟩
      rw [Function.update_of_ne hxi]
      have hSame : h'.body x = setChild h.body p c x := by
        rw [hBody, Function.update_of_ne hxa, Function.update_of_ne hxi]
      apply (hDepicts x).of_bare (bare_of_body_setChild hSame)
      intro _ _ _ _
      rw [hBufs]
    · rw [Function.update_of_ne hx, Documents.rekey, Documents.relabel, hki, hNone]
      rfl
  · rw [moveKey, if_neg hMoved] at hBody
    have hBare : ∀ x, h'.bare x = h.bare x := fun x => bare_of_body_setChild (congrFun hBody x)
    refine ⟨D.label, hDepicts.of_bare hBare hBufs, fun x _ => ?_⟩
    have hSame : ki.string.or ka.string = ki.string := by
      rw [← hli.string.chars, ← hla.string.chars]
      cases hKey : ni.string with
      | none =>
        have hNone : na.string = none := by
          by_contra hSome
          exact hMoved ⟨Option.isSome_iff_ne_none.mpr hSome, Option.isNone_iff_eq_none.mpr hKey⟩
        rw [hNone]
        rfl
      | some s =>
        have hString := hli.string
        rw [hKey] at hString
        obtain ⟨b, -, -, hEq⟩ := hString
        rw [← hKey, hli.string.chars, hEq]
        rfl
    rw [hSame, Documents.rekey, Documents.relabel, hki]
    by_cases hxi : x = i
    · subst hxi
      rw [hki]
      exact (Function.update_self x (some ki) D.label).symm
    · exact (Function.update_of_ne hxi ..).symm

end CjsonRs.Ffi
