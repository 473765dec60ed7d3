import CjsonRs.Ffi.FromValue
import Mathlib.Logic.Relation

/-!
# Separate trees

`Reaches h a x` follows the pointers of the nodes, as the readers of a tree do. A tree that was
built since `h` is separate from everything in `h`: what is reached from its root are exactly the
new nodes, their texts are exactly the new buffers, and each of them has one owner.
-/

namespace CjsonRs.Ffi

open CjsonRs.Core Library Library.Link Library.Forest

variable {h h' : Heap} {a b p x y : Addr} {n : CNode} {q : Ptr} {kids : Addr → List Addr}
  {as ks : List Addr} {t : Rose Content} {v : Value}

/-! ## What is reached from a node -/

/-- A pointer to a child or a sibling. -/
def Points (h : Heap) (x y : Addr) : Prop :=
  ∃ n, h.nodes x = some n ∧ (n.child = some y ∨ n.next = some y)

/-- The node `a`, or what is found from its first child on. -/
def Reaches (h : Heap) (a x : Addr) : Prop :=
  x = a ∨ ∃ n c, h.nodes a = some n ∧ n.child = some c ∧ Relation.ReflTransGen (Points h) c x

/-- A pointer to the sibling behind a node. -/
def Next (h : Heap) (x y : Addr) : Prop := ∃ n, h.nodes x = some n ∧ n.next = some y

/-- The nodes of a list are found from the first one on. -/
theorem next_of_path (hPath : Path h.link q as) (hx : x ∈ as) :
    ∃ c, q = some c ∧ Relation.ReflTransGen (Next h) c x := by
  induction as generalizing q with
  | nil => cases hx
  | cons a as ih =>
    obtain ⟨hq, l, hLink, hPath⟩ := hPath
    refine ⟨a, hq, ?_⟩
    rcases List.mem_cons.mp hx with hEq | hx
    · rw [hEq]
    · obtain ⟨c, hNext, hc⟩ := ih hPath hx
      obtain ⟨n, hn, -, hSame⟩ := node_of_link hLink
      exact Relation.ReflTransGen.head ⟨n, hn, hSame.trans hNext⟩ hc

theorem points_of_path (hPath : Path h.link q as) (hx : x ∈ as) :
    ∃ c, q = some c ∧ Relation.ReflTransGen (Points h) c x := by
  obtain ⟨c, hq, hSteps⟩ := next_of_path hPath hx
  have hSub : ∀ y z, Next h y z → Points h y z := fun _ _ ⟨n, hn, hNext⟩ => ⟨n, hn, Or.inr hNext⟩
  exact ⟨c, hq, Relation.ReflTransGen.mono hSub _ _ hSteps⟩

/-- The sibling behind a node of a list. -/
theorem next_mem (hList : IsList h.link q ks) (hx : x ∈ ks) (hn : h.nodes x = some n)
    (hNext : n.next = some y) : y ∈ ks := by
  obtain ⟨xs, ys, hEq⟩ := List.append_of_mem hx
  rw [hEq] at hList
  obtain ⟨r, r', hAround⟩ := hList.around
  have hCell := hAround.cell
  rw [link_eq hn, Option.some.injEq, Link.mk.injEq] at hCell
  rcases hAround.next_mem with ⟨-, hNone⟩ | ⟨z, hz, hSome⟩
  · rw [← hCell.2, hNext] at hNone
    cases hNone
  · rw [← hCell.2, hNext, Option.some.injEq] at hSome
    rw [hEq, hSome]
    exact List.mem_append_right xs (List.mem_cons_of_mem x hz)

/-- In a tree without references the pointers lead to what is below the root. -/
theorem reaches_iff (hLists : ∀ p, Below kids a p → ∃ n, h.nodes p = some n ∧
    IsList h.link n.child (kids p)) : Reaches h a x ↔ Below kids a x := by
  have hFirst : ∀ {p n c}, Below kids a p → h.nodes p = some n → n.child = some c →
      c ∈ kids p := by
    intro p n c hp hn hc
    obtain ⟨m, hm, hList⟩ := hLists p hp
    rw [hn] at hm
    cases hm
    rw [hc] at hList
    obtain ⟨bs, hEq⟩ := hList.cons
    rw [hEq]
    exact List.mem_cons_self
  constructor
  · intro hReach
    rcases hReach with hEq | ⟨n, c, hn, hc, hSteps⟩
    · rw [hEq]
      exact below_refl a
    · have hInside : ∃ p, Below kids a p ∧ x ∈ kids p := by
        induction hSteps with
        | refl => exact ⟨a, below_refl a, hFirst (below_refl a) hn hc⟩
        | @tail y z _ hStep ih =>
          obtain ⟨p, hp, hy⟩ := ih
          obtain ⟨m, hm, hPointer⟩ := hStep
          have hBelow : Below kids a y := hp.trans (below_child hy)
          rcases hPointer with hChild | hNext
          · exact ⟨y, hBelow, hFirst hBelow hm hChild⟩
          · obtain ⟨k, -, hList⟩ := hLists p hp
            exact ⟨p, hp, next_mem hList hy hm hNext⟩
      obtain ⟨p, hp, hx⟩ := hInside
      exact hp.trans (below_child hx)
  · intro hBelow
    induction hBelow with
    | refl => exact Or.inl rfl
    | @tail p x hp hx ih =>
      obtain ⟨n, hn, hList⟩ := hLists p hp
      obtain ⟨c, hChild, hc⟩ := points_of_path hList.path hx
      rcases ih with hEq | ⟨m, d, hm, hd, hSteps⟩
      · rw [hEq] at hn
        exact Or.inr ⟨n, c, hn, hChild, hc⟩
      · refine Or.inr ⟨m, d, hm, hd, (hSteps.tail ?_).trans hc⟩
        exact ⟨n, hn, Or.inl hChild⟩

/-! ## New and owned -/

/-- The tree at `a` was built since `h`, out of everything that is new. The blocks are distinct and
each has one owner: a node is in the list of one other node or is the root, and a text is one
field of one node. -/
structure Separate (h h' : Heap) (kids : Addr → List Addr) (a : Addr) : Prop where
  ext : Extends h h'
  link : h'.link a = some ⟨none, none⟩
  root : IsRoot kids a
  forest : IsForest kids
  reached : ∀ x, Reaches h' a x ↔ Below kids a x
  node : ∀ x, Below kids a x ↔ h.brk ≤ x ∧ (h'.nodes x).isSome
  list : ∀ x n, Below kids a x → h'.nodes x = some n →
    n.isRef = false ∧ n.constKey = false ∧ IsList h'.link n.child (kids x)
  text : ∀ s, (∃ x n, Below kids a x ∧ h'.nodes x = some n ∧
    (n.valuestring = some s ∨ n.string = some s)) ↔ h.brk ≤ s ∧ (h'.bufs s).isSome
  sole : ∀ x y n m s, Below kids a x → Below kids a y → h'.nodes x = some n → h'.nodes y = some m →
    (n.valuestring = some s ∨ n.string = some s) → (m.valuestring = some s ∨ m.string = some s) →
    x = y
  apart : ∀ x n s, Below kids a x → h'.nodes x = some n → n.valuestring = some s →
    n.string ≠ some s
  distinct : ∀ x, Below kids a x → h'.bufs x = none

/-- The nodes below the root of a tree without flags. -/
theorem bears_node : (∀ t a, Bears h kids a t → ∀ x, Below kids a x →
      ∃ n, h.nodes x = some n ∧ n.isRef = false ∧ n.constKey = false) ∧
    ∀ ts as, BearsAll h kids as ts → ∀ a ∈ as, ∀ x, Below kids a x →
      ∃ n, h.nodes x = some n ∧ n.isRef = false ∧ n.constKey = false := by
  apply Rose.induct
  · intro c ts ih a ⟨⟨n, hn, hRef, hConst, _⟩, hTs⟩ x hx
    rcases below_iff.mp hx with hEq | ⟨b, hb, hBelow⟩
    · rw [hEq]
      exact ⟨n, hn, hRef, hConst⟩
    · exact ih (kids a) hTs b hb x hBelow
  · intro as hNil a ha
    rw [show as = [] from hNil] at ha
    cases ha
  · intro t ts ihT ihTs as ⟨b, as', hEq, ht, hTs⟩ a ha
    rw [hEq] at ha
    rcases List.mem_cons.mp ha with hHead | ha
    · rw [hHead]
      exact ihT b ht
    · exact ihTs as' hTs a ha

namespace Formed

theorem node_below (hFormed : Formed h h' kids a t) (hx : Below kids a x) :
    ∃ n, h'.nodes x = some n ∧ n.isRef = false ∧ n.constKey = false :=
  bears_node.1 t a hFormed.bears x hx

theorem plain_below (hFormed : Formed h h' kids a t) (hx : Below kids a x)
    (hn : h'.nodes x = some n) : n.isRef = false ∧ n.constKey = false := by
  obtain ⟨m, hm, hPlain⟩ := hFormed.node_below hx
  rw [hn] at hm
  cases hm
  exact hPlain

theorem above (hFormed : Formed h h' kids a t) (hx : Below kids a x) : h.brk ≤ x :=
  hFormed.grown.sound.wf.trees.below_above hFormed.root.1 hx

/-- The tree is all that is new. -/
theorem below_iff_new (hFormed : Formed h h' kids a t) :
    Below kids a x ↔ h.brk ≤ x ∧ (h'.nodes x).isSome := by
  constructor
  · intro hx
    obtain ⟨n, hn, -⟩ := hFormed.node_below hx
    exact ⟨hFormed.above hx, by rw [hn]; rfl⟩
  · intro hNew
    obtain ⟨r, hr, hx⟩ := hFormed.grown.below x hNew.1 hNew.2
    rw [List.mem_singleton.mp hr] at hx
    exact hx

/-- A node without flags owns the texts that it has. -/
theorem mem_textsAt (hFormed : Formed h h' kids a t) (hx : Below kids a x)
    (hn : h'.nodes x = some n) {s : Addr} :
    n.valuestring = some s ∨ n.string = some s ↔ s ∈ h'.textsAt x := by
  obtain ⟨hRef, hConst⟩ := hFormed.plain_below hx hn
  rw [textsAt_eq hn, mem_texts]
  simp only [hRef, hConst, true_and]

/-- The texts of the tree are all that is new. -/
theorem text_iff_new (hFormed : Formed h h' kids a t) (s : Addr) :
    (∃ x n, Below kids a x ∧ h'.nodes x = some n ∧
      (n.valuestring = some s ∨ n.string = some s)) ↔ h.brk ≤ s ∧ (h'.bufs s).isSome := by
  have hOwned := hFormed.grown.sound.owned
  constructor
  · rintro ⟨x, n, hx, hn, hs⟩
    obtain ⟨hN, hLib⟩ := hOwned.live (hFormed.above hx) ((hFormed.mem_textsAt hx hn).mp hs)
    obtain ⟨b, hb, -⟩ := lib_iff.mp hLib
    exact ⟨hN, by rw [hb]; rfl⟩
  · rintro ⟨hN, hLive⟩
    obtain ⟨b, hb⟩ := Option.isSome_iff_exists.mp hLive
    have hLib : h'.Lib s := lib_iff.mpr ⟨b, hb, hFormed.grown.mine s b hN hb⟩
    obtain ⟨x, hx, hs⟩ := hOwned.used hN hLib
    cases hn : h'.nodes x with
    | none =>
      rw [textsAt_none hn] at hs
      cases hs
    | some n =>
      have hBelow : Below kids a x := hFormed.below_iff_new.mpr ⟨hx, by rw [hn]; rfl⟩
      exact ⟨x, n, hBelow, hn, (hFormed.mem_textsAt hBelow hn).mpr hs⟩

/-- The value and the key of a node are two buffers. -/
theorem texts_apart (hFormed : Formed h h' kids a t) (hx : Below kids a x)
    (hn : h'.nodes x = some n) {s : Addr} (hValue : n.valuestring = some s) :
    n.string ≠ some s := by
  intro hString
  obtain ⟨hRef, hConst⟩ := hFormed.plain_below hx hn
  have hNodup := hFormed.grown.sound.owned.nodup (hFormed.above hx)
  rw [textsAt_eq hn, CNode.texts, CNode.ownValue, CNode.ownKey, hRef, hConst, hValue,
    hString] at hNodup
  simp at hNodup

theorem separate (hFormed : Formed h h' kids a t) : Separate h h' kids a where
  ext := hFormed.grown.ext
  link := hFormed.link
  root := hFormed.root.2.2
  forest := hFormed.grown.sound.wf.trees.forest
  reached x := by
    apply reaches_iff
    intro p hp
    obtain ⟨n, hn, hRef, -⟩ := hFormed.node_below hp
    exact ⟨n, hn, hFormed.grown.sound.wf.trees.lists (hFormed.above hp) hn hRef⟩
  node _ := hFormed.below_iff_new
  list x n hx hn := by
    obtain ⟨hRef, hConst⟩ := hFormed.plain_below hx hn
    exact ⟨hRef, hConst, hFormed.grown.sound.wf.trees.lists (hFormed.above hx) hn hRef⟩
  text := hFormed.text_iff_new
  sole x y n m s hx hy hn hm hs hs' :=
    hFormed.grown.sound.owned.sole (hFormed.above hx) (hFormed.above hy)
      ((hFormed.mem_textsAt hx hn).mp hs) ((hFormed.mem_textsAt hy hm).mp hs')
  apart _ _ _ hx hn hValue := hFormed.texts_apart hx hn hValue
  distinct x hx := hFormed.distinct x (hFormed.above hx) (hFormed.below_iff_new.mp hx).2

/-- Deleting a separate tree gives back its blocks and nothing else. -/
theorem delete (hBounded : h.Bounded) (hFormed : Formed h h' kids a t) :
    ∃ h'', freeCjson (some a) h' = .ok ((), h'') ∧ h''.nodes = h.nodes ∧ h''.bufs = h.bufs ∧
      h''.misuses = h.misuses := by
  obtain ⟨h'', hRun, kids', hGrown⟩ := hFormed.grown.free
  exact ⟨h'', hRun, hGrown.unchanged hBounded⟩

end Formed

/-! ## The tree of a value -/

/-- `value_to_cjson` builds the tree of its value on new blocks when no allocation fails. -/
theorem valueToCjson_builds (hBounded : h.Bounded) (v : Value)
    (hPlenty : h.Plenty (blocksIn (contentsOf v))) :
    ∃ a n h' kids, valueToCjson v h = .ok (some a, h') ∧ h'.nodes a = some n ∧ n.prev = none ∧
      n.next = none ∧ n.string = none ∧ Separate h h' kids a ∧ Bears h' kids a (contentsOf v) := by
  rcases forms_valueToCjson v h hBounded with
    ⟨-, q, h', hRun, -, a, kids, hq, hFormed⟩ | ⟨hNo, -⟩
  · subst hq
    obtain ⟨n, hn⟩ := Option.isSome_iff_exists.mp hFormed.root.2.1
    have hLink := hFormed.link
    rw [link_eq hn, Option.some.injEq, Link.mk.injEq] at hLink
    have hNoKey : n.string = none := by
      have hLabel := label_contentsOf v
      have hBears := hFormed.bears
      cases hc : contentsOf v with
      | node c ts =>
        rw [hc] at hLabel hBears
        obtain ⟨⟨m, hm, -, -, hContent⟩, -⟩ := hBears
        rw [hn] at hm
        cases hm
        have hNone : c.string = none := hLabel
        exact stored_none (hNone ▸ hContent.string)
    exact ⟨a, n, h', kids, hRun, hn, hLink.1, hLink.2, hNoKey, hFormed.separate, hFormed.bears⟩
  · exact absurd hPlenty hNo

/-- A heap on which nothing was allocated. -/
def untouched : Heap where
  nodes _ := none
  bufs _ := none
  brk := 0
  outcomes _ := true
  misuses := []
  lastError := none

/-- The value of `{"k":["x",null]}`. -/
def nested : Value := .object [(['k'], .array [.string ['x'], .null])]

theorem valueToCjson_builds_nested :
    ∃ a n h' kids, valueToCjson nested untouched = .ok (some a, h') ∧ h'.nodes a = some n ∧
      n.prev = none ∧ n.next = none ∧ n.string = none ∧ Separate untouched h' kids a ∧
      Bears h' kids a (contentsOf nested) :=
  valueToCjson_builds ⟨fun _ => rfl, fun _ => rfl⟩ nested fun _ _ => rfl

end CjsonRs.Ffi
