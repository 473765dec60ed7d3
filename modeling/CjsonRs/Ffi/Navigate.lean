import CjsonRs.Ffi.Harness

/-!
# Reading a parsed document

A client reads a parsed document with the getters: it goes from the root to an item by index or
by key, again and again, and asks for the type, the number, the text or the size of the node it
comes to. It finds what the core parser's value has at the same path, with the texts as C
strings, cut at their first U+0000.
-/

namespace CjsonRs.Ffi

open CjsonRs.Core Library Library.Link Library.Forest

variable {g h h' : Heap} {a b s N : Addr} {n : CNode} {q : Ptr} {t : CTree} {ts : List CTree}
  {v w : Value} {k : Str} {as : List Addr} {std : StdF64} {kids : Addr → List Addr}

/-! ## Paths -/

/-- A getter that goes from a node to one of its children. -/
inductive Getter where
  | arrayItem (index : Int)
  | objectItem (caseSensitive : Bool) (string : Ptr)

def Getter.run : Getter → Ptr → M Ptr
  | arrayItem index, p => cjsonGetArrayItem p index
  | objectItem false string, p => cjsonGetObjectItem p string
  | objectItem true string, p => cjsonGetObjectItemCaseSensitive p string

/-- One getter after another. A `NULL` on the way stays `NULL`. -/
def getAll : List Getter → Ptr → M Ptr
  | [], p => pure p
  | x :: xs, p => do
    let p ← x.run p
    getAll xs p

/-- The elements of a value with their keys. -/
def elements (v : Value) : List (Option Str × Value) :=
  ((v.asArray.getD []).map fun w => (none, w)) ++
    (v.asObject.getD []).map fun m => (some m.1, m.2)

/-- The element of a value that a getter is asked for. -/
def Getter.pick (h : Heap) (v : Value) : Getter → Option Value
  | arrayItem index =>
    if index < 0 then none else ((elements v)[index.toNat]?).map Prod.snd
  | objectItem caseSensitive string => do
    let k ← h.text string
    let m ← (elements v).find? fun m => m.1.any (keysMatch caseSensitive · k)
    return m.2

def pickAll (h : Heap) : List Getter → Value → Option Value
  | [], v => some v
  | x :: xs, v => (x.pick h v).bind (pickAll h xs)

/-- What a getter relies on: a key that can be read, or an index that is a `c_int`. -/
def Getter.Fine (h : Heap) : Getter → Prop
  | arrayItem index => index ≤ intMax
  | objectItem _ string => ∀ s, string = some s → h.Readable s

/-- What a type test tells of a value. No value is raw or invalid. -/
def TypeTest.holds (v : Value) : TypeTest → Bool
  | invalid => Bool.false
  | .false => v.asBool == some Bool.false
  | .true => v.asBool == some Bool.true
  | bool => v.isBool
  | null => v.isNull
  | number => v.isNumber
  | string => v.isString
  | array => v.isArray
  | object => v.isObject
  | raw => Bool.false

/-- What the readers tell of a node that stands for a value. -/
structure ReadsAs (h : Heap) (b : Addr) (w : Value) : Prop where
  type : ∀ x : TypeTest, x.run (some b) h = .ok (x.holds w, h)
  number : cjsonGetNumberValue (some b) h = .ok (w.asNumber.getD f64Nan, h)
  string : ∃ q, cjsonGetStringValue (some b) h = .ok (q, h) ∧ h.text q = w.asStr
  size : cjsonGetArraySize (some b) h = .ok (min (elements w).length intMax, h)
  value : cjsonToValue (some b) h = .ok (some w, h)

/-! ## Nodes that stand for values -/

def CTree.branches : CTree → List CTree
  | .node _ ts => ts

/-- The tree of a value, with any key. -/
structure IsTreeOf (v : Value) (t : CTree) : Prop where
  label : { t.label with string := none } = { (CTree.ofValue v).label with string := none }
  branches : t.branches = (CTree.ofValue v).branches

theorem isTreeOf_ofValue (v : Value) : IsTreeOf v (.ofValue v) := ⟨rfl, rfl⟩

theorem isTreeOf_named (v : Value) (k : Str) : IsTreeOf v ((CTree.ofValue v).named k) := by
  constructor
  · cases CTree.ofValue v
    rfl
  · cases CTree.ofValue v
    rfl

/-- The key of a tree says nothing about its value. -/
theorem toValue_congr {u : CTree}
    (hLabel : { t.label with string := none } = { u.label with string := none })
    (hBranches : t.branches = u.branches) : t.toValue = u.toValue := by
  obtain ⟨⟨tag, text, number, key⟩, ts⟩ := t
  obtain ⟨⟨tag', text', number', key'⟩, us⟩ := u
  obtain rfl : tag = tag' := congrArg Label.tag hLabel
  obtain rfl : text = text' := congrArg Label.valuestring hLabel
  obtain rfl : number = number' := congrArg Label.valuedouble hLabel
  obtain rfl : ts = us := hBranches
  rfl

theorem IsTreeOf.toValue (ht : IsTreeOf v t) : t.toValue = some (cut v) := by
  rw [toValue_congr ht.label ht.branches, toValue_ofValue]

/-- A node with the label of a value under any key, and the trees of its elements below. -/
structure StandsFor (h : Heap) (kids : Addr → List Addr) (a : Addr) (v : Value) (n : CNode) :
    Prop where
  live : h.nodes a = some n
  own : n.isRef = false
  tag : tag n.type_ = (CTree.ofValue v).label.tag
  valuestring : TextAt h n.valuestring (CTree.ofValue v).label.valuestring
  valuedouble : n.valuedouble = (CTree.ofValue v).label.valuedouble
  branches : ShowsAll h kids (kids a) (CTree.ofValue v).branches

/-- The node stands for the value, whose texts are cut. -/
def Stands (h : Heap) (kids : Addr → List Addr) (a : Addr) (w : Value) : Prop :=
  ∃ v t, Shows h kids a t ∧ IsTreeOf v t ∧ w = cut v

theorem standsFor_of_shows (ht : Shows h kids a t) (hTree : IsTreeOf v t) :
    ∃ n, StandsFor h kids a v n := by
  obtain ⟨l, ts⟩ := t
  obtain ⟨⟨n, hn, hRef, hl⟩, hTs⟩ := ht
  obtain ⟨hTag, hValue, hDouble, -⟩ := Label.mk.inj hTree.label
  refine ⟨n, hn, hRef, ?_, ?_, ?_, ?_⟩
  · rw [← hTag]
    exact hl.tag
  · rw [← hValue]
    exact hl.valuestring
  · rw [← hDouble]
    exact hl.valuedouble
  · rw [← hTree.branches]
    exact hTs

theorem key_of_shows (ht : Shows h kids a t) : h.key a = t.label.string.bind fromUtf8 := by
  obtain ⟨l, ts⟩ := t
  obtain ⟨⟨n, hn, -, hl⟩, -⟩ := ht
  have hString := hl.string
  simp only [Heap.key, hn, Option.bind_eq_bind, Option.bind_some]
  show h.text n.string = l.string.bind fromUtf8
  cases hq : n.string with
  | none =>
    rw [hq] at hString
    rw [show l.string = none from hString]
    rfl
  | some s =>
    rw [hq] at hString
    obtain ⟨c, hc, -, hText⟩ := hString
    rw [hText]
    simp [Heap.text, hc]

theorem keysReadable_of_shows (hTs : ShowsAll h kids as ts) : KeysReadable h as := by
  induction ts generalizing as with
  | nil =>
    obtain rfl := hTs
    intro b hb
    cases hb
  | cons t ts ih =>
    obtain ⟨b, as', rfl, ht, hRest⟩ := hTs
    intro c hc n s hn hs
    rcases List.mem_cons.mp hc with rfl | hc
    · obtain ⟨l, us⟩ := t
      obtain ⟨⟨m, hm, -, hl⟩, -⟩ := ht
      cases hm.symm.trans hn
      have hString := hl.string
      rw [hs] at hString
      obtain ⟨x, hx, hNul, -⟩ := hString
      exact ⟨x, hx, hNul⟩
    · exact ih hRest c hc n s hn hs

/-- The children of a node stand for the elements of its value, under their keys. -/
theorem stands_items {items : List Value} (hTs : ShowsAll h kids as (CTree.ofItems items)) :
    List.Forall₂ (fun b m => Stands h kids b m.2 ∧ h.key b = m.1) as
      ((cutItems items).map fun w => (none, w)) := by
  induction items generalizing as with
  | nil =>
    obtain rfl := hTs
    exact .nil
  | cons v items ih =>
    obtain ⟨b, as', rfl, hv, hRest⟩ := hTs
    refine .cons ⟨⟨v, _, hv, isTreeOf_ofValue v, rfl⟩, ?_⟩ (ih hRest)
    rw [key_of_shows hv, label_ofValue]
    rfl

theorem stands_members {members : List (Str × Value)}
    (hTs : ShowsAll h kids as (CTree.ofMembers members)) :
    List.Forall₂ (fun b m => Stands h kids b m.2 ∧ h.key b = m.1) as
      ((cutMembers members).map fun m => (some m.1, m.2)) := by
  induction members generalizing as with
  | nil =>
    obtain rfl := hTs
    exact .nil
  | cons m members ih =>
    obtain ⟨k, v⟩ := m
    obtain ⟨b, as', rfl, hv, hRest⟩ := hTs
    refine .cons ⟨⟨v, _, hv, isTreeOf_named v k, rfl⟩, ?_⟩ (ih hRest)
    rw [key_of_shows hv, label_named]
    exact labelText_copied k

theorem Stands.children (ht : Stands h kids a w) :
    List.Forall₂ (fun b m => Stands h kids b m.2 ∧ h.key b = m.1) (kids a) (elements w) := by
  obtain ⟨v, t, ht, hTree, rfl⟩ := ht
  obtain ⟨n, hFor⟩ := standsFor_of_shows ht hTree
  have hTs := hFor.branches
  cases v with
  | array items =>
    have hItems := stands_items hTs
    rw [elements]
    simpa [cut, Value.asArray, Value.asObject] using hItems
  | object members =>
    have hMembers := stands_members hTs
    simpa [elements, cut, Value.asArray, Value.asObject] using hMembers
  | _ =>
    have hNil : kids a = [] := hTs
    rw [hNil]
    exact .nil

/-! ## What the readers tell -/

/-- A heap in which all nodes and buffers of `h` are as they were. -/
structure Grows (h g : Heap) : Prop where
  bounded : g.Bounded
  nodes : ∀ x n, h.nodes x = some n → g.nodes x = some n
  bufs : BufsKept h g

theorem Grows.shows (hGrows : Grows h g) :
    (∀ t a, Shows h kids a t → Shows g kids a t) ∧
    ∀ ts as, ShowsAll h kids as ts → ShowsAll g kids as ts := by
  refine CTree.induct ?_ ?_ ?_
  · rintro l ts ih a ⟨⟨n, hn, hRef, hl⟩, hTs⟩
    refine ⟨⟨n, hGrows.nodes a n hn, hRef, hl.tag, ?_, hl.valuedouble, ?_⟩, ih (kids a) hTs⟩
    · exact hl.valuestring.frame hGrows.bufs
    · exact hl.string.frame hGrows.bufs
  · intro as hNil
    exact hNil
  · rintro t ts ihT ihTs as ⟨a, as', rfl, ht, hTs⟩
    exact ⟨a, as', rfl, ihT a ht, ihTs as' hTs⟩

/-- The lists of children that a heap had are still there. -/
theorem Grows.list (hGrows : Grows h g) (hRep : Represents N h kids) (hN : N ≤ a)
    (hLive : (h.nodes a).isSome) (hn : g.nodes a = some n) (hRef : n.isRef = false) :
    IsList g.link n.child (kids a) := by
  obtain ⟨m, hm⟩ := Option.isSome_iff_exists.mp hLive
  cases (hGrows.nodes a m hm).symm.trans hn
  refine (hRep.lists hN hm hRef).congr fun x hx => ?_
  obtain ⟨l, hl⟩ := hRep.child_live hx
  rw [Heap.link, Heap.link, hl, hGrows.nodes x l hl]

theorem textOf_valuestring (hText : TextAt h q (copied k)) : h.text q = some (cutStr k) := by
  cases q with
  | none => cases hText
  | some s =>
    obtain ⟨b, hb, -, hCopied⟩ := hText
    have hCut : fromUtf8 (cstr b.bytes) = some (cutStr k) := by
      rw [← labelText_copied k, hCopied]
      rfl
    simpa [Heap.text, hb] using hCut

theorem typeTest_value (x : TypeTest) (v : Value) :
    x.Passes (CTree.ofValue v).label.tag = x.holds (cut v) := by
  cases v with
  | bool b => cases b <;> cases x <;> rfl
  | _ => cases x <;> rfl

/-- The readers tell the value for which a node stands. -/
theorem StandsFor.readsAs (hBounded : g.Bounded) (ht : StandsFor g kids b v n)
    (hList : IsList g.link n.child (kids b)) (hNodup : (kids b).Nodup)
    (hValue : cjsonToValue (some b) g = .ok (some (cut v), g))
    (hSize : (kids b).length = (elements (cut v)).length) : ReadsAs g b (cut v) where
  type x := by
    rw [TypeTest.run_node x ht.live, ht.tag, typeTest_value]
  number := by
    rw [cjsonGetNumberValue_run ht.live, ht.tag, ht.valuedouble]
    cases v with
    | bool b => cases b <;> rfl
    | _ => rfl
  string := by
    refine ⟨_, cjsonGetStringValue_run ht.live, ?_⟩
    have hText := ht.valuestring
    rw [ht.tag]
    cases v with
    | bool b => cases b <;> rfl
    | string s => exact textOf_valuestring hText
    | _ => rfl
  size := by
    rw [cjsonGetArraySize_run hBounded ht.live hList hNodup, hSize]
  value := hValue

/-! ## Steps -/

/-- The same choice in two lists that correspond. -/
theorem forall₂_getElem? {α β : Type} {R : α → β → Prop} {xs : List α} {ys : List β}
    (h : List.Forall₂ R xs ys) (j : Nat) :
    (xs[j]? = none ∧ ys[j]? = none) ∨ ∃ x y, xs[j]? = some x ∧ ys[j]? = some y ∧ R x y := by
  induction h generalizing j with
  | nil => exact Or.inl ⟨rfl, rfl⟩
  | @cons x y xs ys hxy _ ih =>
    cases j with
    | zero => exact Or.inr ⟨x, y, rfl, rfl, hxy⟩
    | succ j => exact ih j

theorem forall₂_find? {α β : Type} {R : α → β → Prop} {f : α → Bool} {f' : β → Bool}
    {xs : List α} {ys : List β} (h : List.Forall₂ R xs ys) (hf : ∀ x y, R x y → f x = f' y) :
    (xs.find? f = none ∧ ys.find? f' = none) ∨
      ∃ x y, xs.find? f = some x ∧ ys.find? f' = some y ∧ R x y := by
  induction h with
  | nil => exact Or.inl ⟨rfl, rfl⟩
  | @cons x y xs ys hxy _ ih =>
    rw [List.find?_cons, List.find?_cons, hf x y hxy]
    cases f' y with
    | true => exact Or.inr ⟨x, y, rfl, rfl, hxy⟩
    | false => exact ih

theorem getAll_none (xs : List Getter) (h : Heap) : getAll xs none h = .ok (none, h) := by
  induction xs with
  | nil => rfl
  | cons x xs ih =>
    have hRun : x.run none h = .ok (none, h) := by
      cases x with
      | arrayItem index => rfl
      | objectItem cs string => cases cs <;> rfl
    rw [getAll, Run.bind_run_ok hRun, ih]

section Steps

variable {x : Getter} {xs : List Getter}

/-- A node of a document from `N` on, with its value. -/
structure Found (N : Addr) (h : Heap) (kids : Addr → List Addr) (a : Addr) (w : Value) : Prop where
  above : N ≤ a
  stands : Stands h kids a w

/-- The children of a node are found under the keys of the elements, also when the heap has
grown. -/
theorem Found.children (hGrows : Grows h g) (hRep : Represents N h kids)
    (hAt : Found N h kids a w) :
    List.Forall₂ (fun b m => Found N h kids b m.2 ∧ g.key b = m.1) (kids a) (elements w) := by
  have hAbove : ∀ b ∈ kids a, N ≤ b := fun b hb => (hRep.parent hb).1
  refine ((List.forall₂_and_left _ _).mpr ⟨hAbove, hAt.stands.children⟩).imp fun b m hb => ?_
  obtain ⟨hN, hStands, hKey⟩ := hb
  refine ⟨⟨hN, hStands⟩, ?_⟩
  obtain ⟨v, t, ht, -, -⟩ := hStands
  rw [← hKey, key_of_shows ht, key_of_shows (hGrows.shows.1 t b ht)]

theorem Found.node (hGrows : Grows h g) (hRep : Represents N h kids) (hAt : Found N h kids a w) :
    ∃ v n, StandsFor g kids a v n ∧ w = cut v ∧ IsList g.link n.child (kids a) ∧
      cjsonToValue (some a) g = .ok (some w, g) := by
  obtain ⟨hN, v, t, ht, hTree, rfl⟩ := hAt
  obtain ⟨n, hFor⟩ := standsFor_of_shows (hGrows.shows.1 t a ht) hTree
  obtain ⟨m, hm⟩ := standsFor_of_shows ht hTree
  have hLive : (h.nodes a).isSome := by
    rw [hm.live]
    rfl
  have hDenotes : Denotes g a t := (denotes_mono hGrows.nodes hGrows.bufs).1 t a
    ((denotes_of_shows hRep).1 t a hN ht)
  refine ⟨v, n, hFor, rfl, hGrows.list hRep hN hLive hFor.live hFor.own, ?_⟩
  rw [cjsonToValue_run hGrows.bounded hDenotes, hTree.toValue]

theorem Found.readsAs (hGrows : Grows h g) (hRep : Represents N h kids)
    (hAt : Found N h kids a w) : ReadsAs g a w := by
  obtain ⟨v, n, hFor, rfl, hList, hValue⟩ := hAt.node hGrows hRep
  exact hFor.readsAs hGrows.bounded hList (hRep.forest.nodup a) hValue
    (hAt.children hGrows hRep).length_eq

/-- A getter finds a child that stands for the element it is asked for, or there is none. -/
theorem Found.step (hGrows : Grows h g) (hRep : Represents N h kids) (hAt : Found N h kids a w)
    (hx : x.Fine g) :
    (x.run (some a) g = .ok (none, g) ∧ x.pick g w = none) ∨
      ∃ b u, x.run (some a) g = .ok (some b, g) ∧ x.pick g w = some u ∧ Found N h kids b u := by
  have hChildren := hAt.children hGrows hRep
  obtain ⟨v, n, hFor, -, hList, -⟩ := hAt.node hGrows hRep
  have hNodup := hRep.forest.nodup a
  cases x with
  | arrayItem index =>
    have hRun : (Getter.arrayItem index).run (some a) g = _ :=
      cjsonGetArrayItem_run hGrows.bounded hFor.live hList hNodup hx
    rw [hRun, Getter.pick]
    by_cases hNeg : index < 0
    · rw [if_pos hNeg, indexIn, if_neg (by omega)]
      exact Or.inl ⟨rfl, rfl⟩
    · rw [if_neg hNeg, indexIn_bind (by omega)]
      rcases forall₂_getElem? hChildren index.toNat with ⟨hb, hm⟩ | ⟨b, m, hb, hm, hFound, -⟩
      · rw [hb, hm]
        exact Or.inl ⟨rfl, rfl⟩
      · rw [hb, hm]
        exact Or.inr ⟨b, m.2, rfl, rfl, hFound⟩
  | objectItem cs string =>
    have hKeys : KeysReadable g (kids a) := keysReadable_of_shows hFor.branches
    have hRun : (Getter.objectItem cs string).run (some a) g
        = .ok ((keyIn g cs string (kids a)).bind ((kids a)[·]?), g) := by
      cases cs <;>
        exact getObjectItemImpl_run hGrows.bounded hFor.live hList hNodup hKeys hx
    rw [hRun, keyIn, Getter.pick]
    cases g.text string with
    | none => exact Or.inl ⟨rfl, rfl⟩
    | some k =>
      simp only [Option.bind_eq_bind, Option.bind_some]
      rw [← List.find?_eq_bind_findIdx?_getElem?]
      have hMatch : ∀ (b : Addr) (m : Option Str × Value), Found N h kids b m.2 ∧ g.key b = m.1 →
          g.matchesKey cs k b = m.1.any (keysMatch cs · k) := by
        intro b m hb
        rw [Heap.matchesKey, hb.2]
      rcases forall₂_find? hChildren hMatch with ⟨hb, hm⟩ | ⟨b, m, hb, hm, hFound, -⟩
      · rw [hb, hm]
        exact Or.inl ⟨rfl, rfl⟩
      · rw [hb, hm]
        exact Or.inr ⟨b, m.2, rfl, rfl, hFound⟩

/-- A path of getters finds a node that stands for the value at the path, or there is none. -/
theorem Found.path (hGrows : Grows h g) (hRep : Represents N h kids) (hAt : Found N h kids a w)
    (hFine : ∀ x ∈ xs, x.Fine g) :
    (getAll xs (some a) g = .ok (none, g) ∧ pickAll g xs w = none) ∨
      ∃ b u, getAll xs (some a) g = .ok (some b, g) ∧ pickAll g xs w = some u ∧
        Found N h kids b u := by
  induction xs generalizing a w with
  | nil => exact Or.inr ⟨a, w, rfl, rfl, hAt⟩
  | cons x xs ih =>
    have hRest : ∀ x ∈ xs, x.Fine g := fun y hy => hFine y (List.mem_cons_of_mem x hy)
    rw [getAll, pickAll]
    rcases hAt.step hGrows hRep (hFine x List.mem_cons_self) with
      ⟨hRun, hNone⟩ | ⟨b, u, hRun, hSome, hFound⟩
    · rw [Run.bind_run_ok hRun, hNone]
      exact Or.inl ⟨getAll_none xs g, rfl⟩
    · rw [Run.bind_run_ok hRun, hSome]
      exact ih hFound hRest

end Steps

/-! ## Parsed documents -/

/-- After `cJSON_Parse`, while all nodes and buffers stay as they are then, every path of getters
leads to what the value of the text has there, and to `NULL` where it has nothing. -/
theorem getters_agree {input : List UInt8} {xs : List Getter} (hBounded : h.Bounded)
    (hText : TextAt h (some s) (some input)) (hParse : parse std (stripUtf8Bom input).1 = .ok v)
    (hRun : cjsonParse std (some s) h = .ok (some a, h')) (hGrows : Grows h' g)
    (hFine : ∀ x ∈ xs, x.Fine g) :
    ∃ q, getAll xs (some a) g = .ok (q, g) ∧
      (pickAll g xs (cut v) = none → q = none) ∧
      ∀ w, pickAll g xs (cut v) = some w → ∃ b, q = some b ∧ ReadsAs g b w := by
  obtain ⟨p, ⟨v', h₁, kids, a', hParse', hRun', hPlanted⟩ | ⟨h₁, hRun', -⟩⟩ :=
    cjsonParse_plants std hBounded hText
  · cases hParse.symm.trans hParse'
    cases hRun.symm.trans hRun'
    have hRep := hPlanted.grown.sound.wf.trees
    have hAt : Found _ h' kids a (cut v) :=
      ⟨hPlanted.root.1, v, _, hPlanted.shows, isTreeOf_ofValue v, rfl⟩
    rcases hAt.path hGrows hRep hFine with ⟨hNone, hPick⟩ | ⟨b, u, hSome, hPick, hFound⟩
    · refine ⟨none, hNone, fun _ => rfl, fun w hw => ?_⟩
      cases hPick.symm.trans hw
    · refine ⟨some b, hSome, fun hw => ?_, fun w hw => ⟨b, rfl, ?_⟩⟩
      · cases hPick.symm.trans hw
      · cases hPick.symm.trans hw
        exact hFound.readsAs hGrows hRep
  · cases hRun.symm.trans hRun'

/-- The item of `["a\u0000b"]`, a string that reads as `a`. -/
theorem getters_agree_nulDocument :
    ∃ a h' q,
      cjsonParse Rfc.sampleF64 (some 0) (oneString (nulDocument ++ [0])) = .ok (some a, h') ∧
      getAll [.arrayItem 0] (some a) h' = .ok (q, h') ∧
      (pickAll h' [.arrayItem 0] (cut (.array [.string ['a', '\x00', 'b']])) = none → q = none) ∧
      ∀ w, pickAll h' [.arrayItem 0] (cut (.array [.string ['a', '\x00', 'b']])) = some w →
        ∃ b, q = some b ∧ ReadsAs h' b w := by
  have hText : TextAt (oneString (nulDocument ++ [0])) (some 0) (some nulDocument) :=
    textAt_oneString (by decide)
  have hStrip : stripUtf8Bom nulDocument = (nulDocument, 0) := rfl
  have hParse : parse Rfc.sampleF64 (stripUtf8Bom nulDocument).1
      = .ok (.array [.string ['a', '\x00', 'b']]) := by
    rw [hStrip]
    exact parse_nulDocument
  obtain ⟨a, h', -, -, hRun, -⟩ := parse_print_run (bounded_oneString _) hText (by decide)
    parse_nulDocument fun _ => rfl
  obtain ⟨p, ⟨v, h₁, kids, a', -, hRun', hPlanted⟩ | ⟨h₁, hRun', -⟩⟩ :=
    cjsonParse_plants Rfc.sampleF64 (bounded_oneString _) hText
  · cases hRun.symm.trans hRun'
    have hGrows : Grows h' h' := ⟨hPlanted.grown.bounded, fun _ _ hn => hn, fun _ _ hb => hb⟩
    have hFine : ∀ x ∈ [Getter.arrayItem 0], x.Fine h' := by
      intro x hx
      cases List.mem_singleton.mp hx
      show (0 : Int) ≤ intMax
      decide
    obtain ⟨q, hQ⟩ := getters_agree (bounded_oneString _) hText hParse hRun hGrows hFine
    exact ⟨a, h', q, hRun, hQ⟩
  · cases hRun.symm.trans hRun'

end CjsonRs.Ffi
