import CjsonRs.Ffi.Building
import CjsonRs.Ffi.Reading
import CjsonRs.Library.Rose

/-!
# The contents of trees

What the nodes of a tree hold, field by field. `Holds h a t` reads the contents along the `child`
and `next` pointers, through references too, up to the first NUL of every text. `Bears h kids a t`
is for trees that the library builds: no flags, and every text in a buffer of its own that ends
right behind it.
-/

namespace CjsonRs.Ffi

open CjsonRs.Core Library Library.Link Library.Forest

/-- What a node holds besides its links. -/
structure Content where
  type_ : TypeWord
  valuestring : Option (List UInt8)
  valueint : Int
  valuedouble : F64
  string : Option (List UInt8)
  deriving DecidableEq

/-- The blocks of a node that owns its texts. -/
def Content.blocks (c : Content) : Nat :=
  1 + c.valuestring.toList.length + c.string.toList.length

/-- The node `n` has the content `c`, its texts read by `T`. -/
structure HasContent (T : Ptr → Option (List UInt8) → Prop) (n : CNode) (c : Content) : Prop where
  type_ : n.type_ = c.type_
  valuestring : T n.valuestring c.valuestring
  valueint : n.valueint = c.valueint
  valuedouble : n.valuedouble = c.valuedouble
  string : T n.string c.string

mutual

/-- The contents found at `a` and below. -/
def Holds (h : Heap) (a : Addr) : Rose Content → Prop
  | .node c ts => ∃ n, h.nodes a = some n ∧ HasContent (TextAt h) n c ∧ HoldsList h n.child ts

/-- The contents found along a list of nodes. -/
def HoldsList (h : Heap) (q : Ptr) : List (Rose Content) → Prop
  | [] => q = none
  | t :: ts => ∃ a n, q = some a ∧ h.nodes a = some n ∧ Holds h a t ∧ HoldsList h n.next ts

end

/-- A buffer of the library with the text and a NUL. -/
def Stored (h : Heap) (q : Ptr) (text : Option (List UInt8)) : Prop :=
  match q with
  | none => text = none
  | some s => ∃ bytes, h.bufs s = some ⟨bytes ++ [0], true⟩ ∧ text = some bytes

mutual

/-- The contents of the tree at `a` with the lists of children `kids`. -/
def Bears (h : Heap) (kids : Addr → List Addr) (a : Addr) : Rose Content → Prop
  | .node c ts =>
    (∃ n, h.nodes a = some n ∧ n.isRef = false ∧ n.constKey = false ∧
      HasContent (Stored h) n c) ∧ BearsAll h kids (kids a) ts

/-- The contents of a list of siblings. -/
def BearsAll (h : Heap) (kids : Addr → List Addr) (as : List Addr) : List (Rose Content) → Prop
  | [] => as = []
  | t :: ts => ∃ a as', as = a :: as' ∧ Bears h kids a t ∧ BearsAll h kids as' ts

end

variable {N : Addr} {h h' : Heap} {a i x : Addr} {n m : CNode} {c d : Content} {q : Ptr}
  {kids kids' : Addr → List Addr} {as : List Addr} {t : Rose Content} {ts us : List (Rose Content)}
  {text : Option (List UInt8)}

theorem bearsAll_append : BearsAll h kids as (ts ++ us) ↔
    ∃ bs cs, as = bs ++ cs ∧ BearsAll h kids bs ts ∧ BearsAll h kids cs us := by
  induction ts generalizing as with
  | nil =>
    constructor
    · exact fun hUs => ⟨[], as, rfl, rfl, hUs⟩
    · rintro ⟨_, cs, rfl, rfl, hUs⟩
      exact hUs
  | cons t ts ih =>
    constructor
    · rintro ⟨a, as', rfl, ht, hRest⟩
      obtain ⟨bs, cs, rfl, hTs, hUs⟩ := ih.mp hRest
      exact ⟨a :: bs, cs, rfl, ⟨a, bs, rfl, ht, hTs⟩, hUs⟩
    · rintro ⟨_, cs, rfl, ⟨a, bs, rfl, ht, hTs⟩, hUs⟩
      exact ⟨a, bs ++ cs, rfl, ht, ih.mpr ⟨bs, cs, rfl, hTs, hUs⟩⟩

theorem bearsAll_singleton : BearsAll h kids as [t] ↔ ∃ a, as = [a] ∧ Bears h kids a t := by
  constructor
  · rintro ⟨a, as', rfl, ht, rfl⟩
    exact ⟨a, rfl, ht⟩
  · rintro ⟨a, rfl, ht⟩
    exact ⟨a, [], rfl, ht, rfl⟩

/-! ## What does not change the contents -/

/-- The node without its links. -/
def CNode.bare (n : CNode) : CNode := { n with prev := none, next := none, child := none }

/-- The nodes without their links. -/
def Heap.bare (h : Heap) (a : Addr) : Option CNode := (h.nodes a).map CNode.bare

theorem bare_eq_iff : m.bare = n.bare ↔ m.type_ = n.type_ ∧ m.valuestring = n.valuestring ∧
    m.valueint = n.valueint ∧ m.valuedouble = n.valuedouble ∧ m.string = n.string := by
  simp only [CNode.bare, CNode.mk.injEq, true_and]

theorem isSome_bare : (h.bare x).isSome = (h.nodes x).isSome := by
  unfold Heap.bare
  exact Option.isSome_map ..

theorem bare_of_nodes (hEq : h'.nodes x = h.nodes x) : h'.bare x = h.bare x := by
  rw [Heap.bare, hEq, Heap.bare]

theorem bare_of_body (hEq : h'.body x = h.body x) : h'.bare x = h.bare x := by
  have hMap : ∀ g : Heap, g.bare x = (g.body x).map fun n => { n with child := none } := by
    intro g
    rw [Heap.bare, Heap.body, Option.map_map]
    rfl
  rw [hMap, hMap, hEq]

/-- A rewriting of links and of one pointer to a first child leaves the rest of every node. -/
theorem bare_of_setChild {L : Addr → Option (Library.Link Addr)} (hn : h.nodes a = some n)
    (hW : Rewritten h h' L (setChild h.body a q)) : h'.bare x = h.bare x := by
  by_cases hx : x = a
  · obtain ⟨n', hn', hBody⟩ :
        ∃ n', h'.nodes a = some n' ∧ n'.body = { n.body with child := q } := by
      apply node_of_body
      rw [hW.body, setChild_self (body_eq hn)]
    have hEq := congrArg CNode.bare hBody
    have hBare : n'.bare = n.bare := hEq
    rw [hx, Heap.bare, Heap.bare, hn', hn, Option.map_some, Option.map_some, hBare]
  · apply bare_of_body
    rw [hW.body, setChild_of_ne hx]

/-- The buffers of `h` are still there in `h'`. -/
def BufsKept (h h' : Heap) : Prop := ∀ s b, h.bufs s = some b → h'.bufs s = some b

theorem Stored.frame (hText : Stored h q text) (hBufs : BufsKept h h') : Stored h' q text := by
  cases q with
  | none => exact hText
  | some s =>
    obtain ⟨bytes, hb, rfl⟩ := hText
    exact ⟨bytes, hBufs s _ hb, rfl⟩

theorem TextAt.frame (hText : TextAt h q text) (hBufs : BufsKept h h') : TextAt h' q text := by
  cases q with
  | none => exact hText
  | some s =>
    obtain ⟨b, hb, hNul, rfl⟩ := hText
    exact ⟨b, hBufs s b hb, hNul, rfl⟩

theorem HasContent.frame {T T' : Ptr → Option (List UInt8) → Prop} (hc : HasContent T n c)
    (hText : ∀ q text, T q text → T' q text) (hBare : m.bare = n.bare) : HasContent T' m c := by
  obtain ⟨hType, hValue, hInt, hDouble, hString⟩ := bare_eq_iff.mp hBare
  refine ⟨hType.trans hc.type_, ?_, hInt.trans hc.valueint, hDouble.trans hc.valuedouble, ?_⟩
  · rw [hValue]
    exact hText _ _ hc.valuestring
  · rw [hString]
    exact hText _ _ hc.string

/-- The node at `x` still has its flags and its content. -/
theorem node_frame (hBufs : BufsKept h h') (hBare : h'.bare x = h.bare x)
    (hNode : ∃ n, h.nodes x = some n ∧ n.isRef = false ∧ n.constKey = false ∧
      HasContent (Stored h) n c) :
    ∃ n, h'.nodes x = some n ∧ n.isRef = false ∧ n.constKey = false ∧
      HasContent (Stored h') n c := by
  obtain ⟨n, hn, hRef, hConst, hc⟩ := hNode
  unfold Heap.bare at hBare
  rw [hn] at hBare
  obtain ⟨m, hm, hEq⟩ := Option.map_eq_some_iff.mp hBare
  have hType := (bare_eq_iff.mp hEq).1
  refine ⟨m, hm, ?_, ?_, hc.frame (fun _ _ hText => hText.frame hBufs) hEq⟩
  · rw [CNode.isRef, hType]
    exact hRef
  · rw [CNode.constKey, hType]
    exact hConst

/-- The contents of a tree are those of the nodes below its root. -/
theorem bears_frame (hBufs : BufsKept h h') :
    (∀ t a, Bears h kids a t →
      (∀ x, Below kids a x → h'.bare x = h.bare x ∧ kids' x = kids x) → Bears h' kids' a t) ∧
    ∀ ts as, BearsAll h kids as ts →
      (∀ a ∈ as, ∀ x, Below kids a x → h'.bare x = h.bare x ∧ kids' x = kids x) →
      BearsAll h' kids' as ts := by
  apply Rose.induct
  · intro c ts ih a ⟨hNode, hTs⟩ hKept
    obtain ⟨hBare, hKids⟩ := hKept a (below_refl a)
    refine ⟨node_frame hBufs hBare hNode, ?_⟩
    rw [hKids]
    exact ih (kids a) hTs fun b hb x hx => hKept x ((below_child hb).trans hx)
  · intro as hNil _
    exact hNil
  · intro t ts ihT ihTs as ⟨a, as', hEq, ht, hTs⟩ hKept
    subst hEq
    refine ⟨a, as', rfl, ihT a ht (hKept a List.mem_cons_self), ihTs as' hTs fun b hb => ?_⟩
    exact hKept b (List.mem_cons_of_mem a hb)

/-! ## Reading along the pointers -/

/-- The content up to the first NUL of each text. -/
def Content.cut (c : Content) : Content :=
  { c with valuestring := c.valuestring.map cstr, string := c.string.map cstr }

theorem cstr_terminator (bytes : List UInt8) : cstr (bytes ++ [0]) = cstr bytes := by
  induction bytes with
  | nil => rfl
  | cons b bytes ih =>
    unfold cstr at ih ⊢
    rw [List.cons_append, List.takeWhile_cons, List.takeWhile_cons, ih]

theorem Stored.textAt (hText : Stored h q text) : TextAt h q (text.map cstr) := by
  cases q with
  | none =>
    obtain rfl := hText
    rfl
  | some s =>
    obtain ⟨bytes, hb, rfl⟩ := hText
    refine ⟨_, hb, by simp, ?_⟩
    rw [Option.map_some, cstr_terminator]

theorem HasContent.cut (hc : HasContent (Stored h) n c) : HasContent (TextAt h) n c.cut :=
  ⟨hc.type_, hc.valuestring.textAt, hc.valueint, hc.valuedouble, hc.string.textAt⟩

theorem holdsList_of_path (hPath : Path h.link q as) (hAll : BearsAll h kids as ts)
    (hEach : ∀ t ∈ ts, ∀ a ∈ as, Bears h kids a t → Holds h a (t.map Content.cut)) :
    HoldsList h q (Rose.mapAll Content.cut ts) := by
  induction ts generalizing as q with
  | nil =>
    obtain rfl := hAll
    exact hPath
  | cons t ts ih =>
    obtain ⟨a, as', rfl, ht, hTs⟩ := hAll
    obtain ⟨rfl, l, hLink, hPath⟩ := hPath
    obtain ⟨n, hn, -, hNext⟩ := node_of_link hLink
    refine ⟨a, n, rfl, hn, hEach t List.mem_cons_self a List.mem_cons_self ht, ?_⟩
    rw [hNext]
    refine ih hPath hTs fun u hu b hb => ?_
    exact hEach u (List.mem_cons_of_mem t hu) b (List.mem_cons_of_mem a hb)

/-- The readers find the contents that the tree bears, up to the first NUL of each text. -/
theorem holds_of_bears (hRep : Represents N h kids) :
    (∀ t a, N ≤ a → Bears h kids a t → Holds h a (t.map Content.cut)) ∧
    ∀ ts : List (Rose Content), ∀ t ∈ ts, ∀ a, N ≤ a → Bears h kids a t →
      Holds h a (t.map Content.cut) := by
  apply Rose.induct
  · intro c ts ih a hN ⟨⟨n, hn, hRef, _, hc⟩, hTs⟩
    refine ⟨n, hn, hc.cut, ?_⟩
    refine holdsList_of_path (hRep.lists hN hn hRef).path hTs fun t ht b hb => ?_
    exact ih t ht b (hRep.parent hb).1
  · intro t ht
    cases ht
  · intro t ts ihT ihTs u hu
    rcases List.mem_cons.mp hu with rfl | hu
    · exact ihT
    · exact ihTs u hu

theorem HasContent.unique (hc : HasContent (TextAt h) n c) (hd : HasContent (TextAt h) n d) :
    c = d := by
  cases c
  cases d
  congr
  · exact hc.type_.symm.trans hd.type_
  · exact hc.valuestring.unique hd.valuestring
  · exact hc.valueint.symm.trans hd.valueint
  · exact hc.valuedouble.symm.trans hd.valuedouble
  · exact hc.string.unique hd.string

theorem holds_unique : (∀ t a u, Holds h a t → Holds h a u → t = u) ∧
    ∀ ts q us, HoldsList h q ts → HoldsList h q us → ts = us := by
  apply Rose.induct
  · intro c ts ih a ⟨d, us⟩ ⟨n, hn, hc, hTs⟩ ⟨n', hn', hd, hUs⟩
    rw [hn] at hn'
    cases hn'
    rw [hc.unique hd, ih n.child us hTs hUs]
  · intro q us hNil hUs
    cases us with
    | nil => rfl
    | cons u us =>
      obtain ⟨a, n, hSome, -⟩ := hUs
      rw [show q = none from hNil] at hSome
      cases hSome
  · intro t ts ihT ihTs q us ⟨a, n, hq, hn, ht, hTs⟩ hUs
    cases us with
    | nil =>
      rw [show q = none from hUs] at hq
      cases hq
    | cons u us =>
      obtain ⟨a', n', hq', hn', hu, hUs⟩ := hUs
      rw [hq] at hq'
      cases hq'
      rw [hn] at hn'
      cases hn'
      rw [ihT a u ht hu, ihTs n.next us hTs hUs]

/-! ## What the readers use of the contents -/

/-- The part of a content that the conversions use. -/
def Content.seen (c : Content) : Label := ⟨tag c.type_, c.valuestring, c.valuedouble, c.string⟩

mutual

/-- The tree that the conversions read. -/
def seen : Rose Content → CTree
  | .node c ts => .node c.seen (seenAll ts)

def seenAll : List (Rose Content) → List CTree
  | [] => []
  | t :: ts => seen t :: seenAll ts

end

theorem HasContent.labelled (hc : HasContent (TextAt h) n c) : Labelled h n c.seen :=
  ⟨congrArg tag hc.type_, hc.valuestring, hc.valuedouble, hc.string⟩

theorem denotes_of_holds : (∀ t a, Holds h a t → Denotes h a (seen t)) ∧
    ∀ ts q, HoldsList h q ts → DenotesList h q (seenAll ts) := by
  apply Rose.induct
  · intro c ts ih a ⟨n, hn, hc, hTs⟩
    exact ⟨n, hn, hc.labelled, ih n.child hTs⟩
  · intro q hNil
    exact hNil
  · intro t ts ihT ihTs q ⟨a, n, hq, hn, ht, hTs⟩
    exact ⟨a, n, hq, hn, ihT a ht, ihTs n.next hTs⟩

end CjsonRs.Ffi
