import CjsonRs.Ffi.Budget
import CjsonRs.Ffi.Copies
import CjsonRs.Ffi.Sessions
import CjsonRs.Ffi.Symmetry
import CjsonRs.Ffi.TypedArrays

/-!
# Documents

What the interface is for, without links, flags and buffers: a node has a label, which is what the
readers see of it, and a list of children. Every request is a change of labels and lists. The heap
`h` of a request is asked for the texts of its arguments, and whether allocations succeed.
-/

namespace CjsonRs.Ffi

open CjsonRs.Core Library Library.Link Library.Forest

/-- The documents of a client. -/
structure Documents where
  label : Addr → Option Label
  children : Addr → List Addr

/-- The bytes of a text, in front of its first NUL. -/
def Heap.chars (h : Heap) (q : Ptr) : Option (List UInt8) := do
  let s ← q
  let b ← h.bufs s
  return cstr b.bytes

/-- A change of the lists of children, the node that gets a key, and what is returned. -/
structure Change where
  list : ListOp
  key : Option (Addr × Option (List UInt8))
  reply : Reply

namespace Documents

/-- No documents. -/
def empty : Documents := ⟨fun _ => none, fun _ => []⟩

mutual

/-- The tree at a node. -/
def Tree (D : Documents) (a : Addr) : CTree → Prop
  | .node l ts => D.label a = some l ∧ Trees D (D.children a) ts

/-- The trees of a list of siblings. -/
def Trees (D : Documents) (as : List Addr) : List CTree → Prop
  | [] => as = []
  | t :: ts => ∃ a as', as = a :: as' ∧ Tree D a t ∧ Trees D as' ts

end

variable (D : Documents)

/-- The key of a node. -/
def string (a : Addr) : Option (List UInt8) := (D.label a).bind Label.string

/-- `(type_ & 0xFF) == t` -/
def hasTag (t : TypeWord) (a : Addr) : Bool := (D.label a).any (·.tag == t)

/-- The index of the first node with a matching key. -/
def keyIn (caseSensitive : Bool) (key : Option Str) (as : List Addr) : Option Nat := do
  let k ← key
  as.findIdx? fun a => ((D.string a).bind fromUtf8).any (keysMatch caseSensitive · k)

/-! ## Changes -/

/-- Another label for the node `a`. -/
def relabel (a : Addr) (f : Label → Label) : Documents :=
  { D with label := Function.update D.label a ((D.label a).map f) }

/-- Another key for a node. -/
def rekey (k : Addr × Option (List UInt8)) : Documents := D.relabel k.1 ({ · with string := k.2 })

open Classical in
/-- Nothing is left of what was below `a`. -/
noncomputable def drop (a : Addr) : Documents where
  label x := if Below D.children a x then none else D.label x
  children := prune D.children a

theorem drop_gone {a x : Addr} (hx : Below D.children a x) : (D.drop a).label x = none := if_pos hx

theorem drop_kept {a x : Addr} (hx : ¬ Below D.children a x) :
    (D.drop a).label x = D.label x := if_neg hx

/-- An operation on the lists of children. -/
noncomputable def relist (op : ListOp) : Documents :=
  let D' : Documents := { D with children := Function.update D.children op.parent op.children }
  op.freed.elim D' D'.drop

noncomputable def change (c : Change) : Documents := (c.key.elim D D.rekey).relist c.list

/-- The documents after a change, if there is one, and what is returned. -/
noncomputable def perform (c : Option Change) (refusal : Reply) : Documents × Reply :=
  c.elim (D, refusal) fun c => (D.change c, c.reply)

/-- The node `i` becomes the last child of `p`. -/
def append (p i : Addr) (key : Option (Option (List UInt8))) : Change :=
  ⟨appendTo D.children p i, key.map (i, ·), .flag true⟩

/-- The child at a position is taken out. -/
def detach (p : Addr) (w : Nat) : Change :=
  ⟨eraseAt D.children p w, none, .item (D.children p)[w]?⟩

/-- The child at a position is deleted. -/
def delete (p : Addr) (w : Nat) : Change := ⟨deleteAt D.children p w, none, .done⟩

/-- The node `i` takes the place of a child, and its key if it has none of its own. -/
def replace (p i : Addr) (w : Nat) : Change :=
  ⟨overwriteAt D.children p i w,
    some (i, (D.string i).or ((D.children p)[w]?.bind D.string)), .flag true⟩

end Documents

/-! ## Edits -/

namespace Edit

/-- What a call returns that changes nothing. -/
def refusal : Edit → Reply
  | detachItemViaPointer .. | detachItemFromArray .. | detachItemFromObject .. => .item none
  | deleteItemFromArray .. | deleteItemFromObject .. => .done
  | _ => .flag false

/-- What a call does to the documents, `none` when it changes nothing. -/
def plan (D : Documents) (h : Heap) : Edit → Option Change
  | addItemToArray (some p) (some i) =>
    if D.hasTag cjsonArray p then some (D.append p i none) else none
  | addItemToObject (some p) (some s) (some i) =>
    if D.hasTag cjsonObject p ∧ (h.text (some s)).isSome ∧ h.outcomes 0 then
      some (D.append p i (some (h.chars (some s))))
    else none
  | addItemToObjectCS (some p) (some s) (some i) =>
    if D.hasTag cjsonObject p then some (D.append p i (some (h.chars (some s)))) else none
  | insertItemInArray (some p) which (some i) =>
    if 0 ≤ which ∧ D.hasTag cjsonArray p then
      some ⟨insertAt D.children p which.toNat i, none, .flag true⟩
    else none
  | detachItemViaPointer (some p) (some a) => ((D.children p).idxOf? a).map (D.detach p)
  | detachItemFromArray (some p) which => (indexIn which (D.children p)).map (D.detach p)
  | detachItemFromObject cs (some p) string =>
    (D.keyIn cs (h.text string) (D.children p)).map (D.detach p)
  | deleteItemFromArray (some p) which => (indexIn which (D.children p)).map (D.delete p)
  | deleteItemFromObject cs (some p) string =>
    (D.keyIn cs (h.text string) (D.children p)).map (D.delete p)
  | replaceItemViaPointer (some p) (some a) (some i) =>
    ((D.children p).idxOf? a).map (D.replace p i)
  | replaceItemInArray (some p) which (some i) =>
    (indexIn which (D.children p)).map (D.replace p i)
  | replaceItemInObject cs (some p) string (some i) =>
    (D.keyIn cs (h.text string) (D.children p)).map (D.replace p i)
  | _ => none

/-- The documents after a call, and what it returns. -/
noncomputable def outcome (D : Documents) (h : Heap) (e : Edit) : Documents × Reply :=
  D.perform (e.plan D h) e.refusal

end Edit

/-! ## New documents -/

/-- The tree of a constructor that makes no reference, if its texts are there. -/
def Construct.tree (h : Heap) : Construct → Option CTree
  | .null => some (.ofValue .null)
  | .true => some (.ofValue (.bool Bool.true))
  | .false => some (.ofValue (.bool Bool.false))
  | .bool b => some (.ofValue (.bool (b ≠ 0)))
  | .number num => some (.ofValue (.number num))
  | .string s => (h.text s).map fun k => .ofValue (.string k)
  | .raw s => (h.text s).map fun k => .node ⟨cjsonRaw, copied k, ⟨0⟩, none⟩ []
  | .array => some (.ofValue (.array []))
  | .object => some (.ofValue (.object []))
  | c => (c.value h).map .ofValue

mutual

/-- The nodes of a tree, and their texts. -/
def CTree.blocks : CTree → Nat
  | .node l ts => 1 + l.valuestring.toList.length + l.string.toList.length + blocksList ts

def CTree.blocksList : List CTree → Nat
  | [] => 0
  | t :: ts => t.blocks + blocksList ts

end

mutual

/-- The tree of a copy: texts that are not UTF-8 are lost. -/
def CTree.copied : CTree → CTree
  | .node l ts =>
    .node ⟨l.tag, utf8Only l.valuestring, l.valuedouble, utf8Only l.string⟩ (copiedList ts)

def CTree.copiedList : List CTree → List CTree
  | [] => []
  | t :: ts => t.copied :: copiedList ts

end

/-- The tree without the children of its root. -/
def CTree.top : CTree → CTree
  | .node l _ => .node l []

/-- The entry point, the text and the mode of a call that parses. -/
def Call.parsing : Call → Option (ParseCall × Ptr)
  | .parse value => some (.parse, value)
  | .parseWithLength value len => some (.withLength len, value)
  | .parseWithOpts value wantEnd strict => some (.withOpts wantEnd strict, value)
  | .parseWithLengthOpts value len wantEnd strict =>
    some (.withLengthOpts len wantEnd strict, value)
  | _ => none

namespace Documents

/-- The tree `t` stands at a new root `a`. -/
structure Plants (D : Documents) (a : Addr) (t : CTree) (D' : Documents) : Prop where
  tree : D'.Tree a t
  root : IsRoot D'.children a
  new : ∀ x, Below D'.children a x → D.label x = none
  old : ∀ x, ¬ Below D'.children a x → D'.label x = D.label x ∧ D'.children x = D.children x

/-- A call that builds the tree `t`, if there is one, returned `q`. -/
def Gains (D : Documents) (h : Heap) (t : Option CTree) (q : Ptr) (D' : Documents) : Prop :=
  (q = none ∧ D' = D ∧ ∀ u, t = some u → ¬ h.Plenty u.blocks) ∨
    ∃ a u, q = some a ∧ t = some u ∧ h.Plenty u.blocks ∧ D.Plants a u D'

/-- The value that a call parses. -/
def Reads (std : StdF64) (h : Heap) (call : ParseCall) (value : Ptr) (v : Value) : Prop :=
  ∃ s bytes, value = some s ∧ call.Reads h s bytes ∧ parseOutcome std call.strict bytes = .ok v

/-- A call that parses returned `q`. -/
def Parses (std : StdF64) (D : Documents) (h : Heap) (call : ParseCall) (value q : Ptr)
    (D' : Documents) : Prop :=
  (∃ v, Reads std h call value v ∧ D.Gains h (some (.ofValue v)) q D') ∨
    (∀ v, ¬ Reads std h call value v) ∧ D.Gains h none q D'

/-- The member `u` can be built and added to the object `p`. -/
structure Fits (D : Documents) (h : Heap) (object name : Ptr) (m : Member) (p : Addr)
    (u : CTree) : Prop where
  object : object = some p
  tag : D.hasTag cjsonObject p = true
  name : (h.text name).isSome
  member : m.construct.tree h = some u
  memory : h.Plenty (u.blocks + 1)

/-- A `cJSON_Add*ToObject` call returned `q`. -/
def Adds (D : Documents) (h : Heap) (object name : Ptr) (m : Member) (q : Ptr)
    (D' : Documents) : Prop :=
  (q = none ∧ D' = D ∧ ∀ p u, ¬ D.Fits h object name m p u) ∨
    ∃ p u i D₁, D.Fits h object name m p u ∧ q = some i ∧ D.Plants i u D₁ ∧
      D' = D₁.change (D₁.append p i (some (h.chars name)))

/-- The text can be copied to the string `a`. -/
structure Settable (D : Documents) (h : Heap) (object valuestring : Ptr) (a : Addr) : Prop where
  object : object = some a
  tag : D.hasTag cjsonString a = true
  text : (h.text valuestring).isSome
  memory : h.outcomes 0 = true

/-- `cJSON_SetValuestring` returned `q`. -/
def SetsText (D : Documents) (h : Heap) (object valuestring q : Ptr) (D' : Documents) : Prop :=
  (q = none ∧ D' = D ∧ ∀ a, ¬ D.Settable h object valuestring a) ∨
    ∃ a, D.Settable h object valuestring a ∧ q.isSome ∧
      D' = D.relabel a ({ · with valuestring := h.chars valuestring })

/-- The documents after a call with the reply `r`. The calls that make references are left open:
documents share no parts. -/
def AfterCall (std : StdF64) (D : Documents) (h : Heap) (c : Call) (r : Reply)
    (D' : Documents) : Prop :=
  match c with
  | .create c => ∃ q, r = .item q ∧ D.Gains h (c.tree h) q D'
  | .duplicate item recurse => ∃ q, r = .item q ∧ match item with
    | none => q = none ∧ D' = D
    | some a => ∃ t, D.Tree a t ∧
      D.Gains h (some (if recurse ≠ 0 then t.copied else t.top.copied)) q D'
  | .edit e => (D', r) = e.outcome D h
  | .addToObject object name m => ∃ q, r = .item q ∧ D.Adds h object name m q D'
  | .setValuestring object valuestring => ∃ q, r = .item q ∧ D.SetsText h object valuestring q D'
  | .delete item => r = .done ∧ D' = item.elim D D.drop
  | c => ∀ call value, c.parsing = some (call, value) →
    ∃ q, r = .item q ∧ D.Parses std h call value q D'

/-- The documents after a request. -/
def After (std : StdF64) (D : Documents) (h : Heap) (q : Request) (r : Answer)
    (D' : Documents) : Prop :=
  match q with
  | .call c => ∃ r', r = .reply r' ∧ D.AfterCall std h c r' D'
  | .setNumberHelper (some a) x =>
    D' = if D.hasTag cjsonNumber a then D.relabel a ({ · with valuedouble := x }) else D
  | _ => D' = D

/-! ## Answers -/

/-- The text of an item, if it has one. -/
def Text (std : StdF64) (D : Documents) (item : Ptr) (pretty : Bool) (text : Option Str) : Prop :=
  match item with
  | none => text = none
  | some a => ∃ t, D.Tree a t ∧ text = t.printed std pretty

/-- A printer returned `r`: a new buffer with the text. -/
def Prints (std : StdF64) (D : Documents) (h : Heap) (item : Ptr) (pretty : Bool) (r : Answer)
    (h' : Heap) : Prop :=
  ∃ text q, D.Text std item pretty text ∧ r = .item q ∧
    ((q = none ∧ (text = none ∨ h.outcomes 0 = false)) ∨
      ∃ s b, text = some s ∧ h.outcomes 0 = true ∧ q = some b ∧
        h'.bufs b = some ⟨encode s ++ [0], true⟩)

/-- The text was written to the buffer of the client, if it fits. -/
def Fills (std : StdF64) (D : Documents) (item buffer : Ptr) (length : Int) (pretty : Bool)
    (r : Answer) (h' : Heap) : Prop :=
  ∃ text, D.Text std item pretty text ∧
    ((r = .flag false ∧ ∀ s, text = some s → buffer = none ∨ length < (encode s).length + 1) ∨
      r = .flag true ∧ ∃ s b c, text = some s ∧ (encode s).length + 1 ≤ length ∧
        buffer = some b ∧ h'.bufs b = some c ∧ encode s ++ [0] <+: c.bytes)

/-- The child at an index. -/
def item (D : Documents) (index : Int) (a : Addr) : Ptr :=
  (indexIn index (D.children a)).bind ((D.children a)[·]?)

/-- The first child with a matching key. -/
def find (D : Documents) (caseSensitive : Bool) (key : Option Str) (a : Addr) : Ptr :=
  (D.keyIn caseSensitive key (D.children a)).bind ((D.children a)[·]?)

/-- The answer of a request, as the documents before it have it. -/
def Answers (std : StdF64) (D : Documents) (h : Heap) (q : Request) (r : Answer)
    (h' : Heap) : Prop :=
  match q with
  | .print item => D.Prints std h item true r h'
  | .printUnformatted item => D.Prints std h item false r h'
  | .printBuffered item _ fmt => D.Prints std h item (fmt ≠ 0) r h'
  | .printPreallocated item buffer length format =>
    D.Fills std item buffer length (format ≠ 0) r h'
  | .test t item => r = .flag (item.any fun a => (D.label a).any fun l => t.Passes l.tag)
  | .getArraySize array => r = .int (array.elim 0 fun a => min (D.children a).length intMax)
  | .getArrayItem array index => r = .item (array.bind (D.item index))
  | .getObjectItem object string => r = .item (object.bind (D.find false (h.text string)))
  | .getObjectItemCaseSensitive object string =>
    r = .item (object.bind (D.find true (h.text string)))
  | .hasObjectItem object string => r = .flag (object.bind (D.find false (h.text string))).isSome
  | .getStringValue item => ∃ q, r = .item q ∧ h.chars q = (do
      let l ← D.label (← item)
      if l.tag = cjsonString then l.valuestring else none)
  | .getNumberValue item =>
    r = .double (((item.bind D.label).filter (·.tag == cjsonNumber)).elim f64Nan Label.valuedouble)
  | .compare x y cs => ∃ b, r = .flag b ∧ (b = true ↔
      ∃ a b t u, x = some a ∧ y = some b ∧ D.Tree a t ∧ D.Tree b u ∧
        compareTrees (cs ≠ 0) t u = true)
  | .setNumberHelper _ x => r = .double x
  | _ => True

end Documents

end CjsonRs.Ffi
