import CjsonRs.Ffi.Duplicate
import CjsonRs.Ffi.Refinement

/-!
# The calls of the interface

Every public call that builds, changes or deletes trees, as one type, and what each relies on:
texts and arrays that can be read, live nodes, and for the calls that move items what
`Edit.Admissible` says. The constructors build one tree on new blocks, or nothing.
-/

namespace CjsonRs.Ffi

open CjsonRs.Core Library Library.Link Library.Forest

/-! ## Constructors -/

/-- The `cJSON_Create*` functions. -/
inductive Construct where
  | null
  | true
  | false
  | bool (b : Int)
  | number (num : F64)
  | string (s : Ptr)
  | raw (raw : Ptr)
  | array
  | object
  | intArray (numbers : Option (List Int)) (count : Int)
  | floatArray (numbers : Option (List (BitVec 32))) (count : Int)
  | doubleArray (numbers : Option (List F64)) (count : Int)
  | stringArray (strings : Option (List Ptr)) (count : Int)
  | stringReference (s : Ptr)
  | objectReference (child : Ptr)
  | arrayReference (child : Ptr)

namespace Construct

def run : Construct → M Ptr
  | null => cjsonCreateNull
  | .true => cjsonCreateTrue
  | .false => cjsonCreateFalse
  | bool b => cjsonCreateBool b
  | number num => cjsonCreateNumber num
  | string s => cjsonCreateString s
  | raw r => cjsonCreateRaw r
  | array => cjsonCreateArray
  | object => cjsonCreateObject
  | intArray numbers count => cjsonCreateIntArray numbers count
  | floatArray numbers count => cjsonCreateFloatArray numbers count
  | doubleArray numbers count => cjsonCreateDoubleArray numbers count
  | stringArray strings count => cjsonCreateStringArray strings count
  | stringReference s => cjsonCreateStringReference s
  | objectReference child => cjsonCreateObjectReference child
  | arrayReference child => cjsonCreateArrayReference child

/-- A string is `NULL` or can be read. -/
def ReadablePtr (h : Heap) (p : Ptr) : Prop := ∀ s, p = some s → h.Readable s

/-- What a constructor reads can be read. -/
def Admissible (h : Heap) : Construct → Prop
  | string s => ReadablePtr h s
  | raw s => ReadablePtr h s
  | intArray numbers count => Counted (fun _ => True) numbers count
  | floatArray numbers count => Counted (fun _ => True) numbers count
  | doubleArray numbers count => Counted (fun _ => True) numbers count
  | stringArray strings count => Counted (ReadablePtr h) strings count
  | _ => True

end Construct

/-- The members that a `cJSON_Add*ToObject` function creates. -/
inductive Member where
  | null
  | true
  | false
  | bool (b : Int)
  | number (num : F64)
  | string (s : Ptr)
  | raw (raw : Ptr)
  | object
  | array

namespace Member

/-- The constructor that a `cJSON_Add*ToObject` function calls. -/
def construct : Member → Construct
  | null => .null
  | .true => .true
  | .false => .false
  | bool b => .bool b
  | number num => .number num
  | string s => .string s
  | raw r => .raw r
  | object => .object
  | array => .array

def run (object name : Ptr) : Member → M Ptr
  | null => cjsonAddNullToObject object name
  | .true => cjsonAddTrueToObject object name
  | .false => cjsonAddFalseToObject object name
  | bool b => cjsonAddBoolToObject object name b
  | number num => cjsonAddNumberToObject object name num
  | string s => cjsonAddStringToObject object name s
  | raw r => cjsonAddRawToObject object name r
  | .object => cjsonAddObjectToObject object name
  | array => cjsonAddArrayToObject object name

/-- Each builds its member and adds it. -/
theorem run_eq (object name : Ptr) (m : Member) :
    m.run object name = m.construct.run >>= addToObject object name := by
  cases m <;> rfl

end Member

/-! ## Calls -/

/-- The calls that build, change or delete trees. -/
inductive Call where
  | parse (value : Ptr)
  | parseWithLength (value : Ptr) (bufferLength : Nat)
  | parseWithOpts (value : Ptr) (wantEnd : Bool) (requireNullTerminated : Int)
  | parseWithLengthOpts (value : Ptr) (bufferLength : Nat) (wantEnd : Bool)
      (requireNullTerminated : Int)
  | create (c : Construct)
  | duplicate (item : Ptr) (recurse : Int)
  | edit (e : Edit)
  | addItemReferenceToArray (array item : Ptr)
  | addItemReferenceToObject (object name item : Ptr)
  | addToObject (object name : Ptr) (m : Member)
  | setValuestring (object valuestring : Ptr)
  | delete (item : Ptr)

namespace Call

def run (std : StdF64) : Call → M Reply
  | parse value => .item <$> cjsonParse std value
  | parseWithLength value n => .item <$> cjsonParseWithLength std value n
  | parseWithOpts value wantEnd strict =>
    (fun r => .item r.item) <$> cjsonParseWithOpts std value wantEnd strict
  | parseWithLengthOpts value n wantEnd strict =>
    (fun r => .item r.item) <$> cjsonParseWithLengthOpts std value n wantEnd strict
  | create c => .item <$> c.run
  | duplicate item recurse => .item <$> cjsonDuplicate item recurse
  | edit e => e.run
  | addItemReferenceToArray array item => .flag <$> cjsonAddItemReferenceToArray array item
  | addItemReferenceToObject object name item =>
    .flag <$> cjsonAddItemReferenceToObject object name item
  | addToObject object name m => .item <$> m.run object name
  | setValuestring object valuestring => .item <$> cjsonSetValuestring object valuestring
  | delete item => (fun _ => .done) <$> cjsonDelete item

/-- What a call relies on. A `NULL` argument is always allowed. -/
def Admissible (h : Heap) (kids : Addr → List Addr) : Call → Prop
  | parse value => Construct.ReadablePtr h value
  | parseWithLength value n => ∀ s, value = some s → ∃ b, h.bufs s = some b ∧ n ≤ b.bytes.length
  | parseWithOpts value _ _ => Construct.ReadablePtr h value
  | parseWithLengthOpts value n _ _ =>
    ∀ s, value = some s → ∃ b, h.bufs s = some b ∧ n ≤ b.bytes.length
  | create c => c.Admissible h
  | duplicate item recurse =>
    ∀ a, item = some a → (∃ n l, h.nodes a = some n ∧ Labelled h n l) ∧
      (recurse ≠ 0 → ∃ t, Denotes h a t)
  | edit e => e.Admissible h kids
  | addItemReferenceToArray array item =>
    ∀ p i, array = some p → item = some i → Mutable 0 h p ∧ (h.nodes i).isSome
  | addItemReferenceToObject object name item =>
    ∀ p s i, object = some p → name = some s → item = some i →
      Mutable 0 h p ∧ h.Readable s ∧ (h.nodes i).isSome
  | addToObject object name m =>
    m.construct.Admissible h ∧
      ∀ p s, object = some p → name = some s → Mutable 0 h p ∧ h.Readable s
  | setValuestring object valuestring =>
    ∀ a s, object = some a → valuestring = some s → (h.nodes a).isSome ∧ h.Readable s
  | delete item => ∀ a, item = some a → (h.nodes a).isSome ∧ IsRoot kids a

end Call

end CjsonRs.Ffi
