import CjsonRs.Core.Value
import Mathlib.Data.BitVec

/-!
# The C types

`cjson-rs-ffi/src/types.rs`: the node `struct cJSON` and the constants of its `type_` field.
A pointer is an address or `NULL` (`none`); `c_int` is a 32-bit word where its bits matter
(the type field) and an `Int` where it counts.
-/

namespace CjsonRs.Ffi

open CjsonRs.Core

/-- An address of the heap. -/
abbrev Addr := Nat

/-- A pointer, `none` for `NULL`. -/
abbrev Ptr := Option Addr

/-- The type of the `type_` field. -/
abbrev TypeWord := BitVec 32

/-! ## Type constants -/

def cjsonInvalid : TypeWord := 0
def cjsonFalse : TypeWord := 1 <<< 0
def cjsonTrue : TypeWord := 1 <<< 1
def cjsonNull : TypeWord := 1 <<< 2
def cjsonNumber : TypeWord := 1 <<< 3
def cjsonString : TypeWord := 1 <<< 4
def cjsonArray : TypeWord := 1 <<< 5
def cjsonObject : TypeWord := 1 <<< 6
def cjsonRaw : TypeWord := 1 <<< 7

def cjsonIsReference : TypeWord := 256
def cjsonStringIsConst : TypeWord := 512

/-- `type_ & 0xFF` -/
def tag (t : TypeWord) : TypeWord := t &&& 0xFF

/-- `(type_ & CJSON_IS_REFERENCE) != 0` -/
def isReference (t : TypeWord) : Bool := t &&& cjsonIsReference != 0

/-- `(type_ & CJSON_STRING_IS_CONST) != 0` -/
def isConst (t : TypeWord) : Bool := t &&& cjsonStringIsConst != 0

/-- `type_ | CJSON_STRING_IS_CONST` -/
def setConst (t : TypeWord) : TypeWord := t ||| cjsonStringIsConst

/-- `type_ & !CJSON_STRING_IS_CONST` -/
def clearConst (t : TypeWord) : TypeWord := t &&& ~~~cjsonStringIsConst

/-- `type_ & !CJSON_IS_REFERENCE & !CJSON_STRING_IS_CONST` -/
def clearFlags (t : TypeWord) : TypeWord := t &&& ~~~cjsonIsReference &&& ~~~cjsonStringIsConst

/-- `(type_ & 0xFF) | CJSON_IS_REFERENCE` -/
def asReference (t : TypeWord) : TypeWord := tag t ||| cjsonIsReference

/-! ## Flags -/

/-- Masking a masked word. -/
theorem and_and_mask (t m m' : TypeWord) : t &&& m &&& m' = t &&& (m &&& m') :=
  BitVec.and_assoc t m m'

theorem or_and_mask (t m m' : TypeWord) : (t ||| m) &&& m' = t &&& m' ||| m &&& m' := by
  ext i
  simp [Bool.and_or_distrib_right]

theorem and_zero_word (t : TypeWord) : t &&& 0 = 0 := by simp

theorem or_zero_word (t : TypeWord) : t ||| 0 = t := by simp

@[simp] theorem tag_setConst (t : TypeWord) : tag (setConst t) = tag t := by
  rw [tag, setConst, or_and_mask, show cjsonStringIsConst &&& (0xFF : TypeWord) = 0 from rfl,
    or_zero_word, tag]

@[simp] theorem isReference_setConst (t : TypeWord) : isReference (setConst t) = isReference t := by
  rw [isReference, setConst, or_and_mask,
    show cjsonStringIsConst &&& cjsonIsReference = 0 from rfl, or_zero_word, isReference]

@[simp] theorem isConst_setConst (t : TypeWord) : isConst (setConst t) = true := by
  have h : (t ||| cjsonStringIsConst) &&& cjsonStringIsConst = cjsonStringIsConst := by
    ext i
    simp only [BitVec.getElem_and, BitVec.getElem_or]
    cases t[i] <;> cases cjsonStringIsConst[i] <;> rfl
  rw [isConst, setConst, h]
  rfl

@[simp] theorem tag_clearConst (t : TypeWord) : tag (clearConst t) = tag t := by
  rw [tag, clearConst, and_and_mask,
    show ~~~cjsonStringIsConst &&& (0xFF : TypeWord) = 0xFF from rfl, tag]

@[simp] theorem isReference_clearConst (t : TypeWord) :
    isReference (clearConst t) = isReference t := by
  rw [isReference, clearConst, and_and_mask,
    show ~~~cjsonStringIsConst &&& cjsonIsReference = cjsonIsReference from rfl, isReference]

@[simp] theorem isConst_clearConst (t : TypeWord) : isConst (clearConst t) = false := by
  rw [isConst, clearConst, and_and_mask,
    show ~~~cjsonStringIsConst &&& cjsonStringIsConst = 0 from rfl, and_zero_word]
  rfl

@[simp] theorem tag_clearFlags (t : TypeWord) : tag (clearFlags t) = tag t := by
  rw [tag, clearFlags, and_and_mask, and_and_mask,
    show ~~~cjsonIsReference &&& (~~~cjsonStringIsConst &&& (0xFF : TypeWord)) = 0xFF from rfl, tag]

@[simp] theorem isReference_clearFlags (t : TypeWord) : isReference (clearFlags t) = false := by
  rw [isReference, clearFlags, and_and_mask, and_and_mask,
    show ~~~cjsonIsReference &&& (~~~cjsonStringIsConst &&& cjsonIsReference) = 0 from rfl,
    and_zero_word]
  rfl

@[simp] theorem isConst_clearFlags (t : TypeWord) : isConst (clearFlags t) = false := by
  rw [isConst, clearFlags, and_and_mask, and_and_mask,
    show ~~~cjsonIsReference &&& (~~~cjsonStringIsConst &&& cjsonStringIsConst) = 0 from rfl,
    and_zero_word]
  rfl

@[simp] theorem isReference_asReference (t : TypeWord) : isReference (asReference t) = true := by
  have h : (tag t ||| cjsonIsReference) &&& cjsonIsReference = cjsonIsReference := by
    ext i
    simp only [BitVec.getElem_and, BitVec.getElem_or]
    cases (tag t)[i] <;> cases cjsonIsReference[i] <;> rfl
  rw [isReference, asReference, h]
  rfl

@[simp] theorem isConst_asReference (t : TypeWord) : isConst (asReference t) = false := by
  rw [isConst, asReference, or_and_mask, tag, and_and_mask,
    show (0xFF : TypeWord) &&& cjsonStringIsConst = 0 from rfl, and_zero_word,
    show cjsonIsReference &&& cjsonStringIsConst = 0 from rfl]
  rfl

/-! ## The node -/

/-- `struct cJSON`. -/
structure CNode where
  next : Ptr
  prev : Ptr
  child : Ptr
  type_ : TypeWord
  /-- For `CJSON_STRING` and `CJSON_RAW`: the value, NUL-terminated. -/
  valuestring : Ptr
  valueint : Int
  valuedouble : F64
  /-- For nodes inside an object: the key, NUL-terminated. -/
  string : Ptr
  deriving DecidableEq, Repr

/-- A node of `memset(ptr, 0, size_of::<cJSON>())`. -/
def CNode.zeroed : CNode where
  next := none
  prev := none
  child := none
  type_ := 0
  valuestring := none
  valueint := 0
  valuedouble := ⟨0⟩
  string := none

/-- The node frees neither its children nor its `valuestring`. -/
abbrev CNode.isRef (n : CNode) : Bool := isReference n.type_

/-- The node does not free its key. -/
abbrev CNode.constKey (n : CNode) : Bool := isConst n.type_

end CjsonRs.Ffi
