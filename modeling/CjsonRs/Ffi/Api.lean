import CjsonRs.Core.Parser
import CjsonRs.Ffi.Query

/-!
# The C interface

The entry points of `cjson-rs-ffi/src/lib.rs` that build and change trees. A `cJSON_bool` that
is returned is a `Bool`, one that is passed in is the `c_int` it is.
-/

namespace CjsonRs.Ffi

open CjsonRs.Core Library

/-! ## Parse -/

/-- A pointer into a buffer of the caller: the buffer and an offset. -/
abbrev CharPtr := Option (Addr × Nat)

def setLastError (p : CharPtr) : M Unit := fun h => .ok ((), { h with lastError := p })

/-- The input without its byte order mark, and the number of bytes skipped. -/
def stripUtf8Bom (bytes : List UInt8) : List UInt8 × Nat :=
  if bytes.take 3 = [0xEF, 0xBB, 0xBF] then (bytes.drop 3, 3) else (bytes, 0)

/-- Byte offset of the error within the input, with EOF errors mapped to its end. -/
def errorByteOffset (e : Error) (inputLen : Nat) : Nat :=
  match e with
  | .unexpectedEof _ => inputLen
  | other => other.position.offset

/-- `std::slice::from_raw_parts(value, buffer_length)` -/
def loadSlice (value : Ptr) (bufferLength : Nat) : M (List UInt8) := fun h =>
  match value with
  | none => .error .null
  | some s =>
    match h.bufs s with
    | none => .error (.dangling s)
    | some b =>
      if bufferLength ≤ b.bytes.length then .ok (b.bytes.take bufferLength, h)
      else .error .outOfBounds

/-- The result of a parse entry point: the tree, and what it stored through
`return_parse_end`, if it stored anything. -/
structure Parsed where
  item : Ptr
  stored : Option CharPtr
  deriving DecidableEq, Repr

/-- The common part of the parse entry points: parse the bytes at `value`, all of them or a
prefix, and build the tree. `whole` is the parse end of a strict success. -/
def parseBytes (std : StdF64) (value : Addr) (bytes : List UInt8) (wantEnd : Bool) (whole : Nat)
    (requireNullTerminated : Int) : M Parsed := do
  let (parsedBytes, bomSkip) := stripUtf8Bom bytes
  let result : Except Error (Value × Nat) :=
    if requireNullTerminated ≠ 0 then (parse std parsedBytes).map fun v => (v, whole)
    else (parsePrefix std parsedBytes).map fun r => (r.1, bomSkip + r.2)
  match result with
  | .ok (v, stop) => do
    setLastError none
    let item ← valueToCjson v
    return ⟨item, if wantEnd then some (some (value, stop)) else none⟩
  | .error e => do
    let errPtr : CharPtr := some (value, bomSkip + errorByteOffset e parsedBytes.length)
    setLastError errPtr
    return ⟨none, if wantEnd then some errPtr else none⟩

def cjsonParse (std : StdF64) (value : Ptr) : M Ptr := do
  match value with
  | none =>
    setLastError none
    return none
  | some s =>
    let bytes ← loadBytes (some s)
    let r ← parseBytes std s bytes false bytes.length 1
    return r.item

def cjsonParseWithLength (std : StdF64) (value : Ptr) (bufferLength : Nat) : M Ptr := do
  match value with
  | none =>
    setLastError none
    return none
  | some s =>
    let bytes ← loadSlice (some s) bufferLength
    let r ← parseBytes std s bytes false bufferLength 1
    return r.item

def cjsonParseWithOpts (std : StdF64) (value : Ptr) (wantEnd : Bool)
    (requireNullTerminated : Int) : M Parsed := do
  match value with
  | none =>
    setLastError none
    return ⟨none, if wantEnd then some none else none⟩
  | some s =>
    let bytes ← loadBytes (some s)
    parseBytes std s bytes wantEnd bytes.length requireNullTerminated

def cjsonParseWithLengthOpts (std : StdF64) (value : Ptr) (bufferLength : Nat) (wantEnd : Bool)
    (requireNullTerminated : Int) : M Parsed := do
  match value with
  -- Unlike `cJSON_ParseWithOpts`, nothing is stored for a NULL input.
  | none =>
    setLastError none
    return ⟨none, none⟩
  | some s =>
    let bytes ← loadSlice (some s) bufferLength
    parseBytes std s bytes wantEnd bufferLength requireNullTerminated

def cjsonGetErrorPtr : M CharPtr := fun h => .ok (h.lastError, h)

def cjsonDelete (item : Ptr) : M Unit := freeCjson item

/-! ## Constructors -/

def cjsonCreateNull : M Ptr := newNode cjsonNull

def cjsonCreateTrue : M Ptr := newNode cjsonTrue

def cjsonCreateFalse : M Ptr := newNode cjsonFalse

def cjsonCreateBool (b : Int) : M Ptr := newNode (if b ≠ 0 then cjsonTrue else cjsonFalse)

/-- A node of a number; the body shared by `cJSON_CreateNumber` and the typed arrays. -/
def newNumber (num : F64) : M Ptr := do
  let n ← newNode cjsonNumber
  if n.isNone then
    return none
  store n ({ · with valuedouble := num })
  store n ({ · with valueint := clampToInt num })
  return n

def cjsonCreateNumber (num : F64) : M Ptr := newNumber num

def createStringLike (s : Ptr) (typeTag : TypeWord) : M Ptr := do
  if s.isNone then
    return none
  match ← loadStr s with
  | none => return none
  | some str =>
    let n ← newNode typeTag
    if n.isNone then
      return none
    let valuestring ← allocCstr str
    store n ({ · with valuestring := valuestring })
    if valuestring.isNone then
      hookFree (n.map .node)
      return none
    return n

def cjsonCreateString (s : Ptr) : M Ptr := createStringLike s cjsonString

def cjsonCreateRaw (raw : Ptr) : M Ptr := createStringLike raw cjsonRaw

def cjsonCreateArray : M Ptr := newNode cjsonArray

def cjsonCreateObject : M Ptr := newNode cjsonObject

/-! ## Typed arrays -/

/-- The exact conversion `v as f64` of a `c_int`. -/
def f64OfInt (v : Int) : F64 :=
  if v = 0 then ⟨0⟩
  else
    let e := Nat.log2 v.natAbs
    let sign := if v < 0 then 2 ^ 63 else 0
    ⟨BitVec.ofNat 64 (sign + (1023 + e) * 2 ^ 52 + (v.natAbs - 2 ^ e) * 2 ^ (52 - e))⟩

/-- The exact conversion `v as f64` of an `f32`, given by its bits; a `NaN` becomes quiet. -/
def f64OfF32 (bits : BitVec 32) : F64 :=
  let sign := bits.toNat / 2 ^ 31 * 2 ^ 63
  let exponent := bits.toNat / 2 ^ 23 % 2 ^ 8
  let fraction := bits.toNat % 2 ^ 23
  if exponent = 255 then
    let payload := if fraction = 0 then 0 else 2 ^ 51 + fraction % 2 ^ 22 * 2 ^ 29
    ⟨BitVec.ofNat 64 (sign + 2047 * 2 ^ 52 + payload)⟩
  else if exponent = 0 then
    if fraction = 0 then ⟨BitVec.ofNat 64 sign⟩
    else
      let e := Nat.log2 fraction
      ⟨BitVec.ofNat 64 (sign + (874 + e) * 2 ^ 52 + (fraction - 2 ^ e) * 2 ^ (52 - e))⟩
  else ⟨BitVec.ofNat 64 (sign + (896 + exponent) * 2 ^ 52 + fraction * 2 ^ 29)⟩

/-- The loop of the typed arrays: build an item for each value and attach it to `arr`, which
is freed when an item cannot be built. -/
def fillArray {T : Type} (mk : T → M Ptr) (arr : Ptr) : Nat → List T → M Ptr
  | 0, _ => return arr
  | _ + 1, [] => Run.fault .outOfBounds
  | count + 1, v :: values => do
    let item ← mk v
    if item.isNone then
      freeCjson arr
      return none
    attachChild arr item
    fillArray mk arr count values

/-- The head of the typed arrays, with `values` the caller's array. -/
def createTypedArray {T : Type} (mk : T → M Ptr) (values : Option (List T)) (count : Int) :
    M Ptr := do
  match values with
  | none => return none
  | some values =>
    if count < 0 then
      return none
    let arr ← newNode cjsonArray
    if arr.isNone then
      return none
    fillArray mk arr count.toNat values

def createNumericArray {T : Type} (values : Option (List T)) (count : Int) (mk : T → F64) :
    M Ptr := createTypedArray (fun v => newNumber (mk v)) values count

def cjsonCreateIntArray (numbers : Option (List Int)) (count : Int) : M Ptr :=
  createNumericArray numbers count f64OfInt

def cjsonCreateFloatArray (numbers : Option (List (BitVec 32))) (count : Int) : M Ptr :=
  createNumericArray numbers count f64OfF32

def cjsonCreateDoubleArray (numbers : Option (List F64)) (count : Int) : M Ptr :=
  createNumericArray numbers count id

def cjsonCreateStringArray (strings : Option (List Ptr)) (count : Int) : M Ptr :=
  createTypedArray (fun s => createStringLike s cjsonString) strings count

/-! ## Reference constructors -/

def cjsonCreateStringReference (s : Ptr) : M Ptr := do
  if s.isNone then
    return none
  let n ← newNode (cjsonString ||| cjsonIsReference)
  if n.isNone then
    return none
  store n ({ · with valuestring := s })
  return n

/-- The body of `cJSON_CreateObjectReference` and `cJSON_CreateArrayReference`. -/
def createContainerReference (t : TypeWord) (child : Ptr) : M Ptr := do
  let n ← newNode (t ||| cjsonIsReference)
  if n.isNone then
    return none
  store n ({ · with child := child })
  return n

def cjsonCreateObjectReference (child : Ptr) : M Ptr := createContainerReference cjsonObject child

def cjsonCreateArrayReference (child : Ptr) : M Ptr := createContainerReference cjsonArray child

/-! ## Adding items -/

def cjsonAddItemToArray (array item : Ptr) : M Bool := do
  if array.isNone ∨ item.isNone then
    return false
  let a ← load array
  if tag a.type_ ≠ cjsonArray then
    return false
  attachChild array item
  return true

def cjsonAddItemToObject (object name item : Ptr) : M Bool := do
  if object.isNone ∨ name.isNone ∨ item.isNone then
    return false
  let o ← load object
  if tag o.type_ ≠ cjsonObject then
    return false
  attachNamedChild object name item

/-- Constant-string variant: borrows the caller's `name` pointer. -/
def cjsonAddItemToObjectCS (object name item : Ptr) : M Bool := do
  if object.isNone ∨ name.isNone ∨ item.isNone then
    return false
  let o ← load object
  if tag o.type_ ≠ cjsonObject then
    return false
  -- Free any pre-existing owned key.
  let i ← load item
  if i.string.isSome ∧ !i.constKey then
    hookFree (i.string.map .buf)
  store item fun n => { n with type_ := setConst n.type_ }
  store item ({ · with string := name })
  attachChild object item
  return true

def wrapAsReference (item : Ptr) : M Ptr := do
  let i ← load item
  let r ← newNode (asReference i.type_)
  if r.isNone then
    return none
  store r ({ · with valuestring := i.valuestring })
  store r ({ · with valueint := i.valueint })
  store r ({ · with valuedouble := i.valuedouble })
  store r ({ · with child := i.child })
  return r

def cjsonAddItemReferenceToArray (array item : Ptr) : M Bool := do
  if array.isNone ∨ item.isNone then
    return false
  let a ← load array
  if tag a.type_ ≠ cjsonArray then
    return false
  let r ← wrapAsReference item
  if r.isNone then
    return false
  attachChild array r
  return true

def cjsonAddItemReferenceToObject (object name item : Ptr) : M Bool := do
  if object.isNone ∨ name.isNone ∨ item.isNone then
    return false
  let o ← load object
  if tag o.type_ ≠ cjsonObject then
    return false
  let r ← wrapAsReference item
  if r.isNone then
    return false
  let attached ← attachNamedChild object name r
  if attached then
    return true
  freeCjson r
  return false

/-! ## Create and add -/

def addToObject (object name item : Ptr) : M Ptr := do
  if item.isNone then
    return none
  let added ← cjsonAddItemToObject object name item
  if !added then
    freeCjson item
    return none
  return item

def cjsonAddNullToObject (object name : Ptr) : M Ptr := do
  addToObject object name (← cjsonCreateNull)

def cjsonAddTrueToObject (object name : Ptr) : M Ptr := do
  addToObject object name (← cjsonCreateTrue)

def cjsonAddFalseToObject (object name : Ptr) : M Ptr := do
  addToObject object name (← cjsonCreateFalse)

def cjsonAddBoolToObject (object name : Ptr) (boolean : Int) : M Ptr := do
  addToObject object name (← cjsonCreateBool boolean)

def cjsonAddNumberToObject (object name : Ptr) (number : F64) : M Ptr := do
  addToObject object name (← cjsonCreateNumber number)

def cjsonAddStringToObject (object name string : Ptr) : M Ptr := do
  addToObject object name (← cjsonCreateString string)

def cjsonAddRawToObject (object name raw : Ptr) : M Ptr := do
  addToObject object name (← cjsonCreateRaw raw)

def cjsonAddObjectToObject (object name : Ptr) : M Ptr := do
  addToObject object name (← cjsonCreateObject)

def cjsonAddArrayToObject (object name : Ptr) : M Ptr := do
  addToObject object name (← cjsonCreateArray)

/-! ## Detach and delete -/

def cjsonDetachItemViaPointer (parent item : Ptr) : M Ptr := do
  if parent.isNone ∨ item.isNone then
    return none
  detach parent item
  return item

def cjsonDetachItemFromArray (array : Ptr) (which : Int) : M Ptr := do
  let item ← childAtIndex array which
  if item.isNone then
    return none
  detach array item
  return item

def cjsonDeleteItemFromArray (array : Ptr) (which : Int) : M Unit := do
  let item ← cjsonDetachItemFromArray array which
  if item.isSome then
    freeCjson item

def detachObjectItem (object string : Ptr) (caseSensitive : Bool) : M Ptr := do
  let item ← getObjectItemImpl object string caseSensitive
  if item.isNone then
    return none
  detach object item
  return item

def cjsonDetachItemFromObject (object string : Ptr) : M Ptr := detachObjectItem object string false

def cjsonDetachItemFromObjectCaseSensitive (object string : Ptr) : M Ptr :=
  detachObjectItem object string true

/-- The body of the two `cJSON_DeleteItemFromObject` functions. -/
def deleteObjectItem (object string : Ptr) (caseSensitive : Bool) : M Unit := do
  let item ← detachObjectItem object string caseSensitive
  if item.isSome then
    freeCjson item

def cjsonDeleteItemFromObject (object string : Ptr) : M Unit :=
  deleteObjectItem object string false

def cjsonDeleteItemFromObjectCaseSensitive (object string : Ptr) : M Unit :=
  deleteObjectItem object string true

/-! ## Insert and replace -/

def cjsonInsertItemInArray (array : Ptr) (which : Int) (newitem : Ptr) : M Bool := do
  if array.isNone ∨ newitem.isNone ∨ which < 0 then
    return false
  let a ← load array
  if tag a.type_ ≠ cjsonArray then
    return false
  let existing ← childAtIndex array which
  if existing.isNone then
    -- Past the end: append.
    attachChild array newitem
    return true
  -- Splice newitem before `existing`.
  let e ← load existing
  store newitem ({ · with prev := e.prev })
  store newitem ({ · with next := existing })
  let e ← load existing
  if e.prev.isNone then
    store array ({ · with child := newitem })
  else
    store e.prev ({ · with next := newitem })
  store existing ({ · with prev := newitem })
  return true

def replaceViaPointer (parent item replacement : Ptr) : M Bool := do
  if parent.isNone ∨ item.isNone ∨ replacement.isNone then
    return false
  -- Splice replacement into item's place.
  let i ← load item
  store replacement ({ · with prev := i.prev })
  let i ← load item
  store replacement ({ · with next := i.next })
  let i ← load item
  if i.prev.isSome then
    store i.prev ({ · with next := replacement })
  else
    store parent ({ · with child := replacement })
  let i ← load item
  if i.next.isSome then
    store i.next ({ · with prev := replacement })
  -- Preserve the original key on the replacement (for object members).
  let i ← load item
  if i.string.isSome then
    let r ← load replacement
    if r.string.isNone then
      store replacement ({ · with string := i.string })
      store item ({ · with string := none })
  store item ({ · with prev := none })
  store item ({ · with next := none })
  freeCjson item
  return true

def cjsonReplaceItemViaPointer (parent item replacement : Ptr) : M Bool :=
  replaceViaPointer parent item replacement

def cjsonReplaceItemInArray (array : Ptr) (which : Int) (newitem : Ptr) : M Bool := do
  let item ← childAtIndex array which
  if item.isNone then
    return false
  replaceViaPointer array item newitem

def replaceObjectItem (object string newitem : Ptr) (caseSensitive : Bool) : M Bool := do
  let item ← getObjectItemImpl object string caseSensitive
  if item.isNone then
    return false
  replaceViaPointer object item newitem

def cjsonReplaceItemInObject (object string newitem : Ptr) : M Bool :=
  replaceObjectItem object string newitem false

def cjsonReplaceItemInObjectCaseSensitive (object string newitem : Ptr) : M Bool :=
  replaceObjectItem object string newitem true

/-! ## Copy and change -/

def cjsonDuplicate (item : Ptr) (recurse : Int) : M Ptr := duplicate item (recurse ≠ 0)

def cjsonSetNumberHelper (object : Ptr) (number : F64) : M F64 := do
  if object.isNone then
    return number
  let o ← load object
  if tag o.type_ ≠ cjsonNumber then
    return number
  store object ({ · with valuedouble := number })
  store object ({ · with valueint := clampToInt number })
  return number

def cjsonSetValuestring (object valuestring : Ptr) : M Ptr := do
  if object.isNone ∨ valuestring.isNone then
    return none
  let o ← load object
  if tag o.type_ ≠ cjsonString ∨ o.isRef then
    return none
  match ← loadStr valuestring with
  | none => return none
  | some s =>
    let newBuf ← allocCstr s
    if newBuf.isNone then
      return none
    let o ← load object
    hookFree (o.valuestring.map .buf)
    store object ({ · with valuestring := newBuf })
    return newBuf

/-! ## Memory -/

/-- The bytes of a fresh block are whatever was there. -/
def cjsonMalloc (bytes : List UInt8) : M Ptr := hookMallocBuf bytes

def cjsonFree (object : Option Block) : M Unit := hookFree object

end CjsonRs.Ffi
