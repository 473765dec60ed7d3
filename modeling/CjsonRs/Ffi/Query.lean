import CjsonRs.Ffi.Convert

/-!
# Reading a tree

The readers of `cjson-rs-ffi/src/lib.rs`: the type predicates, the lookup of an item by its
index and of a member by its key, the values of scalars and the conversion of a tree back to a
`Value`.
-/

namespace CjsonRs.Ffi

open CjsonRs.Core Library

/-! ## Type predicates -/

def typeEq (item : Ptr) (t : TypeWord) : M Bool := do
  if item.isNone then
    return false
  let n ← load item
  return tag n.type_ == t

def cjsonIsInvalid (item : Ptr) : M Bool := typeEq item cjsonInvalid

def cjsonIsFalse (item : Ptr) : M Bool := typeEq item cjsonFalse

def cjsonIsTrue (item : Ptr) : M Bool := typeEq item cjsonTrue

def cjsonIsBool (item : Ptr) : M Bool := do
  if item.isNone then
    return false
  let n ← load item
  let t := tag n.type_
  return t == cjsonTrue || t == cjsonFalse

def cjsonIsNull (item : Ptr) : M Bool := typeEq item cjsonNull

def cjsonIsNumber (item : Ptr) : M Bool := typeEq item cjsonNumber

def cjsonIsString (item : Ptr) : M Bool := typeEq item cjsonString

def cjsonIsArray (item : Ptr) : M Bool := typeEq item cjsonArray

def cjsonIsObject (item : Ptr) : M Bool := typeEq item cjsonObject

def cjsonIsRaw (item : Ptr) : M Bool := typeEq item cjsonRaw

/-! ## Items of an array -/

/-- `c_int::MAX` -/
def intMax : Int := 2147483647

/-- The loop of `cJSON_GetArraySize`, with `saturating_add`. -/
def arraySizeLoop : Nat → Ptr → Int → M Int
  | _, none, count => return count
  | 0, some _, _ => diverge
  | fuel + 1, cur, count => do
    let count := min (count + 1) intMax
    let n ← load cur
    arraySizeLoop fuel n.next count

def cjsonGetArraySize (array : Ptr) : M Int := do
  if array.isNone then
    return 0
  let a ← load array
  let h ← get
  arraySizeLoop h.fuel a.child 0

/-- `i += 1`, which must not overflow. -/
def increment (i : Int) : M Int := if i < intMax then return i + 1 else Run.fault .outOfBounds

/-- The loop of `cJSON_GetArrayItem`. -/
def arrayItemLoop (index : Int) : Nat → Ptr → Int → M Ptr
  | _, none, _ => return none
  | 0, some _, _ => diverge
  | fuel + 1, cur, i =>
    if i = index then return cur
    else do
      let n ← load cur
      let i ← increment i
      arrayItemLoop index fuel n.next i

def cjsonGetArrayItem (array : Ptr) (index : Int) : M Ptr := do
  if array.isNone ∨ index < 0 then
    return none
  let a ← load array
  let h ← get
  arrayItemLoop index h.fuel a.child 0

/-! ## Lookup -/

/-- A letter without its case. -/
def asciiLower (c : Char) : Char :=
  if 'A' ≤ c ∧ c ≤ 'Z' then Char.ofNat (c.toNat + 32) else c

/-- `str::eq_ignore_ascii_case` -/
def eqIgnoreAsciiCase (s t : Str) : Bool := s.map asciiLower == t.map asciiLower

/-- The two modes of comparing a key of a member with a key. -/
def keysMatch (caseSensitive : Bool) (childKey key : Str) : Bool :=
  if caseSensitive then childKey == key else eqIgnoreAsciiCase childKey key

/-- The test of one member against the key. -/
def memberMatches (caseSensitive : Bool) (key : Str) (cur : Ptr) : M Bool := do
  let n ← load cur
  if n.string.isNone then
    return false
  match ← loadStr n.string with
  | none => return false
  | some childKey => return keysMatch caseSensitive childKey key

/-- The loop of `get_object_item_impl`. -/
def findMember (caseSensitive : Bool) (key : Str) : Nat → Ptr → M Ptr
  | _, none => return none
  | 0, some _ => diverge
  | fuel + 1, cur => do
    let matched ← memberMatches caseSensitive key cur
    if matched then
      return cur
    let n ← load cur
    findMember caseSensitive key fuel n.next

def getObjectItemImpl (object string : Ptr) (caseSensitive : Bool) : M Ptr := do
  if object.isNone ∨ string.isNone then
    return none
  match ← loadStr string with
  | none => return none
  | some key =>
    let o ← load object
    let h ← get
    findMember caseSensitive key h.fuel o.child

def cjsonGetObjectItem (object string : Ptr) : M Ptr := getObjectItemImpl object string false

def cjsonGetObjectItemCaseSensitive (object string : Ptr) : M Ptr :=
  getObjectItemImpl object string true

def cjsonHasObjectItem (object string : Ptr) : M Bool := do
  let item ← getObjectItemImpl object string false
  return item.isSome

/-! ## Values of scalars -/

def cjsonGetStringValue (item : Ptr) : M Ptr := do
  if item.isNone then
    return none
  let n ← load item
  if tag n.type_ ≠ cjsonString then
    return none
  return n.valuestring

/-- `f64::NAN` -/
def f64Nan : F64 := ⟨0x7FF8000000000000⟩

def cjsonGetNumberValue (item : Ptr) : M F64 := do
  if item.isNone then
    return f64Nan
  let n ← load item
  if tag n.type_ ≠ cjsonNumber then
    return f64Nan
  return n.valuedouble

/-! ## Conversion to a value -/

/-- The text of a `CJSON_STRING` or `CJSON_RAW` node, of a key: empty for `NULL`, `none` for
bytes that are not UTF-8. -/
def textOrEmpty (p : Ptr) : M (Option Str) := if p.isNone then pure (some []) else loadStr p

mutual

/-- The body of `cjson_to_value`. -/
def nodeToValue : Nat → Ptr → M (Option Value)
  | _, none => return none
  | 0, some _ => diverge
  | fuel + 1, item => do
    let n ← load item
    let t := tag n.type_
    if t = cjsonNull then return some .null
    else if t = cjsonTrue then return some (.bool true)
    else if t = cjsonFalse then return some (.bool false)
    else if t = cjsonNumber then return some (.number n.valuedouble)
    else if t = cjsonString ∨ t = cjsonRaw then do
      let s ← textOrEmpty n.valuestring
      return s.map .string
    else if t = cjsonArray then do
      let items ← itemsToValues fuel n.child
      return items.map .array
    else if t = cjsonObject then do
      let members ← membersToValues fuel n.child
      return members.map .object
    else return none

/-- The loop of `cjson_to_value` over the items of an array. -/
def itemsToValues : Nat → Ptr → M (Option (List Value))
  | _, none => return some []
  | 0, some _ => diverge
  | fuel + 1, cur => do
    match ← nodeToValue fuel cur with
    | none => return none
    | some v =>
      let n ← load cur
      let items ← itemsToValues fuel n.next
      return items.map (v :: ·)

/-- The loop of `cjson_to_value` over the members of an object. -/
def membersToValues : Nat → Ptr → M (Option (List (Str × Value)))
  | _, none => return some []
  | 0, some _ => diverge
  | fuel + 1, cur => do
    let n ← load cur
    match ← textOrEmpty n.string with
    | none => return none
    | some key =>
      match ← nodeToValue fuel cur with
      | none => return none
      | some v =>
        let members ← membersToValues fuel n.next
        return members.map ((key, v) :: ·)

end

/-- The `Value` of a tree, `none` for `NULL`, an unknown type or a string that is not UTF-8. -/
def cjsonToValue (item : Ptr) : M (Option Value) := fun h => nodeToValue h.fuel item h

end CjsonRs.Ffi
