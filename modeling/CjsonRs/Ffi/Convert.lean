import CjsonRs.Ffi.Heap

/-!
# Between values and nodes

`cjson-rs-ffi/src/convert.rs`: allocation of nodes and strings, the tree of a `Value`, the
recursive free, the list operations and the recursive copy. A `while` loop over a list is a
recursion on fuel, which every list without a cycle leaves unspent; without fuel left the
call does not return.
-/

namespace CjsonRs.Ffi

open CjsonRs.Core Library

/-! ## Numbers -/

/-- A finite number without its fractional part. -/
def truncate (n : F64) : Int :=
  let significand := if n.exponent = 0 then n.fraction else 2 ^ 52 + n.fraction
  let magnitude := if 1075 ≤ n.exponent then significand * 2 ^ (n.exponent - 1075)
    else significand / 2 ^ (1075 - n.exponent)
  if n.bits.toNat < 2 ^ 63 then magnitude else -magnitude

/-- Saturating cast f64 → c_int; the bounds are integers, so comparing the number with them
is comparing its integer part. -/
def clampToInt (n : F64) : Int :=
  if n.isNan then 0
  else if 2147483647 ≤ truncate n then 2147483647
  else if truncate n ≤ -2147483648 then -2147483648
  else truncate n

theorem truncate_zero : truncate ⟨0⟩ = 0 := by
  have hExp : (⟨0⟩ : F64).exponent = 0 := rfl
  have hFrac : (⟨0⟩ : F64).fraction = 0 := rfl
  have hLe : ¬ 1075 ≤ 0 := by omega
  simp only [truncate, hExp, hFrac, if_neg hLe, Nat.zero_div, reduceIte, ite_self, Nat.cast_zero,
    neg_zero]

theorem clampToInt_zero : clampToInt ⟨0⟩ = 0 := by
  have hNan : (⟨0⟩ : F64).isNan = false := rfl
  rw [clampToInt, truncate_zero, hNan]
  rfl

/-! ## Allocation -/

/-- Allocate a zero-initialised node. -/
def allocNode : M Ptr := hookMallocNode .zeroed

/-- Copy a `&str` into a fresh, NUL-terminated buffer. -/
def allocCstr (s : Str) : M Ptr := hookMallocBuf (encode s ++ [0])

/-- Allocate an empty node of the given type. -/
def newNode (t : TypeWord) : M Ptr := do
  let n ← allocNode
  if n.isNone then
    return none
  store n ({ · with type_ := t })
  return n

/-! ## Free -/

mutual

/-- The body of `free_cjson`. -/
def freeNode : Nat → Ptr → M Unit
  | _, none => pure ()
  | 0, some _ => diverge
  | fuel + 1, node => do
    let n ← load node
    -- Only walk into children if we own them.
    if !n.isRef then
      freeChildren fuel n.child
      let n ← load node
      hookFree (n.valuestring.map .buf)
    let n ← load node
    if n.string.isSome ∧ !n.constKey then
      hookFree (n.string.map .buf)
    hookFree (node.map .node)

/-- The loop of `free_cjson` over the children. -/
def freeChildren : Nat → Ptr → M Unit
  | _, none => pure ()
  | 0, some _ => diverge
  | fuel + 1, cur => do
    let n ← load cur
    freeNode fuel cur
    freeChildren fuel n.next

end

/-- Recursively free a tree. -/
def freeCjson (node : Ptr) : M Unit := fun h => freeNode h.fuel node h

/-! ## Lists of children -/

/-- Walk to the tail of a list. -/
def findTail : Nat → Addr → M Addr
  | 0, _ => diverge
  | fuel + 1, tail => do
    let n ← load (some tail)
    match n.next with
    | none => return tail
    | some next => findTail fuel next

/-- Attach `child` to `parent`'s list of children (append at tail). -/
def attachChild (parent child : Ptr) : M Unit := do
  let p ← load parent
  match p.child with
  | none =>
    store parent ({ · with child := child })
    store child ({ · with prev := none })
    store child ({ · with next := none })
  | some first =>
    let h ← get
    let tail ← findTail h.fuel first
    store (some tail) ({ · with next := child })
    store child ({ · with prev := some tail })
    store child ({ · with next := none })

/-- Unlink `item` from its parent's list of children. -/
def detach (parent item : Ptr) : M Unit := do
  if item.isNone then
    return
  let i ← load item
  let prev := i.prev
  let next := i.next
  if prev.isSome then
    store prev ({ · with next := next })
  else if parent.isSome then
    store parent ({ · with child := next })
  if next.isSome then
    store next ({ · with prev := prev })
  store item ({ · with next := none })
  store item ({ · with prev := none })

/-- The loop of `child_at_index`. -/
def childAtIndexLoop (which : Int) : Nat → Ptr → Int → M Ptr
  | _, none, _ => return none
  | 0, some _, _ => diverge
  | fuel + 1, cur, i =>
    if i = which then return cur
    else do
      let n ← load cur
      childAtIndexLoop which fuel n.next (i + 1)

/-- Find the n-th child of `parent` (0-indexed), or NULL. -/
def childAtIndex (parent : Ptr) (which : Int) : M Ptr := do
  if parent.isNone ∨ which < 0 then
    return none
  let p ← load parent
  let h ← get
  childAtIndexLoop which h.fuel p.child 0

/-! ## Trees of values -/

/-- The body of the loop of `append_children` after the child is built: set its key, link it
behind `prev`. The link to continue from, or `none` on allocation failure. -/
def linkChild (parent prev : Ptr) (key : Option Str) (child : Ptr) : M (Option Ptr) := do
  if child.isNone then
    return none
  let keyed ← match key with
    | none => pure true
    | some k => do
      let string ← allocCstr k
      store child ({ · with string := string })
      if string.isNone then
        freeCjson child
        pure false
      else pure true
  if !keyed then
    return none
  store child ({ · with prev := prev })
  if prev.isNone then
    store parent ({ · with child := child })
  else
    store prev ({ · with next := child })
  return some child

mutual

/-- Convert a `Value` into a fresh tree. -/
def valueToCjson : Value → M Ptr
  | .null => do
    let node ← allocNode
    if node.isNone then
      return none
    store node ({ · with type_ := cjsonNull })
    return node
  | .bool b => do
    let node ← allocNode
    if node.isNone then
      return none
    store node ({ · with type_ := if b then cjsonTrue else cjsonFalse })
    return node
  | .number n => do
    let node ← allocNode
    if node.isNone then
      return none
    store node ({ · with type_ := cjsonNumber })
    store node ({ · with valuedouble := n })
    store node ({ · with valueint := clampToInt n })
    return node
  | .string s => do
    let node ← allocNode
    if node.isNone then
      return none
    store node ({ · with type_ := cjsonString })
    let valuestring ← allocCstr s
    store node ({ · with valuestring := valuestring })
    if valuestring.isNone then
      hookFree (node.map .node)
      return none
    return node
  | .array items => do
    let node ← allocNode
    if node.isNone then
      return none
    store node ({ · with type_ := cjsonArray })
    let appended ← appendItems node none items
    if !appended then
      freeCjson node
      return none
    return node
  | .object members => do
    let node ← allocNode
    if node.isNone then
      return none
    store node ({ · with type_ := cjsonObject })
    let appended ← appendMembers node none members
    if !appended then
      freeCjson node
      return none
    return node

/-- `append_children` over the items of an array. -/
def appendItems (parent prev : Ptr) : List Value → M Bool
  | [] => return true
  | value :: items => do
    let child ← valueToCjson value
    match ← linkChild parent prev none child with
    | none => return false
    | some prev => appendItems parent prev items

/-- `append_children` over the members of an object. -/
def appendMembers (parent prev : Ptr) : List (Str × Value) → M Bool
  | [] => return true
  | (key, value) :: members => do
    let child ← valueToCjson value
    match ← linkChild parent prev (some key) child with
    | none => return false
    | some prev => appendMembers parent prev members

end

/-! ## Copies -/

/-- Copy the string at `src`, if there is one and it is UTF-8, into a field of `node`; frees
`node` and returns `false` on allocation failure. -/
def duplicateString (node src : Ptr) (set : Ptr → CNode → CNode) : M Bool := do
  if src.isNone then
    return true
  match ← loadStr src with
  | none => return true
  | some s =>
    let buf ← allocCstr s
    store node (set buf)
    if buf.isNone then
      freeCjson node
      return false
    return true

mutual

/-- The body of `duplicate`. -/
def duplicateNode (recurse : Bool) : Nat → Ptr → M Ptr
  | _, none => return none
  | 0, some _ => diverge
  | fuel + 1, item => do
    let node ← allocNode
    if node.isNone then
      return none
    let i ← load item
    store node ({ · with type_ := clearFlags i.type_ })
    store node ({ · with valuedouble := i.valuedouble })
    store node ({ · with valueint := i.valueint })
    let copied ← duplicateString node i.valuestring fun p n => { n with valuestring := p }
    if !copied then
      return none
    let copied ← duplicateString node i.string fun p n => { n with string := p }
    if !copied then
      return none
    if recurse then
      let copied ← duplicateChildren fuel node i.child
      if !copied then
        return none
    return node

/-- The loop of `duplicate` over the children of its source. -/
def duplicateChildren : Nat → Ptr → Ptr → M Bool
  | _, _, none => return true
  | 0, _, some _ => diverge
  | fuel + 1, node, srcChild => do
    let dstChild ← duplicateNode true fuel srcChild
    if dstChild.isNone then
      freeCjson node
      return false
    attachChild node dstChild
    let s ← load srcChild
    duplicateChildren fuel node s.next

end

/-- Recursively clone a tree; without `recurse` only the root node is cloned. -/
def duplicate (item : Ptr) (recurse : Bool) : M Ptr :=
  fun h => duplicateNode recurse h.fuel item h

/-! ## Members -/

/-- Set `child.string` from `key` (a fresh copy), then attach to `parent`; `false` on
failure, with `child` still the caller's. -/
def attachNamedChild (parent key child : Ptr) : M Bool := do
  if parent.isNone ∨ key.isNone ∨ child.isNone then
    return false
  match ← loadStr key with
  | none => return false
  | some keyStr =>
    let keyBuf ← allocCstr keyStr
    if keyBuf.isNone then
      return false
    -- Free any pre-existing key.
    let c ← load child
    if c.string.isSome ∧ !c.constKey then
      hookFree (c.string.map .buf)
    store child fun n => { n with type_ := clearConst n.type_ }
    store child ({ · with string := keyBuf })
    attachChild parent child
    return true

end CjsonRs.Ffi
