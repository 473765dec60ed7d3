import CjsonRs.Core.Serialiser
import CjsonRs.Ffi.Query

/-!
# Printing a tree

The two printers of `cjson-rs-ffi/src/lib.rs`: `cJSON_PrintUnformatted` converts the tree to a
`Value` and serialises that, `cJSON_Print` walks the tree itself. The text goes into a fresh
buffer or, with `cJSON_PrintPreallocated`, into one of the caller.
-/

namespace CjsonRs.Ffi

open CjsonRs.Core Library

/-- `for _ in 0..n { out.push('\t') }` -/
def pushTabs (out : Str) (n : Nat) : Str := out ++ List.replicate n '\t'

/-- The characters of `write_escaped` are those of the core serialiser. -/
def writeEscaped (out s : Str) : Str :=
  s.foldl (fun out ch => out ++ escapeChar ch) (out ++ ['"']) ++ ['"']

/-- A key, empty for `NULL` and for bytes that are not UTF-8. -/
def writeKey (out : Str) (string : Ptr) : M Str := do
  if string.isNone then
    return out ++ ['"', '"']
  match ← loadStr string with
  | none => return out ++ ['"', '"']
  | some k => return writeEscaped out k

mutual

/-- The body of `write_cjson_pretty`. -/
def writeCjsonPretty (std : StdF64) : Nat → Str → Ptr → Nat → M Str
  | _, out, none, _ => return out ++ ['n', 'u', 'l', 'l']
  | 0, _, some _, _ => diverge
  | fuel + 1, out, item, depth => do
    let n ← load item
    let t := tag n.type_
    if t = cjsonNull then return out ++ ['n', 'u', 'l', 'l']
    else if t = cjsonTrue then return out ++ ['t', 'r', 'u', 'e']
    else if t = cjsonFalse then return out ++ ['f', 'a', 'l', 's', 'e']
    else if t = cjsonNumber then
      return if n.valuedouble.isFinite then out ++ std.display n.valuedouble
        else out ++ ['n', 'u', 'l', 'l']
    else if t = cjsonString then
      if n.valuestring.isNone then return out ++ ['"', '"']
      match ← loadStr n.valuestring with
      | some s => return writeEscaped out s
      | none => return out ++ ['"', '"']
    else if t = cjsonRaw then
      if n.valuestring.isNone then return out
      match ← loadStr n.valuestring with
      -- The text is emitted as it is.
      | some s => return out ++ s
      | none => return out
    else if t = cjsonArray then
      if n.child.isNone then return out ++ ['[', ']']
      let out ← writePrettyItems std fuel (out ++ ['[']) n.child true depth
      return out ++ [']']
    else if t = cjsonObject then
      if n.child.isNone then return out ++ ['{', '}']
      let out ← writePrettyMembers std fuel (out ++ ['{'] ++ ['\n']) n.child true depth
      return pushTabs (out ++ ['\n']) depth ++ ['}']
    else return out ++ ['n', 'u', 'l', 'l']

/-- The loop of `write_cjson_pretty` over the items of an array. -/
def writePrettyItems (std : StdF64) : Nat → Str → Ptr → Bool → Nat → M Str
  | _, out, none, _, _ => return out
  | 0, _, some _, _, _ => diverge
  | fuel + 1, out, cur, firstIter, depth => do
    let out := if !firstIter then out ++ [',', ' '] else out
    let out ← writeCjsonPretty std fuel out cur (depth + 1)
    let n ← load cur
    writePrettyItems std fuel out n.next false depth

/-- The loop of `write_cjson_pretty` over the members of an object. -/
def writePrettyMembers (std : StdF64) : Nat → Str → Ptr → Bool → Nat → M Str
  | _, out, none, _, _ => return out
  | 0, _, some _, _, _ => diverge
  | fuel + 1, out, cur, firstIter, depth => do
    let out := if !firstIter then out ++ [',', '\n'] else out
    let out := pushTabs out (depth + 1)
    let n ← load cur
    let out ← writeKey out n.string
    let out ← writeCjsonPretty std fuel (out ++ [':', '\t']) cur (depth + 1)
    let n ← load cur
    writePrettyMembers std fuel out n.next false depth

end

/-- The text of a tree, `none` when `cjson_to_value` has no value for it. -/
def printText (std : StdF64) (item : Ptr) (pretty : Bool) : M (Option Str) :=
  if pretty then do
    let h ← get
    let out ← writeCjsonPretty std h.fuel [] item 0
    return some out
  else do
    let value ← cjsonToValue item
    return value.map (serialise std)

def printImpl (std : StdF64) (item : Ptr) (pretty : Bool) : M Ptr := do
  if item.isNone then
    return none
  match ← printText std item pretty with
  | none => return none
  | some s => hookMallocBuf (encode s ++ [0])

/-- The text of a node is copied to a new buffer. -/
theorem printImpl_run {std : StdF64} {h : Heap} {a : Addr} {pretty : Bool} {s : Str}
    (hText : printText std (some a) pretty h = .ok (some s, h)) (hYes : h.outcomes 0 = true) :
    printImpl std (some a) pretty h = .ok (some h.brk, h.tick.pushBuf (encode s ++ [0])) := by
  rw [printImpl]
  show (printText std (some a) pretty >>= fun text => _) h = _
  rw [Run.bind_run_ok hText]
  show hookMallocBuf (encode s ++ [0]) h = _
  rw [hookMallocBuf, if_pos hYes]

def cjsonPrint (std : StdF64) (item : Ptr) : M Ptr := printImpl std item true

def cjsonPrintUnformatted (std : StdF64) (item : Ptr) : M Ptr := printImpl std item false

/-- The hint `_prebuffer` is ignored. -/
def cjsonPrintBuffered (std : StdF64) (item : Ptr) (_prebuffer fmt : Int) : M Ptr :=
  if fmt ≠ 0 then cjsonPrint std item else cjsonPrintUnformatted std item

/-! ## Printing into a buffer of the caller -/

/-- The heap with the first bytes of the buffer `b` at `s` overwritten. -/
def Heap.setBytes (h : Heap) (s : Addr) (b : Buf) (bytes : List UInt8) : Heap :=
  let b' := { b with bytes := bytes ++ b.bytes.drop bytes.length }
  { h with bufs := Function.update h.bufs s (some b') }

/-- `ptr::copy_nonoverlapping(bytes, buffer, bytes.len())`, and a NUL behind the bytes. -/
def storeText (buffer : Ptr) (bytes : List UInt8) : M Unit := fun h =>
  match buffer with
  | none => .error .null
  | some s =>
    match h.bufs s with
    | none => .error (.dangling s)
    | some b =>
      if bytes.length + 1 ≤ b.bytes.length then .ok ((), h.setBytes s b (bytes ++ [0]))
      else .error .outOfBounds

def cjsonPrintPreallocated (std : StdF64) (item buffer : Ptr) (length format : Int) :
    M Bool := do
  if item.isNone ∨ buffer.isNone ∨ length ≤ 0 then
    return false
  match ← printText std item (format ≠ 0) with
  | none => return false
  | some s =>
    let bytes := encode s
    let needed : Int := bytes.length + 1
    if needed > length then
      return false
    storeText buffer bytes
    return true

end CjsonRs.Ffi
