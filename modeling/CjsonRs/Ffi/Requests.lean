import CjsonRs.Ffi.Calls
import CjsonRs.Ffi.Compare
import CjsonRs.Ffi.Minify
import CjsonRs.Ffi.Print

/-!
# The whole interface

The calls of `Call` build, change and delete trees. A request is any function of the interface
that works on the heap: one of these, a printer, a reader of a tree, or one that handles a
block of memory. A client makes requests, each of which may depend on the answers before it.
-/

namespace CjsonRs.Ffi

open CjsonRs.Core Library

/-- `cJSON_Minify` on a buffer of the heap. -/
def minifyAt (json : Ptr) : M Unit := fun h =>
  match json with
  | none => .ok ((), h)
  | some s =>
    match h.bufs s with
    | none => .error (.dangling s)
    | some b =>
      match cjsonMinify (some b.bytes) with
      | .ok (some bytes) => .ok ((), h.setBytes s b bytes)
      | .ok none => .ok ((), h)
      | .error .outside => .error (.unterminated s)
      | .error .diverges => .error .diverges

/-- The `cJSON_Is*` functions. -/
inductive TypeTest where
  | invalid
  | false
  | true
  | bool
  | null
  | number
  | string
  | array
  | object
  | raw

def TypeTest.run (item : Ptr) : TypeTest → M Bool
  | invalid => cjsonIsInvalid item
  | .false => cjsonIsFalse item
  | .true => cjsonIsTrue item
  | bool => cjsonIsBool item
  | null => cjsonIsNull item
  | number => cjsonIsNumber item
  | string => cjsonIsString item
  | array => cjsonIsArray item
  | object => cjsonIsObject item
  | raw => cjsonIsRaw item

/-- A function of the interface with its arguments. -/
inductive Request where
  | call (c : Call)
  | print (item : Ptr)
  | printUnformatted (item : Ptr)
  | printBuffered (item : Ptr) (prebuffer fmt : Int)
  | printPreallocated (item buffer : Ptr) (length format : Int)
  | minify (json : Ptr)
  | test (t : TypeTest) (item : Ptr)
  | getArraySize (array : Ptr)
  | getArrayItem (array : Ptr) (index : Int)
  | getObjectItem (object string : Ptr)
  | getObjectItemCaseSensitive (object string : Ptr)
  | hasObjectItem (object string : Ptr)
  | getStringValue (item : Ptr)
  | getNumberValue (item : Ptr)
  | compare (a b : Ptr) (caseSensitive : Int)
  | setNumberHelper (object : Ptr) (number : F64)
  | getErrorPtr
  | malloc (bytes : List UInt8)
  | free (object : Option Block)

/-- What a request returns. -/
inductive Answer where
  | reply (r : Reply)
  | int (n : Int)
  | double (x : F64)
  | charPtr (p : CharPtr)
  deriving DecidableEq, Repr

namespace Answer

def item (p : Ptr) : Answer := .reply (.item p)

def flag (b : Bool) : Answer := .reply (.flag b)

def done : Answer := .reply .done

end Answer

def Request.run (std : StdF64) : Request → M Answer
  | call c => .reply <$> c.run std
  | print item => .item <$> cjsonPrint std item
  | printUnformatted item => .item <$> cjsonPrintUnformatted std item
  | printBuffered item prebuffer fmt => .item <$> cjsonPrintBuffered std item prebuffer fmt
  | printPreallocated item buffer length format =>
    .flag <$> cjsonPrintPreallocated std item buffer length format
  | minify json => (fun _ => .done) <$> minifyAt json
  | test t item => .flag <$> t.run item
  | getArraySize array => .int <$> cjsonGetArraySize array
  | getArrayItem array index => .item <$> cjsonGetArrayItem array index
  | getObjectItem object string => .item <$> cjsonGetObjectItem object string
  | getObjectItemCaseSensitive object string =>
    .item <$> cjsonGetObjectItemCaseSensitive object string
  | hasObjectItem object string => .flag <$> cjsonHasObjectItem object string
  | getStringValue item => .item <$> cjsonGetStringValue item
  | getNumberValue item => .double <$> cjsonGetNumberValue item
  | compare a b caseSensitive => .flag <$> cjsonCompare a b caseSensitive
  | setNumberHelper object number => .double <$> cjsonSetNumberHelper object number
  | getErrorPtr => .charPtr <$> cjsonGetErrorPtr
  | malloc bytes => .item <$> cjsonMalloc bytes
  | free object => (fun _ => .done) <$> cjsonFree object

/-- A program that uses the library. -/
inductive Client (α : Type) where
  | finish (a : α)
  | ask (q : Request) (next : Answer → Client α)

def Client.run (std : StdF64) {α : Type} : Client α → M α
  | finish a => pure a
  | ask q next => do
    let r ← q.run std
    (next r).run std

end CjsonRs.Ffi
