import CjsonRs.Ffi.Types
import CjsonRs.Library.Run
import CjsonRs.Library.Utf8
import Mathlib.Data.List.TakeWhile
import Mathlib.Logic.Function.Basic

/-!
# The C heap

The memory behind the raw pointers of `cjson-rs-ffi`: live nodes and live character buffers,
each buffer the library's (from `hook_malloc`) or the caller's. Fresh blocks get addresses
that were never in use, so a dangling pointer stays dangling.

`cjson-rs-ffi/src/alloc_hooks.rs` decides by the caller's hooks whether an allocation
succeeds: `outcomes n` is the answer to the `n`-th call from now on. What the free hook is
handed wrongly (a dead block, or a buffer of the caller) is recorded in `misuses`, without
any other effect. Reading through `NULL` or a dangling pointer, reading a buffer without a
terminating NUL, and a loop or recursion without end are faults. `panic_guard::guard` is
the identity here: no modelled body panics.
-/

namespace CjsonRs.Ffi

open CjsonRs.Core Library

/-- A character buffer, and whether it came from `hook_malloc`. -/
structure Buf where
  bytes : List UInt8
  owned : Bool
  deriving DecidableEq, Repr

/-- What a node or a buffer is handed to the free hook as. -/
inductive Block where
  | node (a : Addr)
  | buf (s : Addr)
  deriving DecidableEq, Repr

/-- The state behind the pointers. -/
structure Heap where
  nodes : Addr → Option CNode
  bufs : Addr → Option Buf
  /-- The first address that was never in use. -/
  brk : Addr
  /-- Whether the next calls of the malloc hook succeed. -/
  outcomes : Nat → Bool
  /-- What the free hook was handed wrongly. -/
  misuses : List Block
  /-- `LAST_ERROR_PTR`: a buffer of the caller and an offset into it. -/
  lastError : Option (Addr × Nat)

/-- Undefined behaviour, or a call that does not return. -/
inductive Fault where
  | null
  | dangling (a : Addr)
  | unterminated (s : Addr)
  | outOfBounds
  | diverges
  deriving DecidableEq, Repr

/-- A call into the library. -/
abbrev M (α : Type) := Run Heap Fault α

namespace Heap

/-- The heap with a node set. -/
def setNode (h : Heap) (a : Addr) (n : CNode) : Heap :=
  { h with nodes := Function.update h.nodes a (some n) }

/-- The heap without a node. -/
def dropNode (h : Heap) (a : Addr) : Heap :=
  { h with nodes := Function.update h.nodes a none }

/-- The heap without a buffer. -/
def dropBuf (h : Heap) (s : Addr) : Heap :=
  { h with bufs := Function.update h.bufs s none }

/-- One answer of the malloc hook is used up. -/
def tick (h : Heap) : Heap := { h with outcomes := fun n => h.outcomes (n + 1) }

/-- The heap with a new node at the break. -/
def pushNode (h : Heap) (n : CNode) : Heap :=
  { h with nodes := Function.update h.nodes h.brk (some n), brk := h.brk + 1 }

/-- The heap with a new buffer of the library at the break. -/
def pushBuf (h : Heap) (bytes : List UInt8) : Heap :=
  { h with bufs := Function.update h.bufs h.brk (some ⟨bytes, true⟩), brk := h.brk + 1 }

/-- Fuel for loops and recursions: every path through live nodes without a repetition is
shorter. -/
def fuel (h : Heap) : Nat := 2 * h.brk + 2

/-- `hook_free` on a block. -/
def free (h : Heap) : Block → Heap
  | .node a =>
    if (h.nodes a).isSome then h.dropNode a else { h with misuses := h.misuses ++ [.node a] }
  | .buf s =>
    if (h.bufs s).any Buf.owned then h.dropBuf s
    else { h with misuses := h.misuses ++ [.buf s] }

/-- `hook_free` on a sequence of blocks. -/
def freeAll (h : Heap) (blocks : List Block) : Heap := blocks.foldl free h

end Heap

/-! ## Primitives -/

/-- `CStr::from_ptr(s).to_bytes()` of a buffer: the bytes in front of the first NUL. -/
def cstr (bytes : List UInt8) : List UInt8 := bytes.takeWhile (· ≠ 0)

/-- `*p` for a node. -/
def load : Ptr → M CNode
  | none => Run.fault .null
  | some a => fun h =>
    match h.nodes a with
    | none => .error (.dangling a)
    | some n => .ok (n, h)

/-- Assign to fields of `*p`. -/
def store : Ptr → (CNode → CNode) → M Unit
  | none, _ => Run.fault .null
  | some a, f => fun h =>
    match h.nodes a with
    | none => .error (.dangling a)
    | some n => .ok ((), h.setNode a (f n))

/-- `CStr::from_ptr(p).to_bytes()` -/
def loadBytes : Ptr → M (List UInt8)
  | none => Run.fault .null
  | some s => fun h =>
    match h.bufs s with
    | none => .error (.dangling s)
    | some b => if 0 ∈ b.bytes then .ok (cstr b.bytes, h) else .error (.unterminated s)

/-- `CStr::from_ptr(p).to_str()`, `none` for bytes that are not UTF-8. -/
def loadStr (p : Ptr) : M (Option Str) := do
  let bytes ← loadBytes p
  return fromUtf8 bytes

/-- `hook_free(p)`; NULL-safe. -/
def hookFree : Option Block → M Unit
  | none => pure ()
  | some b => fun h => .ok ((), h.free b)

/-- `hook_malloc(size_of::<cJSON>())`, filled with `n`. -/
def hookMallocNode (n : CNode) : M Ptr := fun h =>
  if h.outcomes 0 then .ok (some h.brk, h.tick.pushNode n) else .ok (none, h.tick)

/-- `hook_malloc(bytes.len())`, filled with `bytes`. -/
def hookMallocBuf (bytes : List UInt8) : M Ptr := fun h =>
  if h.outcomes 0 then .ok (some h.brk, h.tick.pushBuf bytes) else .ok (none, h.tick)

/-- The call does not return. -/
def diverge {α : Type} : M α := Run.fault .diverges

/-! ## Running the primitives -/

section Run

variable {h h' : Heap} {a s : Addr} {n : CNode} {b : Buf}

theorem load_run (ha : h.nodes a = some n) : load (some a) h = .ok (n, h) := by
  simp only [load, ha]

theorem store_run (ha : h.nodes a = some n) (f : CNode → CNode) :
    store (some a) f h = .ok ((), h.setNode a (f n)) := by
  simp only [store, ha]

theorem loadBytes_run (hs : h.bufs s = some b) (hNul : 0 ∈ b.bytes) :
    loadBytes (some s) h = .ok (cstr b.bytes, h) := by
  simp only [loadBytes, hs, if_pos hNul]

theorem loadStr_run (hs : h.bufs s = some b) (hNul : 0 ∈ b.bytes) :
    loadStr (some s) h = .ok (fromUtf8 (cstr b.bytes), h) := by
  rw [loadStr, Run.bind_run_ok (loadBytes_run hs hNul), Run.pure_run]

/-- A successful read of a node. -/
theorem load_eq_ok {p : Ptr} (hLoad : load p h = .ok (n, h')) :
    ∃ a, p = some a ∧ h.nodes a = some n ∧ h' = h := by
  cases p with
  | none => cases hLoad
  | some a =>
    simp only [load] at hLoad
    split at hLoad
    · cases hLoad
    · rename_i m hm
      cases hLoad
      exact ⟨a, rfl, hm, rfl⟩

/-- A successful read of a string leaves the heap alone. -/
theorem loadStr_eq_ok {p : Ptr} {r : Option Str} (hLoad : loadStr p h = .ok (r, h')) :
    ∃ s b, p = some s ∧ h.bufs s = some b ∧ 0 ∈ b.bytes ∧ r = fromUtf8 (cstr b.bytes) ∧
      h' = h := by
  rw [loadStr, Run.bind_run_eq_ok] at hLoad
  obtain ⟨bytes, h₁, hBytes, hPure⟩ := hLoad
  cases hPure
  cases p with
  | none => cases hBytes
  | some s =>
    simp only [loadBytes] at hBytes
    split at hBytes
    · cases hBytes
    · rename_i b hb
      split_ifs at hBytes with hNul
      cases hBytes
      exact ⟨s, b, rfl, hb, hNul, rfl, rfl⟩

end Run

namespace Heap

variable {h : Heap} {a x s : Addr} {n : CNode}

/-! ## Fields after an update -/

@[simp] theorem setNode_bufs : (h.setNode a n).bufs = h.bufs := rfl
@[simp] theorem setNode_brk : (h.setNode a n).brk = h.brk := rfl
@[simp] theorem setNode_outcomes : (h.setNode a n).outcomes = h.outcomes := rfl
@[simp] theorem setNode_misuses : (h.setNode a n).misuses = h.misuses := rfl
@[simp] theorem setNode_lastError : (h.setNode a n).lastError = h.lastError := rfl

@[simp] theorem setNode_self : (h.setNode a n).nodes a = some n := by simp [setNode]

theorem setNode_ne (hx : x ≠ a) : (h.setNode a n).nodes x = h.nodes x := by
  simp [setNode, Function.update_of_ne hx]

@[simp] theorem tick_nodes : h.tick.nodes = h.nodes := rfl
@[simp] theorem tick_bufs : h.tick.bufs = h.bufs := rfl
@[simp] theorem tick_brk : h.tick.brk = h.brk := rfl
@[simp] theorem tick_misuses : h.tick.misuses = h.misuses := rfl

@[simp] theorem freeAll_nil : h.freeAll [] = h := rfl

@[simp] theorem freeAll_append (B B' : List Block) :
    h.freeAll (B ++ B') = (h.freeAll B).freeAll B' := List.foldl_append

@[simp] theorem freeAll_singleton (b : Block) : h.freeAll [b] = h.free b := rfl

@[simp] theorem free_brk (b : Block) : (h.free b).brk = h.brk := by
  cases b <;> simp only [free] <;> split <;> rfl

@[simp] theorem freeAll_brk (B : List Block) : (h.freeAll B).brk = h.brk := by
  induction B generalizing h with
  | nil => rfl
  | cons b B ih => exact ih.trans (free_brk b)

end Heap

end CjsonRs.Ffi
