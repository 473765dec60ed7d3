import Mathlib.Data.BitVec
import Mathlib.Data.List.Basic

/-!
# The value model

`cjson-rs/src/value.rs`: seven value types, arrays as ordered sequences and objects as
ordered key-value sequences with duplicate keys kept. A Rust `String` is a list of
`Char`s (Lean's `Char` is a Unicode scalar value, as Rust's is).

`f64` is modelled by its IEEE 754 bit pattern. The two functions of the standard library
that convert between numbers and text, `str::parse::<f64>` and `Display for f64`, are the
fields of `StdF64`; what the crate relies on is stated where it is used.
-/

namespace CjsonRs.Core

/-- A Rust `String`, as the list of its `char`s. -/
abbrev Str := List Char

/-! ## `f64` -/

/-- An IEEE 754 double, as its bit pattern. -/
structure F64 where
  bits : BitVec 64
  deriving DecidableEq, Repr

namespace F64

/-- The biased exponent. -/
def exponent (x : F64) : Nat := x.bits.toNat / 2 ^ 52 % 2 ^ 11

/-- The 52 stored bits of the significand. -/
def fraction (x : F64) : Nat := x.bits.toNat % 2 ^ 52

/-- `f64::is_nan`. -/
def isNan (x : F64) : Bool := x.exponent == 2047 && x.fraction != 0

/-- `f64::is_finite`. -/
def isFinite (x : F64) : Bool := x.exponent != 2047

/-- `0.0` or `-0.0`. -/
def isZero (x : F64) : Bool := x.bits.toNat % 2 ^ 63 == 0

/-- `==` on `f64`: `NaN` differs from everything, the two zeros are equal. -/
def eq (x y : F64) : Bool :=
  !x.isNan && !y.isNan && (x == y || (x.isZero && y.isZero))

theorem eq_comm (x y : F64) : x.eq y = y.eq x := by
  have h : (x == y) = (y == x) := Bool.beq_comm
  simp only [eq, h, Bool.and_comm (!x.isNan), Bool.and_comm x.isZero]

theorem eq_trans {x y z : F64} (h : x.eq y = true) (h' : y.eq z = true) : x.eq z = true := by
  simp only [eq, Bool.and_eq_true, Bool.or_eq_true, beq_iff_eq] at *
  obtain ⟨⟨hx, -⟩, hxy⟩ := h
  obtain ⟨⟨-, hz⟩, hyz⟩ := h'
  refine ⟨⟨hx, hz⟩, ?_⟩
  rcases hxy with rfl | ⟨hx, hy⟩
  · exact hyz
  · rcases hyz with rfl | ⟨-, hz⟩
    · exact Or.inr ⟨hx, hy⟩
    · exact Or.inr ⟨hx, hz⟩

theorem eq_self {x : F64} (h : x.isNan = false) : x.eq x = true := by
  simp [eq, h]

theorem isNan_of_isFinite {x : F64} (h : x.isFinite = true) : x.isNan = false := by
  simp only [isFinite, bne_iff_ne, ne_eq] at h
  simp [isNan, h]

theorem isFinite_of_isZero {x : F64} (h : x.isZero = true) : x.isFinite = true := by
  simp only [isZero, beq_iff_eq] at h
  simp only [isFinite, exponent, bne_iff_ne, ne_eq]
  omega

/-- A number equal to a finite one is finite. -/
theorem isFinite_of_eq {x y : F64} (h : x.eq y = true) (hy : y.isFinite = true) :
    x.isFinite = true := by
  simp only [eq, Bool.and_eq_true, Bool.or_eq_true, beq_iff_eq] at h
  rcases h.2 with rfl | ⟨hx, -⟩
  · exact hy
  · exact isFinite_of_isZero hx

end F64

/-- The conversions of the standard library between `f64` and text. -/
structure StdF64 where
  /-- `str::parse::<f64>`, `none` for its error. -/
  parse : Str → Option F64
  /-- `Display for f64`, the text written by `write!(out, "{n}")`. -/
  display : F64 → Str

/-! ## Values -/

/-- `enum Value`. -/
inductive Value where
  | null
  | bool (b : Bool)
  | number (n : F64)
  | string (s : Str)
  | array (items : List Value)
  | object (members : List (Str × Value))
  deriving Repr

namespace Value

/-- Induction over a value whose containers hand down the hypothesis of every element. -/
@[elab_as_elim]
theorem induct {P : Value → Prop} (null : P .null) (bool : ∀ b, P (.bool b))
    (number : ∀ n, P (.number n)) (string : ∀ s, P (.string s))
    (array : ∀ items, (∀ v ∈ items, P v) → P (.array items))
    (object : ∀ members, (∀ m ∈ members, P m.2) → P (.object members)) : ∀ v, P v := by
  intro v
  refine @Value.rec P (fun items => ∀ v ∈ items, P v)
    (fun members => ∀ m ∈ members, P m.2) (fun m => P m.2)
    null bool number string array object ?_ ?_ ?_ ?_ ?_ v
  · simp
  · intro head tail hHead hTail
    simpa using ⟨hHead, hTail⟩
  · simp
  · intro head tail hHead hTail m hm
    rcases List.mem_cons.mp hm with rfl | hm
    · exact hHead
    · exact hTail m hm
  · intro _ _ h
    exact h

/-! ## Accessors -/

def isNull : Value → Bool
  | .null => true
  | _ => false

def isBool : Value → Bool
  | .bool _ => true
  | _ => false

def isNumber : Value → Bool
  | .number _ => true
  | _ => false

def isString : Value → Bool
  | .string _ => true
  | _ => false

def isArray : Value → Bool
  | .array _ => true
  | _ => false

def isObject : Value → Bool
  | .object _ => true
  | _ => false

def asBool : Value → Option Bool
  | .bool b => some b
  | _ => none

def asNumber : Value → Option F64
  | .number n => some n
  | _ => none

def asStr : Value → Option Str
  | .string s => some s
  | _ => none

def asArray : Value → Option (List Value)
  | .array items => some items
  | _ => none

def asObject : Value → Option (List (Str × Value))
  | .object members => some members
  | _ => none

/-! ## Values inside a value -/

/-- `Within u v`: the value `u` is `v` or stands somewhere inside it. -/
inductive Within (u : Value) : Value → Prop
  | refl : Within u u
  | item {items : List Value} {v : Value} (h : v ∈ items) (hWithin : Within u v) :
      Within u (.array items)
  | member {members : List (Str × Value)} {m : Str × Value} (h : m ∈ members)
      (hWithin : Within u m.2) : Within u (.object members)

theorem Within.sizeOf_le {u v : Value} (h : Within u v) : sizeOf u ≤ sizeOf v := by
  induction h with
  | refl => exact le_refl _
  | item hMem _ ih =>
    have := List.sizeOf_lt_of_mem hMem
    simp only [array.sizeOf_spec]
    omega
  | @member members m hMem _ ih =>
    have := List.sizeOf_lt_of_mem hMem
    obtain ⟨k, w⟩ := m
    simp only [object.sizeOf_spec, Prod.mk.sizeOf_spec] at *
    omega

/-- `P` holds of every string and every key inside a value. -/
structure Texts (P : Str → Prop) (v : Value) : Prop where
  string : ∀ s, Within (.string s) v → P s
  key : ∀ members, Within (.object members) v → ∀ m ∈ members, P m.1

section Texts

variable {P : Str → Prop} {s : Str} {items : List Value} {members : List (Str × Value)}

theorem texts_null : Texts P .null := ⟨nofun, nofun⟩

theorem texts_bool (b : Bool) : Texts P (.bool b) := ⟨nofun, nofun⟩

theorem texts_number (n : F64) : Texts P (.number n) := ⟨nofun, nofun⟩

theorem texts_string : Texts P (.string s) ↔ P s := by
  constructor
  · exact fun h => h.string s .refl
  · intro h
    refine ⟨fun t ht => ?_, fun members hMembers => by cases hMembers⟩
    cases ht
    exact h

theorem texts_array : Texts P (.array items) ↔ ∀ v ∈ items, Texts P v := by
  constructor
  · intro h v hv
    exact ⟨fun s hs => h.string s (.item hv hs), fun members hm => h.key members (.item hv hm)⟩
  · intro h
    constructor
    · intro s hs
      cases hs with
      | item hv hs => exact (h _ hv).string s hs
    · intro members hm
      cases hm with
      | item hv hm => exact (h _ hv).key members hm

theorem texts_object : Texts P (.object members) ↔ ∀ m ∈ members, P m.1 ∧ Texts P m.2 := by
  constructor
  · intro h m hm
    exact ⟨h.key members .refl m hm, fun s hs => h.string s (.member hm hs),
      fun ms hms => h.key ms (.member hm hms)⟩
  · intro h
    constructor
    · intro s hs
      cases hs with
      | member hm hs => exact (h _ hm).2.string s hs
    · intro ms hms
      cases hms with
      | refl => exact fun m hm => (h m hm).1
      | member hm hms => exact (h _ hm).2.key ms hms

end Texts

mutual

/-- How deep arrays and objects nest in a value. -/
def depth : Value → Nat
  | .null => 0
  | .bool _ => 0
  | .number _ => 0
  | .string _ => 0
  | .array items => depthItems items + 1
  | .object members => depthMembers members + 1

/-- The greatest depth of an element. -/
def depthItems : List Value → Nat
  | [] => 0
  | v :: items => max v.depth (depthItems items)

/-- The greatest depth of a member's value. -/
def depthMembers : List (Str × Value) → Nat
  | [] => 0
  | (_, v) :: members => max v.depth (depthMembers members)

end

/-! ## Equality -/

mutual

/-- `#[derive(PartialEq)]`: numbers are compared with `==` on `f64`. -/
def eq : Value → Value → Bool
  | .null, .null => true
  | .bool b, .bool b' => b == b'
  | .number n, .number n' => n.eq n'
  | .string s, .string s' => s == s'
  | .array items, .array items' => eqItems items items'
  | .object members, .object members' => eqMembers members members'
  | _, _ => false

def eqItems : List Value → List Value → Bool
  | [], [] => true
  | v :: items, v' :: items' => v.eq v' && eqItems items items'
  | _, _ => false

def eqMembers : List (Str × Value) → List (Str × Value) → Bool
  | [], [] => true
  | (k, v) :: members, (k', v') :: members' => k == k' && v.eq v' && eqMembers members members'
  | _, _ => false

end

/-! ## Values by their numbers -/

mutual

/-- A value with every number replaced by what `f` gives for it. -/
def mapNumbers (f : F64 → Value) : Value → Value
  | .null => .null
  | .bool b => .bool b
  | .number n => f n
  | .string s => .string s
  | .array items => .array (mapItems f items)
  | .object members => .object (mapMembers f members)

def mapItems (f : F64 → Value) : List Value → List Value
  | [] => []
  | v :: items => v.mapNumbers f :: mapItems f items

def mapMembers (f : F64 → Value) : List (Str × Value) → List (Str × Value)
  | [] => []
  | (k, v) :: members => (k, v.mapNumbers f) :: mapMembers f members

end

/-- A value with its non-finite numbers replaced by `null`. -/
def nullify (v : Value) : Value := v.mapNumbers fun n => if n.isFinite then .number n else .null

variable {f g : F64 → Value}

/-- Replacing numbers by scalars keeps the depth. -/
theorem depth_mapNumbers (hf : ∀ n, (f n).depth = 0) (v : Value) :
    (v.mapNumbers f).depth = v.depth := by
  refine @Value.rec (fun v => (v.mapNumbers f).depth = v.depth)
    (fun items => depthItems (mapItems f items) = depthItems items)
    (fun members => depthMembers (mapMembers f members) = depthMembers members)
    (fun m => (m.2.mapNumbers f).depth = m.2.depth)
    rfl (fun _ => rfl) hf (fun _ => rfl) ?_ ?_ rfl ?_ rfl ?_ (fun _ _ h => h) v
  · intro items ih
    simp only [mapNumbers, depth, ih]
  · intro members ih
    simp only [mapNumbers, depth, ih]
  · intro v items ihv ih
    simp only [mapItems, depthItems, ihv, ih]
  · intro m members ihm ih
    simp only [mapMembers, depthMembers, ihm, ih]

/-- Equal replacements give equal values. -/
theorem eq_mapNumbers (h : ∀ n, (f n).eq (g n) = true) (v : Value) :
    (v.mapNumbers f).eq (v.mapNumbers g) = true := by
  refine @Value.rec (fun v => (v.mapNumbers f).eq (v.mapNumbers g) = true)
    (fun items => eqItems (mapItems f items) (mapItems g items) = true)
    (fun members => eqMembers (mapMembers f members) (mapMembers g members) = true)
    (fun m => (m.2.mapNumbers f).eq (m.2.mapNumbers g) = true)
    rfl ?_ h ?_ ?_ ?_ rfl ?_ rfl ?_ (fun _ _ h => h) v
  · intro b
    simp only [mapNumbers, eq, beq_self_eq_true]
  · intro s
    simp only [mapNumbers, eq, beq_self_eq_true]
  · intro items ih
    simpa only [mapNumbers, eq] using ih
  · intro members ih
    simpa only [mapNumbers, eq] using ih
  · intro v items ihv ih
    simp only [mapItems, eqItems, ihv, ih, Bool.and_self]
  · intro m members ihm ih
    simp only [mapMembers, eqMembers, beq_self_eq_true, ihm, ih, Bool.and_self]

end Value

end CjsonRs.Core
