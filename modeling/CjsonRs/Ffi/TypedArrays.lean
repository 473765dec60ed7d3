import CjsonRs.Ffi.Calls
import CjsonRs.Ffi.FromValue
import CjsonRs.Ffi.Getters
import CjsonRs.Ffi.RoundTrip
import Mathlib.Algebra.Field.Rat
import Mathlib.Algebra.Order.Ring.Abs

/-!
# Typed arrays

The typed arrays build an array with `attach_child`, which walks to the last child for every
item. `value_to_cjson` keeps the last child at hand. Both do the same on every heap, whichever
allocations fail.
-/

namespace CjsonRs.Ffi

open CjsonRs.Core Library Library.Link Library.Forest

variable {g g' h h' h₀ : Heap} {a i p s : Addr} {n m : CNode} {c q : Ptr} {ks as : List Addr}
  {kids kids' : Addr → List Addr} {u : Rose Content} {us : List (Rose Content)} {T : Type}
  {d : Content}

/-! ## Two ways to add a child -/

/-- The list of children and the other fields say what a heap is after an edit. -/
theorem Spliced.unique (hG : Spliced h g p ks as) (hG' : Spliced h g' p ks as)
    (hW : Rewritten h g g.link (setChild h.body p c))
    (hW' : Rewritten h g' g'.link (setChild h.body p q))
    (hOff : ∀ x ∈ as, x ∉ ks → g'.link x = g.link x) : g' = g := by
  obtain ⟨w, c₁, hShape, hShape₁, hList⟩ := hG.list
  obtain ⟨w', c₂, hShape', hShape₂, hList'⟩ := hG'.list
  cases hShape.symm.trans hShape'
  obtain ⟨hHead, hLinks⟩ := hList.links_eq hList'
  have hLink : g'.link = g.link := by
    funext x
    by_cases hx : x ∈ ks
    · exact hLinks x hx
    · by_cases hx' : x ∈ as
      · exact hOff x hx' hx
      · rw [hG'.off x hx', hG.off x hx']
  have hChild : ∀ {k : Heap} {r e : Ptr}, Rewritten h k k.link (setChild h.body p r) →
      k.shape p = some (w.1, e) → r = e := by
    intro k r e hR hS
    obtain ⟨b, hb⟩ : ∃ b, h.body p = some b := by
      have hSome : (h.body p).isSome := by
        rw [isSome_body]
        unfold Heap.shape at hShape
        exact Option.isSome_iff_exists.mpr ⟨_, (Option.map_eq_some_iff.mp hShape).choose_spec.1⟩
      exact Option.isSome_iff_exists.mp hSome
    have hBody : k.body p = some { b with child := r } := by
      rw [hR.body, setChild_self hb]
    rw [shape_of_body hBody] at hS
    exact congrArg Prod.snd (Option.some.inj hS)
  have hBody : g'.body = g.body := by
    rw [hW'.body, hW.body, hChild hW hShape₁, hChild hW' hShape₂, hHead]
  have hNodes : g'.nodes = g.nodes := by
    funext x
    exact nodes_congr (by rw [hLink]) (by rw [hBody])
  rw [hW'.rest, hW.rest, hNodes]

/-- Walking to the last child, or having it at hand. -/
theorem attachChild_eq_placeLast (hBounded : h.Bounded) (hp : h.body p = some m)
    (hList : IsList h.link m.child ks) (hNodup : ks.Nodup) (hi : h.link i = some ⟨none, none⟩)
    (hNew : i ∉ ks) :
    attachChild (some p) (some i) h = placeLast p ks.getLast? i h := by
  have hLive : (h.link i).isSome := by
    rw [hi]
    rfl
  obtain ⟨g, c, hRun, hSpliced, hW⟩ := attachChild_run hBounded hp hList hNodup hLive hNew
  obtain ⟨g', c', hRun', hSpliced', hW', -⟩ := placeLast_run hp hList hNodup hi hNew
  rw [hRun, hRun', hSpliced.unique hSpliced' hW hW' fun x hx hNot => absurd hx hNot]

/-! ## The loops -/

/-- The call builds what `value_to_cjson` builds, on every heap that has grown out of `h₀`. -/
def Makes (h₀ : Heap) (mk : M Ptr) (w : Value) : Prop :=
  ∀ g, Extends h₀ g → g.Bounded → mk g = valueToCjson w g

/-- What `value_to_cjson` does with a new array. -/
def finish (a : Addr) (appended : Bool) : M Ptr := do
  if !appended then
    freeCjson (some a)
    return none
  return some a

/-- A new tree is put behind the children of the one before it, in both ways. -/
theorem attach_eq_link (hFormed : Formed h g kids a (.node d us)) (hChild : Formed g g' kids' i u)
    (f : M Ptr) (f' : Ptr → M Ptr)
    (hf : ∀ k kids'', Formed h k kids'' a (.node d (us ++ [u])) →
      (kids'' a).getLast? = some i → f k = f' (some i) k) :
    (attachChild (some a) (some i) >>= fun _ => f) g' =
      (linkChild (some a) (kids a).getLast? none (some i) >>= fun prev => match prev with
        | none => finish a false
        | some prev => f' prev) g' := by
  obtain ⟨n, hn, hList, hNodup, hNew⟩ := hFormed.slot hChild
  obtain ⟨k, kids'', hRun, ⟨hPlaced, -⟩, hLast⟩ := hFormed.placeLast hChild
  have hRun' := attachChild_eq_placeLast hChild.grown.bounded (body_eq hn) hList hNodup hChild.link
    hNew
  rw [hRun] at hRun'
  have hLink : linkChild (some a) (kids a).getLast? none (some i) g' = .ok (some (some i), k) := by
    rw [linkChild_item, Run.bind_run_ok hRun]
    rfl
  rw [Run.bind_run_ok hRun', Run.bind_run_ok hLink]
  exact hf k kids'' hPlaced hLast

theorem appendItems_cons (parent prev : Ptr) (w : Value) (ws : List Value) :
    appendItems parent prev (w :: ws) = (do
      let child ← valueToCjson w
      match ← linkChild parent prev none child with
      | none => return false
      | some prev => appendItems parent prev ws) := rfl

/-- The loop of the typed arrays does what `append_children` does. -/
theorem fillArray_eq_appendItems {mk : T → M Ptr} {vs : List T} {ws : List Value}
    (hMakes : List.Forall₂ (fun v w => Makes h₀ (mk v) w) vs ws) (rest : List T)
    (hFrom : Extends h₀ h) (hFormed : Formed h g kids a (.node d us)) :
    fillArray mk (some a) vs.length (vs ++ rest) g =
      (appendItems (some a) (kids a).getLast? ws >>= finish a) g := by
  induction hMakes generalizing g kids us with
  | nil =>
    rw [appendItems]
    rfl
  | @cons v w vs ws hv hMakes ih =>
    have hSame := hv g (hFrom.trans hFormed.grown.ext) hFormed.grown.bounded
    rw [List.length_cons, List.cons_append, fillArray_succ, appendItems_cons, bind_assoc]
    rcases forms_valueToCjson w g hFormed.grown.bounded with
      ⟨-, q, g', hRun, -, i, kids', rfl, hChild⟩ | ⟨-, q, g', hRun, rfl, hNone⟩
    · rw [Run.bind_run_ok (hSame.trans hRun), Run.bind_run_ok hRun]
      have hStep := attach_eq_link hFormed hChild (fillArray mk (some a) vs.length (vs ++ rest))
        (fun prev => appendItems (some a) prev ws >>= finish a) fun k kids'' hPlaced hLast => by
          have hRest := ih hPlaced
          rw [hLast] at hRest
          exact hRest
      refine (show _ = _ from hStep).trans ?_
      rw [bind_assoc]
      refine congrFun (congrArg _ (funext fun prev => ?_)) g'
      cases prev <;> rfl
    · rw [Run.bind_run_ok (hSame.trans hRun), Run.bind_run_ok hRun]
      rfl

/-- A typed array is the array of its values. -/
theorem createTypedArray_eq {mk : T → M Ptr} {vs : List T} {count : Int} {ws : List Value}
    (hBounded : h.Bounded) (hNat : 0 ≤ count) (hCount : count.toNat ≤ vs.length)
    (hMakes : List.Forall₂ (fun v w => Makes h (mk v) w) (vs.take count.toNat) ws) :
    createTypedArray mk (some vs) count h = valueToCjson (.array ws) h := by
  have hRef : isReference cjsonArray = false := rfl
  have hConst : isConst cjsonArray = false := rfl
  have hHead : createTypedArray mk (some vs) count = (do
      let arr ← newNode cjsonArray
      if arr.isNone then
        return none
      fillArray mk arr count.toNat vs) := if_neg (Int.not_lt.mpr hNat)
  rw [hHead, valueToCjson_array]
  rcases forms_newNode hBounded hRef hConst with
    ⟨-, q, g, hRun, -, a, kids, rfl, hFormed⟩ | ⟨-, q, g, hRun, rfl, -⟩
  · rw [Run.bind_run_ok hRun, Run.bind_run_ok hRun]
    have hNil : kids a = [] := hFormed.bears.2
    have hFill := fillArray_eq_appendItems hMakes (vs.drop count.toNat) (Extends.refl h) hFormed
    rw [List.take_append_drop, List.length_take_of_le hCount, hNil] at hFill
    exact hFill
  · rw [Run.bind_run_ok hRun, Run.bind_run_ok hRun]
    rfl

/-! ## The four types -/

theorem makes_number (h₀ : Heap) (x : F64) : Makes h₀ (newNumber x) (.number x) :=
  fun g _ _ => (valueToCjson_number_run x g).symm

theorem makes_string {t : Str} (hBounded : h.Bounded) (hRead : h.Readable s)
    (ht : h.text (some s) = some t) :
    Makes h (createStringLike (some s) cjsonString) (.string t) := by
  intro g hFrom _
  obtain ⟨b, hb, hNul⟩ := hRead
  have hb' : g.bufs s = some b := (hFrom.bufs (hBounded.lt_buf hb)).trans hb
  have hText : g.text (some s) = some t := by
    rw [← ht]
    simp [Heap.text, hb, hb']
  have hLoad : loadStr (some s) g = .ok (some t, g) := by
    rw [loadStr_text ⟨b, hb', hNul⟩, hText]
  show (loadStr (some s) >>= fun text => _) g = _
  rw [Run.bind_run_ok hLoad, valueToCjson_string]

/-- The values that a typed array is given, if they are there. -/
def taken (values : Option (List T)) (count : Int) : Option (List T) :=
  if count < 0 then none else values.map (·.take count.toNat)

/-- The value of a typed array, if its values are there and its texts are UTF-8. -/
def Construct.value (h : Heap) : Construct → Option Value
  | .intArray numbers count =>
    (taken numbers count).map fun vs => .array (vs.map fun v => .number (f64OfInt v))
  | .floatArray numbers count =>
    (taken numbers count).map fun vs => .array (vs.map fun v => .number (f64OfF32 v))
  | .doubleArray numbers count => (taken numbers count).map fun vs => .array (vs.map .number)
  | .stringArray strings count => do
    let vs ← taken strings count
    let ws ← vs.mapM fun v => (h.text v).map Value.string
    return .array ws
  | _ => none

theorem taken_eq_some {values : Option (List T)} {count : Int} {vs : List T}
    (hTaken : taken values count = some vs) :
    0 ≤ count ∧ ∃ all, values = some all ∧ vs = all.take count.toNat := by
  rw [taken] at hTaken
  split_ifs at hTaken with hNeg
  obtain ⟨all, hAll, hTake⟩ := Option.map_eq_some_iff.mp hTaken
  exact ⟨Int.not_lt.mp hNeg, all, hAll, hTake.symm⟩

theorem createNumericArray_eq {values : Option (List T)} {count : Int} {vs : List T} (f : T → F64)
    (hBounded : h.Bounded) (hCounted : Counted (fun _ => True) values count)
    (hTaken : taken values count = some vs) :
    createNumericArray values count f h
      = valueToCjson (.array (vs.map fun v => .number (f v))) h := by
  obtain ⟨hNat, all, rfl, rfl⟩ := taken_eq_some hTaken
  refine createTypedArray_eq hBounded hNat (hCounted all rfl).1 ?_
  rw [List.forall₂_map_right_iff]
  exact List.forall₂_same.mpr fun v _ => makes_number h (f v)

theorem forall₂_of_mapM {α β : Type} {f : α → Option β} {xs : List α} {ys : List β}
    (h : xs.mapM f = some ys) : List.Forall₂ (fun x y => f x = some y) xs ys := by
  induction xs generalizing ys with
  | nil =>
    cases h
    exact .nil
  | cons x xs ih =>
    rw [List.mapM_cons] at h
    obtain ⟨y, hy, h⟩ := Option.bind_eq_some_iff.mp h
    obtain ⟨zs, hzs, h⟩ := Option.bind_eq_some_iff.mp h
    cases h
    exact .cons hy (ih hzs)

theorem createStringArray_eq {strings : Option (List Ptr)} {count : Int} {vs : List Ptr}
    {ws : List Value} (hBounded : h.Bounded)
    (hCounted : Counted (Construct.ReadablePtr h) strings count)
    (hTaken : taken strings count = some vs)
    (hTexts : (vs.mapM fun v => (h.text v).map Value.string) = some ws) :
    cjsonCreateStringArray strings count h = valueToCjson (.array ws) h := by
  obtain ⟨hNat, all, rfl, rfl⟩ := taken_eq_some hTaken
  obtain ⟨hCount, hRead⟩ := hCounted all rfl
  have hBoth := (List.forall₂_and_left _ _).mpr ⟨hRead, forall₂_of_mapM hTexts⟩
  refine createTypedArray_eq hBounded hNat hCount (hBoth.imp fun v w hv => ?_)
  obtain ⟨hPtr, hText⟩ := hv
  obtain ⟨t, ht, rfl⟩ := Option.map_eq_some_iff.mp hText
  cases v with
  | none => cases ht
  | some s => exact makes_string hBounded (hPtr s rfl) ht

/-- A typed array does on every heap what `value_to_cjson` does with the array of its values. -/
theorem Construct.run_eq_valueToCjson {k : Construct} {w : Value} (hBounded : h.Bounded)
    (hAdm : k.Admissible h) (hValue : k.value h = some w) : k.run h = valueToCjson w h := by
  cases k with
  | intArray numbers count =>
    obtain ⟨vs, hTaken, rfl⟩ := Option.map_eq_some_iff.mp hValue
    exact createNumericArray_eq f64OfInt hBounded hAdm hTaken
  | floatArray numbers count =>
    obtain ⟨vs, hTaken, rfl⟩ := Option.map_eq_some_iff.mp hValue
    exact createNumericArray_eq f64OfF32 hBounded hAdm hTaken
  | doubleArray numbers count =>
    obtain ⟨vs, hTaken, rfl⟩ := Option.map_eq_some_iff.mp hValue
    exact createNumericArray_eq id hBounded hAdm hTaken
  | stringArray strings count =>
    obtain ⟨vs, hTaken, hValue⟩ := Option.bind_eq_some_iff.mp hValue
    obtain ⟨ws, hWs, hValue⟩ := Option.bind_eq_some_iff.mp hValue
    cases hValue
    exact createStringArray_eq hBounded hAdm hTaken hWs
  | _ => cases hValue

/-- A heap with nothing on it, and memory for `k` blocks. -/
def emptyHeap (k : Nat) : Heap where
  nodes _ := none
  bufs _ := none
  brk := 0
  outcomes n := n < k
  misuses := []
  lastError := none

theorem bounded_emptyHeap (k : Nat) : (emptyHeap k).Bounded := ⟨fun _ => rfl, fun _ => rfl⟩

/-- The memory ends at the second item. -/
theorem Construct.run_eq_valueToCjson_emptyHeap :
    (Construct.intArray (some [7, -1]) 2).run (emptyHeap 2) =
      valueToCjson (.array [.number (f64OfInt 7), .number (f64OfInt (-1))]) (emptyHeap 2) := by
  refine Construct.run_eq_valueToCjson (bounded_emptyHeap 2) (fun vs hvs => ?_) rfl
  cases hvs
  exact ⟨le_refl 2, fun _ _ => trivial⟩

/-! ## Integers -/

/-- A number by its sign, its exponent and its fraction. -/
theorem f64_fields {sign e f : Nat} (hSign : sign = 0 ∨ sign = 2 ^ 63) (he : e < 2 ^ 11)
    (hf : f < 2 ^ 52) :
    let x : F64 := ⟨BitVec.ofNat 64 (sign + e * 2 ^ 52 + f)⟩
    x.exponent = e ∧ x.fraction = f ∧ (x.bits.toNat < 2 ^ 63 ↔ sign = 0) := by
  have hBits : (BitVec.ofNat 64 (sign + e * 2 ^ 52 + f)).toNat = sign + e * 2 ^ 52 + f := by
    rw [BitVec.toNat_ofNat]
    apply Nat.mod_eq_of_lt
    omega
  refine ⟨?_, ?_, ?_⟩
  · rw [F64.exponent, hBits]
    omega
  · rw [F64.fraction, hBits]
    omega
  · rw [hBits]
    omega

/-- The exponent and the significand of a `c_int`. -/
theorem f64OfInt_fields {v : Int} (hZero : v ≠ 0) (hLow : -2147483648 ≤ v)
    (hHigh : v ≤ 2147483647) : ∃ e, e ≤ 31 ∧ (f64OfInt v).exponent = 1023 + e ∧
      2 ^ 52 + (f64OfInt v).fraction = v.natAbs * 2 ^ (52 - e) ∧
      ((f64OfInt v).bits.toNat < 2 ^ 63 ↔ ¬ v < 0) := by
  have hm : v.natAbs ≠ 0 := by omega
  obtain ⟨e, he⟩ : ∃ e, v.natAbs.log2 = e := ⟨_, rfl⟩
  have hLe : 2 ^ e ≤ v.natAbs := by
    rw [← he]
    exact Nat.log2_self_le hm
  have hLt : v.natAbs < 2 ^ (e + 1) := by
    rw [← he]
    exact Nat.lt_log2_self
  have hSmall : e ≤ 31 := by
    by_contra hNot
    have hPow : 2 ^ 32 ≤ 2 ^ e := Nat.pow_le_pow_right (by decide) (by omega)
    omega
  -- The fraction is the rest of the magnitude, moved up to the 52 bits.
  have hSplit : 2 ^ e * 2 ^ (52 - e) = 2 ^ 52 := by
    rw [← Nat.pow_add]
    congr 1
    omega
  have hRest : v.natAbs - 2 ^ e < 2 ^ e := by
    rw [Nat.pow_succ] at hLt
    omega
  have hFraction : (v.natAbs - 2 ^ e) * 2 ^ (52 - e) < 2 ^ 52 := by
    rw [← hSplit]
    exact Nat.mul_lt_mul_of_pos_right hRest (Nat.two_pow_pos _)
  have hSign : (if v < 0 then 2 ^ 63 else 0) = 0 ∨ (if v < 0 then 2 ^ 63 else 0) = 2 ^ 63 := by
    split_ifs
    · exact Or.inr rfl
    · exact Or.inl rfl
  obtain ⟨hExp, hFrac, hBits⟩ := f64_fields hSign (show 1023 + e < 2 ^ 11 by omega) hFraction
  rw [f64OfInt, if_neg hZero]
  simp only [he]
  refine ⟨e, hSmall, hExp, ?_, hBits.trans ?_⟩
  · rw [hFrac, ← hSplit, ← Nat.add_mul, Nat.add_sub_cancel' hLe]
  · split_ifs <;> simp_all

/-- The number that a finite `f64` stands for. -/
def exactValue (n : F64) : ℚ :=
  let significand := if n.exponent = 0 then n.fraction else 2 ^ 52 + n.fraction
  let magnitude : ℚ := significand * 2 ^ ((max n.exponent 1 : ℤ) - 1075)
  if n.bits.toNat < 2 ^ 63 then magnitude else -magnitude

/-- The conversion of a `c_int` is exact. -/
theorem exactValue_f64OfInt {v : Int} (hLow : -2147483648 ≤ v) (hHigh : v ≤ 2147483647) :
    exactValue (f64OfInt v) = v := by
  by_cases hZero : v = 0
  · subst hZero
    have hExp : (f64OfInt 0).exponent = 0 := rfl
    have hFrac : (f64OfInt 0).fraction = 0 := rfl
    simp [exactValue, hExp, hFrac]
  · obtain ⟨e, hSmall, hExp, hSig, hBits⟩ := f64OfInt_fields hZero hLow hHigh
    have hScale : ((v.natAbs * 2 ^ (52 - e) : ℕ) : ℚ) * 2 ^ ((max (1023 + e : ℕ) 1 : ℤ) - 1075)
        = v.natAbs := by
      have hDown : (max (1023 + e : ℕ) 1 : ℤ) - 1075 = -((52 - e : ℕ) : ℤ) := by omega
      rw [hDown, zpow_neg, zpow_natCast, Nat.cast_mul, Nat.cast_pow, Nat.cast_ofNat, mul_assoc,
        mul_inv_cancel₀ (pow_ne_zero _ two_ne_zero), mul_one]
    have hNe : ¬ (f64OfInt v).exponent = 0 := by omega
    rw [exactValue]
    simp only [if_neg hNe, hSig]
    rw [hExp, hScale, Nat.cast_natAbs]
    by_cases hNeg : v < 0
    · rw [if_neg fun hLt => hBits.mp hLt hNeg, abs_of_neg hNeg, Int.cast_neg, neg_neg]
    · rw [if_pos (hBits.mpr hNeg), abs_of_nonneg (not_lt.mp hNeg)]

theorem truncate_f64OfInt {v : Int} (hLow : -2147483648 ≤ v) (hHigh : v ≤ 2147483647) :
    truncate (f64OfInt v) = v ∧ (f64OfInt v).isNan = false := by
  by_cases hZero : v = 0
  · subst hZero
    exact ⟨truncate_zero, rfl⟩
  · obtain ⟨e, hSmall, hExp, hSig, hBits⟩ := f64OfInt_fields hZero hLow hHigh
    have hScale : v.natAbs * 2 ^ (52 - e) / 2 ^ (1075 - (1023 + e)) = v.natAbs := by
      rw [show 1075 - (1023 + e) = 52 - e by omega, Nat.mul_div_cancel _ (Nat.two_pow_pos _)]
    constructor
    · simp only [truncate, hExp, hSig, if_neg (show ¬ 1023 + e = 0 by omega),
        if_neg (show ¬ 1075 ≤ 1023 + e by omega), hScale, hBits]
      split_ifs <;> omega
    · have hNan : 1023 + e ≠ 2047 := by omega
      simp [F64.isNan, hExp, hNan]

theorem clampToInt_f64OfInt {v : Int} (hLow : -2147483648 ≤ v) (hHigh : v ≤ 2147483647) :
    clampToInt (f64OfInt v) = v := by
  obtain ⟨hTruncate, hNan⟩ := truncate_f64OfInt hLow hHigh
  simp only [clampToInt, hNan, hTruncate, Bool.false_eq_true, if_false]
  split_ifs <;> omega

/-- The children of an array are the nodes of its items. -/
theorem bears_items {ws : List Value} (hBears : BearsAll h kids as (itemContents ws)) :
    List.Forall₂ (fun b w => Bears h kids b (contentsOf w)) as ws := by
  induction ws generalizing as with
  | nil =>
    have hNil : as = [] := hBears
    rw [hNil]
    exact .nil
  | cons w ws ih =>
    obtain ⟨b, as', rfl, hb, hRest⟩ := hBears
    exact .cons hb (ih hRest)

/-- An array made from `c_int`s gives each of them back, in both numbers of its item: as it is, and
as the `f64` that stands for exactly this integer. -/
theorem createIntArray_readBack {numbers : List Int} {count : Int} (hBounded : h.Bounded)
    (hNat : 0 ≤ count) (hMax : count ≤ intMax) (hCount : count.toNat ≤ numbers.length)
    (hRange : ∀ v ∈ numbers, -2147483648 ≤ v ∧ v ≤ 2147483647)
    (hRun : cjsonCreateIntArray (some numbers) count h = .ok (some a, h')) :
    cjsonGetArraySize (some a) h' = .ok (count, h') ∧
    ∀ j : Nat, j < count → ∃ b n v, cjsonGetArrayItem (some a) j h' = .ok (some b, h') ∧
      h'.nodes b = some n ∧ numbers[j]? = some v ∧ n.valueint = v ∧
      n.valuedouble = f64OfInt v ∧ exactValue n.valuedouble = v := by
  have hTaken : taken (some numbers) count = some (numbers.take count.toNat) :=
    if_neg (Int.not_lt.mpr hNat)
  have hCounted : Counted (fun _ : Int => True) (some numbers) count := by
    intro vs hvs
    cases hvs
    exact ⟨hCount, fun _ _ => trivial⟩
  have hSame := createNumericArray_eq f64OfInt hBounded hCounted hTaken
  obtain ⟨kids, hFormed⟩ : ∃ kids, Formed h h' kids a (contentsOf (.array
      ((numbers.take count.toNat).map fun v => .number (f64OfInt v)))) := by
    rcases forms_valueToCjson _ h hBounded with
      ⟨-, q, g, hRun', -, a', kids, rfl, hFormed⟩ | ⟨-, q, g, hRun', rfl, -⟩
    · cases hRun.symm.trans (hSame.trans hRun')
      exact ⟨kids, hFormed⟩
    · cases hRun.symm.trans (hSame.trans hRun')
  obtain ⟨⟨n, hn, hRef, -⟩, hBears⟩ := hFormed.bears
  have hItems := bears_items hBears
  rw [List.forall₂_map_right_iff] at hItems
  have hList := hFormed.grown.sound.wf.trees.lists hFormed.root.1 hn hRef
  have hNodup := hFormed.grown.sound.wf.trees.forest.nodup a
  have hLength : (kids a).length = count.toNat := by
    rw [hItems.length_eq, List.length_take_of_le hCount]
  have hBounded' := hFormed.grown.bounded
  constructor
  · rw [cjsonGetArraySize_run hBounded' hn hList hNodup, hLength, Int.toNat_of_nonneg hNat,
      min_eq_left hMax]
  · intro j hj
    have hjKids : j < (kids a).length := by omega
    have hjTaken : j < (numbers.take count.toNat).length := by
      rw [← hItems.length_eq]
      exact hjKids
    have hItem := hItems.get hjKids hjTaken
    simp only [List.get_eq_getElem, List.getElem_take] at hItem
    obtain ⟨⟨m, hm, -, -, hContent⟩, -⟩ := hItem
    have hjAll : j < numbers.length := by omega
    obtain ⟨hLow, hHigh⟩ := hRange _ (List.getElem_mem hjAll)
    have hDouble : m.valuedouble = f64OfInt numbers[j] := hContent.valuedouble
    refine ⟨(kids a)[j], m, numbers[j], ?_, hm, List.getElem?_eq_getElem hjAll, ?_, hDouble, ?_⟩
    · rw [cjsonGetArrayItem_run hBounded' hn hList hNodup (by omega), indexIn_bind (by omega),
        Int.toNat_natCast, List.getElem?_eq_getElem hjKids]
    · rw [hContent.valueint]
      exact clampToInt_f64OfInt hLow hHigh
    · rw [hDouble]
      exact exactValue_f64OfInt hLow hHigh

theorem createIntArray_readBack_emptyHeap :
    ∃ h', cjsonGetArraySize (some 0) h' = .ok (2, h') ∧
      ∀ j : Nat, j < (2 : Int) → ∃ b n v, cjsonGetArrayItem (some 0) j h' = .ok (some b, h') ∧
        h'.nodes b = some n ∧ [7, -1][j]? = some v ∧ n.valueint = v ∧
        n.valuedouble = f64OfInt v ∧ exactValue n.valuedouble = v := by
  obtain ⟨h', hRun⟩ : ∃ h', cjsonCreateIntArray (some [7, -1]) 2 (emptyHeap 3)
      = .ok (some 0, h') := ⟨_, rfl⟩
  exact ⟨h', createIntArray_readBack (bounded_emptyHeap 3) (by decide) (by decide) (by decide)
    (by decide) hRun⟩

end CjsonRs.Ffi
