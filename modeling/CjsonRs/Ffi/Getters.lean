import CjsonRs.Ffi.PrettyText
import CjsonRs.Ffi.Requests
import CjsonRs.Ffi.Symmetry
import CjsonRs.Rfc.Serialised

/-!
# Getters

What the readers of the interface return on a heap in which the children of a node form a list
and a tree can be read. `cJSON_GetArrayItem` repeats the loop of `child_at_index`; its index never
overflows, because the loop stops at the index it looks for.
-/

namespace CjsonRs.Ffi

open CjsonRs.Core Library Library.Link

variable {h : Heap} {a p s : Addr} {n : CNode} {b : Buf} {c q q' : Ptr} {as : List Addr} {t : CTree}
  {std : StdF64}

/-! ## Arrays -/

theorem arraySizeLoop_run {count : Int} {fuel : Nat} (hSeg : Seg h.link q c as q' none)
    (hFuel : as.length ≤ fuel) (hCount : count ≤ intMax) :
    arraySizeLoop fuel c count h = .ok (min (count + as.length) intMax, h) := by
  induction as generalizing q c fuel count with
  | nil =>
    obtain ⟨-, rfl⟩ := hSeg
    have hSame : min (count + ([] : List Addr).length) intMax = count := by
      rw [List.length_nil]
      omega
    rw [hSame]
    cases fuel <;> rfl
  | cons a as ih =>
    obtain ⟨rfl, next, hLink, hSeg⟩ := hSeg
    obtain ⟨n, hn, -, rfl⟩ := node_of_link hLink
    rw [List.length_cons] at hFuel
    obtain ⟨fuel, rfl⟩ := Nat.exists_eq_add_of_le' (show 1 ≤ fuel by omega)
    show (load (some a) >>= fun n => arraySizeLoop fuel n.next (min (count + 1) intMax)) h = _
    rw [Run.bind_run_ok (load_run hn), ih hSeg (by omega) (by omega), List.length_cons]
    have hSum : min (min (count + 1) intMax + as.length) intMax
        = min (count + (as.length + 1 : Nat)) intMax := by
      omega
    rw [hSum]

/-- The size of an array is the number of its items, as far as a `c_int` goes. -/
theorem cjsonGetArraySize_run (hBounded : h.Bounded) (hp : h.nodes p = some n)
    (hList : IsList h.link n.child as) (hNodup : as.Nodup) :
    cjsonGetArraySize (some p) h = .ok (min as.length intMax, h) := by
  have hLength := length_le_brk hBounded hList hNodup
  obtain ⟨q, hSeg⟩ := hList
  show (load (some p) >>= fun a => get >>= fun h => _) h = _
  rw [Run.bind_run_ok (load_run hp), Run.bind_run_ok (Run.get_run h)]
  have hLoop : arraySizeLoop h.fuel n.child 0 h = .ok (min (0 + as.length) intMax, h) :=
    arraySizeLoop_run hSeg (by unfold Heap.fuel; omega) (by decide)
  rw [zero_add] at hLoop
  exact hLoop

theorem arrayItemLoop_succ (index i : Int) (fuel : Nat) (a : Addr) :
    arrayItemLoop index (fuel + 1) (some a) i = (if i = index then pure (some a) else do
      let n ← load (some a)
      let i ← increment i
      arrayItemLoop index fuel n.next i) := rfl

theorem arrayItemLoop_run {index i : Int} {j fuel : Nat} (hSeg : Seg h.link q c as q' none)
    (hFuel : as.length ≤ fuel) (hIndex : index = i + j) (hMax : index ≤ intMax) :
    arrayItemLoop index fuel c i h = .ok (as[j]?, h) := by
  induction as generalizing q c fuel i j with
  | nil =>
    obtain ⟨-, rfl⟩ := hSeg
    cases fuel <;> rfl
  | cons a as ih =>
    obtain ⟨rfl, next, hLink, hSeg⟩ := hSeg
    obtain ⟨n, hn, -, rfl⟩ := node_of_link hLink
    rw [List.length_cons] at hFuel
    obtain ⟨fuel, rfl⟩ := Nat.exists_eq_add_of_le' (show 1 ≤ fuel by omega)
    rw [arrayItemLoop_succ]
    cases j with
    | zero =>
      rw [if_pos (by omega)]
      rfl
    | succ j =>
      have hStep : increment i h = .ok (i + 1, h) := by
        rw [increment, if_pos (by omega)]
        rfl
      rw [if_neg (by omega), Run.bind_run_ok (load_run hn), Run.bind_run_ok hStep,
        List.getElem?_cons_succ]
      exact ih hSeg (by omega) (by omega)

theorem indexIn_bind {which : Int} (hWhich : 0 ≤ which) (as : List Addr) :
    (indexIn which as).bind (as[·]?) = as[which.toNat]? := by
  rw [indexIn]
  by_cases hIn : which < as.length
  · rw [if_pos ⟨hWhich, hIn⟩]
    rfl
  · rw [if_neg fun hAnd => hIn hAnd.2, List.getElem?_eq_none (by omega)]
    rfl

theorem cjsonGetArrayItem_run {index : Int} (hBounded : h.Bounded) (hp : h.nodes p = some n)
    (hList : IsList h.link n.child as) (hNodup : as.Nodup) (hMax : index ≤ intMax) :
    cjsonGetArrayItem (some p) index h = .ok ((indexIn index as).bind (as[·]?), h) := by
  have hLength := length_le_brk hBounded hList hNodup
  rw [cjsonGetArrayItem]
  by_cases hNeg : index < 0
  · rw [if_pos (Or.inr hNeg), indexIn, if_neg (by omega)]
    rfl
  · have hNot : ¬ ((some p : Ptr).isNone ∨ index < 0) := by simpa using hNeg
    obtain ⟨q, hSeg⟩ := hList
    rw [if_neg hNot, indexIn_bind (Int.not_lt.mp hNeg)]
    show (load (some p) >>= fun n => get >>= fun h => _) h = _
    rw [Run.bind_run_ok (load_run hp), Run.bind_run_ok (Run.get_run h)]
    refine arrayItemLoop_run hSeg ?_ (by omega) hMax
    unfold Heap.fuel
    omega

/-! ## Nodes -/

/-- What a type test asks of the masked type. -/
def TypeTest.Passes (w : TypeWord) : TypeTest → Bool
  | invalid => w == cjsonInvalid
  | .false => w == cjsonFalse
  | .true => w == cjsonTrue
  | bool => w == cjsonTrue || w == cjsonFalse
  | null => w == cjsonNull
  | number => w == cjsonNumber
  | string => w == cjsonString
  | array => w == cjsonArray
  | object => w == cjsonObject
  | raw => w == cjsonRaw

theorem TypeTest.run_node (t : TypeTest) (hn : h.nodes a = some n) :
    t.run (some a) h = .ok (t.Passes (tag n.type_), h) := by
  have hTest : ∀ f : CNode → Bool, (load (some a) >>= fun n => (pure (f n) : M Bool)) h
      = .ok (f n, h) := fun f => by
    rw [Run.bind_run_ok (load_run hn), Run.pure_run]
  cases t <;> exact hTest _

theorem cjsonGetStringValue_run (hn : h.nodes a = some n) :
    cjsonGetStringValue (some a) h
      = .ok (if tag n.type_ = cjsonString then n.valuestring else none, h) := by
  show (load (some a) >>= fun n => _) h = _
  rw [Run.bind_run_ok (load_run hn), Run.ite_run]
  by_cases hTag : tag n.type_ = cjsonString
  · rw [if_pos hTag, if_neg (not_not_intro hTag), Run.pure_run]
  · rw [if_neg hTag, if_pos hTag, Run.pure_run]

theorem cjsonGetNumberValue_run (hn : h.nodes a = some n) :
    cjsonGetNumberValue (some a) h
      = .ok (if tag n.type_ = cjsonNumber then n.valuedouble else f64Nan, h) := by
  show (load (some a) >>= fun n => _) h = _
  rw [Run.bind_run_ok (load_run hn), Run.ite_run]
  by_cases hTag : tag n.type_ = cjsonNumber
  · rw [if_pos hTag, if_neg (not_not_intro hTag), Run.pure_run]
  · rw [if_neg hTag, if_pos hTag, Run.pure_run]

/-! ## Printed texts -/

/-- The text of a tree in one of the two formats. -/
def CTree.printed (std : StdF64) (t : CTree) (pretty : Bool) : Option Str :=
  if pretty then some (t.prettyText std 0) else t.toValue.map (serialise std)

theorem printText_run (hBounded : h.Bounded) (ht : Denotes h a t) (pretty : Bool) :
    printText std (some a) pretty h = .ok (t.printed std pretty, h) := by
  cases pretty with
  | false =>
    show (cjsonToValue (some a) >>= fun value => pure (value.map (serialise std))) h = _
    rw [Run.bind_run_ok (cjsonToValue_run hBounded ht), Run.pure_run]
    rfl
  | true =>
    show (writeCjsonPretty std h.fuel [] (some a) 0 >>= fun out => pure (some out)) h = _
    rw [Run.bind_run_ok (writeCjsonPretty_run hBounded ht), Run.pure_run]
    rfl

/-- The text of a tree is copied to a new buffer, if there is one. -/
theorem printImpl_node (hBounded : h.Bounded) (ht : Denotes h a t) (pretty : Bool) :
    printImpl std (some a) pretty h = match t.printed std pretty with
      | none => .ok (none, h)
      | some s => if h.outcomes 0 then .ok (some h.brk, h.tick.pushBuf (encode s ++ [0]))
        else .ok (none, h.tick) := by
  show (printText std (some a) pretty >>= fun text => _) h = _
  rw [Run.bind_run_ok (printText_run hBounded ht pretty)]
  cases t.printed std pretty <;> rfl

theorem storeFits_run {length : Int} (hs : h.bufs s = some b) (hLength : length ≤ b.bytes.length)
    (bytes : List UInt8) :
    (if (bytes.length + 1 : Int) > length then pure false
      else storeText (some s) bytes >>= fun _ => pure true : M Bool) h =
    if bytes.length + 1 ≤ length then .ok (true, h.setBytes s b (bytes ++ [0]))
    else .ok (false, h) := by
  by_cases hFits : bytes.length + 1 ≤ length
  · have hStore : storeText (some s) bytes h = .ok ((), h.setBytes s b (bytes ++ [0])) := by
      simp only [storeText, hs]
      exact if_pos (by omega)
    rw [if_neg (by omega), if_pos hFits, Run.bind_run_ok hStore, Run.pure_run]
  · rw [if_pos (by omega), if_neg hFits, Run.pure_run]

/-- A tree is printed into a buffer when its text and a NUL fit the given length. -/
theorem cjsonPrintPreallocated_run {length : Int} (hBounded : h.Bounded) (ht : Denotes h a t)
    (hs : h.bufs s = some b) (hLength : length ≤ b.bytes.length) (format : Int) :
    cjsonPrintPreallocated std (some a) (some s) length format h =
      match t.printed std (format ≠ 0) with
      | none => .ok (false, h)
      | some text =>
        if (encode text).length + 1 ≤ length then .ok (true, h.setBytes s b (encode text ++ [0]))
        else .ok (false, h) := by
  by_cases hPos : length ≤ 0
  · rw [cjsonPrintPreallocated, if_pos (Or.inr (Or.inr hPos))]
    cases t.printed std (decide (format ≠ 0)) with
    | none => rfl
    | some text => exact (if_neg (by omega)).symm
  · have hArgs : ¬ ((some a : Ptr).isNone ∨ (some s : Ptr).isNone ∨ length ≤ 0) := by
      simpa using hPos
    rw [cjsonPrintPreallocated, if_neg hArgs, Run.bind_run_ok (printText_run hBounded ht _)]
    cases t.printed std (decide (format ≠ 0)) with
    | none => rfl
    | some text => exact storeFits_run hs hLength (encode text)

/-- On a tree without a text `cJSON_PrintBuffered` and `cJSON_PrintPreallocated` both fail. On any
other tree the first one returns the text, when it gets its memory, and the second one succeeds
exactly when this text and its NUL fit the length; it then writes these bytes, and otherwise leaves
the buffer alone. -/
theorem printPreallocated_agrees {length : Int} (hBounded : h.Bounded) (ht : Denotes h a t)
    (hs : h.bufs s = some b) (hLength : length ≤ b.bytes.length) (hYes : h.outcomes 0 = true)
    (prebuffer format : Int) :
    (t.printed std (format ≠ 0) = none →
      cjsonPrintBuffered std (some a) prebuffer format h = .ok (none, h) ∧
        cjsonPrintPreallocated std (some a) (some s) length format h = .ok (false, h)) ∧
    ∀ text, t.printed std (format ≠ 0) = some text →
      cjsonPrintBuffered std (some a) prebuffer format h
          = .ok (some h.brk, h.tick.pushBuf (encode text ++ [0])) ∧
        cjsonPrintPreallocated std (some a) (some s) length format h =
          if (encode text).length + 1 ≤ length then
            .ok (true, h.setBytes s b (encode text ++ [0]))
          else .ok (false, h) := by
  have hPrint : cjsonPrintBuffered std (some a) prebuffer format h
      = printImpl std (some a) (format ≠ 0) h := by
    rw [cjsonPrintBuffered]
    by_cases hFormat : format = 0
    · subst hFormat
      rfl
    · rw [if_pos hFormat, decide_eq_true hFormat]
      rfl
  rw [hPrint, printImpl_node hBounded ht, cjsonPrintPreallocated_run hBounded ht hs hLength]
  constructor
  · intro hNone
    rw [hNone]
    exact ⟨rfl, rfl⟩
  · intro text hText
    rw [hText]
    exact ⟨if_pos hYes, rfl⟩

/-- A nested tree is printed without spaces beside a buffer of 40 bytes. -/
theorem printPreallocated_agrees_nested : ∃ h a b text,
    Denotes h a (.ofValue nestedValue) ∧ h.bufs 0 = some b ∧
    (CTree.ofValue nestedValue).printed Rfc.sampleF64 ((0 : Int) ≠ 0) = some text ∧
    cjsonPrintBuffered Rfc.sampleF64 (some a) 256 0 h
        = .ok (some h.brk, h.tick.pushBuf (encode text ++ [0])) ∧
      cjsonPrintPreallocated Rfc.sampleF64 (some a) (some 0) 40 0 h =
        if (encode text).length + 1 ≤ (40 : Int) then
          .ok (true, h.setBytes 0 b (encode text ++ [0]))
        else .ok (false, h) := by
  obtain ⟨h, a, hBounded, ha, -, hBufs, hYes⟩ :=
    exists_tree (bounded_oneString (List.replicate 40 0)) nestedValue
  have hs := hBufs 0 ⟨List.replicate 40 0, false⟩ rfl
  obtain ⟨text, hText⟩ : ∃ text,
      (CTree.ofValue nestedValue).printed Rfc.sampleF64 ((0 : Int) ≠ 0) = some text := by
    refine ⟨serialise Rfc.sampleF64 (cut nestedValue), ?_⟩
    show (CTree.ofValue nestedValue).toValue.map _ = _
    rw [toValue_ofValue]
    rfl
  have hLength : (40 : Int) ≤ (List.replicate 40 (0 : UInt8)).length := by decide
  have hAgree := (printPreallocated_agrees hBounded ha hs hLength (hYes 0) 256 0).2 text hText
  exact ⟨h, a, _, text, ha, hs, hText, hAgree⟩

end CjsonRs.Ffi
