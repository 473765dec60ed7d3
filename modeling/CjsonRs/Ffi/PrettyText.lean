import CjsonRs.Ffi.Print
import CjsonRs.Ffi.Reading

/-!
# The formatted text of a tree

What `write_cjson_pretty` appends is a function of the tree: the walk over the pointers reads it
to its end.
-/

namespace CjsonRs.Ffi

open CjsonRs.Core Library

/-! ## The text -/

/-- The text of a `valuestring` or of a key, empty when it is not UTF-8. -/
def labelStr (text : Option (List UInt8)) : Str := (labelText text).getD []

mutual

/-- What `write_cjson_pretty` appends for a tree. -/
def CTree.prettyText (std : StdF64) (depth : Nat) : CTree → Str
  | .node l ts =>
    if l.tag = cjsonNull then ['n', 'u', 'l', 'l']
    else if l.tag = cjsonTrue then ['t', 'r', 'u', 'e']
    else if l.tag = cjsonFalse then ['f', 'a', 'l', 's', 'e']
    else if l.tag = cjsonNumber then writeNumber std [] l.valuedouble
    else if l.tag = cjsonString then writeString [] (labelStr l.valuestring)
    else if l.tag = cjsonRaw then labelStr l.valuestring
    else if l.tag = cjsonArray then
      if ts.isEmpty then ['[', ']'] else '[' :: (prettyItems std depth true ts ++ [']'])
    else if l.tag = cjsonObject then
      if ts.isEmpty then ['{', '}']
      else '{' :: '\n' :: (prettyMembers std depth true ts ++ '\n' :: (pushTabs [] depth ++ ['}']))
    else ['n', 'u', 'l', 'l']

def CTree.prettyItems (std : StdF64) (depth : Nat) : Bool → List CTree → Str
  | _, [] => []
  | firstIter, t :: ts => (if firstIter then [] else [',', ' ']) ++
    (t.prettyText std (depth + 1) ++ prettyItems std depth false ts)

def CTree.prettyMembers (std : StdF64) (depth : Nat) : Bool → List CTree → Str
  | _, [] => []
  | firstIter, t :: ts => (if firstIter then [] else [',', '\n']) ++ (pushTabs [] (depth + 1) ++
    (writeString [] (labelStr t.label.string) ++ (':' :: '\t' ::
      (t.prettyText std (depth + 1) ++ prettyMembers std depth false ts))))

end

variable {std : StdF64} {h : Heap} {a : Addr} {q : Ptr} {n : CNode} {t : CTree} {ts : List CTree}
  {l : Label} {x : Option (List UInt8)} {fuel depth : Nat} {out s : Str} {firstIter : Bool}

/-! ## Writers append -/

theorem writeEscaped_eq (out s : Str) : writeEscaped out s = out ++ writeString [] s := by
  change writeString out s = _
  simp [writeString_eq]

theorem pushTabs_eq (out : Str) (n : Nat) : pushTabs out n = out ++ pushTabs [] n := rfl

theorem isNone_child (hTs : DenotesList h q ts) : q.isNone = ts.isEmpty := by
  cases ts with
  | nil =>
    obtain rfl : q = none := hTs
    rfl
  | cons t ts =>
    obtain ⟨a, n, rfl, -⟩ := hTs
    rfl

theorem textAt_run (hx : TextAt h q x) (hq : q.isNone = false) :
    loadStr q h = .ok (labelText x, h) := by
  cases q with
  | none => cases hq
  | some s =>
    obtain ⟨b, hb, hNul, rfl⟩ := hx
    exact loadStr_run hb hNul

theorem labelStr_of_isNone (hx : TextAt h q x) (hq : q.isNone = true) : labelStr x = [] := by
  cases q with
  | none =>
    obtain rfl : x = none := hx
    rfl
  | some s => cases hq

/-- A text is written with its escapes, empty where there is none. -/
theorem writeKey_run (hx : TextAt h q x) :
    writeKey out q h = .ok (out ++ writeString [] (labelStr x), h) := by
  rw [writeKey, Run.ite_run]
  split_ifs with hq
  · rw [labelStr_of_isNone hx hq]
    rfl
  · rw [Run.bind_run_ok (textAt_run hx (Bool.eq_false_iff.mpr hq)), labelStr]
    cases labelText x with
    | none => rfl
    | some k => exact congrArg (fun s => Except.ok (s, h)) (writeEscaped_eq out k)

/-- The arm of a string. -/
theorem writeString_run (hx : TextAt h q x) :
    (if q.isNone then (return out ++ ['"', '"'] : M Str) else do
      match ← loadStr q with
      | some s => return writeEscaped out s
      | none => return out ++ ['"', '"']) h = .ok (out ++ writeString [] (labelStr x), h) := by
  split_ifs with hq
  · rw [labelStr_of_isNone hx hq]
    rfl
  · rw [Run.bind_run_ok (textAt_run hx (Bool.eq_false_iff.mpr hq)), labelStr]
    cases labelText x with
    | none => rfl
    | some k => exact congrArg (fun s => Except.ok (s, h)) (writeEscaped_eq out k)

/-- The arm of a raw text. -/
theorem writeRaw_run (hx : TextAt h q x) :
    (if q.isNone then (return out : M Str) else do
      match ← loadStr q with
      | some s => return out ++ s
      | none => return out) h = .ok (out ++ labelStr x, h) := by
  split_ifs with hq
  · rw [labelStr_of_isNone hx hq, List.append_nil]
    rfl
  · rw [Run.bind_run_ok (textAt_run hx (Bool.eq_false_iff.mpr hq)), labelStr]
    cases labelText x with
    | none => exact congrArg (fun s => Except.ok (s, h)) (List.append_nil out).symm
    | some k => rfl

/-- A node, given what is written for its children. -/
theorem writeCjsonPretty_node (hn : h.nodes a = some n) (hl : Labelled h n l)
    (hChild : n.child.isNone = ts.isEmpty)
    (hItems : ∀ out, writePrettyItems std fuel out n.child true depth h =
      .ok (out ++ CTree.prettyItems std depth true ts, h))
    (hMembers : ∀ out, writePrettyMembers std fuel out n.child true depth h =
      .ok (out ++ CTree.prettyMembers std depth true ts, h)) :
    writeCjsonPretty std (fuel + 1) out (some a) depth h =
      .ok (out ++ (CTree.node l ts).prettyText std depth, h) := by
  rw [writeCjsonPretty, Run.bind_run_ok (load_run hn), CTree.prettyText, hl.tag, hl.valuedouble,
    hChild]
  swap
  · nofun
  by_cases hNull : l.tag = cjsonNull
  · rw [if_pos hNull, if_pos hNull]
    rfl
  by_cases hTrue : l.tag = cjsonTrue
  · rw [if_neg hNull, if_neg hNull, if_pos hTrue, if_pos hTrue]
    rfl
  by_cases hFalse : l.tag = cjsonFalse
  · rw [if_neg hNull, if_neg hNull, if_neg hTrue, if_neg hTrue, if_pos hFalse, if_pos hFalse]
    rfl
  rw [if_neg hNull, if_neg hNull, if_neg hTrue, if_neg hTrue, if_neg hFalse, if_neg hFalse]
  by_cases hNumber : l.tag = cjsonNumber
  · rw [if_pos hNumber, if_pos hNumber, writeNumber]
    split <;> rfl
  rw [if_neg hNumber, if_neg hNumber]
  by_cases hString : l.tag = cjsonString
  · rw [if_pos hString, if_pos hString]
    exact writeString_run hl.valuestring
  rw [if_neg hString, if_neg hString]
  by_cases hRaw : l.tag = cjsonRaw
  · rw [if_pos hRaw, if_pos hRaw]
    exact writeRaw_run hl.valuestring
  rw [if_neg hRaw, if_neg hRaw]
  by_cases hArray : l.tag = cjsonArray
  · rw [if_pos hArray, if_pos hArray, Run.ite_run, Run.bind_run_ok (hItems _)]
    split
    · rfl
    · simp
  rw [if_neg hArray, if_neg hArray]
  by_cases hObject : l.tag = cjsonObject
  · rw [if_pos hObject, if_pos hObject, Run.ite_run, Run.bind_run_ok (hMembers _)]
    split
    · rfl
    · rw [Run.pure_run, pushTabs_eq]
      simp
  rw [if_neg hObject, if_neg hObject]
  rfl

/-- An item of an array, given what is written for it and behind it. -/
theorem writePrettyItems_cons (hn : h.nodes a = some n)
    (hNode : ∀ out, writeCjsonPretty std fuel out (some a) (depth + 1) h =
      .ok (out ++ t.prettyText std (depth + 1), h))
    (hRest : ∀ out, writePrettyItems std fuel out n.next false depth h =
      .ok (out ++ CTree.prettyItems std depth false ts, h)) :
    writePrettyItems std (fuel + 1) out (some a) firstIter depth h =
      .ok (out ++ CTree.prettyItems std depth firstIter (t :: ts), h) := by
  rw [writePrettyItems, CTree.prettyItems]
  swap
  · nofun
  rw [Run.bind_run_ok (hNode _), Run.bind_run_ok (load_run hn), hRest]
  cases firstIter <;> simp

/-- A member of an object, given what is written for its value and behind it. -/
theorem writePrettyMembers_cons (hn : h.nodes a = some n) (hl : Labelled h n t.label)
    (hNode : ∀ out, writeCjsonPretty std fuel out (some a) (depth + 1) h =
      .ok (out ++ t.prettyText std (depth + 1), h))
    (hRest : ∀ out, writePrettyMembers std fuel out n.next false depth h =
      .ok (out ++ CTree.prettyMembers std depth false ts, h)) :
    writePrettyMembers std (fuel + 1) out (some a) firstIter depth h =
      .ok (out ++ CTree.prettyMembers std depth firstIter (t :: ts), h) := by
  rw [writePrettyMembers, CTree.prettyMembers]
  swap
  · nofun
  rw [Run.bind_run_ok (load_run hn), Run.bind_run_ok (writeKey_run hl.string),
    Run.bind_run_ok (hNode _), Run.bind_run_ok (load_run hn), hRest, pushTabs_eq]
  cases firstIter <;> simp

theorem prettyText_run :
    (∀ t a fuel out depth, Denotes h a t → 2 * t.steps ≤ fuel →
      writeCjsonPretty std fuel out (some a) depth h = .ok (out ++ t.prettyText std depth, h)) ∧
    ∀ ts q fuel firstIter out depth, DenotesList h q ts → 2 * CTree.stepsList ts + 1 ≤ fuel →
      writePrettyItems std fuel out q firstIter depth h =
        .ok (out ++ CTree.prettyItems std depth firstIter ts, h) ∧
      writePrettyMembers std fuel out q firstIter depth h =
        .ok (out ++ CTree.prettyMembers std depth firstIter ts, h) := by
  refine CTree.induct ?_ ?_ ?_
  · rintro l ts ih a fuel out depth ⟨n, hn, hl, hTs⟩ hFuel
    simp only [CTree.steps] at hFuel
    obtain ⟨fuel, rfl⟩ := Nat.exists_eq_add_of_le' (show 1 ≤ fuel by omega)
    have hList := fun out => ih n.child fuel true out depth hTs (by omega)
    exact writeCjsonPretty_node hn hl (isNone_child hTs) (fun out => (hList out).1)
      fun out => (hList out).2
  · rintro q fuel firstIter out depth rfl -
    rw [CTree.prettyItems, CTree.prettyMembers, List.append_nil]
    constructor <;> cases fuel <;> rfl
  · rintro t ts ihT ihTs q fuel firstIter out depth ⟨a, n, rfl, hn, ht, hTs⟩ hFuel
    simp only [CTree.stepsList] at hFuel
    obtain ⟨fuel, rfl⟩ := Nat.exists_eq_add_of_le' (show 1 ≤ fuel by omega)
    have hNode := fun out => ihT a fuel out (depth + 1) ht (by omega)
    have hRest := fun out => ihTs n.next fuel false out depth hTs (by omega)
    obtain ⟨m, hm, hl⟩ := ht.labelled
    rw [hn] at hm
    cases hm
    exact ⟨writePrettyItems_cons hn hNode fun out => (hRest out).1,
      writePrettyMembers_cons hn hl hNode fun out => (hRest out).2⟩

/-- The formatted printer writes the text of the tree. -/
theorem writeCjsonPretty_run (hBounded : h.Bounded) (ht : Denotes h a t) :
    writeCjsonPretty std h.fuel [] (some a) 0 h = .ok (t.prettyText std 0, h) := by
  have hSteps := steps_le_brk hBounded ht
  have hFuel : 2 * t.steps ≤ h.fuel := by
    unfold Heap.fuel
    omega
  exact prettyText_run.1 t a h.fuel [] 0 ht hFuel

end CjsonRs.Ffi
