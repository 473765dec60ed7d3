import CjsonRs.Ffi.Duplicate
import CjsonRs.Ffi.PrettyText
import CjsonRs.Ffi.Symmetry

/-!
# Calls that come to an end

In a well-formed heap without references a walk over a tree ends, whether or not the texts of the
tree can be read: `cJSON_Delete`, `cJSON_Print`, `cJSON_PrintUnformatted`, `cJSON_Compare` and
`cJSON_Duplicate` never run without end. The nodes below a node that are released with it
(`Frees`) are those a walk meets, so that their number bounds it.
-/

namespace CjsonRs.Ffi

open CjsonRs.Core Library Library.Link Library.Forest

variable {h h₀ h' g g' : Heap} {a b x y : Addr} {n : CNode} {q src : Ptr} {std : StdF64}
  {kids : Addr → List Addr} {V : List Addr} {fuel depth : Nat} {α β : Type} {z : M α}

/-- The call does not run without end. -/
def Ends (z : M α) (h : Heap) : Prop := Run.Avoids .diverges z h

/-- The call ends, and leaves the heap alone if it returns. -/
def Looks (z : M α) (h : Heap) : Prop := Ends z h ∧ ∀ r g, z h = .ok (r, g) → g = h

/-- No node of the heap is a reference. -/
def NoReferences (h : Heap) : Prop := ∀ a n, h.nodes a = some n → n.isRef = false

/-! ## Reading -/

theorem looks_of_run {r : α} (hRun : z h = .ok (r, h)) : Looks z h := by
  refine ⟨Run.avoids_of_run hRun, fun r' g hRun' => ?_⟩
  rw [hRun] at hRun'
  cases hRun'
  rfl

theorem looks_pure {r : α} : Looks (pure r : M α) h := looks_of_run rfl

theorem looks_of_fault {e : Fault} (hRun : z h = .error e) (he : e ≠ .diverges) : Looks z h := by
  refine ⟨Run.avoids_of_fault hRun he, fun r g hRun' => ?_⟩
  rw [hRun] at hRun'
  cases hRun'

theorem Looks.bind {f : α → M β} (hz : Looks z h) (hf : ∀ r, z h = .ok (r, h) → Looks (f r) h) :
    Looks (z >>= f) h := by
  constructor
  · refine Run.Avoids.bind hz.1 fun r g hRun => ?_
    have hg := hz.2 r g hRun
    rw [hg] at hRun ⊢
    exact (hf r hRun).1
  · intro r g hRun
    obtain ⟨r', g', hFirst, hRest⟩ := Run.bind_run_eq_ok.mp hRun
    have hg := hz.2 r' g' hFirst
    rw [hg] at hFirst hRest
    exact (hf r' hFirst).2 r g hRest

theorem looks_bind_of_run {f : α → M β} {r : α} (hRun : z h = .ok (r, h)) (hf : Looks (f r) h) :
    Looks (z >>= f) h := by
  refine (looks_of_run hRun).bind fun r' hRun' => ?_
  rw [hRun] at hRun'
  cases hRun'
  exact hf

theorem looks_ite {c : Prop} [Decidable c] {z' : M α} (hz : Looks z h) (hz' : Looks z' h) :
    Looks (if c then z else z') h := by
  split
  · exact hz
  · exact hz'

theorem looks_load (q : Ptr) : Looks (load q) h := by
  cases q with
  | none => exact looks_of_fault rfl fun h => by cases h
  | some a =>
    cases hn : h.nodes a with
    | none =>
      refine looks_of_fault (e := .dangling a) ?_ fun h => by cases h
      simp only [load, hn]
    | some n => exact looks_of_run (load_run hn)

theorem looks_loadStr (q : Ptr) : Looks (loadStr q) h := by
  cases q with
  | none => exact looks_of_fault rfl fun h => by cases h
  | some s =>
    cases hb : h.bufs s with
    | none =>
      refine looks_of_fault (e := .dangling s) ?_ fun h => by cases h
      simp only [loadStr, Run.bind_run, loadBytes, hb, error_bind]
    | some b =>
      by_cases hNul : 0 ∈ b.bytes
      · exact looks_of_run (loadStr_run hb hNul)
      · refine looks_of_fault (e := .unterminated s) ?_ fun h => by cases h
        simp only [loadStr, Run.bind_run, loadBytes, hb, if_neg hNul, error_bind]

theorem looks_textOrEmpty (q : Ptr) : Looks (textOrEmpty q) h :=
  looks_ite looks_pure (looks_loadStr q)

/-! ## Values -/

/-- A node, when its children come to an end. -/
theorem nodeToValue_looks (hKids : ∀ n, h.nodes a = some n →
      Looks (itemsToValues fuel n.child) h ∧ Looks (membersToValues fuel n.child) h) :
    Looks (nodeToValue (fuel + 1) (some a)) h := by
  rw [nodeToValue_succ]
  refine (looks_load _).bind fun n hRun => ?_
  obtain ⟨a', hEq, hn, -⟩ := load_eq_ok hRun
  cases hEq
  obtain ⟨hItems, hMembers⟩ := hKids n hn
  refine looks_ite looks_pure (looks_ite looks_pure (looks_ite looks_pure (looks_ite looks_pure
    (looks_ite ?_ (looks_ite ?_ (looks_ite ?_ looks_pure))))))
  · exact (looks_textOrEmpty _).bind fun _ _ => looks_pure
  · exact hItems.bind fun _ _ => looks_pure
  · exact hMembers.bind fun _ _ => looks_pure

theorem values_look (hNo : NoReferences h) (hV : Frees h q V) : ∀ fuel, 2 * V.length + 1 ≤ fuel →
    Looks (itemsToValues fuel q) h ∧ Looks (membersToValues fuel q) h := by
  induction hV with
  | nil =>
    intro fuel _
    constructor <;> cases fuel <;> exact looks_pure
  | ref ha hRef _ _ =>
    rw [hNo _ _ ha] at hRef
    cases hRef
  | @own a n V V' ha _ _ _ ihKids ihNext =>
    intro fuel hFuel
    simp only [List.length_append, List.length_cons] at hFuel
    obtain ⟨fuel, rfl⟩ := Nat.exists_eq_add_of_le' (show 2 ≤ fuel by omega)
    have hNode : Looks (nodeToValue (fuel + 1) (some a)) h := by
      apply nodeToValue_looks
      intro n' hn'
      rw [ha] at hn'
      cases hn'
      exact ihKids fuel (by omega)
    obtain ⟨hItems, hMembers⟩ := ihNext (fuel + 1) (by omega)
    constructor
    · rw [itemsToValues_succ]
      refine hNode.bind fun v _ => ?_
      cases v with
      | none => exact looks_pure
      | some v =>
        exact looks_bind_of_run (load_run ha) (hItems.bind fun _ _ => looks_pure)
    · rw [membersToValues_succ]
      refine looks_bind_of_run (load_run ha) ((looks_textOrEmpty _).bind fun key _ => ?_)
      cases key with
      | none => exact looks_pure
      | some key =>
        refine hNode.bind fun v _ => ?_
        cases v with
        | none => exact looks_pure
        | some v => exact hMembers.bind fun _ _ => looks_pure

/-! ## Formatted text -/

theorem looks_writeKey (out : Str) (q : Ptr) : Looks (writeKey out q) h := by
  rw [writeKey]
  refine looks_ite looks_pure ((looks_loadStr q).bind fun text _ => ?_)
  cases text <;> exact looks_pure

theorem writeCjsonPretty_looks {out : Str} (hKids : ∀ n out, h.nodes a = some n →
      Looks (writePrettyItems std fuel out n.child true depth) h ∧
      Looks (writePrettyMembers std fuel out n.child true depth) h) :
    Looks (writeCjsonPretty std (fuel + 1) out (some a) depth) h := by
  rw [writeCjsonPretty]
  swap
  · intro h
    cases h
  refine (looks_load _).bind fun n hRun => ?_
  obtain ⟨a', hEq, hn, -⟩ := load_eq_ok hRun
  cases hEq
  have hText : ∀ (z : M Str) (f : Option Str → M Str), Looks z h → (∀ r, Looks (f r) h) →
      Looks (if n.valuestring.isNone then z else loadStr n.valuestring >>= f) h :=
    fun z f hz hf => looks_ite hz ((looks_loadStr _).bind fun r _ => hf r)
  refine looks_ite looks_pure (looks_ite looks_pure (looks_ite looks_pure (looks_ite looks_pure
    (looks_ite ?_ (looks_ite ?_ (looks_ite ?_ (looks_ite ?_ looks_pure)))))))
  · exact hText _ _ looks_pure fun r => by cases r <;> exact looks_pure
  · exact hText _ _ looks_pure fun r => by cases r <;> exact looks_pure
  · exact looks_ite looks_pure ((hKids n _ hn).1.bind fun _ _ => looks_pure)
  · exact looks_ite looks_pure ((hKids n _ hn).2.bind fun _ _ => looks_pure)

theorem pretty_look (hNo : NoReferences h) (hV : Frees h q V) : ∀ fuel, 2 * V.length + 1 ≤ fuel →
    ∀ out first depth, Looks (writePrettyItems std fuel out q first depth) h ∧
      Looks (writePrettyMembers std fuel out q first depth) h := by
  induction hV with
  | nil =>
    intro fuel _ out first depth
    constructor <;> cases fuel <;> exact looks_pure
  | ref ha hRef _ _ =>
    rw [hNo _ _ ha] at hRef
    cases hRef
  | @own a n V V' ha _ _ _ ihKids ihNext =>
    intro fuel hFuel out first depth
    simp only [List.length_append, List.length_cons] at hFuel
    obtain ⟨fuel, rfl⟩ := Nat.exists_eq_add_of_le' (show 2 ≤ fuel by omega)
    have hNode : ∀ out, Looks (writeCjsonPretty std (fuel + 1) out (some a) (depth + 1)) h := by
      intro out
      apply writeCjsonPretty_looks
      intro n' out' hn'
      rw [ha] at hn'
      cases hn'
      exact ihKids fuel (by omega) out' true (depth + 1)
    have hRest := fun out => ihNext (fuel + 1) (by omega) out false depth
    constructor
    · rw [writePrettyItems]
      swap
      · intro h
        cases h
      exact (hNode _).bind fun _ _ => looks_bind_of_run (load_run ha) (hRest _).1
    · rw [writePrettyMembers]
      swap
      · intro h
        cases h
      refine looks_bind_of_run (load_run ha) ((looks_writeKey _ _).bind fun _ _ => ?_)
      exact (hNode _).bind fun _ _ => looks_bind_of_run (load_run ha) (hRest _).2

/-! ## Copies -/

/-- Only a text that cannot be read keeps a text from being copied. -/
theorem duplicateString_ends {set : Ptr → CNode → CNode} (hGrown : Grown h g kids [a])
    (hn : g.nodes a = some n) (hConst : n.constKey = false) (hSet : TextField set n) :
    Ends (duplicateString (some a) src set) g := by
  by_cases hRead : ∀ s, src = some s → g.Readable s
  · obtain ⟨ok, g', hRun, -⟩ := (duplicateString_meets hGrown hn hConst hSet
      (fun _ : True => hRead)).returns trivial
    exact Run.avoids_of_run hRun
  · cases src with
    | none => exact absurd nofun hRead
    | some s =>
      refine Run.Avoids.bind (looks_loadStr _).1 fun r g' hRun => ?_
      obtain ⟨s', b, hEq, hb, hNul, -⟩ := loadStr_eq_ok hRun
      cases hEq
      refine absurd ?_ hRead
      intro t ht
      cases ht
      exact ⟨b, hb, hNul⟩

theorem fillCopy_ends {recurse : Bool} (hGrown : Grown h g kids [a]) (hn : g.nodes a = some n.copy)
    (hChildren : ∀ g, Filled h a true g → Ends (duplicateChildren fuel (some a) n.child) g) :
    Ends (fillCopy recurse fuel a n) g := by
  have hN := (hGrown.root a (List.mem_singleton_self a)).1
  have hConst : n.copy.constKey = false := isConst_clearFlags n.type_
  have hRef : n.copy.isRef = false := isReference_clearFlags n.type_
  have hValue := textField_valuestring hRef (rfl : n.copy.valuestring = none)
  rw [fillCopy]
  refine Run.Avoids.bind (duplicateString_ends hGrown hn hConst hValue) fun ok g₁ hRun₁ => ?_
  have hOr₁ := (duplicateString_meets hGrown hn hConst hValue (S := False) False.elim).post hRun₁
  rcases hOr₁ with ⟨hok, -⟩ | ⟨hok, q, hGrown₁, hn₁⟩
  · rw [hok]
    exact Run.avoids_pure
  rw [hok]
  have hString := textField_string (n := { n.copy with valuestring := q }) hConst rfl
  refine Run.Avoids.bind (duplicateString_ends hGrown₁ hn₁ hConst hString) fun ok g₂ hRun₂ => ?_
  have hOr₂ := (duplicateString_meets hGrown₁ hn₁ hConst hString (S := False) False.elim).post hRun₂
  rcases hOr₂ with ⟨hok, -⟩ | ⟨hok, q', hGrown₂, hn₂⟩
  · rw [hok]
    exact Run.avoids_pure
  rw [hok]
  cases recurse with
  | false => exact Run.avoids_pure
  | true =>
    refine Run.Avoids.bind (hChildren g₂ ⟨kids, hGrown₂, fun _ => ⟨hN, _, hn₂, hRef⟩⟩)
      fun ok g₃ _ => ?_
    cases ok <;> exact Run.avoids_pure

theorem duplicateNode_ends {recurse : Bool} (hBounded₀ : h₀.Bounded) (hFrom : Extends h₀ h)
    (hBounded : h.Bounded) (hb : h₀.nodes b = some n)
    (hChildren : ∀ g, Filled h h.brk true g →
      Ends (duplicateChildren fuel (some h.brk) n.child) g) :
    Ends (duplicateNode recurse (fuel + 1) (some b)) h := by
  rw [duplicateNode_succ]
  have hAlloc := allocNode_run h
  by_cases hYes : h.outcomes 0 = true
  · rw [if_pos hYes] at hAlloc
    have hExt : Extends h₀ (h.tick.pushNode .zeroed) := hFrom.trans (extends_pushNode _)
    apply Run.avoids_bind_of_run hAlloc
    apply Run.avoids_bind_of_run (load_run (hExt.node hBounded₀ hb))
    apply Run.avoids_bind_of_run (store_pushNode _)
    apply Run.avoids_bind_of_run (store_pushNode _)
    apply Run.avoids_bind_of_run (store_pushNode _)
    exact fillCopy_ends (grown_leaf hBounded (leaf_copy n)) (pushNode_self (h := h.tick)) hChildren
  · rw [if_neg hYes] at hAlloc
    exact Run.avoids_bind_of_run hAlloc Run.avoids_pure

theorem duplicateChildren_ends (hBounded : h₀.Bounded) (hFrom : Extends h₀ h)
    (hb : h₀.nodes b = some n)
    (hNode : ∀ g, Extends h₀ g → g.Bounded → Ends (duplicateNode true fuel (some b)) g)
    (hRest : ∀ g, Filled h a true g → Ends (duplicateChildren fuel (some a) n.next) g)
    (hFilled : Filled h a true g) :
    Ends (duplicateChildren (fuel + 1) (some a) (some b)) g := by
  obtain ⟨kids, hGrown, hMutable⟩ := hFilled
  have hFrom' : Extends h₀ g := hFrom.trans hGrown.ext
  rw [duplicateChildren_succ]
  refine Run.Avoids.bind (hNode g hFrom' hGrown.bounded) fun d g' hRun => ?_
  obtain ⟨kids', hNew⟩ :=
    ((duplicate_meets hBounded fuel).1 true b g hFrom' hGrown.bounded).post hRun
  cases d with
  | none =>
    obtain ⟨h', hFree, -⟩ := filled_free hGrown ⟨kids', hNew⟩
    exact Run.avoids_bind_of_run hFree Run.avoids_pure
  | some d =>
    obtain ⟨h', hAttach, hFilled'⟩ := filled_attach hGrown (hMutable rfl) hNew
    have hb' : h'.nodes b = some n := (hFrom.trans hFilled'.ext).node hBounded hb
    apply Run.avoids_bind_of_run hAttach
    apply Run.avoids_bind_of_run (load_run hb')
    exact hRest h' hFilled'

theorem duplicate_ends (hBounded : h₀.Bounded) (hNo : NoReferences h₀) (fuel : Nat) :
    (∀ recurse b h n V, Extends h₀ h → h.Bounded → h₀.nodes b = some n → Frees h₀ n.child V →
      2 * V.length + 2 ≤ fuel → Ends (duplicateNode recurse fuel (some b)) h) ∧
    ∀ a src h g V, Extends h₀ h → Filled h a true g → Frees h₀ src V → 2 * V.length + 1 ≤ fuel →
      Ends (duplicateChildren fuel (some a) src) g := by
  induction fuel with
  | zero => exact ⟨fun _ _ _ _ _ _ _ _ _ hFuel => by omega, fun _ _ _ _ _ _ _ _ hFuel => by omega⟩
  | succ fuel ih =>
    obtain ⟨ihNode, ihChildren⟩ := ih
    refine ⟨fun recurse b h n V hFrom hBounded' hb hV hFuel => ?_,
      fun a src h g V hFrom hFilled hV hFuel => ?_⟩
    · apply duplicateNode_ends hBounded hFrom hBounded' hb
      exact fun g hFilled => ihChildren h.brk n.child h g V hFrom hFilled hV (by omega)
    · cases hV with
      | nil => exact Run.avoids_pure
      | ref hb hRef _ =>
        rw [hNo _ _ hb] at hRef
        cases hRef
      | @own b n V V' hb _ hKids hNext =>
        simp only [List.length_append, List.length_cons] at hFuel
        apply duplicateChildren_ends hBounded hFrom hb _ _ hFilled
        · exact fun g hFrom' hGrown => ihNode true b g n V' hFrom' hGrown hb hKids (by omega)
        · exact fun g hFilled' => ihChildren a n.next h g V hFrom hFilled' hNext (by omega)

/-! ## The calls -/

/-- The nodes below a live node, met in a walk. -/
theorem exists_walk (hWf : WellFormed 0 h kids) (hNo : NoReferences h) (ha : h.nodes a = some n) :
    ∃ V, Frees h n.child V ∧ 2 * V.length + 2 ≤ h.fuel := by
  obtain ⟨W, hW⟩ := exists_subtree hWf.trees (Nat.zero_le a) ha
  have hLength := hW.length_le hWf.bounded
  obtain ⟨⟨n', V, hn', hEq, hKids⟩, -⟩ := hW
  rw [ha] at hn'
  cases hn'
  rw [hEq, List.length_append, List.length_singleton] at hLength
  rcases hKids with ⟨hRef, -⟩ | ⟨-, hV⟩
  · rw [hNo a n ha] at hRef
    cases hRef
  · refine ⟨V, hV, ?_⟩
    unfold Heap.fuel
    omega

theorem cjsonToValue_looks (hWf : WellFormed 0 h kids) (hNo : NoReferences h) (a : Addr) :
    Looks (cjsonToValue (some a)) h := by
  have hNode : Looks (nodeToValue h.fuel (some a)) h := by
    obtain ⟨fuel, hFuel⟩ : ∃ fuel, h.fuel = fuel + 1 := ⟨_, rfl⟩
    rw [hFuel]
    apply nodeToValue_looks
    intro n hn
    obtain ⟨V, hV, hLe⟩ := exists_walk hWf hNo hn
    exact values_look hNo hV fuel (by omega)
  exact hNode

theorem printText_looks (hWf : WellFormed 0 h kids) (hNo : NoReferences h) (a : Addr)
    (pretty : Bool) : Looks (printText std (some a) pretty) h := by
  cases pretty with
  | false => exact (cjsonToValue_looks hWf hNo a).bind fun _ _ => looks_pure
  | true =>
    have hNode : Looks (writeCjsonPretty std h.fuel [] (some a) 0) h := by
      obtain ⟨fuel, hFuel⟩ : ∃ fuel, h.fuel = fuel + 1 := ⟨_, rfl⟩
      rw [hFuel]
      apply writeCjsonPretty_looks
      intro n out hn
      obtain ⟨V, hV, hLe⟩ := exists_walk hWf hNo hn
      exact pretty_look hNo hV fuel (by omega) out true 0
    exact looks_bind_of_run (Run.get_run h) (hNode.bind fun _ _ => looks_pure)

theorem printImpl_ends (hWf : WellFormed 0 h kids) (hNo : NoReferences h) (a : Addr)
    (pretty : Bool) : Ends (printImpl std (some a) pretty) h := by
  refine Run.Avoids.bind (printText_looks hWf hNo a pretty).1 fun text g _ => ?_
  cases text with
  | none => exact Run.avoids_pure
  | some s =>
    show Run.Avoids .diverges (hookMallocBuf (encode s ++ [0])) g
    unfold Run.Avoids hookMallocBuf
    split <;> nofun

theorem cjsonCompare_ends (hWf : WellFormed 0 h kids) (hNo : NoReferences h) (a b : Addr)
    (cs : Int) : Ends (cjsonCompare (some a) (some b) cs) h := by
  have hLooks : Looks (cjsonCompare (some a) (some b) cs) h := by
    refine (cjsonToValue_looks hWf hNo a).bind fun v _ => ?_
    refine (cjsonToValue_looks hWf hNo b).bind fun w _ => ?_
    cases v <;> cases w <;> exact looks_pure
  exact hLooks.1

theorem cjsonDuplicate_ends (hWf : WellFormed 0 h kids) (hNo : NoReferences h)
    (ha : h.nodes a = some n) (recurse : Int) : Ends (cjsonDuplicate (some a) recurse) h := by
  obtain ⟨V, hV, hLe⟩ := exists_walk hWf hNo ha
  rw [Ends, Run.Avoids, cjsonDuplicate, duplicate]
  exact (duplicate_ends hWf.bounded hNo h.fuel).1 _ a h n V (Extends.refl h) hWf.bounded ha hV hLe

end CjsonRs.Ffi
