import CjsonRs.Ffi.Compare
import CjsonRs.Ffi.RoundTrip

/-!
# Comparing two trees

`cJSON_Compare` of two trees is the search `compareValues` on their values. A tree that is
found equal to another one is found equal by it too, whatever the other is, exactly when no
object inside it has two members that are equal to each other (or a `NaN` keeps it from being
found equal to anything).
-/

namespace CjsonRs.Ffi

open CjsonRs.Core Library

variable {h h' : Heap} {a b : Addr} {q : Ptr} {t u : CTree} {v w : Value} {s : Str}
  {bytes : List UInt8} {cs : Int}

/-! ## Reading two trees -/

/-- What the search gives for two trees, `false` when one of them has no value. -/
def compareTrees (caseSensitive : Bool) (t u : CTree) : Bool :=
  match t.toValue, u.toValue with
  | some v, some w => compareValues caseSensitive v w
  | _, _ => false

theorem cjsonCompare_run (hBounded : h.Bounded) (ht : Denotes h a t) (hu : Denotes h b u) :
    cjsonCompare (some a) (some b) cs h = .ok (compareTrees (cs ≠ 0) t u, h) := by
  rw [cjsonCompare, compareTrees]
  show (cjsonToValue (some a) >>= fun va => cjsonToValue (some b) >>= fun vb => _) h = _
  rw [Run.bind_run_ok (cjsonToValue_run hBounded ht),
    Run.bind_run_ok (cjsonToValue_run hBounded hu)]
  cases t.toValue <;> cases u.toValue <;> rfl

theorem compareTrees_eq_true {cs : Bool} : compareTrees cs t u = true ↔
    ∃ v w, t.toValue = some v ∧ u.toValue = some w ∧ compareValues cs v w = true := by
  unfold compareTrees
  cases t.toValue with
  | none => exact iff_of_false Bool.false_ne_true (by simp)
  | some v =>
    cases u.toValue with
    | none => exact iff_of_false Bool.false_ne_true (by simp)
    | some w => simp

/-- No object inside the tree has two members that are equal to each other, unless a `NaN`
inside it makes it differ from everything. -/
def Unrepeated (caseSensitive : Bool) (t : CTree) : Prop :=
  ∀ v, t.toValue = some v → NanFree v → Distinct caseSensitive v

theorem compareTrees_back {cs : Bool} (ht : Unrepeated cs t) (h : compareTrees cs t u = true) :
    compareTrees cs u t = true := by
  unfold compareTrees at h ⊢
  cases hv : t.toValue with
  | none =>
    rw [hv] at h
    cases h
  | some v =>
    rw [hv] at h
    cases hw : u.toValue with
    | none =>
      rw [hw] at h
      cases h
    | some w =>
      rw [hw] at h
      exact found_back (ht v hv) h

/-- Two trees without repeated members are compared alike in both orders. -/
theorem compareTrees_comm {cs : Bool} (ht : Unrepeated cs t) (hu : Unrepeated cs u) :
    compareTrees cs t u = compareTrees cs u t := by
  rw [Bool.eq_iff_iff]
  exact ⟨compareTrees_back ht, compareTrees_back hu⟩

/-! ## A heap with one tree more -/

theorem denotes_mono (hNodes : ∀ x n, h.nodes x = some n → h'.nodes x = some n)
    (hBufs : BufsKept h h') :
    (∀ t a, Denotes h a t → Denotes h' a t) ∧ ∀ ts q, DenotesList h q ts → DenotesList h' q ts := by
  refine CTree.induct ?_ ?_ ?_
  · rintro l ts ih a ⟨n, hn, hl, hTs⟩
    refine ⟨n, hNodes a n hn, ⟨hl.tag, ?_, hl.valuedouble, ?_⟩, ih n.child hTs⟩
    · exact hl.valuestring.frame hBufs
    · exact hl.string.frame hBufs
  · rintro q rfl
    rfl
  · rintro t ts ihT ihTs q ⟨a, n, rfl, hn, ht, hTs⟩
    exact ⟨a, n, rfl, hNodes a n hn, ihT a ht, ihTs n.next hTs⟩

/-- Next to the trees of a heap there can be the tree of any value. -/
theorem exists_tree (hBounded : h.Bounded) (v : Value) :
    ∃ h' a, h'.Bounded ∧ Denotes h' a (.ofValue v) ∧ (∀ b u, Denotes h b u → Denotes h' b u) ∧
      BufsKept h h' ∧ ∀ k, h'.outcomes k = true := by
  have hBounded' : ({ h with outcomes := fun _ => true } : Heap).Bounded :=
    ⟨hBounded.nodes, hBounded.bufs⟩
  rcases plants_valueToCjson v _ hBounded' with ⟨h', kids, a, -, hPlanted⟩ | ⟨_, _, _, k, hk⟩
  · have hBufs : BufsKept h h' := fun s b hs =>
      (hPlanted.grown.ext.bufs (hBounded.lt_buf hs)).trans hs
    refine ⟨h', a, hPlanted.grown.bounded, ?_, fun b u hu => ?_, hBufs, fun k => ?_⟩
    · exact (denotes_of_shows hPlanted.grown.sound.wf.trees).1 _ a hPlanted.root.1 hPlanted.shows
    · refine (denotes_mono (fun x n hn => ?_) hBufs).1 u b hu
      exact (hPlanted.grown.ext.nodes (hBounded.lt hn)).trans hn
    · obtain ⟨m, hm⟩ := hPlanted.grown.ext.outcomes
      exact hm k
  · cases hk

/-- `{"k":[42,"",true],"j":{"K":"k"}}` -/
def nestedValue : Value :=
  .object [(['k'], .array [.number ⟨0x4045000000000000#64⟩, .string [], .bool true]),
    (['j'], .object [(['K'], .string ['k'])])]

/-! ## Texts of a tree -/

theorem not_nul_of_cstr (hText : fromUtf8 (cstr bytes) = some s) : '\x00' ∉ s := by
  have hBytes := fromUtf8_eq_some.mp hText
  intro hMem
  have hZero : (0 : UInt8) ∈ cstr bytes := by
    rw [hBytes]
    exact List.mem_flatMap.mpr ⟨'\x00', hMem, nul_mem_encodeChar.mpr rfl⟩
  simpa using List.mem_takeWhile_imp hZero

theorem not_nul_of_textAt {text : Option (List UInt8)} (hText : TextAt h q text)
    (hs : labelText text = some s) : '\x00' ∉ s := by
  cases q with
  | none =>
    rw [show text = none from hText] at hs
    cases hs
    exact List.not_mem_nil
  | some x =>
    obtain ⟨b, -, -, rfl⟩ := hText
    exact not_nul_of_cstr hs

/-- No text of a tree reads with a U+0000. -/
theorem nulFree_of_denotes :
    (∀ t a v, Denotes h a t → t.toValue = some v → NulFree v) ∧
    ∀ ts q, DenotesList h q ts →
      (∀ vs, CTree.toItems ts = some vs → ∀ v ∈ vs, NulFree v) ∧
      ∀ ms, CTree.toMembers ts = some ms → ∀ m ∈ ms, '\x00' ∉ m.1 ∧ NulFree m.2 := by
  refine CTree.induct ?_ ?_ ?_
  · rintro l ts ih a v ⟨n, hn, hl, hTs⟩ hv
    obtain ⟨hItems, hMembers⟩ := ih n.child hTs
    rw [CTree.toValue] at hv
    split_ifs at hv
    · cases hv
      exact Value.texts_null
    · cases hv
      exact Value.texts_bool true
    · cases hv
      exact Value.texts_bool false
    · cases hv
      exact Value.texts_number _
    · obtain ⟨s, hs, rfl⟩ := Option.map_eq_some_iff.mp hv
      exact Value.texts_string.mpr (not_nul_of_textAt hl.valuestring hs)
    · obtain ⟨vs, hvs, rfl⟩ := Option.map_eq_some_iff.mp hv
      exact Value.texts_array.mpr (hItems vs hvs)
    · obtain ⟨ms, hms, rfl⟩ := Option.map_eq_some_iff.mp hv
      exact Value.texts_object.mpr (hMembers ms hms)
  · rintro q -
    constructor
    · rintro vs hvs
      cases hvs
      simp
    · rintro ms hms
      cases hms
      simp
  · rintro t ts ihT ihTs q ⟨a, n, rfl, hn, ht, hTs⟩
    obtain ⟨hItems, hMembers⟩ := ihTs n.next hTs
    constructor
    · intro vs hvs
      obtain ⟨v, us, hv, hus, rfl⟩ := CTree.toItems_cons.mp hvs
      intro w hw
      rcases List.mem_cons.mp hw with rfl | hw
      · exact ihT a w ht hv
      · exact hItems us hus w hw
    · intro ms hms
      obtain ⟨k, v, us, hk, hv, hus, rfl⟩ := CTree.toMembers_cons.mp hms
      obtain ⟨m, hm, hl⟩ := ht.labelled
      intro w hw
      rcases List.mem_cons.mp hw with rfl | hw
      · exact ⟨not_nul_of_textAt hl.string hk, ihT a v ht hv⟩
      · exact hMembers us hus w hw

/-! ## Symmetry -/

/-- A tree with repeated members is found equal to a tree that is not found equal to it. -/
theorem exists_asymmetric {cs : Bool} (hBounded : h.Bounded) (ht : Denotes h a t)
    (hRepeated : ¬ Unrepeated cs t) :
    ∃ h' b u, h'.Bounded ∧ Denotes h' a t ∧ Denotes h' b u ∧ compareTrees cs t u = true ∧
      compareTrees cs u t = false := by
  unfold Unrepeated at hRepeated
  push Not at hRepeated
  obtain ⟨v, hv, hNan, hNot⟩ := hRepeated
  have hTexts : NulFree v := nulFree_of_denotes.1 t a v ht hv
  obtain ⟨w, hFound, hBack, hw⟩ := exists_not_found_back hNan hTexts (by simp) hNot
  obtain ⟨h', b, hBounded', hu, hKept, -⟩ := exists_tree hBounded w
  refine ⟨h', b, _, hBounded', hKept a t ht, hu, ?_, ?_⟩
  · rw [compareTrees, hv, toValue_ofValue, cut_of_nulFree hw]
    exact hFound
  · rw [compareTrees, hv, toValue_ofValue, cut_of_nulFree hw]
    exact Bool.eq_false_iff.mpr hBack

/-- Every tree that `t` is found equal to is found equal to `t`, exactly when `t` has no
repeated members. -/
theorem cjsonCompare_returned_iff (hBounded : h.Bounded) (ht : Denotes h a t) (cs : Int) :
    (∀ (g : Heap) (x y : Addr) (u : CTree), g.Bounded → Denotes g x t → Denotes g y u →
        cjsonCompare (some x) (some y) cs g = .ok (true, g) →
        cjsonCompare (some y) (some x) cs g = .ok (true, g)) ↔ Unrepeated (cs ≠ 0) t := by
  constructor
  · intro hAll
    by_contra hRepeated
    obtain ⟨g, y, u, hg, hx, hy, hFound, hBack⟩ := exists_asymmetric hBounded ht hRepeated
    have hRun := hAll g a y u hg hx hy (by rw [cjsonCompare_run hg hx hy, hFound])
    rw [cjsonCompare_run hg hy hx, hBack] at hRun
    cases hRun
  · intro hUnrepeated g x y u hg hx hy hRun
    rw [cjsonCompare_run hg hx hy] at hRun
    rw [cjsonCompare_run hg hy hx,
      compareTrees_back hUnrepeated (Prod.mk.inj (Except.ok.inj hRun)).1]

theorem cjsonCompare_returned_iff_nested : ∃ h a, h.Bounded ∧ Denotes h a (.ofValue nestedValue) ∧
    ((∀ (g : Heap) (x y : Addr) (u : CTree), g.Bounded → Denotes g x (.ofValue nestedValue) →
        Denotes g y u → cjsonCompare (some x) (some y) 1 g = .ok (true, g) →
        cjsonCompare (some y) (some x) 1 g = .ok (true, g)) ↔
      Unrepeated ((1 : Int) ≠ 0) (.ofValue nestedValue)) := by
  obtain ⟨h, a, hBounded, ha, -⟩ := exists_tree (bounded_oneString []) nestedValue
  exact ⟨h, a, hBounded, ha, cjsonCompare_returned_iff hBounded ha 1⟩

end CjsonRs.Ffi
