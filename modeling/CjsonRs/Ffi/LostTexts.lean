import CjsonRs.Ffi.Copies
import CjsonRs.Ffi.Custody

/-!
# Texts that a copy loses

`duplicate` reads every text as a `&str` and has no branch for bytes that are not UTF-8: it leaves
the field of the copy `NULL` and goes on. `cJSON_CreateStringReference` and
`cJSON_AddItemToObjectCS` take any bytes, so such texts are in the trees of the interface. A copy
keeps the texts exactly when all of them are UTF-8.
-/

namespace CjsonRs.Ffi

open CjsonRs.Core Library Library.Link Library.Forest

variable {h h₀ h' : Heap} {a b s : Addr} {c : Content} {r : Ptr} {t : Rose Content}
  {recurse : Int} {std : StdF64}

/-- The texts of a node. -/
def Content.texts (c : Content) : Option (List UInt8) × Option (List UInt8) :=
  (c.valuestring, c.string)

/-- A text is `NULL` or UTF-8. -/
def Utf8Text (text : Option (List UInt8)) : Prop :=
  ∀ bytes, text = some bytes → ∃ str, encode str = bytes

/-- The texts of a node are `NULL` or UTF-8. -/
def Content.Utf8 (c : Content) : Prop := Utf8Text c.valuestring ∧ Utf8Text c.string

/-- What was returned is `NULL`, or a tree with the texts of `t`. -/
def TextsKept (h : Heap) (r : Ptr) (t : Rose Content) : Prop :=
  ∀ a, r = some a → ∃ u, Holds h a u ∧ u.map Content.texts = t.map Content.texts

theorem utf8Only_eq_iff {text : Option (List UInt8)} : utf8Only text = text ↔ Utf8Text text := by
  cases text with
  | none => exact iff_of_true rfl nofun
  | some bytes =>
    rw [utf8Only, Option.filter_some_eq_some, Option.isSome_iff_exists]
    constructor
    · rintro ⟨str, hStr⟩ _ ⟨⟩
      exact ⟨str, (fromUtf8_eq_some.mp hStr).symm⟩
    · intro hUtf8
      obtain ⟨str, hStr⟩ := hUtf8 bytes rfl
      exact ⟨str, fromUtf8_eq_some.mpr hStr.symm⟩

theorem texts_copied_iff : c.copied.texts = c.texts ↔ c.Utf8 := by
  rw [Content.texts, Content.texts, Prod.mk.injEq]
  exact and_congr utf8Only_eq_iff utf8Only_eq_iff

/-- The copy of a tree has its texts exactly when they are UTF-8. -/
theorem map_texts_copied :
    (t.map Content.copied).map Content.texts = t.map Content.texts ↔ t.All Content.Utf8 := by
  have hSame : (fun c : Content => c.copied.texts = c.texts) = Content.Utf8 :=
    funext fun c => propext texts_copied_iff
  rw [(Rose.map_map Content.texts).1, Rose.map_eq_map_iff.1, hSame]

theorem duplicate_texts {recurse : Bool} (hBounded : h.Bounded)
    (hSource : Source h b recurse t) :
    ∃ r h', duplicate (some b) recurse h = .ok (r, h') ∧
      (TextsKept h' r t ↔
        t.All Content.Utf8 ∨ ¬ h.Plenty (blocksIn (t.map Content.copied))) := by
  rcases duplicate_exact hBounded hSource with
    ⟨hYes, q, h', hRun, -, a, kids, hq, hFormed⟩ | ⟨hNo, q, h', hRun, hq, -⟩
  · refine ⟨q, h', hRun, ?_⟩
    have hHolds := hFormed.holds hSource
    rw [or_iff_left (not_not.mpr hYes), ← map_texts_copied]
    constructor
    · intro hKept
      obtain ⟨u, hu, hTexts⟩ := hKept a hq
      rw [← holds_unique.1 _ a u hHolds hu] at hTexts
      exact hTexts
    · intro hTexts a' ha'
      rw [hq, Option.some.injEq] at ha'
      rw [← ha']
      exact ⟨_, hHolds, hTexts⟩
  · refine ⟨q, h', hRun, iff_of_true (fun a ha => ?_) (Or.inr hNo)⟩
    rw [hq] at ha
    cases ha

/-- A copy loses no text exactly when all texts that it copies are UTF-8, or there is no memory
for one of its blocks and nothing is returned. -/
theorem cjsonDuplicate_keeps_texts_iff (hBounded : h.Bounded)
    (hSource : Source h b (recurse ≠ 0) t) :
    ∃ r h', cjsonDuplicate (some b) recurse h = .ok (r, h') ∧
      (TextsKept h' r t ↔
        t.All Content.Utf8 ∨ ¬ h.Plenty (blocksIn (t.map Content.copied))) :=
  duplicate_texts hBounded hSource

/-! ## A string that is not UTF-8 -/

/-- The caller's bytes 0xFF and NUL at 0. -/
def strayByte : Heap := oneString [0xFF, 0]

/-- The string at 1 refers to these bytes. -/
def strayNode : CNode :=
  { CNode.zeroed with type_ := cjsonString ||| cjsonIsReference, valuestring := some 0 }

def strayString : Heap := strayByte.tick.pushNode strayNode

/-- What is read from the string at 1. -/
def strayTree : Rose Content :=
  .node { plain (cjsonString ||| cjsonIsReference) with valuestring := some [0xFF] } []

theorem run_strayString :
    Relation.ReflTransGen (Step std fun _ _ _ => True) strayByte strayString := by
  have hRun : cjsonCreateStringReference (some 0) strayByte = .ok (some 1, strayString) := by
    refine (newNode_fill ({ · with valuestring := some 0 }) fun m => ?_).trans (if_pos rfl)
    rw [Run.bind_run_ok (store_pushNode _)]
    rfl
  refine .single (.call (c := .create (.stringReference (some 0)))
    (start_oneString [0xFF, 0]).sound.wf.trees trivial trivial trivial (r := .item (some 1)) ?_)
  show ((.item <$> cjsonCreateStringReference (some 0) : M Reply)) strayByte = _
  rw [Run.map_run_ok hRun]

theorem source_strayString (recurse : Bool) : Source strayString 1 recurse strayTree := by
  have hText : TextAt strayString (some 0) (some [0xFF]) := textAt_char rfl (by decide)
  cases recurse with
  | true => exact ⟨_, rfl, ⟨rfl, hText, rfl, rfl, rfl⟩, rfl⟩
  | false =>
    have hContent : HasContent (TextAt strayString) strayNode
        { plain (cjsonString ||| cjsonIsReference) with valuestring := some [0xFF] } :=
      ⟨rfl, hText, rfl, rfl, rfl⟩
    exact ⟨strayNode, _, rfl, hContent, rfl⟩

theorem bounded_strayString : strayString.Bounded :=
  (start_oneString [0xFF, 0]).bounded.tick.pushNode _

theorem cjsonDuplicate_keeps_texts_iff_strayString :
    ∃ r h', cjsonDuplicate (some 1) 1 strayString = .ok (r, h') ∧
      (TextsKept h' r strayTree ↔ strayTree.All Content.Utf8 ∨
        ¬ strayString.Plenty (blocksIn (strayTree.map Content.copied))) :=
  cjsonDuplicate_keeps_texts_iff bounded_strayString (source_strayString true)

theorem not_utf8_strayTree : ¬ strayTree.All Content.Utf8 := by
  rintro ⟨⟨hValue, -⟩, -⟩
  obtain ⟨str, hStr⟩ := hValue [0xFF] rfl
  cases str with
  | nil => cases hStr
  | cons c str =>
    obtain ⟨first, tail, hBytes, -, hHead⟩ := firstByte_spec c
    rw [encode_cons, hBytes, List.cons_append, List.cons.injEq] at hStr
    rw [hStr.1] at hHead
    rcases hHead with ⟨hLe, -⟩ | ⟨-, hLe, -⟩ | ⟨-, hLe, -⟩ | ⟨-, hLe, -⟩
    · exact absurd hLe (by decide)
    · exact absurd hLe (by decide)
    · exact absurd hLe (by decide)
    · exact absurd hLe (by decide)

/-- The copy of a string that refers to a stray byte has no text. -/
theorem cjsonDuplicate_loses_text :
    ¬ ∀ {std : StdF64} {h₀ h h' : Heap} {b : Addr} {recurse : Int} {t : Rose Content} {r : Ptr},
      Start h₀ → Relation.ReflTransGen (Step std fun _ _ _ => True) h₀ h →
      Source h b (recurse ≠ 0) t → cjsonDuplicate (some b) recurse h = .ok (r, h') →
      TextsKept h' r t := by
  intro hAll
  have hSource : Source strayString 1 true strayTree := source_strayString true
  obtain ⟨r, h', hRun, hIff⟩ := duplicate_texts bounded_strayString hSource
  have hKept : TextsKept h' r strayTree :=
    @hAll Rfc.sampleF64 _ _ _ _ 1 _ _ (start_oneString [0xFF, 0]) run_strayString hSource hRun
  rcases hIff.mp hKept with hUtf8 | hNo
  · exact not_utf8_strayTree hUtf8
  · exact hNo fun _ _ => rfl

end CjsonRs.Ffi
