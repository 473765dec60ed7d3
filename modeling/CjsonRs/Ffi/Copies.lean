import CjsonRs.Ffi.Duplicate
import CjsonRs.Ffi.Release
import CjsonRs.Ffi.Separate

/-!
# What `duplicate` builds

The copy of a tree has the contents of its source, read along all pointers, without the flags and
without the texts that are not UTF-8. When the allocations for it succeed the copy is built, and
when one of them fails nothing is left.
-/

namespace CjsonRs.Ffi

open CjsonRs.Core Library Library.Link Library.Forest

variable {h h₀ h' g g' : Heap} {a b s : Addr} {n m : CNode} {c d : Content} {q src : Ptr}
  {kids : Addr → List Addr} {t : Rose Content} {ts us : List (Rose Content)}
  {text : Option (List UInt8)} {recurse : Bool} {fuel : Nat}

/-- A text, if it is UTF-8. -/
def utf8Only (text : Option (List UInt8)) : Option (List UInt8) :=
  text.filter fun bytes => (fromUtf8 bytes).isSome

/-- The content that `duplicate` gives to the copy of a node. -/
def Content.copied (c : Content) : Content :=
  { c with
    type_ := clearFlags c.type_
    valuestring := utf8Only c.valuestring
    string := utf8Only c.string }

theorem Extends.bufsKept (hExt : Extends h g) (hBounded : h.Bounded) : BufsKept h g :=
  fun _ _ hs => (hExt.bufs (hBounded.lt_buf hs)).trans hs

theorem HasContent.mono (hc : HasContent (TextAt h) n c) (hBufs : BufsKept h g) :
    HasContent (TextAt g) n c :=
  hc.frame (fun _ _ hText => hText.frame hBufs) rfl

/-! ## Texts -/

/-- A text of the source is copied to the root of a finished tree. -/
theorem duplicateString_takes {set : Ptr → CNode → CNode} (fill : Option (List UInt8) → Content)
    (hFormed : Formed h g kids a (.node (fill none) ts)) (hn : g.nodes a = some n)
    (hConst : n.constKey = false) (hSet : TextField set n)
    (hFill : ∀ g' q text, BufsKept g g' → Stored g' q text →
      HasContent (Stored g') (set q n) (fill text))
    (hText : TextAt g src text) :
    Takes (duplicateString (some a) src set) g (utf8Only text).toList.length
      (fun ok g' => ok = true ∧ Formed h g' kids a (.node (fill (utf8Only text)) ts) ∧
        ∃ q, g'.nodes a = some (set q n))
      fun ok g' => ok = false ∧ Built h none g' := by
  have hKept : ∃ q, g.nodes a = some (set q n) := ⟨none, by rw [hSet.unset]; exact hn⟩
  cases src with
  | none =>
    obtain rfl := hText
    exact takes_pure ⟨rfl, hFormed, hKept⟩
  | some s =>
    obtain ⟨buf, hb, hNul, rfl⟩ := hText
    have hLoad := loadStr_run hb hNul
    show Takes (loadStr (some s) >>= fun r => _) g _ _ _
    apply takes_bind_of_run hLoad
    · exact spent_zero
    cases hStr : fromUtf8 (cstr buf.bytes) with
    | none =>
      have hDropped : utf8Only (some (cstr buf.bytes)) = none := by simp [utf8Only, hStr]
      rw [hDropped]
      exact takes_pure ⟨rfl, hFormed, hKept⟩
    | some str =>
      have hSame : utf8Only (some (cstr buf.bytes)) = some (encode str) := by
        simp [utf8Only, fromUtf8_eq_some.mp hStr, fromUtf8_encode]
      rw [hSame]
      refine (allocCstr_takes str g).bind (k := 0) ?_ ?_
      · intro q g' hAlloc
        obtain ⟨hq, hg⟩ := hAlloc
        subst hq hg
        have hn₁ : (g.tick.pushBuf (encode str ++ [0])).nodes a = some n := hn
        apply takes_bind_of_run (store_run hn₁ _)
        · exact spent_zero
        apply takes_pure
        refine ⟨rfl, ?_, some g.brk, Heap.setNode_self⟩
        apply hFormed.retext hn _ (hSet.prev _) (hSet.next _) (hSet.shape _)
          ((hSet.const _).trans hConst) (hSet.texts _)
        apply hFill
        · exact bufsKept_pushBuf hFormed.grown.bounded _
        · exact stored_pushBuf (encode str)
      · intro q g' hAlloc
        obtain ⟨hq, hg⟩ := hAlloc
        subst hq hg
        have hn₁ : g.tick.nodes a = some n := hn
        have hSame : g.tick.setNode a (set none n) = g.tick := by
          rw [hSet.unset]
          exact setNode_same hn₁
        obtain ⟨g', hFree, hBuilt⟩ := hFormed.grown.tick.free
        refine ⟨false, g', ?_, rfl, hBuilt⟩
        rw [Run.bind_run_ok (store_run hn₁ _), hSame]
        show (freeCjson (some a) >>= fun _ => pure false) g.tick = _
        rw [Run.bind_run_ok hFree]
        rfl

/-! ## Nodes -/

theorem bare_copy (n : CNode) : Bare n.copy :=
  ⟨rfl, rfl, rfl, rfl, rfl, isReference_clearFlags n.type_, isConst_clearFlags n.type_⟩

/-- The loop over the sources at `src` gives the copies `ts` to the new node `a`. -/
def CopiesTo (h : Heap) (fuel : Nat) (a : Addr) (src : Ptr) (ts : List (Rose Content)) : Prop :=
  ∀ g kids c us, Formed h g kids a (.node c us) →
    Takes (duplicateChildren fuel (some a) src) g (Rose.totalList Content.blocks ts)
      (fun ok g' => ok = true ∧ ∃ kids', Formed h g' kids' a (.node c (us ++ ts)))
      fun ok g' => ok = false ∧ Built h none g'

/-- A copy is given up when one of its parts could not be copied. -/
theorem refused_copy {ok : Bool} {z : M Ptr} (hFailed : ok = false ∧ Built h none g) :
    ∃ r g', (if !ok then (pure none : M Ptr) else z) g = .ok (r, g') ∧ r = none ∧
      Built h none g' := by
  obtain ⟨hok, hGone⟩ := hFailed
  rw [hok]
  exact ⟨none, g, rfl, rfl, hGone⟩

/-- The texts and the children of a new copy. -/
theorem fillCopy_takes (hBounded : h.Bounded) (hc : HasContent (TextAt h) n c)
    (hFormed : Formed h g kids a (.node n.copy.content [])) (hn : g.nodes a = some n.copy)
    (hChildren : recurse = true → CopiesTo h fuel a n.child ts)
    (hNone : recurse = false → ts = []) :
    Takes (fillCopy recurse fuel a n) g
      ((utf8Only c.valuestring).toList.length + ((utf8Only c.string).toList.length +
        Rose.totalList Content.blocks ts))
      (fun q g' => ∃ a kids, q = some a ∧ Formed h g' kids a (.node c.copied ts))
      fun q g' => q = none ∧ Built h none g' := by
  have hRef : n.copy.isRef = false := (bare_copy n).own
  have hConst : n.copy.constKey = false := (bare_copy n).key
  have hCopied : c.copied = { n.copy.content with
      valuestring := utf8Only c.valuestring, string := utf8Only c.string } := by
    rw [Content.copied, ← hc.type_, ← hc.valueint, ← hc.valuedouble]
    rfl
  rw [fillCopy]
  refine (duplicateString_takes (fun text => { n.copy.content with valuestring := text })
    hFormed hn hConst (textField_valuestring hRef rfl) ?_ ?_).bind ?_ ?_
  · intro g' q text _ hText
    exact ⟨rfl, hText, rfl, rfl, rfl⟩
  · exact hc.valuestring.frame (hFormed.grown.ext.bufsKept hBounded)
  · intro ok g₁ hFilled
    obtain ⟨hok, hFormed₁, q, hn₁⟩ := hFilled
    subst hok
    obtain ⟨⟨n₁, hn₁', -, -, hc₁⟩, -⟩ := hFormed₁.bears
    rw [hn₁] at hn₁'
    cases hn₁'
    refine (duplicateString_takes (fun text => { n.copy.content with
      valuestring := utf8Only c.valuestring, string := text }) hFormed₁ hn₁ hConst
      (textField_string hConst rfl) ?_ ?_).bind ?_ ?_
    · intro g' q' text hBufs hText
      exact ⟨rfl, hc₁.valuestring.frame hBufs, rfl, rfl, hText⟩
    · exact hc.string.frame (hFormed₁.grown.ext.bufsKept hBounded)
    · intro ok g₂ hFilled
      obtain ⟨hok, hFormed₂, _⟩ := hFilled
      subst hok
      rw [← hCopied] at hFormed₂
      cases recurse with
      | false =>
        rw [hNone rfl]
        exact takes_pure ⟨a, kids, rfl, hFormed₂⟩
      | true =>
        refine (hChildren rfl g₂ kids c.copied [] hFormed₂).bind (k := 0) ?_ ?_
        · intro ok g₃ hFilled
          obtain ⟨hok, kids', hFormed₃⟩ := hFilled
          subst hok
          exact takes_pure ⟨a, kids', rfl, hFormed₃⟩
        · exact fun ok g₃ => refused_copy
    · exact fun ok g₂ => refused_copy
  · exact fun ok g₁ => refused_copy

theorem allocNode_takes (h : Heap) :
    Takes allocNode h 1 (fun q g => q = some h.brk ∧ g = h.tick.pushNode .zeroed)
      fun q g => q = none ∧ g = h.tick :=
  takes_alloc (allocNode_run h) spent_tick ⟨rfl, rfl⟩ ⟨rfl, rfl⟩

/-- One node of the source, and what is below it for a recursive copy. -/
theorem duplicateNode_forms (hBounded₀ : h₀.Bounded) (hFrom : Extends h₀ h) (hBounded : h.Bounded)
    (hn : h₀.nodes b = some n) (hc : HasContent (TextAt h₀) n c)
    (hChildren : recurse = true → CopiesTo h fuel h.brk n.child ts)
    (hNone : recurse = false → ts = []) :
    Forms (duplicateNode recurse (fuel + 1) (some b)) h (.node c.copied ts) := by
  have hBlocks : blocksIn (.node c.copied ts) = 1 + ((utf8Only c.valuestring).toList.length +
      ((utf8Only c.string).toList.length + Rose.totalList Content.blocks ts)) := by
    simp only [blocksIn, Rose.total, Content.blocks, Content.copied]
    omega
  have hLoad : (h.tick.pushNode .zeroed).nodes b = some n :=
    (hFrom.trans (extends_pushNode _)).node hBounded₀ hn
  unfold Forms
  rw [hBlocks, duplicateNode_succ]
  refine (allocNode_takes h).bind ?_ ?_
  · intro q g hAlloc
    obtain ⟨hq, hg⟩ := hAlloc
    subst hq hg
    apply takes_bind_of_run (load_run hLoad) spent_zero
    apply takes_bind_of_run (store_pushNode _) spent_zero
    apply takes_bind_of_run (store_pushNode _) spent_zero
    apply takes_bind_of_run (store_pushNode _) spent_zero
    exact fillCopy_takes hBounded (hc.mono (hFrom.bufsKept hBounded₀))
      (formed_leaf hBounded (bare_copy n)) (pushNode_self (h := h.tick)) hChildren hNone
  · intro q g hAlloc
    obtain ⟨hq, hg⟩ := hAlloc
    subst hq hg
    exact ⟨none, h.tick, rfl, rfl, built_tick hBounded⟩

/-! ## Trees -/

/-- A new tree becomes the last child of the new tree before it. -/
theorem Formed.attachChild {g₁ : Heap} {i : Addr} {kids₁ : Addr → List Addr} {u : Rose Content}
    (hFormed : Formed h g kids a (.node c us)) (hChild : Formed g g₁ kids₁ i u) :
    ∃ g₂ kids₂, attachChild (some a) (some i) g₁ = .ok ((), g₂) ∧ Spent g₁ g₂ 0 ∧
      Formed h g₂ kids₂ a (.node c (us ++ [u])) := by
  obtain ⟨n, hn, hList, hNodup, hNew⟩ := hFormed.slot hChild
  have hLive : (g₁.link i).isSome := by
    rw [hChild.link]
    rfl
  obtain ⟨g₂, q, hRun, hSpliced, hW⟩ :=
    attachChild_run hChild.grown.bounded (body_eq hn) hList hNodup hLive hNew
  obtain ⟨kids₂, hAttached, -⟩ := hFormed.attach hChild hSpliced hW
  refine ⟨g₂, kids₂, hRun, fun n => ?_, hAttached⟩
  rw [hW.rest]
  rfl

/-- A tree that is read from `h₀` is copied exactly, at any later time. -/
theorem duplicate_forms (hBounded₀ : h₀.Bounded) :
    (∀ t b fuel h, Holds h₀ b t → Extends h₀ h → h.Bounded → 2 * (seen t).steps ≤ fuel →
      Forms (duplicateNode true fuel (some b)) h (t.map Content.copied)) ∧
    ∀ ts q fuel h a, HoldsList h₀ q ts → Extends h₀ h →
      2 * CTree.stepsList (seenAll ts) + 1 ≤ fuel →
      CopiesTo h fuel a q (Rose.mapAll Content.copied ts) := by
  apply Rose.induct
  · intro c ts ih b fuel h hHolds hFrom hBounded hFuel
    obtain ⟨n, hn, hc, hTs⟩ := hHolds
    rw [seen, CTree.steps] at hFuel
    obtain ⟨fuel, rfl⟩ := Nat.exists_eq_add_of_le' (show 1 ≤ fuel by omega)
    have hKids : CopiesTo h fuel h.brk n.child (Rose.mapAll Content.copied ts) :=
      ih n.child fuel h h.brk hTs hFrom (by omega)
    exact duplicateNode_forms hBounded₀ hFrom hBounded hn hc (fun _ => hKids)
      fun hFalse : true = false => by cases hFalse
  · intro q fuel h a hNil _ _ g kids c us hFormed
    rw [show q = none from hNil]
    have hDone : duplicateChildren fuel (some a) none = pure true := by
      cases fuel <;> rfl
    rw [hDone, Rose.mapAll, List.append_nil]
    exact takes_pure ⟨rfl, kids, hFormed⟩
  · intro t ts ihT ihTs q fuel h a hHolds hFrom hFuel g kids c us hFormed
    obtain ⟨b, n, hq, hn, ht, hTs⟩ := hHolds
    rw [seenAll, CTree.stepsList] at hFuel
    obtain ⟨fuel, rfl⟩ := Nat.exists_eq_add_of_le' (show 1 ≤ fuel by omega)
    have hFrom' := hFrom.trans hFormed.grown.ext
    rw [hq, duplicateChildren_succ]
    refine (ihT b fuel g ht hFrom' hFormed.grown.bounded (by omega)).bind ?_ ?_
    · intro d g₁ hCopy
      obtain ⟨i, kids₁, hd, hChild⟩ := hCopy
      subst hd
      obtain ⟨g₂, kids₂, hRun, hSpent, hAttached⟩ := hFormed.attachChild hChild
      have hLoad := (hFrom.trans hAttached.grown.ext).node hBounded₀ hn
      apply takes_bind_of_run hRun hSpent
      apply takes_bind_of_run (load_run hLoad) spent_zero
      have hRest := ihTs n.next fuel h a hTs hFrom (by omega) g₂ kids₂ c _ hAttached
      rw [List.append_assoc] at hRest
      exact hRest
    · intro d g₁ hCopy
      obtain ⟨hd, kids₁, hGrown⟩ := hCopy
      subst hd
      obtain ⟨g₂, hFree, hGone⟩ := (hFormed.grown.trans hGrown).free
      refine ⟨false, g₂, ?_, rfl, hGone⟩
      show (freeCjson (some a) >>= fun _ => pure false) g₁ = _
      rw [Run.bind_run_ok hFree]
      rfl

/-- What `duplicate` reads: the tree at `b`, or for a copy that is not recursive its root. -/
def Source (h : Heap) (b : Addr) (recurse : Bool) (t : Rose Content) : Prop :=
  match recurse with
  | true => Holds h b t
  | false => ∃ n c, h.nodes b = some n ∧ HasContent (TextAt h) n c ∧ t = .node c []

/-- `duplicate` copies what it reads, or nothing for want of memory. -/
theorem duplicate_exact (hBounded : h.Bounded) (hSource : Source h b recurse t) :
    Forms (duplicate (some b) recurse) h (t.map Content.copied) := by
  have hStart : duplicate (some b) recurse h = duplicateNode recurse h.fuel (some b) h := rfl
  refine Takes.congr ?_ hStart
  cases recurse with
  | true =>
    have hSteps := steps_le_brk hBounded (denotes_of_holds.1 t b hSource)
    have hFuel : 2 * (seen t).steps ≤ h.fuel := by
      unfold Heap.fuel
      omega
    exact (duplicate_forms hBounded).1 t b h.fuel h hSource (Extends.refl h) hBounded hFuel
  | false =>
    obtain ⟨n, c, hn, hc, rfl⟩ := hSource
    obtain ⟨fuel, hFuel⟩ : ∃ fuel, h.fuel = fuel + 1 := ⟨_, rfl⟩
    rw [hFuel]
    exact duplicateNode_forms hBounded (Extends.refl h) hBounded hn hc
      (fun hTrue : false = true => by cases hTrue) fun _ => rfl

theorem cstr_cstr (bytes : List UInt8) : cstr (cstr bytes) = cstr bytes := by
  unfold cstr
  rw [List.takeWhile_takeWhile]
  simp

theorem TextAt.cut_copied (hText : TextAt h q text) :
    (utf8Only text).map cstr = utf8Only text := by
  cases q with
  | none =>
    obtain rfl := hText
    rfl
  | some s =>
    obtain ⟨b, -, -, rfl⟩ := hText
    rw [utf8Only, Option.filter_some]
    split
    · rw [Option.map_some, cstr_cstr]
    · rfl

/-- What is copied from a tree has no NUL in its texts. -/
theorem cut_copied : (∀ t a, Holds h a t →
      (t.map Content.copied).map Content.cut = t.map Content.copied) ∧
    ∀ ts q, HoldsList h q ts → Rose.mapAll Content.cut (Rose.mapAll Content.copied ts) =
      Rose.mapAll Content.copied ts := by
  apply Rose.induct
  · intro c ts ih a hHolds
    obtain ⟨n, _, hc, hTs⟩ := hHolds
    have hCut : c.copied.cut = c.copied := by
      simp only [Content.cut, Content.copied, hc.valuestring.cut_copied, hc.string.cut_copied]
    rw [Rose.map, Rose.map, hCut, ih n.child hTs]
  · intro q _
    rfl
  · intro t ts ihT ihTs q hHolds
    obtain ⟨a, n, _, _, ht, hTs⟩ := hHolds
    rw [Rose.mapAll, Rose.mapAll, ihT a ht, ihTs n.next hTs]

theorem Source.cut_copied (hSource : Source h b recurse t) :
    (t.map Content.copied).map Content.cut = t.map Content.copied := by
  cases recurse with
  | true => exact Ffi.cut_copied.1 t b hSource
  | false =>
    obtain ⟨n, c, -, hc, rfl⟩ := hSource
    have hCut : c.copied.cut = c.copied := by
      simp only [Content.cut, Content.copied, hc.valuestring.cut_copied, hc.string.cut_copied]
    rw [Rose.map, Rose.map, hCut]
    rfl

/-- The readers find in a copy what it was given. -/
theorem Formed.holds (hFormed : Formed h h' kids a (t.map Content.copied))
    (hSource : Source h b recurse t) : Holds h' a (t.map Content.copied) := by
  rw [← hSource.cut_copied]
  exact (holds_of_bears hFormed.grown.sound.wf.trees).1 _ a hFormed.root.1 hFormed.bears

/-- A recursive copy is separate from its source, however that is put together: it is a tree of
new blocks without flags, with the shape, the types and the numbers of what is read from the
source, and deleting it gives back just these blocks. -/
theorem cjsonDuplicate_separate (hBounded : h.Bounded) (hHolds : Holds h b t)
    (hRun : cjsonDuplicate (some b) 1 h = .ok (some a, h')) :
    ∃ kids, Separate h h' kids a ∧ Holds h' a (t.map Content.copied) ∧
      ∃ h'', cjsonDelete (some a) h' = .ok ((), h'') ∧ h''.nodes = h.nodes ∧
        h''.bufs = h.bufs ∧ h''.misuses = h.misuses := by
  have hSource : Source h b true t := hHolds
  have hRun' : duplicate (some b) true h = .ok (some a, h') := hRun
  rcases duplicate_exact hBounded hSource with
    ⟨-, q, g, hCopy, -, a', kids, hq, hFormed⟩ | ⟨-, q, g, hCopy, hq, -⟩
  · rw [hRun', hq] at hCopy
    cases hCopy
    exact ⟨kids, hFormed.separate, hFormed.holds hSource, hFormed.delete hBounded⟩
  · rw [hRun', hq] at hCopy
    cases hCopy

/-- What is read from the array at 0, the list of the other array included. -/
def borrowedTree : Rose Content :=
  .node (plain cjsonArray) [
    .node ⟨setConst (asReference cjsonString), some [0x61], 0, ⟨0⟩, some [0x62]⟩ [],
    .node (plain (asReference cjsonArray)) [
      .node { plain cjsonString with valuestring := some [0x65] } []],
    .node ⟨cjsonString, some [0x63], 0, ⟨0⟩, some [0x64]⟩ []]

theorem textAt_char {c : UInt8} {owned : Bool} (hs : h.bufs s = some ⟨[c, 0], owned⟩)
    (hc : c ≠ 0) : TextAt h (some s) (some [c]) := by
  refine ⟨_, hs, by simp, ?_⟩
  simp [cstr, hc]

theorem holds_borrowing : Holds borrowing 0 borrowedTree := by
  have hBorrowed : Holds borrowing 1
      (.node ⟨setConst (asReference cjsonString), some [0x61], 0, ⟨0⟩, some [0x62]⟩ []) :=
    ⟨_, rfl, ⟨rfl, textAt_char rfl (by decide), rfl, rfl, textAt_char rfl (by decide)⟩, rfl⟩
  have hShared : Holds borrowing 5
      (.node { plain cjsonString with valuestring := some [0x65] } []) :=
    ⟨_, rfl, ⟨rfl, textAt_char rfl (by decide), rfl, rfl, rfl⟩, rfl⟩
  have hReference : Holds borrowing 2 (.node (plain (asReference cjsonArray)) [
      .node { plain cjsonString with valuestring := some [0x65] } []]) :=
    ⟨_, rfl, ⟨rfl, rfl, rfl, rfl, rfl⟩, 5, _, rfl, rfl, hShared, rfl⟩
  have hOwn : Holds borrowing 3 (.node ⟨cjsonString, some [0x63], 0, ⟨0⟩, some [0x64]⟩ []) :=
    ⟨_, rfl, ⟨rfl, textAt_char rfl (by decide), rfl, rfl, textAt_char rfl (by decide)⟩, rfl⟩
  exact ⟨_, rfl, ⟨rfl, rfl, rfl, rfl, rfl⟩, 1, _, rfl, rfl, hBorrowed, 2, _, rfl, rfl, hReference,
    3, _, rfl, rfl, hOwn, rfl⟩

theorem cjsonDuplicate_separate_borrowing :
    ∃ a h', cjsonDuplicate (some 0) 1 borrowing = .ok (some a, h') ∧
      ∃ kids, Separate borrowing h' kids a ∧ Holds h' a (borrowedTree.map Content.copied) ∧
        ∃ h'', cjsonDelete (some a) h' = .ok ((), h'') ∧ h''.nodes = borrowing.nodes ∧
          h''.bufs = borrowing.bufs ∧ h''.misuses = borrowing.misuses := by
  have hSource : Source borrowing 0 true borrowedTree := holds_borrowing
  rcases duplicate_exact bounded_borrowing hSource with
    ⟨-, q, h', hRun, -, a, kids, hq, -⟩ | ⟨hNo, -⟩
  · rw [hq] at hRun
    exact ⟨a, h', hRun, cjsonDuplicate_separate bounded_borrowing holds_borrowing hRun⟩
  · exact absurd (fun _ _ => rfl) hNo

end CjsonRs.Ffi
