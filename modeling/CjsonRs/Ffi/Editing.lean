import CjsonRs.Ffi.Canonical
import CjsonRs.Ffi.Depicts

/-!
# Edits of documents

On a sound heap that depicts documents every edit changes them as its plan says, returns what the
plan says, and leaves a sound heap that depicts the changed documents.
-/

namespace CjsonRs.Ffi

open CjsonRs.Core Library Library.Link Library.Forest

variable {h h' g : Heap} {a i p s : Addr} {m : CNode} {q : Ptr} {w : Nat} {k : Str}
  {ks touched xs ys : List Addr} {D : Documents} {cs : Bool} {α : Type}

/-- A sound heap with the trees and the labels of the documents. -/
structure Portrays (h : Heap) (D : Documents) : Prop where
  sound : Sound 0 h D.children
  depicts : Depicts h D.label

/-- The call returns what `o` says and leaves a heap that portrays its documents. -/
def Yields (f : α → Reply) (x : M α) (h : Heap) (o : Documents × Reply) : Prop :=
  ∃ r h', x h = .ok (r, h') ∧ f r = o.2 ∧ h'.misuses = h.misuses ∧ Portrays h' o.1

theorem Yields.map {f : α → Reply} {x : M α} {o : Documents × Reply} (hYields : Yields f x h o) :
    Yields id (f <$> x) h o := by
  obtain ⟨r, h', hRun, hr, hMisuses, hPortrays⟩ := hYields
  exact ⟨f r, h', Run.map_run_ok hRun, hr, hMisuses, hPortrays⟩

namespace Portrays

/-! ## Steps -/

theorem edited (hP : Portrays h D) (hEdited : Edited 0 h h' D.children p ks touched) :
    Portrays h' (D.relist ⟨p, ks, none⟩) ∧ h'.misuses = h.misuses := by
  refine ⟨⟨hP.sound.edited hEdited, hP.depicts.edited hEdited⟩, ?_⟩
  rw [hEdited.rest]

theorem tick (hP : Portrays h D) : Portrays h.tick D :=
  ⟨hP.sound.of_nodes hP.sound.wf.bounded.tick rfl rfl, hP.depicts.of_bare (fun _ => rfl) rfl⟩

/-- A live root is freed. -/
theorem free (hP : Portrays h D) (hRoot : IsRoot D.children a) (hLive : (h.nodes a).isSome) :
    ∃ h', freeCjson (some a) h = .ok ((), h') ∧ h'.misuses = h.misuses ∧
      Portrays h' (D.drop a) := by
  obtain ⟨n, hn⟩ := Option.isSome_iff_exists.mp hLive
  obtain ⟨V, hV, hMem, hRun, hMisuses⟩ := hP.sound.subtree (Nat.zero_le a) hn
  refine ⟨_, hRun, hMisuses, hP.sound.free hRoot hV hMem, ?_⟩
  exact hP.depicts.free hP.sound.owned hV (fun _ => D.drop_gone) fun _ => D.drop_kept

theorem child_live (hP : Portrays h D) (ha : a ∈ D.children p) : (h.nodes a).isSome := by
  obtain ⟨n, hn⟩ := hP.sound.wf.trees.child_live ha
  exact Option.isSome_iff_exists.mpr ⟨n, hn⟩

theorem attach (hP : Portrays h D) (hp : Mutable 0 h p) (hi : Handed 0 h D.children p i) :
    ∃ h', attachChild (some p) (some i) h = .ok ((), h') ∧ h'.misuses = h.misuses ∧
      Portrays h' (D.change (D.append p i none)) := by
  obtain ⟨h', hRun, hEdited⟩ := attach_run hP.sound.wf hp hi
  exact ⟨h', hRun, (hP.edited hEdited).2, (hP.edited hEdited).1⟩

/-- The child at a position is taken out. -/
theorem detach (hP : Portrays h D) (hp : Mutable 0 h p) (ha : (D.children p)[w]? = some a) :
    ∃ h', Ffi.detach (some p) (some a) h = .ok ((), h') ∧ h'.misuses = h.misuses ∧
      Portrays h' (D.change (D.detach p w)) ∧
      IsRoot (D.change (D.detach p w)).children a ∧ (h'.nodes a).isSome := by
  obtain ⟨xs, ys, hEq, hErase, -⟩ := split_at ha
  obtain ⟨h', hRun, hEdited, hRoot⟩ := detachChild_run hP.sound.wf hp hEq
  have hOp : D.change (D.detach p w) = D.relist ⟨p, xs ++ ys, none⟩ := by
    rw [← hErase]
    rfl
  obtain ⟨hP', hMisuses⟩ := hP.edited hEdited
  rw [hOp]
  refine ⟨h', hRun, hMisuses, hP', hRoot, ?_⟩
  rw [← isSome_bare]
  obtain ⟨c, hBody⟩ := hEdited.body
  rw [bare_of_body_setChild (congrFun hBody a), isSome_bare]
  exact hP.child_live (List.mem_of_getElem? ha)

/-- The item goes in front of the child at the index, or to the end past the last one. -/
theorem insert {which : Int} (hP : Portrays h D) (hp : Mutable 0 h p)
    (hi : Handed 0 h D.children p i) (hNonneg : 0 ≤ which) :
    Yields .flag (do
        match ← childAtIndex (some p) which with
        | none =>
          attachChild (some p) (some i)
          return true
        | some existing =>
          spliceBefore p existing i
          return true) h
      (D.perform (some ⟨insertAt D.children p which.toNat i, none, .flag true⟩) (.flag false)) := by
  have hFind := Edit.childAtIndex_kids hP.sound.wf hp which
  cases hw : indexIn which (D.children p) with
  | none =>
    have hPast : min which.toNat (D.children p).length = (D.children p).length := by
      unfold indexIn at hw
      split_ifs at hw
      omega
    rw [hw] at hFind
    obtain ⟨h', hRun, hMisuses, hP'⟩ := hP.attach hp hi
    refine ⟨true, h', ?_, rfl, hMisuses, ?_⟩
    · rw [Run.bind_run_ok hFind]
      exact Run.bind_run_ok hRun
    · rw [insertAt, hPast, List.insertIdx_length_self]
      exact hP'
  | some w =>
    obtain ⟨a, ha⟩ := indexIn_getElem hw
    have hIn : min which.toNat (D.children p).length = w := by
      unfold indexIn at hw
      split_ifs at hw
      cases hw
      omega
    obtain ⟨xs, ys, hEq, -, -, hInsert⟩ := split_at ha
    obtain ⟨h', hRun, hEdited⟩ := insertChild_run hP.sound.wf hp hi hEq
    obtain ⟨hP', hMisuses⟩ := hP.edited hEdited
    rw [hw, show (some w).bind ((D.children p)[·]?) = some a from ha] at hFind
    refine ⟨true, h', ?_, rfl, hMisuses, ?_⟩
    · rw [Run.bind_run_ok hFind]
      exact Run.bind_run_ok hRun
    · rw [insertAt, hIn, hInsert]
      exact hP'

/-! ## Keys -/

/-- A root with a new key is added. -/
theorem rekey_attach {flag : TypeWord → TypeWord} {text : Option (List UInt8)}
    (hP : Portrays h D) (hm : h.nodes i = some m) (hNodes : g.nodes = h.nodes)
    (hKept : ∀ {s b}, h.bufs s = some b → g.bufs s = some b)
    (hTag : ∀ w, tag (flag w) = tag w) (hFlag : ∀ w, isReference (flag w) = isReference w)
    (hText : TextAt (g.freeAll (m.ownKey.toList.map .buf)) q text)
    (hSound : Sound 0 (g.rekeyed i m flag q) D.children)
    (hEdited : Edited 0 (g.rekeyed i m flag q) h' D.children p (D.children p ++ [i]) touched) :
    Portrays h' (D.change (D.append p i (some text))) := by
  have hRekeyed : Portrays (g.rekeyed i m flag q) (D.rekey (i, text)) := by
    refine ⟨hSound, ?_⟩
    exact hP.depicts.rekeyed hP.sound.owned hm hNodes hKept hTag hFlag hText
  exact (hRekeyed.edited hEdited).1

/-- The caller's name becomes the constant key of a root that is added. -/
theorem lent (hP : Portrays h D) (hp : Mutable 0 h p) (hi : Handed 0 h D.children p i)
    (hLent : ∃ b, h.bufs s = some b ∧ b.owned = false) (hRead : h.Readable s) :
    ∃ h₁ h', rekey i setConst (some s) h = .ok ((), h₁) ∧
      attachChild (some p) (some i) h₁ = .ok ((), h') ∧ h'.misuses = h.misuses ∧
      Portrays h' (D.change (D.append p i (some (h.chars (some s))))) := by
  obtain ⟨m, hm⟩ := Option.isSome_iff_exists.mp hi.live
  obtain ⟨h', hRekey, hAttach, hEdited⟩ :=
    rekey_attach_run hP.sound.wf hp hi isReference_setConst (some s) hm
  have hNew : CNode.ownKey { m with type_ := setConst m.type_, string := some s } = none := by
    rw [CNode.ownKey, CNode.constKey, isConst_setConst]
    rfl
  have hFresh : ∀ u, (none : Ptr) = some u → ¬ h.Lib u := fun u hu => by cases hu
  obtain ⟨hSound, hMisuses⟩ := sound_rekeyed hP.sound hm hP.sound.wf.bounded rfl
    isReference_setConst hFresh hNew (fun u => by simp)
    (fun _ => hLent.elim fun b hb => ⟨s, b, rfl, hb.1, hb.2⟩) fun _ _ hb _ => hb
  have hText : TextAt (h.freeAll (m.ownKey.toList.map .buf)) (some s) (h.chars (some s)) := by
    apply (textAt_chars hRead).kept id
    intro u hu
    cases hu
    exact Or.inr hLent
  refine ⟨_, h', hRekey, hAttach, ?_, ?_⟩
  · rw [hEdited.rest]
    exact hMisuses
  · exact hP.rekey_attach hm rfl id tag_setConst isReference_setConst hText hSound hEdited

/-- The copy of a text reads like the text. -/
theorem chars_of_text (hText : h.text q = some k) : h.chars q = some (cstr (encode k ++ [0])) := by
  rw [text_eq_chars] at hText
  obtain ⟨bytes, hBytes, hUtf8⟩ := Option.bind_eq_some_iff.mp hText
  have hCut : cstr bytes = bytes := by
    cases q with
    | none => cases hBytes
    | some s =>
      obtain ⟨b, -, hEq⟩ := Option.bind_eq_some_iff.mp hBytes
      cases hEq
      exact cstr_cstr b.bytes
  rw [hBytes, cstr_terminator, ← fromUtf8_eq_some.mp hUtf8, hCut]

/-- A copy of a name becomes the key of a root that is added, or nothing happens. -/
theorem named (hP : Portrays h D) (hp : Mutable 0 h p) (hi : Handed 0 h D.children p i)
    (hRead : h.Readable s) :
    Yields .flag (attachNamedChild (some p) (some s) (some i)) h
      (D.perform (if (h.text (some s)).isSome ∧ h.outcomes 0 then
        some (D.append p i (some (h.chars (some s)))) else none) (.flag false)) := by
  by_cases hNamed : (h.text (some s)).isSome ∧ h.outcomes 0 = true
  · obtain ⟨k, hk⟩ := Option.isSome_iff_exists.mp hNamed.1
    obtain ⟨m, hm⟩ := Option.isSome_iff_exists.mp hi.live
    obtain ⟨h', hRun, hEdited⟩ := attachNamedChild_run hP.sound.wf hp hi hRead hm hk hNamed.2
    have hBounded := hP.sound.wf.bounded
    have hNew : CNode.ownKey { m with type_ := clearConst m.type_, string := some h.brk }
        = some h.brk := by
      rw [CNode.ownKey, CNode.constKey, isConst_clearConst]
      rfl
    have hLent : isConst (clearConst m.type_) = true → ∃ u b, some h.brk = some u ∧
        (h.tick.pushBuf (encode k ++ [0])).bufs u = some b ∧ b.owned = false := by
      intro hTrue
      rw [isConst_clearConst] at hTrue
      cases hTrue
    obtain ⟨hSound, hMisuses⟩ := sound_rekeyed hP.sound hm (hBounded.tick.pushBuf _) rfl
      isReference_clearConst (not_lib_brk hBounded) hNew (fun u => lib_pushBuf _) hLent
      fun u b hu _ => bufs_pushBuf hBounded _ hu
    have hText : TextAt ((h.tick.pushBuf (encode k ++ [0])).freeAll (m.ownKey.toList.map .buf))
        (some h.brk) (some (cstr (encode k ++ [0]))) := by
      refine ⟨⟨encode k ++ [0], true⟩, ?_, by simp, rfl⟩
      rw [Heap.bufs_freeAll, if_neg]
      · exact Function.update_self ..
      · intro hFreed
        obtain ⟨u, hu, hEq⟩ := List.mem_map.mp hFreed.1
        cases hEq
        have hOwn : h.brk ∈ h.textsAt i := by
          rw [textsAt_eq hm, CNode.texts]
          exact List.mem_append_right _ hu
        exact not_lib_brk hBounded _ rfl (hP.sound.owned.live (Nat.zero_le i) hOwn).2
    rw [if_pos hNamed, chars_of_text hk]
    refine ⟨true, h', hRun, rfl, ?_, ?_⟩
    · rw [hEdited.rest]
      exact hMisuses
    · exact hP.rekey_attach (g := h.tick.pushBuf (encode k ++ [0])) hm rfl
        (fun hb => bufs_pushBuf hBounded _ hb) tag_clearConst isReference_clearConst hText hSound
        hEdited
  · rw [if_neg hNamed]
    obtain ⟨h', hRun, hSame⟩ := attachNamedChild_fail (p := p) (i := i) hRead hNamed
    rcases hSame with rfl | rfl
    · exact ⟨false, h', hRun, rfl, rfl, hP⟩
    · exact ⟨false, _, hRun, rfl, rfl, hP.tick⟩

/-! ## Found children -/

/-- A call that checks the type of the container first. -/
theorem checked {t : TypeWord} {y : M Bool} {c : Option Change} (hP : Portrays h D)
    (hp : Mutable 0 h p) (hy : Yields .flag y h (D.perform c (.flag false))) :
    Yields .flag (do
        let o ← load (some p)
        if tag o.type_ ≠ t then
          return false
        y) h (D.perform (if D.hasTag t p then c else none) (.flag false)) := by
  obtain ⟨-, n, hn, -⟩ := hp
  have hRun := checked_run (t := t) (r := y) hn
  rw [hP.depicts.hasTag_eq]
  by_cases hTag : hasTag h t p = true
  · rw [if_pos hTag] at hRun ⊢
    obtain ⟨r, h', hOk, hRest⟩ := hy
    exact ⟨r, h', hRun.trans hOk, hRest⟩
  · rw [if_neg hTag] at hRun ⊢
    exact ⟨false, h, hRun, rfl, rfl, hP⟩

/-- The calls that take a found child out. -/
theorem detachFound {find : M Ptr} {position : Option Nat} (hP : Portrays h D)
    (hp : Mutable 0 h p) (hFind : find h = .ok (position.bind ((D.children p)[·]?), h))
    (hIn : ∀ w, position = some w → ∃ a, (D.children p)[w]? = some a) :
    Yields .item (do
        let item ← find
        if item.isNone then
          return none
        Ffi.detach (some p) item
        return item) h (D.perform (position.map (D.detach p)) (.item none)) := by
  cases position with
  | none =>
    refine ⟨none, h, ?_, rfl, rfl, hP⟩
    rw [Run.bind_run_ok hFind]
    rfl
  | some w =>
    obtain ⟨a, ha⟩ := hIn w rfl
    obtain ⟨h', hRun, hMisuses, hP', -⟩ := hP.detach hp ha
    rw [show (some w).bind ((D.children p)[·]?) = some a from ha] at hFind
    refine ⟨some a, h', ?_, ?_, hMisuses, hP'⟩
    · rw [Run.bind_run_ok hFind]
      exact Run.bind_run_ok hRun
    · exact congrArg Reply.item ha.symm

/-- The calls that delete a found child. -/
theorem deleteFound {find : M Ptr} {position : Option Nat} (hP : Portrays h D)
    (hp : Mutable 0 h p) (hFind : find h = .ok (position.bind ((D.children p)[·]?), h))
    (hIn : ∀ w, position = some w → ∃ a, (D.children p)[w]? = some a) :
    Yields (fun _ => .done) ((do
        let item ← find
        if item.isNone then
          return none
        Ffi.detach (some p) item
        return item : M Ptr) >>= fun item => if item.isSome then freeCjson item else pure ()) h
      (D.perform (position.map (D.delete p)) .done) := by
  cases position with
  | none =>
    refine ⟨(), h, ?_, rfl, rfl, hP⟩
    rw [bind_assoc, Run.bind_run_ok hFind]
    rfl
  | some w =>
    obtain ⟨a, ha⟩ := hIn w rfl
    obtain ⟨h', hRun, hMisuses, hP', hRoot, hLive⟩ := hP.detach hp ha
    obtain ⟨h'', hFree, hMisuses', hP''⟩ := hP'.free hRoot hLive
    rw [show (some w).bind ((D.children p)[·]?) = some a from ha] at hFind
    refine ⟨(), h'', ?_, rfl, hMisuses'.trans hMisuses, ?_⟩
    · rw [bind_assoc, Run.bind_run_ok hFind]
      show ((Ffi.detach (some p) (some a) >>= fun _ => pure (some a)) >>= fun item =>
        if item.isSome then freeCjson item else pure ()) h = _
      rw [bind_assoc, Run.bind_run_ok hRun]
      exact hFree
    · have hOp : (D.perform (some (D.delete p w)) .done).1
          = (D.change (D.detach p w)).drop a := by
        simp only [Documents.perform, Documents.change, Documents.delete, Documents.detach,
          Documents.relist, deleteAt, eraseAt, ha, Option.elim]
      rw [Option.map_some, hOp]
      exact hP''

/-- A child is replaced, and freed. -/
theorem replace (hP : Portrays h D) (hp : Mutable 0 h p) (hi : Handed 0 h D.children p i)
    (ha : (D.children p)[w]? = some a) (hPass : ¬ PassesName h a i) :
    ∃ h', replaceViaPointer (some p) (some a) (some i) h = .ok (true, h') ∧
      h'.misuses = h.misuses ∧ Portrays h' (D.change (D.replace p i w)) := by
  obtain ⟨xs, ys, hEq, -, hSet, -⟩ := split_at ha
  obtain ⟨h₁, V, hReplaced, hV, hRun⟩ := replaceChild_run hP.sound.wf hp hi hEq
  have hai : a ≠ i := fun hSame => hi.root p (hSame ▸ List.mem_of_getElem? ha)
  have hSound := sound_replaced hP.sound hReplaced hai hPass
  have hMem : ∀ x ∈ V, 0 ≤ x ∧ (h₁.nodes x).isSome := fun x hx => ⟨Nat.zero_le x, hV.live x hx⟩
  obtain ⟨hNodup, hFreeable⟩ := hSound.owned.freeable hMem hV.2.1
  obtain ⟨L, hDepicts, hLabels⟩ := hP.depicts.replaced hReplaced hai
  refine ⟨_, hRun, ?_, ?_⟩
  · rw [Heap.freeAll_misuses hNodup hFreeable, hReplaced.rest]
  · let R : Documents := { D.rekey (i, (D.string i).or (D.string a)) with
      children := Function.update D.children p (xs ++ i :: ys) }
    have hOp : D.change (D.replace p i w) = R.drop a := by
      simp only [Documents.change, Documents.replace, Documents.relist, overwriteAt, ha, hSet,
        Option.elim, Option.bind_some]
      rfl
    rw [hOp]
    refine ⟨hSound.free hReplaced.root hV hMem, ?_⟩
    apply hDepicts.free hSound.owned hV
    · exact fun x hx => R.drop_gone hx
    · intro x hx
      rw [hLabels x fun hSame => hx (hSame ▸ below_refl x)]
      exact R.drop_kept hx

/-- The calls that replace a found child. -/
theorem replaceFound {find : M Ptr} {position : Option Nat} {newitem : Ptr} (hP : Portrays h D)
    (hp : Mutable 0 h p) (hFind : find h = .ok (position.bind ((D.children p)[·]?), h))
    (hIn : ∀ w, position = some w → ∃ a, (D.children p)[w]? = some a)
    (hNew : ∀ i, newitem = some i → Handed 0 h D.children p i)
    (hPass : ∀ a i, position.bind ((D.children p)[·]?) = some a → newitem = some i →
      ¬ PassesName h a i) :
    Yields .flag (do
        let item ← find
        if item.isNone then
          return false
        replaceViaPointer (some p) item newitem) h
      (D.perform (newitem.bind fun i => position.map (D.replace p i)) (.flag false)) := by
  cases position with
  | none =>
    refine ⟨false, h, ?_, ?_, rfl, ?_⟩
    · rw [Run.bind_run_ok hFind]
      rfl
    · cases newitem <;> rfl
    · cases newitem <;> exact hP
  | some w =>
    obtain ⟨a, ha⟩ := hIn w rfl
    have hFound : (some w).bind ((D.children p)[·]?) = some a := ha
    rw [hFound] at hFind hPass
    cases newitem with
    | none =>
      refine ⟨false, h, ?_, rfl, rfl, hP⟩
      rw [Run.bind_run_ok hFind]
      rfl
    | some i =>
      obtain ⟨h', hRun, hMisuses, hP'⟩ := hP.replace hp (hNew i rfl) ha (hPass a i rfl rfl)
      refine ⟨true, h', ?_, rfl, hMisuses, hP'⟩
      rw [Run.bind_run_ok hFind]
      exact hRun

end Portrays

/-! ## The calls -/

namespace Edit

/-- A name that becomes a constant key can be read. -/
def Legible (h : Heap) : Edit → Prop
  | addItemToObjectCS _ name _ => ∀ s, name = some s → h.Readable s
  | _ => True

/-- The call does what its plan says. -/
def Mirrors (h : Heap) (D : Documents) (e : Edit) : Prop := Yields id e.run h (e.outcome D h)

/-- A call that changes nothing. -/
theorem mirrors_skip {e : Edit} (hP : Portrays h D) (hRun : e.run h = .ok (e.refusal, h))
    (hPlan : e.plan D h = none) : e.Mirrors h D := by
  unfold Mirrors outcome
  rw [hPlan]
  exact ⟨e.refusal, h, hRun, rfl, rfl, hP⟩

theorem addItemToArray_mirrors (hP : Portrays h D) {array item : Ptr}
    (hAdm : (addItemToArray array item).Admissible h D.children) :
    (addItemToArray array item).Mirrors h D := by
  cases array with
  | none => exact mirrors_skip hP rfl rfl
  | some p =>
    cases item with
    | none => exact mirrors_skip hP rfl rfl
    | some i =>
      obtain ⟨hp, hi⟩ := hAdm p i rfl rfl
      obtain ⟨h', hRun, hMisuses, hP'⟩ := hP.attach hp hi
      apply Yields.map
      apply hP.checked hp
      exact ⟨true, h', Run.bind_run_ok hRun, rfl, hMisuses, hP'⟩

theorem addItemToObject_mirrors (hP : Portrays h D) {object name item : Ptr}
    (hAdm : (addItemToObject object name item).Admissible h D.children) :
    (addItemToObject object name item).Mirrors h D := by
  cases object with
  | none => exact mirrors_skip hP rfl rfl
  | some p =>
    cases name with
    | none => exact mirrors_skip hP rfl rfl
    | some s =>
      cases item with
      | none => exact mirrors_skip hP rfl rfl
      | some i =>
        obtain ⟨hp, hi, hRead⟩ := hAdm p s i rfl rfl rfl
        have hPlan : (addItemToObject (some p) (some s) (some i)).plan D h =
            if D.hasTag cjsonObject p then
              if (h.text (some s)).isSome ∧ h.outcomes 0 then
                some (D.append p i (some (h.chars (some s)))) else none
            else none := ite_and ..
        unfold Mirrors outcome
        rw [hPlan]
        apply Yields.map
        exact hP.checked hp (hP.named hp hi hRead)

theorem addItemToObjectCS_mirrors (hP : Portrays h D) {object name item : Ptr}
    (hAdm : (addItemToObjectCS object name item).Admissible h D.children)
    (hLends : (addItemToObjectCS object name item).Lends h)
    (hName : (addItemToObjectCS object name item).Legible h) :
    (addItemToObjectCS object name item).Mirrors h D := by
  cases object with
  | none => exact mirrors_skip hP rfl rfl
  | some p =>
    cases name with
    | none => exact mirrors_skip hP rfl rfl
    | some s =>
      cases item with
      | none => exact mirrors_skip hP rfl rfl
      | some i =>
        obtain ⟨hp, hi⟩ := hAdm p s i rfl rfl rfl
        obtain ⟨h₁, h', hRekey, hAttach, hMisuses, hP'⟩ :=
          hP.lent hp hi (hLends s rfl) (hName s rfl)
        apply Yields.map
        rw [cjsonAddItemToObjectCS_eq]
        apply hP.checked hp
        refine ⟨true, h', ?_, rfl, hMisuses, hP'⟩
        rw [Run.bind_run_ok hRekey]
        exact Run.bind_run_ok hAttach

theorem insertItemInArray_mirrors (hP : Portrays h D) {array newitem : Ptr} {which : Int}
    (hAdm : (insertItemInArray array which newitem).Admissible h D.children) :
    (insertItemInArray array which newitem).Mirrors h D := by
  cases array with
  | none => exact mirrors_skip hP rfl rfl
  | some p =>
    cases newitem with
    | none => exact mirrors_skip hP rfl rfl
    | some i =>
      obtain ⟨hp, hi⟩ := hAdm p i rfl rfl
      by_cases hNeg : which < 0
      · refine mirrors_skip hP (Run.map_run_ok ?_) ?_
        · rw [cjsonInsertItemInArray, if_pos (Or.inr (Or.inr hNeg))]
          rfl
        · rw [plan, if_neg fun hAnd => absurd hAnd.1 (by omega)]
      · have hNonneg : 0 ≤ which := by omega
        have hPlan : (insertItemInArray (some p) which (some i)).plan D h =
            if D.hasTag cjsonArray p then
              some ⟨insertAt D.children p which.toNat i, none, .flag true⟩
            else none := by
          rw [plan, ite_and, if_pos hNonneg]
        unfold Mirrors outcome
        rw [hPlan]
        apply Yields.map
        rw [cjsonInsertItemInArray_eq p i hNeg]
        exact hP.checked hp (hP.insert hp hi hNonneg)

theorem detachItemViaPointer_mirrors (hP : Portrays h D) {parent item : Ptr}
    (hAdm : (detachItemViaPointer parent item).Admissible h D.children) :
    (detachItemViaPointer parent item).Mirrors h D := by
  cases parent with
  | none => exact mirrors_skip hP rfl rfl
  | some p =>
    cases item with
    | none => exact mirrors_skip hP rfl rfl
    | some a =>
      obtain ⟨hp, ha⟩ := hAdm p a rfl rfl
      obtain ⟨w, hw, haw⟩ := idxOf_getElem ha
      have hFind : (pure (some a) : M Ptr) h
          = .ok ((some w).bind ((D.children p)[·]?), h) := by
        rw [show (some w).bind ((D.children p)[·]?) = some a from haw]
        rfl
      unfold Mirrors outcome
      rw [plan, hw]
      apply Yields.map
      apply hP.detachFound hp hFind
      intro v hv
      cases hv
      exact ⟨a, haw⟩

theorem detachItemFromArray_mirrors (hP : Portrays h D) {array : Ptr} {which : Int}
    (hAdm : (detachItemFromArray array which).Admissible h D.children) :
    (detachItemFromArray array which).Mirrors h D := by
  cases array with
  | none => exact mirrors_skip hP rfl rfl
  | some p =>
    have hp := hAdm p rfl
    apply Yields.map
    exact hP.detachFound hp (childAtIndex_kids hP.sound.wf hp which) fun w => indexIn_getElem

theorem detachItemFromObject_mirrors (hP : Portrays h D) {object string : Ptr}
    (hAdm : (detachItemFromObject cs object string).Admissible h D.children) :
    (detachItemFromObject cs object string).Mirrors h D := by
  cases object with
  | none => cases cs <;> exact mirrors_skip hP rfl rfl
  | some p =>
    obtain ⟨hArg, hFind⟩ := getObjectItemImpl_adm hP.sound.wf (P := True)
      (fun s hs => by simpa using hAdm p s rfl hs) cs
    rcases hArg with rfl | ⟨hp, -⟩
    · cases cs <;> exact mirrors_skip hP rfl rfl
    · unfold Mirrors outcome
      rw [plan, hP.depicts.keyIn_eq]
      cases cs <;>
        exact Yields.map (hP.detachFound hp hFind fun w => keyIn_getElem)

theorem deleteItemFromArray_mirrors (hP : Portrays h D) {array : Ptr} {which : Int}
    (hAdm : (deleteItemFromArray array which).Admissible h D.children) :
    (deleteItemFromArray array which).Mirrors h D := by
  cases array with
  | none => exact mirrors_skip hP rfl rfl
  | some p =>
    have hp := hAdm p rfl
    apply Yields.map
    exact hP.deleteFound hp (childAtIndex_kids hP.sound.wf hp which) fun w => indexIn_getElem

theorem deleteItemFromObject_mirrors (hP : Portrays h D) {object string : Ptr}
    (hAdm : (deleteItemFromObject cs object string).Admissible h D.children) :
    (deleteItemFromObject cs object string).Mirrors h D := by
  cases object with
  | none => cases cs <;> exact mirrors_skip hP rfl rfl
  | some p =>
    obtain ⟨hArg, hFind⟩ := getObjectItemImpl_adm hP.sound.wf (P := True)
      (fun s hs => by simpa using hAdm p s rfl hs) cs
    rcases hArg with rfl | ⟨hp, -⟩
    · cases cs <;> exact mirrors_skip hP rfl rfl
    · unfold Mirrors outcome
      rw [plan, hP.depicts.keyIn_eq]
      cases cs <;>
        exact Yields.map (hP.deleteFound hp hFind fun w => keyIn_getElem)

theorem replaceItemViaPointer_mirrors (hP : Portrays h D) {parent item replacement : Ptr}
    (hAdm : (replaceItemViaPointer parent item replacement).Admissible h D.children)
    (hPass : ¬ (replaceItemViaPointer parent item replacement).PassesName h D.children) :
    (replaceItemViaPointer parent item replacement).Mirrors h D := by
  cases parent with
  | none => exact mirrors_skip hP rfl rfl
  | some p =>
    cases item with
    | none => exact mirrors_skip hP rfl rfl
    | some a =>
      cases replacement with
      | none => exact mirrors_skip hP rfl rfl
      | some i =>
        obtain ⟨hp, ha, hi⟩ := hAdm p a i rfl rfl rfl
        obtain ⟨w, hw, haw⟩ := idxOf_getElem ha
        obtain ⟨h', hRun, hMisuses, hP'⟩ := hP.replace hp hi haw
          fun hNames => hPass ⟨a, i, rfl, rfl, rfl, hNames⟩
        unfold Mirrors outcome
        rw [plan, hw]
        apply Yields.map
        exact ⟨true, h', hRun, rfl, hMisuses, hP'⟩

theorem replaceItemInArray_mirrors (hP : Portrays h D) {array newitem : Ptr} {which : Int}
    (hAdm : (replaceItemInArray array which newitem).Admissible h D.children)
    (hPass : ¬ (replaceItemInArray array which newitem).PassesName h D.children) :
    (replaceItemInArray array which newitem).Mirrors h D := by
  cases array with
  | none => exact mirrors_skip hP rfl rfl
  | some p =>
    obtain ⟨hp, hNew⟩ := hAdm p rfl
    have hYields := hP.replaceFound hp (childAtIndex_kids hP.sound.wf hp which)
      (fun w => indexIn_getElem) hNew fun a i ha hi hNames =>
        hPass ⟨p, a, i, rfl, hi, ha, hNames⟩
    cases newitem <;> exact Yields.map hYields

theorem replaceItemInObject_mirrors (hP : Portrays h D) {object string newitem : Ptr}
    (hAdm : (replaceItemInObject cs object string newitem).Admissible h D.children)
    (hPass : ¬ (replaceItemInObject cs object string newitem).PassesName h D.children) :
    (replaceItemInObject cs object string newitem).Mirrors h D := by
  cases object with
  | none => cases cs <;> exact mirrors_skip hP rfl rfl
  | some p =>
    obtain ⟨hArg, hFind⟩ := getObjectItemImpl_adm hP.sound.wf (hAdm p · rfl) cs
    rcases hArg with rfl | ⟨hp, hNew⟩
    · cases newitem <;> cases cs <;> exact mirrors_skip hP rfl rfl
    · have hYields := hP.replaceFound hp hFind (fun w => keyIn_getElem) hNew
        fun a i ha hi hNames => hPass ⟨p, a, i, rfl, hi, ha, hNames⟩
      cases newitem with
      | none => cases cs <;> exact Yields.map hYields
      | some i =>
        unfold Mirrors outcome
        rw [plan, hP.depicts.keyIn_eq]
        cases cs <;> exact Yields.map hYields

/-- Every edit changes the documents as its plan says. -/
theorem mirrors (e : Edit) (hP : Portrays h D) (hAdm : e.Admissible h D.children)
    (hLends : e.Lends h) (hPass : ¬ e.PassesName h D.children) (hName : e.Legible h) :
    e.Mirrors h D := by
  cases e with
  | addItemToArray => exact addItemToArray_mirrors hP hAdm
  | addItemToObject => exact addItemToObject_mirrors hP hAdm
  | addItemToObjectCS => exact addItemToObjectCS_mirrors hP hAdm hLends hName
  | insertItemInArray => exact insertItemInArray_mirrors hP hAdm
  | detachItemViaPointer => exact detachItemViaPointer_mirrors hP hAdm
  | detachItemFromArray => exact detachItemFromArray_mirrors hP hAdm
  | detachItemFromObject => exact detachItemFromObject_mirrors hP hAdm
  | deleteItemFromArray => exact deleteItemFromArray_mirrors hP hAdm
  | deleteItemFromObject => exact deleteItemFromObject_mirrors hP hAdm
  | replaceItemViaPointer => exact replaceItemViaPointer_mirrors hP hAdm hPass
  | replaceItemInArray => exact replaceItemInArray_mirrors hP hAdm hPass
  | replaceItemInObject => exact replaceItemInObject_mirrors hP hAdm hPass

end Edit

end CjsonRs.Ffi
