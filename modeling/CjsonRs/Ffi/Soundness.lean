import CjsonRs.Ffi.Atomicity

/-!
# Calls keep heaps sound

Every edit, reference, copy and deletion leaves a sound heap sound and hands only live blocks of
the library to the free hook, each once, unless it passes the constant key of a replaced member
on to the replacement.
-/

namespace CjsonRs.Ffi

open CjsonRs.Core Library Library.Link Library.Forest

variable {h h' g : Heap} {a i p s N : Addr} {n m : CNode} {q lost new kept : Ptr} {S : Prop}
  {std : StdF64} {kids kids' : Addr → List Addr} {ks touched xs ys : List Addr}

/-! ## Texts that change hands -/

namespace Owned

/-- The text `s` passes from the node `a` to the node `i`. -/
theorem transfer (hOwned : Owned N h) (ha : N ≤ a) (hi : N ≤ i) (hai : a ≠ i)
    (hA : h.textsAt a = xs ++ [s]) (hA' : h'.textsAt a = xs)
    (hI' : h'.textsAt i = h.textsAt i ++ [s])
    (hTexts : ∀ x, x ≠ a → x ≠ i → h'.textsAt x = h.textsAt x) (hBufs : h'.bufs = h.bufs)
    (hLent : ∀ {x n}, N ≤ x → h'.nodes x = some n → n.constKey = true →
      ∃ s b, n.string = some s ∧ h'.bufs s = some b ∧ b.owned = false) : Owned N h' := by
  have hsa : s ∈ h.textsAt a := hA ▸ List.mem_append_right xs (List.mem_singleton_self s)
  have hSole : ∀ {x}, N ≤ x → s ∈ h.textsAt x → x = a := fun hx hs => hOwned.sole hx ha hs hsa
  have hNodup := hOwned.nodup ha
  rw [hA] at hNodup
  obtain ⟨hXs, -, hNot⟩ := List.nodup_append.mp hNodup
  have hLib : ∀ u, h'.Lib u ↔ h.Lib u := by
    intro u
    unfold Heap.Lib
    rw [hBufs]
  -- Every text but `s` stays where it was.
  have hMem : ∀ {x u}, N ≤ x →
      (u ∈ h'.textsAt x ↔ (u ≠ s ∧ u ∈ h.textsAt x) ∨ (u = s ∧ x = i)) := by
    intro x u hx
    by_cases hus : u = s
    · subst hus
      refine Iff.trans ?_ (by simp : x = i ↔ (u ≠ u ∧ u ∈ h.textsAt x) ∨ (u = u ∧ x = i))
      by_cases hxi : x = i
      · subst hxi
        rw [hI']
        exact iff_of_true (List.mem_append_right _ (List.mem_singleton_self u)) rfl
      refine iff_of_false (fun hIn => ?_) hxi
      by_cases hxa : x = a
      · subst hxa
        rw [hA'] at hIn
        exact hNot u hIn u (List.mem_singleton_self u) rfl
      · rw [hTexts x hxa hxi] at hIn
        exact hxa (hSole hx hIn)
    · have hSame : u ∈ h'.textsAt x ↔ u ∈ h.textsAt x := by
        by_cases hxi : x = i
        · subst hxi
          simp [hI', hus]
        by_cases hxa : x = a
        · subst hxa
          simp [hA, hA', hus]
        · rw [hTexts x hxa hxi]
      simp [hSame, hus]
  refine ⟨fun {x} hx => ?_, fun {x u} hx hu => ?_, fun {x y u} hx hy hu hu' => ?_,
    fun {u} hN hu => ?_, hLent⟩
  · by_cases hxi : x = i
    · subst hxi
      rw [hI']
      refine List.nodup_append.mpr ⟨hOwned.nodup hx, List.nodup_singleton s, ?_⟩
      rintro u hu _ hs rfl
      rw [List.mem_singleton.mp hs] at hu
      exact hai (hSole hx hu).symm
    by_cases hxa : x = a
    · subst hxa
      rw [hA']
      exact hXs
    · rw [hTexts x hxa hxi]
      exact hOwned.nodup hx
  · rw [hLib]
    rcases (hMem hx).mp hu with ⟨-, hu⟩ | ⟨rfl, -⟩
    · exact hOwned.live hx hu
    · exact hOwned.live ha hsa
  · rcases (hMem hx).mp hu with ⟨hne, hu⟩ | ⟨hEq, rfl⟩
    · rcases (hMem hy).mp hu' with ⟨-, hu'⟩ | ⟨hEq, -⟩
      · exact hOwned.sole hx hy hu hu'
      · exact absurd hEq hne
    · rcases (hMem hy).mp hu' with ⟨hne, -⟩ | ⟨-, rfl⟩
      · exact absurd hEq hne
      · rfl
  · by_cases hus : u = s
    · exact ⟨i, hi, (hMem hi).mpr (Or.inr ⟨hus, rfl⟩)⟩
    · obtain ⟨x, hx, hMemX⟩ := hOwned.used hN ((hLib u).mp hu)
      exact ⟨x, hx, (hMem hx).mpr (Or.inl ⟨hus, hMemX⟩)⟩

end Owned

/-! ## Steps -/

/-- A sound heap on which nothing more was freed wrongly. -/
def Conserves (h h' : Heap) : Prop := (∃ kids, Sound 0 h' kids) ∧ h'.misuses = h.misuses

theorem Conserves.refl (hSound : Sound 0 h kids) : Conserves h h := ⟨⟨kids, hSound⟩, rfl⟩

theorem Conserves.edited (hSound : Sound 0 h kids) (hEdited : Edited 0 h h' kids p ks touched) :
    Conserves h h' := by
  refine ⟨⟨_, hSound.edited hEdited⟩, ?_⟩
  rw [hEdited.rest]

/-- A live root is freed. -/
theorem conserves_free (hSound : Sound 0 h kids) (hRoot : IsRoot kids a)
    (hLive : (h.nodes a).isSome) :
    ∃ h', freeCjson (some a) h = .ok ((), h') ∧ Conserves h h' := by
  obtain ⟨n, hn⟩ := Option.isSome_iff_exists.mp hLive
  obtain ⟨V, hV, hMem, hRun, hMisuses⟩ := hSound.subtree (Nat.zero_le a) hn
  exact ⟨_, hRun, ⟨_, hSound.free hRoot hV hMem⟩, hMisuses⟩

theorem conserves_attach (hSound : Sound 0 h kids) (hp : Mutable 0 h p) (hi : Handed 0 h kids p i) :
    ∃ h', attachChild (some p) (some i) h = .ok ((), h') ∧ Conserves h h' := by
  obtain ⟨h', hRun, hEdited⟩ := attach_run hSound.wf hp hi
  exact ⟨h', hRun, .edited hSound hEdited⟩

theorem conserves_detach (hSound : Sound 0 h kids) (hp : Mutable 0 h p) (ha : a ∈ kids p) :
    ∃ h' kids', detach (some p) (some a) h = .ok ((), h') ∧ Sound 0 h' kids' ∧
      h'.misuses = h.misuses ∧ IsRoot kids' a ∧ (h'.nodes a).isSome := by
  obtain ⟨xs, ys, hEq⟩ := List.append_of_mem ha
  obtain ⟨h', hRun, hEdited, hRoot⟩ := detachChild_run hSound.wf hp hEq
  have hLive : (h'.nodes a).isSome := by
    obtain ⟨n, hn⟩ := hSound.wf.trees.child_live ha
    obtain ⟨c, hBody⟩ := hEdited.body
    rw [← isSome_body, hBody, setChild_of_ne (ne_of_child hSound.wf.trees.forest ha), isSome_body,
      hn]
    rfl
  exact ⟨h', _, hRun, hSound.edited hEdited, by rw [hEdited.rest], hRoot, hLive⟩

/-! ### Exchanged texts -/

theorem lib_freeTexts {ts : List Addr} :
    (h.freeAll (ts.map .buf)).Lib s ↔ h.Lib s ∧ s ∉ ts := by
  unfold Heap.Lib
  rw [Heap.bufs_freeAll]
  by_cases hs : s ∈ ts
  · by_cases hOwned : (h.bufs s).any Buf.owned <;> simp [hs, hOwned]
  · simp [hs]

theorem bufs_freeTexts {ts : List Addr} {b : Buf} (hs : h.bufs s = some b)
    (hb : b.owned = false) : (h.freeAll (ts.map .buf)).bufs s = some b := by
  rw [Heap.bufs_freeAll, hs, if_neg]
  simp [hb]

/-- The node `a` loses one text, which is freed, and gets a new one, which `g` has. -/
theorem sound_swapped (hSound : Sound 0 h kids) (hn : h.nodes a = some n) (hg : g.Bounded)
    (hNodes : g.nodes = h.nodes) (hPrev : m.prev = n.prev) (hNext : m.next = n.next)
    (hShape : m.shape = n.shape) (hOld : n.texts.Perm (lost.toList ++ kept.toList))
    (hNew : m.texts.Perm (new.toList ++ kept.toList)) (hFresh : ∀ s, new = some s → ¬ h.Lib s)
    (hLib : ∀ s, g.Lib s ↔ h.Lib s ∨ new = some s)
    (hLent : m.constKey = true → ∃ s b, m.string = some s ∧ g.bufs s = some b ∧ b.owned = false)
    (hKept : ∀ s b, h.bufs s = some b → b.owned = false → g.bufs s = some b) :
    Sound 0 ((g.freeAll (lost.toList.map .buf)).setNode a m) kids ∧
      ((g.freeAll (lost.toList.map .buf)).setNode a m).misuses = g.misuses := by
  have hOwned := hSound.owned
  have hLostLib : ∀ s, lost = some s → h.Lib s := by
    intro s hs
    refine (hOwned.live (Nat.zero_le a) ?_).2
    rw [textsAt_eq hn, hOld.mem_iff]
    exact List.mem_append_left _ (Option.mem_toList.mpr hs)
  have hn' : (g.freeAll (lost.toList.map .buf)).nodes a = some n := by
    rw [nodes_freeTexts, hNodes, hn]
  refine ⟨⟨?_, ?_⟩, ?_⟩
  · exact (hSound.wf.of_nodes hg.freeAll ((nodes_freeTexts _).trans hNodes)).setNode hn' hPrev hNext
      hShape
  · refine hOwned.swap (Nat.zero_le a) hn Heap.setNode_self (fun x hx => ?_) hOld hNew
      (fun s hs => ⟨Nat.zero_le s, hFresh s hs⟩) (fun s => ?_) (fun hConst => ?_)
      fun s b hs hb => ?_
    · rw [Heap.setNode_ne hx, nodes_freeTexts, hNodes]
    · have hFreed : ((g.freeAll (lost.toList.map .buf)).setNode a m).Lib s ↔
          g.Lib s ∧ s ∉ lost.toList := lib_freeTexts
      rw [hFreed, hLib, Option.mem_toList]
      constructor
      · rintro ⟨hs | hs, hNot⟩
        · exact Or.inl ⟨hs, hNot⟩
        · exact Or.inr hs
      · rintro (⟨hs, hNot⟩ | hs)
        · exact ⟨Or.inl hs, hNot⟩
        · exact ⟨Or.inr hs, fun hLost => hFresh s hs (hLostLib s hLost)⟩
    · obtain ⟨s, b, hq, hs, hb⟩ := hLent hConst
      exact ⟨s, b, hq, bufs_freeTexts hs hb, hb⟩
    · exact bufs_freeTexts (hKept s b hs hb) hb
  · refine Heap.freeAll_misuses (by cases lost <;> simp) fun b hb => ?_
    obtain ⟨s, hs, rfl⟩ := List.mem_map.mp hb
    exact (hLib s).mpr (Or.inl (hLostLib s (Option.mem_toList.mp hs)))

/-- The heap `g` may have a new key for the node `i`. -/
theorem sound_rekeyed (hSound : Sound 0 h kids) (hm : h.nodes i = some m) (hg : g.Bounded)
    (hNodes : g.nodes = h.nodes) {flag : TypeWord → TypeWord}
    (hFlag : ∀ t, isReference (flag t) = isReference t)
    (hFresh : ∀ s, new = some s → ¬ h.Lib s)
    (hNew : CNode.ownKey { m with type_ := flag m.type_, string := q } = new)
    (hLib : ∀ s, g.Lib s ↔ h.Lib s ∨ new = some s)
    (hLent : isConst (flag m.type_) = true →
      ∃ s b, q = some s ∧ g.bufs s = some b ∧ b.owned = false)
    (hKept : ∀ s b, h.bufs s = some b → b.owned = false → g.bufs s = some b) :
    Sound 0 (g.rekeyed i m flag q) kids ∧ (g.rekeyed i m flag q).misuses = g.misuses := by
  have hOld : m.texts.Perm (m.ownKey.toList ++ m.ownValue.toList) := List.perm_append_comm
  have hTexts : (CNode.texts { m with type_ := flag m.type_, string := q }).Perm
      (new.toList ++ m.ownValue.toList) := by
    have hValue : CNode.ownValue { m with type_ := flag m.type_, string := q } = m.ownValue := by
      unfold CNode.ownValue CNode.isRef
      rw [hFlag]
    unfold CNode.texts
    rw [hNew, hValue]
    exact List.perm_append_comm
  have hShape : CNode.shape { m with type_ := flag m.type_, string := q } = m.shape := by
    show (isReference (flag m.type_), m.child) = _
    rw [hFlag]
    rfl
  exact sound_swapped hSound hm hg hNodes rfl rfl hShape hOld hTexts hFresh hLib hLent hKept

/-! ### Fresh buffers -/

theorem lib_pushBuf (bytes : List UInt8) :
    (h.tick.pushBuf bytes).Lib s ↔ h.Lib s ∨ some h.brk = some s := by
  have hBuf : (h.tick.pushBuf bytes).bufs h.brk = some ⟨bytes, true⟩ := Function.update_self ..
  by_cases hs : s = h.brk
  · subst hs
    exact iff_of_true (lib_iff.mpr ⟨_, hBuf, rfl⟩) (Or.inr rfl)
  · have hSame : (h.tick.pushBuf bytes).bufs s = h.bufs s := Function.update_of_ne hs ..
    have hne : some h.brk ≠ some s := fun hEq => hs (Option.some.inj hEq).symm
    unfold Heap.Lib
    rw [hSame, or_iff_left hne]

theorem not_lib_brk (hBounded : h.Bounded) : ∀ s, some h.brk = some s → ¬ h.Lib s := by
  rintro _ ⟨⟩ hLib
  exact Nat.lt_irrefl _ (hBounded.lt_lib hLib)

theorem bufs_pushBuf (hBounded : h.Bounded) (bytes : List UInt8) {b : Buf}
    (hs : h.bufs s = some b) : (h.tick.pushBuf bytes).bufs s = some b :=
  (Function.update_of_ne (Nat.ne_of_lt (hBounded.lt_buf hs)) ..).trans hs

/-! ### New keys -/

/-- The caller's name becomes the constant key of a root that is added. -/
theorem conserves_lent (hSound : Sound 0 h kids) (hp : Mutable 0 h p) (hi : Handed 0 h kids p i)
    (hs : ∃ b, h.bufs s = some b ∧ b.owned = false) :
    ∃ h₁ h', rekey i setConst (some s) h = .ok ((), h₁) ∧
      attachChild (some p) (some i) h₁ = .ok ((), h') ∧ Conserves h h' := by
  obtain ⟨m, hm⟩ := Option.isSome_iff_exists.mp hi.live
  obtain ⟨h', hRekey, hAttach, hEdited⟩ :=
    rekey_attach_run hSound.wf hp hi isReference_setConst (some s) hm
  have hNew : CNode.ownKey { m with type_ := setConst m.type_, string := some s } = none := by
    rw [CNode.ownKey, CNode.constKey, isConst_setConst]
    rfl
  have hFresh : ∀ u, (none : Ptr) = some u → ¬ h.Lib u := fun u hu => by cases hu
  obtain ⟨hSound', hMisuses⟩ := sound_rekeyed hSound hm hSound.wf.bounded rfl isReference_setConst
    hFresh hNew (fun u => by simp)
    (fun _ => hs.elim fun b hb => ⟨s, b, rfl, hb.1, hb.2⟩) fun _ _ hb _ => hb
  obtain ⟨hSound'', hMisuses'⟩ := Conserves.edited hSound' hEdited
  exact ⟨_, h', hRekey, hAttach, hSound'', hMisuses'.trans hMisuses⟩

theorem Conserves.tick (hSound : Sound 0 h kids) : Conserves h h.tick :=
  ⟨⟨kids, hSound.of_nodes hSound.wf.bounded.tick rfl rfl⟩, rfl⟩

/-- A copy of a name becomes the key of a root that is added, or nothing happens. -/
theorem conserves_named (hSound : Sound 0 h kids) (hp : Mutable 0 h p) (hi : Handed 0 h kids p i)
    (hs : h.Readable s) :
    ∃ b h', attachNamedChild (some p) (some s) (some i) h = .ok (b, h') ∧ Conserves h h' := by
  by_cases hNamed : (h.text (some s)).isSome ∧ h.outcomes 0 = true
  · obtain ⟨k, hk⟩ := Option.isSome_iff_exists.mp hNamed.1
    obtain ⟨m, hm⟩ := Option.isSome_iff_exists.mp hi.live
    obtain ⟨h', hRun, hEdited⟩ := attachNamedChild_run hSound.wf hp hi hs hm hk hNamed.2
    have hBounded := hSound.wf.bounded
    have hNew : CNode.ownKey { m with type_ := clearConst m.type_, string := some h.brk }
        = some h.brk := by
      rw [CNode.ownKey, CNode.constKey, isConst_clearConst]
      rfl
    have hLent : isConst (clearConst m.type_) = true → ∃ u b, some h.brk = some u ∧
        (h.tick.pushBuf (encode k ++ [0])).bufs u = some b ∧ b.owned = false := by
      intro hTrue
      rw [isConst_clearConst] at hTrue
      cases hTrue
    obtain ⟨hSound', hMisuses⟩ := sound_rekeyed hSound hm (hBounded.tick.pushBuf _) rfl
      isReference_clearConst (not_lib_brk hBounded) hNew (fun u => lib_pushBuf _) hLent
      fun u b hu _ => bufs_pushBuf hBounded _ hu
    obtain ⟨hSound'', hMisuses'⟩ := Conserves.edited hSound' hEdited
    exact ⟨true, h', hRun, hSound'', hMisuses'.trans hMisuses⟩
  · obtain ⟨h', hRun, rfl | rfl⟩ := attachNamedChild_fail (p := p) (i := i) hs hNamed
    · exact ⟨false, h', hRun, .refl hSound⟩
    · exact ⟨false, _, hRun, .tick hSound⟩

/-! ### Replacing -/

/-- The key of the node `a` is constant, and the node `i`, which has none, would get it without
the flag. -/
def PassesName (h : Heap) (a i : Addr) : Prop :=
  ∃ n m, h.nodes a = some n ∧ h.nodes i = some m ∧ n.constKey = true ∧ m.string = none

theorem hold_eq_body (x : Addr) : h.hold x = (h.body x).map CNode.hold := by
  unfold Heap.hold Heap.body
  rw [Option.map_map]
  rfl

theorem hold_setChild {b : Addr → Option CNode} {c : Ptr} (x : Addr) :
    (setChild b p c x).map CNode.hold = (b x).map CNode.hold := by
  by_cases hx : x = p
  · subst hx
    rw [setChild, Function.update_self, Option.map_map]
    rfl
  · rw [setChild_of_ne hx]

/-- The texts of a node whose key is not constant. -/
theorem textsAt_of_body (hm : h.body a = some m) (hConst : m.constKey = false) :
    h.textsAt a = m.ownValue.toList ++ m.string.toList := by
  obtain ⟨n, hn, rfl⟩ := node_of_body hm
  have hConst' : n.constKey = false := hConst
  rw [textsAt_eq hn, CNode.texts, CNode.ownKey, hConst']
  rfl

theorem constKey_of_body (hm : h.body a = some m) (hn : h.nodes a = some n) :
    n.constKey = m.constKey := by
  rw [body_eq hn] at hm
  cases hm
  rfl

theorem Owned.lent_of_hold (hOwned : Owned N h) (ha : N ≤ a) (hHold : h'.hold a = h.hold a)
    (hBufs : h'.bufs = h.bufs) (hn : h'.nodes a = some n) (hConst : n.constKey = true) :
    ∃ s b, n.string = some s ∧ h'.bufs s = some b ∧ b.owned = false := by
  unfold Heap.hold at hHold
  rw [hn] at hHold
  obtain ⟨n', hn', hEq⟩ := Option.map_eq_some_iff.mp hHold.symm
  simp only [CNode.hold, Prod.mk.injEq] at hEq
  obtain ⟨hType, -, hString⟩ := hEq
  have hConst' : n'.constKey = true := by
    unfold CNode.constKey
    rw [hType]
    exact hConst
  rw [hBufs, ← hString]
  exact hOwned.lent ha hn' hConst'

/-- The key of `a` passes to `i`, which had none. -/
theorem owned_moved {ma mi : CNode} (hOwned : Owned 0 h) (hma : h.body a = some ma)
    (hmi : h.body i = some mi) (hai : a ≠ i) (hBufs : h'.bufs = h.bufs)
    (hA : h'.body a = some { ma with string := none })
    (hI : h'.body i = some { mi with string := some s })
    (hHold : ∀ x, x ≠ a → x ≠ i → h'.hold x = h.hold x)
    (hs : ma.string = some s) (hConst : ma.constKey = false) (hNone : mi.string = none) :
    Owned 0 h' := by
  have hConst' : mi.constKey = false := by
    obtain ⟨n, hn, rfl⟩ := node_of_body hmi
    refine Bool.eq_false_iff.mpr fun hYes => ?_
    have hLent : n.constKey = true := hYes
    obtain ⟨u, -, hu, -⟩ := hOwned.lent (Nat.zero_le i) hn hLent
    rw [show n.string = none from hNone] at hu
    cases hu
  have hTextsA : h.textsAt a = ma.ownValue.toList ++ [s] := by
    rw [textsAt_of_body hma hConst, hs]
    rfl
  have hTextsA' : h'.textsAt a = ma.ownValue.toList := by
    rw [textsAt_of_body hA hConst]
    exact List.append_nil _
  have hTextsI : h'.textsAt i = h.textsAt i ++ [s] := by
    rw [textsAt_of_body hI hConst', textsAt_of_body hmi hConst', hNone, Option.toList_none,
      List.append_nil]
    rfl
  refine hOwned.transfer (Nat.zero_le a) (Nat.zero_le i) hai hTextsA hTextsA' hTextsI
    (fun x hxa hxi => textsAt_congr (hHold x hxa hxi)) hBufs fun {x n} hx hn hLent => ?_
  by_cases hxi : x = i
  · subst hxi
    have hFree : n.constKey = false := (constKey_of_body hI hn).trans hConst'
    rw [hLent] at hFree
    cases hFree
  by_cases hxa : x = a
  · subst hxa
    have hFree : n.constKey = false := (constKey_of_body hA hn).trans hConst
    rw [hLent] at hFree
    cases hFree
  exact hOwned.lent_of_hold hx (hHold x hxa hxi) hBufs hn hLent

/-- Before the old member is freed, its key has passed to the replacement or stayed. -/
theorem sound_replaced (hSound : Sound 0 h kids) (hReplaced : Replaced 0 h h' kids p a i ks)
    (hai : a ≠ i) (hPass : ¬ PassesName h a i) :
    Sound 0 h' (Function.update kids p ks) := by
  obtain ⟨c, ma, mi, hma, hmi, hBody⟩ := hReplaced.body
  have hBufs : h'.bufs = h.bufs := by rw [hReplaced.rest]
  refine ⟨hReplaced.wf, ?_⟩
  have hChild : ∀ x, (setChild h.body p c x).map CNode.hold = h.hold x := fun x => by
    rw [hold_setChild, ← hold_eq_body]
  by_cases hMoved : Moved ma mi
  · obtain ⟨s, hs⟩ := Option.isSome_iff_exists.mp hMoved.1
    have hNone := Option.isNone_iff_eq_none.mp hMoved.2
    have hConst : ma.constKey = false := by
      obtain ⟨n, hn, rfl⟩ := node_of_body hma
      obtain ⟨m, hm, rfl⟩ := node_of_body hmi
      exact Bool.eq_false_iff.mpr fun hYes => hPass ⟨n, m, hn, hm, hYes, hNone⟩
    refine owned_moved hSound.owned hma hmi hai hBufs ?_ ?_ (fun x hxa hxi => ?_) hs hConst hNone
    · rw [hBody, moveKey, if_pos hMoved, Function.update_self]
    · rw [hBody, moveKey, if_pos hMoved, Function.update_of_ne hai.symm, Function.update_self, hs]
    · rw [hold_eq_body, hBody, moveKey_of_ne hxa hxi, hChild]
  · refine hSound.owned.congr (fun x _ => ?_) hBufs
    rw [hold_eq_body, hBody, moveKey, if_neg hMoved, hChild]

theorem conserves_replace (hSound : Sound 0 h kids) (hp : Mutable 0 h p)
    (hi : Handed 0 h kids p i) (ha : a ∈ kids p) (hPass : ¬ PassesName h a i) :
    ∃ h', replaceViaPointer (some p) (some a) (some i) h = .ok (true, h') ∧ Conserves h h' := by
  obtain ⟨xs, ys, hEq⟩ := List.append_of_mem ha
  obtain ⟨h₁, V, hReplaced, hV, hRun⟩ := replaceChild_run hSound.wf hp hi hEq
  have hai : a ≠ i := fun hEq => hi.root p (hEq ▸ ha)
  have hSound₁ := sound_replaced hSound hReplaced hai hPass
  have hMem : ∀ x ∈ V, 0 ≤ x ∧ (h₁.nodes x).isSome := fun x hx => ⟨Nat.zero_le x, hV.live x hx⟩
  obtain ⟨hNodup, hFreeable⟩ := hSound₁.owned.freeable hMem hV.2.1
  refine ⟨_, hRun, ⟨_, hSound₁.free hReplaced.root hV hMem⟩, ?_⟩
  rw [Heap.freeAll_misuses hNodup hFreeable, hReplaced.rest]

/-! ## Edits -/

theorem Conserves.trans (hMisuses : g.misuses = h.misuses) (hConserves : Conserves g h') :
    Conserves h h' := ⟨hConserves.1, hConserves.2.trans hMisuses⟩

theorem mem_of_bind {position : Option Nat} {as : List Addr}
    (ha : position.bind (as[·]?) = some a) : a ∈ as := by
  obtain ⟨w, -, hw⟩ := Option.bind_eq_some_iff.mp ha
  exact List.mem_of_getElem? hw

/-- The type of a container is checked before it is changed. -/
theorem checked_meets (hSound : Sound 0 h kids) (hp : Mutable 0 h p) {type : TypeWord} {x : M Bool}
    (hx : Run.Meets x h S fun _ h' => Conserves h h') :
    Run.Meets (do
      let a ← load (some p)
      if tag a.type_ ≠ type then
        return false
      x) h S fun _ h' => Conserves h h' := by
  obtain ⟨-, n, hn, -⟩ := hp
  refine Run.meets_bind_of_run (load_run hn) ?_
  exact Run.meets_ite (fun _ => Run.meets_pure (.refl hSound)) fun _ => hx

/-- What is returned is a root. -/
def Detached (h : Heap) (q : Ptr) (h' : Heap) : Prop :=
  ∃ kids, Sound 0 h' kids ∧ h'.misuses = h.misuses ∧
    ∀ a, q = some a → IsRoot kids a ∧ (h'.nodes a).isSome

theorem Detached.conserves (hDetached : Detached h q h') : Conserves h h' := by
  obtain ⟨kids, hSound, hMisuses, -⟩ := hDetached
  exact ⟨⟨kids, hSound⟩, hMisuses⟩

theorem detached_none (hSound : Sound 0 h kids) : Detached h none h := ⟨kids, hSound, rfl, nofun⟩

/-- A found child is taken out. -/
theorem detachFound_meets (hSound : Sound 0 h kids) {find : M Ptr} (hFind : find h = .ok (q, h))
    (hIn : ∀ a, q = some a → Mutable 0 h p ∧ a ∈ kids p) :
    Run.Meets (do
      let item ← find
      if item.isNone then
        return none
      detach (some p) item
      return item : M Ptr) h S (Detached h) := by
  refine Run.meets_bind_of_run hFind ?_
  cases q with
  | none => exact Run.meets_pure (detached_none hSound)
  | some a =>
    obtain ⟨hp, ha⟩ := hIn a rfl
    obtain ⟨h', kids', hRun, hSound', hMisuses, hRoot, hLive⟩ := conserves_detach hSound hp ha
    refine Run.meets_bind_of_run hRun (Run.meets_pure ⟨kids', hSound', hMisuses, ?_⟩)
    rintro _ ⟨⟩
    exact ⟨hRoot, hLive⟩

/-- What was taken out is freed. -/
theorem deleteFound_meets {x : M Ptr} (hx : Run.Meets x h S (Detached h)) :
    Run.Meets (x >>= fun item => if item.isSome then freeCjson item else pure ()) h S
      fun _ h' => Conserves h h' := by
  refine hx.bind fun q g hDetached => ?_
  cases q with
  | none => exact Run.meets_pure hDetached.conserves
  | some a =>
    obtain ⟨kids', hSound', hMisuses, hRoot⟩ := hDetached
    obtain ⟨h', hRun, hConserves⟩ := conserves_free hSound' (hRoot a rfl).1 (hRoot a rfl).2
    exact Run.meets_of_run hRun (hConserves.trans hMisuses)

/-- A found child is replaced. -/
theorem replaceFound_meets (hSound : Sound 0 h kids) {find : M Ptr} {newitem : Ptr}
    (hFind : find h = .ok (q, h))
    (hIn : ∀ a i, q = some a → newitem = some i →
      Mutable 0 h p ∧ a ∈ kids p ∧ Handed 0 h kids p i ∧ ¬ PassesName h a i) :
    Run.Meets (do
      let item ← find
      if item.isNone then
        return false
      replaceViaPointer (some p) item newitem : M Bool) h S fun _ h' => Conserves h h' := by
  refine Run.meets_bind_of_run hFind ?_
  cases q with
  | none => exact Run.meets_pure (.refl hSound)
  | some a =>
    cases newitem with
    | none => exact Run.meets_pure (.refl hSound)
    | some i =>
      obtain ⟨hp, ha, hi, hPass⟩ := hIn a i rfl rfl
      obtain ⟨h', hRun, hConserves⟩ := conserves_replace hSound hp hi ha hPass
      exact Run.meets_of_run hRun hConserves

namespace Edit

/-- The name that a call makes a constant key is the caller's. -/
def Lends (h : Heap) : Edit → Prop
  | addItemToObjectCS _ name _ => ∀ s, name = some s → ∃ b, h.bufs s = some b ∧ b.owned = false
  | _ => True

/-- The call replaces a child with a constant key by a node without a key. -/
def PassesName (h : Heap) (kids : Addr → List Addr) : Edit → Prop
  | replaceItemViaPointer parent item replacement =>
    ∃ a i, parent.isSome ∧ item = some a ∧ replacement = some i ∧ Ffi.PassesName h a i
  | replaceItemInArray array which newitem =>
    ∃ p a i, array = some p ∧ newitem = some i ∧
      (indexIn which (kids p)).bind ((kids p)[·]?) = some a ∧ Ffi.PassesName h a i
  | replaceItemInObject cs object string newitem =>
    ∃ p a i, object = some p ∧ newitem = some i ∧
      (keyIn h cs string (kids p)).bind ((kids p)[·]?) = some a ∧ Ffi.PassesName h a i
  | _ => False

theorem addItemToArray_meets (hSound : Sound 0 h kids) {array item : Ptr}
    (hAdm : (addItemToArray array item).Admissible h kids) :
    Run.Meets (cjsonAddItemToArray array item) h S fun _ h' => Conserves h h' := by
  cases array with
  | none => exact Run.meets_pure (.refl hSound)
  | some p =>
    cases item with
    | none => exact Run.meets_pure (.refl hSound)
    | some i =>
      obtain ⟨hp, hi⟩ := hAdm p i rfl rfl
      obtain ⟨h', hRun, hConserves⟩ := conserves_attach hSound hp hi
      refine checked_meets hSound hp ?_
      exact Run.meets_bind_of_run hRun (Run.meets_pure hConserves)

theorem addItemToObject_meets (hSound : Sound 0 h kids) {object name item : Ptr}
    (hAdm : (addItemToObject object name item).Admissible h kids) :
    Run.Meets (cjsonAddItemToObject object name item) h S fun _ h' => Conserves h h' := by
  cases object with
  | none => exact Run.meets_pure (.refl hSound)
  | some p =>
    cases name with
    | none => exact Run.meets_pure (.refl hSound)
    | some s =>
      cases item with
      | none => exact Run.meets_pure (.refl hSound)
      | some i =>
        obtain ⟨hp, hi, hs⟩ := hAdm p s i rfl rfl rfl
        obtain ⟨b, h', hRun, hConserves⟩ := conserves_named hSound hp hi hs
        exact checked_meets hSound hp (Run.meets_of_run hRun hConserves)

theorem addItemToObjectCS_meets (hSound : Sound 0 h kids) {object name item : Ptr}
    (hAdm : (addItemToObjectCS object name item).Admissible h kids)
    (hLends : (addItemToObjectCS object name item).Lends h) :
    Run.Meets (cjsonAddItemToObjectCS object name item) h S fun _ h' => Conserves h h' := by
  cases object with
  | none => exact Run.meets_pure (.refl hSound)
  | some p =>
    cases name with
    | none => exact Run.meets_pure (.refl hSound)
    | some s =>
      cases item with
      | none => exact Run.meets_pure (.refl hSound)
      | some i =>
        obtain ⟨hp, hi⟩ := hAdm p s i rfl rfl rfl
        obtain ⟨h₁, h', hRekey, hAttach, hConserves⟩ :=
          conserves_lent hSound hp hi (hLends s rfl)
        rw [cjsonAddItemToObjectCS_eq]
        refine checked_meets hSound hp ?_
        exact Run.meets_bind_of_run hRekey
          (Run.meets_bind_of_run hAttach (Run.meets_pure hConserves))

theorem insertItemInArray_meets (hSound : Sound 0 h kids) {array newitem : Ptr} {which : Int}
    (hAdm : (insertItemInArray array which newitem).Admissible h kids) :
    Run.Meets (cjsonInsertItemInArray array which newitem) h S fun _ h' => Conserves h h' := by
  cases array with
  | none => exact Run.meets_pure (.refl hSound)
  | some p =>
    cases newitem with
    | none => exact Run.meets_pure (.refl hSound)
    | some i =>
      obtain ⟨hp, hi⟩ := hAdm p i rfl rfl
      by_cases hNeg : which < 0
      · rw [cjsonInsertItemInArray, if_pos (Or.inr (Or.inr hNeg))]
        exact Run.meets_pure (.refl hSound)
      rw [cjsonInsertItemInArray_eq p i hNeg]
      refine checked_meets hSound hp ?_
      refine Run.meets_bind_of_run (childAtIndex_kids hSound.wf hp which) ?_
      cases hFound : (indexIn which (kids p)).bind ((kids p)[·]?) with
      | none =>
        obtain ⟨h', hRun, hConserves⟩ := conserves_attach hSound hp hi
        exact Run.meets_bind_of_run hRun (Run.meets_pure hConserves)
      | some a =>
        obtain ⟨xs, ys, hEq⟩ := List.append_of_mem (mem_of_bind hFound)
        obtain ⟨h', hRun, hEdited⟩ := insertChild_run hSound.wf hp hi hEq
        exact Run.meets_bind_of_run hRun (Run.meets_pure (.edited hSound hEdited))

theorem detachItemViaPointer_meets (hSound : Sound 0 h kids) {parent item : Ptr}
    (hAdm : (detachItemViaPointer parent item).Admissible h kids) :
    Run.Meets (cjsonDetachItemViaPointer parent item) h S (Detached h) := by
  cases parent with
  | none => exact Run.meets_pure (detached_none hSound)
  | some p =>
    cases item with
    | none => exact Run.meets_pure (detached_none hSound)
    | some a =>
      obtain ⟨hp, ha⟩ := hAdm p a rfl rfl
      have hFind : (pure (some a) : M Ptr) h = .ok (some a, h) := rfl
      refine detachFound_meets hSound hFind ?_
      rintro _ ⟨⟩
      exact ⟨hp, ha⟩

theorem detachItemFromArray_meets (hSound : Sound 0 h kids) {array : Ptr} {which : Int}
    (hAdm : ∀ p, array = some p → Mutable 0 h p) :
    Run.Meets (cjsonDetachItemFromArray array which) h S (Detached h) := by
  cases array with
  | none => exact Run.meets_of_run rfl (detached_none hSound)
  | some p =>
    have hp := hAdm p rfl
    exact detachFound_meets hSound (childAtIndex_kids hSound.wf hp which) fun a ha =>
      ⟨hp, mem_of_bind ha⟩

/-- What the lookup of a key finds is a child of a node that may be changed. -/
theorem keyIn_found {string : Ptr} {P : Prop} {cs : Bool}
    (hAdm : ∀ s, string = some s → Mutable 0 h p ∧ KeysReadable h (kids p) ∧ h.Readable s ∧ P)
    (ha : (keyIn h cs string (kids p)).bind ((kids p)[·]?) = some a) :
    Mutable 0 h p ∧ a ∈ kids p ∧ P := by
  cases string with
  | none => cases ha
  | some s =>
    obtain ⟨hp, -, -, hP⟩ := hAdm s rfl
    exact ⟨hp, mem_of_bind ha, hP⟩

theorem detachObjectItem_meets (hSound : Sound 0 h kids) {object string : Ptr} (cs : Bool)
    (hAdm : ∀ p s, object = some p → string = some s →
      Mutable 0 h p ∧ KeysReadable h (kids p) ∧ h.Readable s) :
    Run.Meets (detachObjectItem object string cs) h S (Detached h) := by
  cases object with
  | none => exact Run.meets_of_run rfl (detached_none hSound)
  | some p =>
    have hArg : ∀ s, string = some s →
        Mutable 0 h p ∧ KeysReadable h (kids p) ∧ h.Readable s ∧ True := fun s hs => by
      simpa using hAdm p s rfl hs
    have hFind := (getObjectItemImpl_adm hSound.wf hArg cs).2
    exact detachFound_meets hSound hFind fun a ha =>
      ⟨(keyIn_found hArg ha).1, (keyIn_found hArg ha).2.1⟩

theorem replaceItemViaPointer_meets (hSound : Sound 0 h kids) {parent item replacement : Ptr}
    (hAdm : (replaceItemViaPointer parent item replacement).Admissible h kids)
    (hPass : ¬ (replaceItemViaPointer parent item replacement).PassesName h kids) :
    Run.Meets (cjsonReplaceItemViaPointer parent item replacement) h S
      fun _ h' => Conserves h h' := by
  cases parent with
  | none => exact Run.meets_pure (.refl hSound)
  | some p =>
    cases item with
    | none => exact Run.meets_pure (.refl hSound)
    | some a =>
      cases replacement with
      | none => exact Run.meets_pure (.refl hSound)
      | some i =>
        obtain ⟨hp, ha, hi⟩ := hAdm p a i rfl rfl rfl
        obtain ⟨h', hRun, hConserves⟩ := conserves_replace hSound hp hi ha
          fun hNames => hPass ⟨a, i, rfl, rfl, rfl, hNames⟩
        exact Run.meets_of_run hRun hConserves

theorem replaceItemInArray_meets (hSound : Sound 0 h kids) {array newitem : Ptr} {which : Int}
    (hAdm : (replaceItemInArray array which newitem).Admissible h kids)
    (hPass : ¬ (replaceItemInArray array which newitem).PassesName h kids) :
    Run.Meets (cjsonReplaceItemInArray array which newitem) h S fun _ h' => Conserves h h' := by
  cases array with
  | none => exact Run.meets_of_run rfl (.refl hSound)
  | some p =>
    obtain ⟨hp, hNew⟩ := hAdm p rfl
    exact replaceFound_meets hSound (childAtIndex_kids hSound.wf hp which) fun a i ha hi =>
      ⟨hp, mem_of_bind ha, hNew i hi, fun hNames => hPass ⟨p, a, i, rfl, hi, ha, hNames⟩⟩

theorem replaceObjectItem_meets (hSound : Sound 0 h kids) {object string newitem : Ptr}
    (cs : Bool) (hAdm : (replaceItemInObject cs object string newitem).Admissible h kids)
    (hPass : ¬ (replaceItemInObject cs object string newitem).PassesName h kids) :
    Run.Meets (replaceObjectItem object string newitem cs) h S fun _ h' => Conserves h h' := by
  cases object with
  | none => exact Run.meets_of_run rfl (.refl hSound)
  | some p =>
    have hArg := fun s => hAdm p s rfl
    have hFind := (getObjectItemImpl_adm hSound.wf hArg cs).2
    refine replaceFound_meets hSound hFind fun a i ha hi => ?_
    obtain ⟨hp, haKid, hNew⟩ := keyIn_found hArg ha
    exact ⟨hp, haKid, hNew i hi, fun hNames => hPass ⟨p, a, i, rfl, hi, ha, hNames⟩⟩

/-- An edit keeps a sound heap sound unless it passes a name on. -/
theorem conserves (e : Edit) (hSound : Sound 0 h kids) (hAdm : e.Admissible h kids)
    (hLends : e.Lends h) (hPass : ¬ e.PassesName h kids) :
    Run.Meets e.run h S fun _ h' => Conserves h h' := by
  have hDetached : ∀ {x : M Ptr}, Run.Meets x h S (Detached h) →
      Run.Meets x h S fun _ h' => Conserves h h' := fun hx =>
    hx.mono id fun _ _ hDetached => hDetached.conserves
  cases e with
  | addItemToArray => exact .map (addItemToArray_meets hSound hAdm)
  | addItemToObject => exact .map (addItemToObject_meets hSound hAdm)
  | addItemToObjectCS => exact .map (addItemToObjectCS_meets hSound hAdm hLends)
  | insertItemInArray => exact .map (insertItemInArray_meets hSound hAdm)
  | detachItemViaPointer => exact .map (hDetached (detachItemViaPointer_meets hSound hAdm))
  | detachItemFromArray => exact .map (hDetached (detachItemFromArray_meets hSound hAdm))
  | detachItemFromObject cs object string =>
    cases cs <;> exact .map (hDetached (detachObjectItem_meets hSound _ hAdm))
  | deleteItemFromArray =>
    exact .map (deleteFound_meets (detachItemFromArray_meets hSound hAdm))
  | deleteItemFromObject cs object string =>
    cases cs <;> exact .map (deleteFound_meets (detachObjectItem_meets hSound _ hAdm))
  | replaceItemViaPointer => exact .map (replaceItemViaPointer_meets hSound hAdm hPass)
  | replaceItemInArray => exact .map (replaceItemInArray_meets hSound hAdm hPass)
  | replaceItemInObject cs object string newitem =>
    cases cs <;> exact .map (replaceObjectItem_meets hSound _ hAdm hPass)

end Edit

/-! ## New trees -/

/-- What was built stands next to the trees of the heap. -/
theorem Conserves.of_grown {roots : List Addr} (hSound : Sound 0 h kids)
    (hGrown : Grown h h' kids' roots) : Conserves h h' :=
  ⟨⟨_, hSound.join hGrown.ext (Nat.zero_le _) hGrown.sound⟩, hGrown.ext.misuses⟩

theorem Conserves.of_built (hSound : Sound 0 h kids) (hBuilt : Built h q h') : Conserves h h' := by
  obtain ⟨kids', hGrown⟩ := hBuilt
  exact .of_grown hSound hGrown

theorem Conserves.of_parses (hSound : Sound 0 h kids) (hParses : Parses h q h') :
    Conserves h h' := by
  obtain ⟨p, hBuilt⟩ := hParses
  have hError : Sound 0 { h with lastError := p } kids :=
    hSound.of_nodes (bounded_lastError hSound.wf.bounded p) rfl rfl
  have hConserves := Conserves.of_built hError hBuilt
  exact ⟨hConserves.1, hConserves.2⟩

/-- A new tree may be added to a node of the sound heap it was built on. -/
theorem sound_new (hSound : Sound 0 h kids) (hp : Mutable 0 h p) (hGrown : Grown h g kids' [i]) :
    ∃ kids'', Sound 0 g kids'' ∧ Mutable 0 g p ∧ Handed 0 g kids'' p i := by
  obtain ⟨kids'', hWf, hp', hi⟩ := handed_new hSound.wf hp hGrown
  have hJoin := hSound.join hGrown.ext (Nat.zero_le _) hGrown.sound
  exact ⟨kids'', ⟨hWf, hJoin.owned⟩, hp', hi⟩

/-- A new tree is added with a name, or is still a tree of its own. -/
def Offered (h : Heap) (i : Addr) (b : Bool) (h' : Heap) : Prop :=
  Conserves h h' ∧ (b = false → ∃ kids', Grown h h' kids' [i])

theorem offered_named (hSound : Sound 0 h kids) (hp : Mutable 0 h p) (hs : h.Readable s)
    (hGrown : Grown h g kids' [i]) :
    Run.Meets (attachNamedChild (some p) (some s) (some i)) g S (Offered h i) := by
  obtain ⟨kids'', hSound', hp', hi⟩ := sound_new hSound hp hGrown
  obtain ⟨b, h', hRun, hConserves⟩ :=
    conserves_named hSound' hp' hi (hGrown.ext.readable hSound.wf.bounded hs)
  have hNew := attachNamedChild_new (S := True) hGrown fun _ => ⟨⟨kids, hSound.wf⟩, hp, hs⟩
  exact Run.meets_of_run hRun ⟨hConserves.trans hGrown.ext.misuses, hNew.post hRun⟩

/-- A tree that was not added is freed. -/
theorem refused_meets {α : Type} (hSound : Sound 0 h kids) (hGrown : Grown h g kids' [i]) (r : α) :
    Run.Meets (freeCjson (some i) >>= fun _ => pure r) g S fun _ h' => Conserves h h' := by
  obtain ⟨h', hFree, kids'', hNone⟩ := hGrown.free
  exact Run.meets_bind_of_run hFree (Run.meets_pure (.of_grown hSound hNone))

theorem addItemReferenceToArray_meets (hSound : Sound 0 h kids) {array item : Ptr}
    (hAdm : (Call.addItemReferenceToArray array item).Admissible h kids) :
    Run.Meets (cjsonAddItemReferenceToArray array item) h S fun _ h' => Conserves h h' := by
  cases array with
  | none => exact Run.meets_pure (.refl hSound)
  | some p =>
    cases item with
    | none => exact Run.meets_pure (.refl hSound)
    | some i =>
      obtain ⟨hp, hLive⟩ := hAdm p i rfl rfl
      refine checked_meets hSound hp ?_
      refine (wrapAsReference_meets hSound.wf.bounded fun _ => hLive).bind ?_
      intro r g hBuilt
      cases r with
      | none => exact Run.meets_pure (.of_built hSound hBuilt)
      | some r =>
        obtain ⟨kids', hGrown⟩ := hBuilt
        obtain ⟨kids'', hSound', hp', hr⟩ := sound_new hSound hp hGrown
        obtain ⟨h', hRun, hConserves⟩ := conserves_attach hSound' hp' hr
        exact Run.meets_bind_of_run hRun (Run.meets_pure (hConserves.trans hGrown.ext.misuses))

theorem addItemReferenceToObject_meets (hSound : Sound 0 h kids) {object name item : Ptr}
    (hAdm : (Call.addItemReferenceToObject object name item).Admissible h kids) :
    Run.Meets (cjsonAddItemReferenceToObject object name item) h S fun _ h' => Conserves h h' := by
  cases object with
  | none => exact Run.meets_pure (.refl hSound)
  | some p =>
    cases name with
    | none => exact Run.meets_pure (.refl hSound)
    | some s =>
      cases item with
      | none => exact Run.meets_pure (.refl hSound)
      | some i =>
        obtain ⟨hp, hs, hLive⟩ := hAdm p s i rfl rfl rfl
        refine checked_meets hSound hp ?_
        refine (wrapAsReference_meets hSound.wf.bounded fun _ => hLive).bind ?_
        intro r g hBuilt
        cases r with
        | none => exact Run.meets_pure (.of_built hSound hBuilt)
        | some r =>
          obtain ⟨kids', hGrown⟩ := hBuilt
          refine (offered_named hSound hp hs hGrown).bind fun attached g' hOffered => ?_
          cases attached with
          | true => exact Run.meets_pure hOffered.1
          | false =>
            obtain ⟨kids'', hGrown'⟩ := hOffered.2 rfl
            exact refused_meets hSound hGrown' false

theorem addToObject_conserves (hSound : Sound 0 h kids) {object name : Ptr} (hBuilt : Built h q g)
    (hAdm : ∀ p s, object = some p → name = some s → Mutable 0 h p ∧ h.Readable s) :
    Run.Meets (addToObject object name q) g S fun _ h' => Conserves h h' := by
  cases q with
  | none => exact Run.meets_pure (.of_built hSound hBuilt)
  | some i =>
    obtain ⟨kids', hGrown⟩ := hBuilt
    show Run.Meets (cjsonAddItemToObject object name (some i) >>= fun added => _) g S _
    have hSame : Offered h i false g := ⟨.of_grown hSound hGrown, fun _ => ⟨kids', hGrown⟩⟩
    have hOffers : Run.Meets (cjsonAddItemToObject object name (some i)) g S (Offered h i) := by
      cases object with
      | none => exact Run.meets_pure hSame
      | some p =>
        cases name with
        | none => exact Run.meets_pure hSame
        | some s =>
          obtain ⟨hp, hs⟩ := hAdm p s rfl rfl
          obtain ⟨-, n, hn, -⟩ := id hp
          have hn' : g.nodes p = some n := hGrown.ext.node hSound.wf.bounded hn
          show Run.Meets (load (some p) >>= fun o => _) g S _
          refine Run.meets_bind_of_run (load_run hn') ?_
          refine Run.meets_ite (fun _ => Run.meets_pure hSame) fun _ => ?_
          exact offered_named hSound hp hs hGrown
    refine hOffers.bind fun added g' hOffered => ?_
    cases added with
    | true => exact Run.meets_pure hOffered.1
    | false =>
      obtain ⟨kids'', hGrown'⟩ := hOffered.2 rfl
      exact refused_meets hSound hGrown' none

/-! ## Texts -/

/-- A node that is no reference gets a new `valuestring`; its old one is freed. -/
theorem sound_newValue (hSound : Sound 0 h kids) (hn : h.nodes a = some n)
    (hRef : n.isRef = false) (bytes : List UInt8) :
    Sound 0 (((h.tick.pushBuf bytes).freeAll (n.valuestring.toList.map .buf)).setNode a
        { n with valuestring := some h.brk }) kids ∧
      ((h.tick.pushBuf bytes).freeAll (n.valuestring.toList.map .buf)).misuses = h.misuses := by
  have hBounded := hSound.wf.bounded
  have hOld : n.texts.Perm (n.valuestring.toList ++ n.ownKey.toList) := by
    rw [CNode.texts, CNode.ownValue, hRef]
    exact List.Perm.refl _
  have hNew : (CNode.texts { n with valuestring := some h.brk }).Perm
      ((some h.brk).toList ++ n.ownKey.toList) := by
    rw [CNode.texts, CNode.ownValue, show CNode.isRef { n with valuestring := some h.brk } = false
      from hRef]
    exact List.Perm.refl _
  have hLent : n.constKey = true → ∃ u b, n.string = some u ∧
      (h.tick.pushBuf bytes).bufs u = some b ∧ b.owned = false := by
    intro hConst
    obtain ⟨u, b, hu, hb, hOwned⟩ := hSound.owned.lent (Nat.zero_le a) hn hConst
    exact ⟨u, b, hu, bufs_pushBuf hBounded _ hb, hOwned⟩
  exact sound_swapped hSound hn (hBounded.tick.pushBuf _) rfl rfl rfl rfl hOld hNew
    (not_lib_brk hBounded) (fun u => lib_pushBuf _) hLent
    fun u b hu _ => bufs_pushBuf hBounded _ hu

theorem conserves_newValue (hSound : Sound 0 h kids) (hn : h.nodes a = some n)
    (hRef : n.isRef = false) (bytes : List UInt8) :
    Conserves h (((h.tick.pushBuf bytes).freeAll (n.valuestring.toList.map .buf)).setNode a
      { n with valuestring := some h.brk }) := by
  obtain ⟨hSound', hMisuses⟩ := sound_newValue hSound hn hRef bytes
  exact ⟨⟨kids, hSound'⟩, hMisuses⟩

theorem cjsonSetValuestring_conserves (hSound : Sound 0 h kids) {object valuestring : Ptr}
    (hAdm : (Call.setValuestring object valuestring).Admissible h kids) :
    Run.Meets (cjsonSetValuestring object valuestring) h S fun _ h' => Conserves h h' := by
  cases object with
  | none => exact Run.meets_pure (.refl hSound)
  | some a =>
    cases valuestring with
    | none => exact Run.meets_pure (.refl hSound)
    | some s =>
      obtain ⟨hLive, hs⟩ := hAdm a s rfl rfl
      obtain ⟨n, hn⟩ := Option.isSome_iff_exists.mp hLive
      show Run.Meets (load (some a) >>= fun o => _) h S _
      refine Run.meets_bind_of_run (load_run hn) ?_
      refine Run.meets_ite (fun _ => Run.meets_pure (.refl hSound)) fun hString => ?_
      have hRef : n.isRef = false := Bool.eq_false_iff.mpr fun hYes => hString (Or.inr hYes)
      refine (loadStr_meets fun _ => hs).bind ?_
      rintro r _ ⟨rfl, -⟩
      cases r with
      | none => exact Run.meets_pure (.refl hSound)
      | some str =>
        have hAlloc := allocCstr_run str h
        by_cases hYes : h.outcomes 0 = true
        · rw [if_pos hYes] at hAlloc
          have hn₁ : (h.tick.pushBuf (encode str ++ [0])).nodes a = some n := hn
          have hn₂ : ((h.tick.pushBuf (encode str ++ [0])).freeAll
              (n.valuestring.toList.map .buf)).nodes a = some n := by
            rw [nodes_freeTexts]
            exact hn
          refine Run.meets_bind_of_run hAlloc (Run.meets_bind_of_run (load_run hn₁) ?_)
          refine Run.meets_bind_of_run (hookFree_run _) ?_
          exact Run.meets_bind_of_run (store_run hn₂ _)
            (Run.meets_pure (conserves_newValue hSound hn hRef _))
        · rw [if_neg hYes] at hAlloc
          exact Run.meets_bind_of_run hAlloc (Run.meets_pure (.tick hSound))

/-! ## All calls -/

namespace Call

/-- The name that a call makes a constant key is the caller's. -/
def Lends (h : Heap) : Call → Prop
  | edit e => e.Lends h
  | _ => True

/-- The call replaces a child with a constant key by a node without a key. -/
def PassesName (h : Heap) (kids : Addr → List Addr) : Call → Prop
  | edit e => e.PassesName h kids
  | _ => False

theorem conserves (c : Call) (hSound : Sound 0 h kids) (hAdm : c.Admissible h kids)
    (hLends : c.Lends h) (hPass : ¬ c.PassesName h kids) :
    Run.Meets (c.run std) h False fun _ h' => Conserves h h' := by
  have hBounded := hSound.wf.bounded
  have hParsed : ∀ (r : Parsed) h', Parses h r.item h' → Conserves h h' :=
    fun _ _ hParses => .of_parses hSound hParses
  cases c with
  | parse value =>
    rw [run, cjsonParse_eq_opts]
    refine .map (.map ?_)
    exact (cjsonParseWithOpts_meets hBounded value false 1).mono False.elim hParsed
  | parseWithLength value len =>
    rw [run, cjsonParseWithLength_eq_opts]
    refine .map (.map ?_)
    exact (cjsonParseWithLengthOpts_meets hBounded value len false 1).mono False.elim hParsed
  | parseWithOpts value wantEnd strict =>
    refine .map ?_
    exact (cjsonParseWithOpts_meets hBounded value wantEnd strict).mono False.elim hParsed
  | parseWithLengthOpts value len wantEnd strict =>
    refine .map ?_
    exact (cjsonParseWithLengthOpts_meets hBounded value len wantEnd strict).mono False.elim hParsed
  | create c =>
    exact .map ((c.run_meets hBounded).mono False.elim fun q h' => .of_built hSound)
  | duplicate item recurse =>
    exact .map ((duplicate_copies hBounded item (recurse ≠ 0)).mono False.elim
      fun q h' => .of_built hSound)
  | edit e => exact e.conserves hSound hAdm hLends hPass
  | addItemReferenceToArray => exact .map (addItemReferenceToArray_meets hSound hAdm)
  | addItemReferenceToObject => exact .map (addItemReferenceToObject_meets hSound hAdm)
  | addToObject object name m =>
    refine .map ?_
    rw [Member.run_eq]
    refine ((m.construct.run_meets hBounded).weaken False.elim).bind fun q g hBuilt => ?_
    exact addToObject_conserves hSound hBuilt hAdm.2
  | setValuestring => exact .map (cjsonSetValuestring_conserves hSound hAdm)
  | delete item =>
    refine .map ?_
    cases item with
    | none => exact Run.meets_of_run rfl (.refl hSound)
    | some a =>
      obtain ⟨hLive, hRoot⟩ := hAdm a rfl
      obtain ⟨h', hRun, hConserves⟩ := conserves_free hSound hRoot hLive
      exact Run.meets_of_run hRun hConserves

end Call

end CjsonRs.Ffi
