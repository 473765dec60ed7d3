import CjsonRs.Ffi.Edits

/-!
# What nodes own

A node frees its key unless that is constant, and its `valuestring` unless the node is a
reference. `Owned N h` says that the nodes at addresses from `N` on may do so: each of these
texts is a live buffer of the library from `N` on, freed with one node and once, and no such
buffer is left over. A heap is sound when it is also well formed.
-/

namespace CjsonRs.Ffi

open CjsonRs.Core Library Library.Link Library.Forest

/-- The fields that decide what is freed with a node. -/
def CNode.hold (n : CNode) : TypeWord × Ptr × Ptr := (n.type_, n.valuestring, n.string)

namespace Heap

/-- A live buffer of the library. -/
def Lib (h : Heap) (s : Addr) : Prop := (h.bufs s).any Buf.owned

/-- The texts that are freed with the node at `a`. -/
def textsAt (h : Heap) (a : Addr) : List Addr := (h.nodes a).elim [] CNode.texts

/-- The fields of the nodes that decide what is freed with them. -/
def hold (h : Heap) (a : Addr) : Option (TypeWord × Ptr × Ptr) := (h.nodes a).map CNode.hold

end Heap

/-- The texts of the nodes from `N` on are theirs to free, and a constant key is not. -/
structure Owned (N : Addr) (h : Heap) : Prop where
  nodup : ∀ {a}, N ≤ a → (h.textsAt a).Nodup
  live : ∀ {a s}, N ≤ a → s ∈ h.textsAt a → N ≤ s ∧ h.Lib s
  sole : ∀ {a b s}, N ≤ a → N ≤ b → s ∈ h.textsAt a → s ∈ h.textsAt b → a = b
  used : ∀ {s}, N ≤ s → h.Lib s → ∃ a, N ≤ a ∧ s ∈ h.textsAt a
  lent : ∀ {a n}, N ≤ a → h.nodes a = some n → n.constKey = true →
    ∃ s b, n.string = some s ∧ h.bufs s = some b ∧ b.owned = false

variable {N M : Addr} {h h' : Heap} {a i p s x : Addr} {n m : CNode} {c q : Ptr} {b : Buf}
  {kids kids' : Addr → List Addr} {V xs ys ks touched : List Addr}

theorem textsAt_eq (ha : h.nodes a = some n) : h.textsAt a = n.texts := by
  rw [Heap.textsAt, ha]
  rfl

theorem textsAt_none (ha : h.nodes a = none) : h.textsAt a = [] := by
  rw [Heap.textsAt, ha]
  rfl

theorem mem_texts : s ∈ n.texts ↔
    n.isRef = false ∧ n.valuestring = some s ∨ n.constKey = false ∧ n.string = some s := by
  rw [CNode.texts, List.mem_append, CNode.ownValue, CNode.ownKey]
  refine or_congr ?_ ?_
  · cases n.isRef <;> simp
  · cases n.constKey <;> simp

theorem texts_hold (hEq : n.hold = m.hold) : n.texts = m.texts := by
  simp only [CNode.hold, Prod.mk.injEq] at hEq
  obtain ⟨hType, hValue, hString⟩ := hEq
  simp only [CNode.texts, CNode.ownValue, CNode.ownKey, CNode.isRef, CNode.constKey, hType, hValue,
    hString]

theorem textsAt_congr (hHold : h'.hold a = h.hold a) : h'.textsAt a = h.textsAt a := by
  unfold Heap.hold at hHold
  cases hn : h.nodes a with
  | none =>
    rw [hn] at hHold
    rw [textsAt_none hn, textsAt_none (Option.map_eq_none_iff.mp hHold)]
  | some n =>
    rw [hn] at hHold
    obtain ⟨n', hn', hEq⟩ := Option.map_eq_some_iff.mp hHold
    rw [textsAt_eq hn, textsAt_eq hn', texts_hold hEq]

theorem lib_iff : h.Lib s ↔ ∃ b, h.bufs s = some b ∧ b.owned = true := by
  unfold Heap.Lib
  cases h.bufs s <;> simp

theorem Heap.Bounded.lt_lib (hBounded : h.Bounded) (hs : h.Lib s) : s < h.brk := by
  obtain ⟨b, hb, -⟩ := lib_iff.mp hs
  exact hBounded.lt_buf hb

/-! ## Blocks of nodes -/

theorem buf_mem (hV : ∀ x ∈ V, (h.nodes x).isSome) :
    .buf s ∈ h.blocksOf V ↔ ∃ x ∈ V, s ∈ h.textsAt x := by
  rw [Heap.buf_mem_blocksOf]
  constructor
  · rintro ⟨x, hx, n, hn, hs⟩
    exact ⟨x, hx, by rw [textsAt_eq hn]; exact hs⟩
  · rintro ⟨x, hx, hs⟩
    obtain ⟨n, hn⟩ := Option.isSome_iff_exists.mp (hV x hx)
    rw [textsAt_eq hn] at hs
    exact ⟨x, hx, n, hn, hs⟩

/-- The blocks of nodes are live, of the library and distinct when their texts are. -/
theorem freeable_blocks (hV : ∀ x ∈ V, (h.nodes x).isSome) (hNodup : V.Nodup)
    (hTexts : ∀ x ∈ V, (h.textsAt x).Nodup) (hLib : ∀ x ∈ V, ∀ s ∈ h.textsAt x, h.Lib s)
    (hSole : ∀ x ∈ V, ∀ y ∈ V, ∀ s, s ∈ h.textsAt x → s ∈ h.textsAt y → x = y) :
    (h.blocksOf V).Nodup ∧ ∀ b ∈ h.blocksOf V, h.Freeable b := by
  constructor
  · induction V with
    | nil => exact List.nodup_nil
    | cons a V ih =>
      obtain ⟨haV, hNodup⟩ := List.nodup_cons.mp hNodup
      have hTail : ∀ x ∈ V, x ∈ a :: V := fun x hx => List.mem_cons_of_mem a hx
      have hV' : ∀ x ∈ V, (h.nodes x).isSome := fun x hx => hV x (hTail x hx)
      have hIh := ih hV' hNodup (fun x hx => hTexts x (hTail x hx))
        (fun x hx => hLib x (hTail x hx)) fun x hx y hy => hSole x (hTail x hx) y (hTail y hy)
      obtain ⟨n, hn⟩ := Option.isSome_iff_exists.mp (hV a List.mem_cons_self)
      have hTextsA := hTexts a List.mem_cons_self
      rw [textsAt_eq hn] at hTextsA
      rw [Heap.blocksOf_cons, Heap.blocksAt_eq hn]
      refine List.nodup_append.mpr ⟨?_, hIh, ?_⟩
      · refine List.nodup_append.mpr ⟨hTextsA.map fun s t hst => by cases hst; rfl,
          List.nodup_singleton _, ?_⟩
        intro y hy z hz hyz
        obtain ⟨s, -, rfl⟩ := List.mem_map.mp hy
        rw [List.mem_singleton.mp hz] at hyz
        cases hyz
      · rintro y hy z hz rfl
        cases y with
        | node x =>
          have hxa : x = a := by simpa [CNode.blocks] using hy
          rw [Heap.node_mem_blocksOf hV', hxa] at hz
          exact haV hz
        | buf s =>
          have hs : s ∈ h.textsAt a := by
            rw [textsAt_eq hn]
            simpa [CNode.blocks] using hy
          obtain ⟨x, hx, hs'⟩ := (buf_mem hV').mp hz
          rw [hSole a List.mem_cons_self x (hTail x hx) s hs hs'] at haV
          exact haV hx
  · intro y hy
    cases y with
    | node x => exact hV x ((Heap.node_mem_blocksOf hV).mp hy)
    | buf s =>
      obtain ⟨x, hx, hs⟩ := (buf_mem hV).mp hy
      exact hLib x hx s hs

namespace Owned

/-- Ownership only depends on these fields and on the buffers. -/
theorem congr (hOwned : Owned N h) (hHold : ∀ a, N ≤ a → h'.hold a = h.hold a)
    (hBufs : h'.bufs = h.bufs) : Owned N h' := by
  have hLib : ∀ s, h'.Lib s ↔ h.Lib s := by
    intro s
    unfold Heap.Lib
    rw [hBufs]
  have hTexts : ∀ a, N ≤ a → h'.textsAt a = h.textsAt a := fun a ha => textsAt_congr (hHold a ha)
  refine ⟨fun {a} ha => ?_, fun {a s} ha hs => ?_, fun {a b s} ha hb hs hs' => ?_,
    fun {s} hN hs => ?_, fun {a n'} ha hn' hConst => ?_⟩
  · rw [hTexts a ha]
    exact hOwned.nodup ha
  · rw [hTexts a ha] at hs
    rw [hLib]
    exact hOwned.live ha hs
  · rw [hTexts a ha] at hs
    rw [hTexts b hb] at hs'
    exact hOwned.sole ha hb hs hs'
  · obtain ⟨a, ha, hMem⟩ := hOwned.used hN ((hLib s).mp hs)
    refine ⟨a, ha, ?_⟩
    rw [hTexts a ha]
    exact hMem
  · have hEq := hHold a ha
    unfold Heap.hold at hEq
    rw [hn'] at hEq
    obtain ⟨n, hn, hNode⟩ := Option.map_eq_some_iff.mp hEq.symm
    simp only [CNode.hold, Prod.mk.injEq] at hNode
    obtain ⟨hType, -, hString⟩ := hNode
    have hConst' : n.constKey = true := by
      unfold CNode.constKey
      rw [hType]
      exact hConst
    rw [hBufs, ← hString]
    exact hOwned.lent ha hn hConst'

/-- The node `a` gets the fields of `m`: the texts it loses are gone, those that are new to it
were not in use, and nothing else is. -/
theorem retext (hOwned : Owned N h) (ha : N ≤ a) (hn : h.nodes a = some n)
    (hm : h'.nodes a = some m) (hNodes : ∀ x, x ≠ a → h'.nodes x = h.nodes x)
    (hNodup : m.texts.Nodup) (hNew : ∀ s ∈ m.texts, s ∈ n.texts ∨ (N ≤ s ∧ ¬ h.Lib s))
    (hLib : ∀ s, h'.Lib s ↔ (h.Lib s ∧ s ∉ n.texts) ∨ s ∈ m.texts)
    (hLent : m.constKey = true →
      ∃ s b, m.string = some s ∧ h'.bufs s = some b ∧ b.owned = false)
    (hKept : ∀ s b, h.bufs s = some b → b.owned = false → h'.bufs s = some b) : Owned N h' := by
  have hTexts : ∀ x, x ≠ a → h'.textsAt x = h.textsAt x := by
    intro x hx
    unfold Heap.textsAt
    rw [hNodes x hx]
  have hOld : ∀ s, s ∈ n.texts → s ∈ h.textsAt a := by
    intro s hs
    rw [textsAt_eq hn]
    exact hs
  -- What another node frees is neither lost nor new at `a`.
  have hOther : ∀ x s, N ≤ x → x ≠ a → s ∈ h.textsAt x → s ∉ n.texts ∧ s ∉ m.texts := by
    intro x s hx hxa hs
    have hNot : s ∉ n.texts := fun hMem => hxa (hOwned.sole hx ha hs (hOld s hMem))
    refine ⟨hNot, fun hMem => ?_⟩
    rcases hNew s hMem with hMem | ⟨-, hFree⟩
    · exact hNot hMem
    · exact hFree (hOwned.live hx hs).2
  refine ⟨fun {x} hx => ?_, fun {x s} hx hs => ?_, fun {x y s} hx hy hs hs' => ?_,
    fun {s} hN hs => ?_, fun {x n'} hx hn' hConst => ?_⟩
  · by_cases hxa : x = a
    · rw [hxa, textsAt_eq hm]
      exact hNodup
    · rw [hTexts x hxa]
      exact hOwned.nodup hx
  · by_cases hxa : x = a
    · rw [hxa, textsAt_eq hm] at hs
      refine ⟨?_, (hLib s).mpr (Or.inr hs)⟩
      rcases hNew s hs with hMem | ⟨hN, -⟩
      · exact (hOwned.live ha (hOld s hMem)).1
      · exact hN
    · rw [hTexts x hxa] at hs
      obtain ⟨hN, hLive⟩ := hOwned.live hx hs
      exact ⟨hN, (hLib s).mpr (Or.inl ⟨hLive, (hOther x s hx hxa hs).1⟩)⟩
  · by_cases hxa : x = a <;> by_cases hya : y = a
    · rw [hxa, hya]
    · rw [hxa, textsAt_eq hm] at hs
      rw [hTexts y hya] at hs'
      exact absurd hs (hOther y s hy hya hs').2
    · rw [hya, textsAt_eq hm] at hs'
      rw [hTexts x hxa] at hs
      exact absurd hs' (hOther x s hx hxa hs).2
    · rw [hTexts x hxa] at hs
      rw [hTexts y hya] at hs'
      exact hOwned.sole hx hy hs hs'
  · rcases (hLib s).mp hs with ⟨hLive, hNot⟩ | hMem
    · obtain ⟨x, hx, hMem⟩ := hOwned.used hN hLive
      have hxa : x ≠ a := by
        rintro rfl
        rw [textsAt_eq hn] at hMem
        exact hNot hMem
      refine ⟨x, hx, ?_⟩
      rw [hTexts x hxa]
      exact hMem
    · refine ⟨a, ha, ?_⟩
      rw [textsAt_eq hm]
      exact hMem
  · by_cases hxa : x = a
    · rw [hxa, hm] at hn'
      cases hn'
      exact hLent hConst
    · rw [hNodes x hxa] at hn'
      obtain ⟨s, b, hString, hs, hb⟩ := hOwned.lent hx hn' hConst
      exact ⟨s, b, hString, hKept s b hs hb, hb⟩

/-- The node `a` loses one text, which is gone, and gets a new one. -/
theorem swap {lost new : Option Addr} {kept : List Addr} (hOwned : Owned N h) (ha : N ≤ a)
    (hn : h.nodes a = some n) (hm : h'.nodes a = some m)
    (hNodes : ∀ x, x ≠ a → h'.nodes x = h.nodes x) (hOld : n.texts.Perm (lost.toList ++ kept))
    (hNew : m.texts.Perm (new.toList ++ kept)) (hFresh : ∀ s, new = some s → N ≤ s ∧ ¬ h.Lib s)
    (hLib : ∀ s, h'.Lib s ↔ (h.Lib s ∧ lost ≠ some s) ∨ new = some s)
    (hLent : m.constKey = true → ∃ s b, m.string = some s ∧ h'.bufs s = some b ∧ b.owned = false)
    (hKept : ∀ s b, h.bufs s = some b → b.owned = false → h'.bufs s = some b) : Owned N h' := by
  have hLive : ∀ s ∈ n.texts, h.Lib s := by
    intro s hs
    rw [← textsAt_eq hn] at hs
    exact (hOwned.live ha hs).2
  have hNodup : (lost.toList ++ kept).Nodup := by
    rw [← hOld.nodup_iff, ← textsAt_eq hn]
    exact hOwned.nodup ha
  obtain ⟨-, hKeptNodup, hApart⟩ := List.nodup_append.mp hNodup
  have hKeptMem : ∀ {s}, s ∈ kept → s ∈ n.texts ∧ lost ≠ some s := by
    intro s hs
    refine ⟨hOld.mem_iff.mpr (List.mem_append_right _ hs), fun hEq => ?_⟩
    exact hApart s (Option.mem_toList.mpr hEq) s hs rfl
  have hMem : ∀ s, s ∈ m.texts ↔ new = some s ∨ s ∈ kept := by
    intro s
    rw [hNew.mem_iff, List.mem_append, Option.mem_toList]
  have hMem' : ∀ s, s ∈ n.texts ↔ lost = some s ∨ s ∈ kept := by
    intro s
    rw [hOld.mem_iff, List.mem_append, Option.mem_toList]
  refine hOwned.retext ha hn hm hNodes ?_ (fun s hs => ?_) (fun s => ?_) hLent hKept
  · rw [hNew.nodup_iff]
    refine List.nodup_append.mpr ⟨by cases new <;> simp, hKeptNodup, ?_⟩
    rintro s hs _ hs' rfl
    exact (hFresh s (Option.mem_toList.mp hs)).2 (hLive s (hKeptMem hs').1)
  · rcases (hMem s).mp hs with hs | hs
    · exact Or.inr (hFresh s hs)
    · exact Or.inl (hKeptMem hs).1
  · rw [hLib, hMem, hMem']
    constructor
    · rintro (⟨hs, hLost⟩ | hs)
      · by_cases hKeptS : s ∈ kept
        · exact Or.inr (Or.inr hKeptS)
        · exact Or.inl ⟨hs, not_or.mpr ⟨hLost, hKeptS⟩⟩
      · exact Or.inr (Or.inl hs)
    · rintro (⟨hs, hNot⟩ | hs | hs)
      · exact Or.inl ⟨hs, (not_or.mp hNot).1⟩
      · exact Or.inr hs
      · exact Or.inl ⟨hLive s (hKeptMem hs).1, (hKeptMem hs).2⟩

/-- The node `a` gets a text in a new buffer. -/
theorem pushText (hOwned : Owned N h) (hBounded : h.Bounded) (hN : N ≤ h.brk) (ha : N ≤ a)
    (hn : h.nodes a = some n) (bytes : List UInt8) (hConst : m.constKey = false)
    (hTexts : m.texts.Perm (h.brk :: n.texts)) :
    Owned N ((h.tick.pushBuf bytes).setNode a m) := by
  have hFresh : ¬ h.Lib h.brk := fun hLib => Nat.lt_irrefl _ (hBounded.lt_lib hLib)
  have hBufs : ∀ s, s ≠ h.brk → ((h.tick.pushBuf bytes).setNode a m).bufs s = h.bufs s :=
    fun s hs => Function.update_of_ne hs _ _
  have hBuf : ((h.tick.pushBuf bytes).setNode a m).bufs h.brk = some ⟨bytes, true⟩ :=
    Function.update_self ..
  have hOld : n.texts.Perm ((none : Option Addr).toList ++ n.texts) := List.Perm.refl _
  have hNew : m.texts.Perm ((some h.brk).toList ++ n.texts) := hTexts
  refine hOwned.swap ha hn Heap.setNode_self (fun x hx => Heap.setNode_ne hx) hOld hNew
    (fun s hs => ?_) (fun s => ?_) (fun hYes => ?_) (fun s b hs _ => ?_)
  · cases hs
    exact ⟨hN, hFresh⟩
  · by_cases hs : s = h.brk
    · rw [hs]
      exact iff_of_true (lib_iff.mpr ⟨_, hBuf, rfl⟩) (Or.inr rfl)
    · have hSame : ((h.tick.pushBuf bytes).setNode a m).Lib s ↔ h.Lib s := by
        unfold Heap.Lib
        rw [hBufs s hs]
      simp [hSame, Ne.symm hs]
  · rw [hConst] at hYes
    cases hYes
  · rw [hBufs s (Nat.ne_of_lt (hBounded.lt_buf hs)), hs]

/-! ## Freeing -/

/-- The blocks of a set of nodes are live, of the library and distinct. -/
theorem freeable (hOwned : Owned N h) (hV : ∀ x ∈ V, N ≤ x ∧ (h.nodes x).isSome)
    (hNodup : V.Nodup) : (h.blocksOf V).Nodup ∧ ∀ b ∈ h.blocksOf V, h.Freeable b :=
  freeable_blocks (fun x hx => (hV x hx).2) hNodup (fun x hx => hOwned.nodup (hV x hx).1)
    (fun x hx _ hs => (hOwned.live (hV x hx).1 hs).2)
    fun x hx y hy _ => hOwned.sole (hV x hx).1 (hV y hy).1

theorem lib_freeAll (hV : ∀ x ∈ V, (h.nodes x).isSome) :
    (h.freeAll (h.blocksOf V)).Lib s ↔ h.Lib s ∧ ¬ ∃ x ∈ V, s ∈ h.textsAt x := by
  rw [← buf_mem hV]
  unfold Heap.Lib
  rw [Heap.bufs_freeAll]
  by_cases hs : .buf s ∈ h.blocksOf V
  · by_cases hOwned : (h.bufs s).any Buf.owned <;> simp [hs, hOwned]
  · simp [hs]

/-- Freeing nodes with what they own. -/
theorem free (hOwned : Owned N h) (hV : ∀ x ∈ V, N ≤ x ∧ (h.nodes x).isSome) :
    Owned N (h.freeAll (h.blocksOf V)) := by
  have hLive : ∀ x ∈ V, (h.nodes x).isSome := fun x hx => (hV x hx).2
  have hNodes : ∀ x, (h.freeAll (h.blocksOf V)).nodes x = if x ∈ V then none else h.nodes x := by
    intro x
    rw [Heap.nodes_freeAll]
    exact if_congr (Heap.node_mem_blocksOf hLive) rfl rfl
  have hKept : ∀ x, x ∉ V → (h.freeAll (h.blocksOf V)).textsAt x = h.textsAt x := by
    intro x hx
    unfold Heap.textsAt
    rw [hNodes, if_neg hx]
  have hMem : ∀ {x s}, s ∈ (h.freeAll (h.blocksOf V)).textsAt x → x ∉ V ∧ s ∈ h.textsAt x := by
    intro x s hs
    by_cases hx : x ∈ V
    · rw [textsAt_none (by rw [hNodes, if_pos hx])] at hs
      cases hs
    · rw [hKept x hx] at hs
      exact ⟨hx, hs⟩
  refine ⟨fun {x} hx => ?_, fun {x s} hx hs => ?_, fun {x y s} hx hy hs hs' => ?_,
    fun {s} hN hs => ?_, fun {x n} hx hn hConst => ?_⟩
  · by_cases hxV : x ∈ V
    · rw [textsAt_none (by rw [hNodes, if_pos hxV])]
      exact List.nodup_nil
    · rw [hKept x hxV]
      exact hOwned.nodup hx
  · obtain ⟨hxV, hs⟩ := hMem hs
    obtain ⟨hN, hLib⟩ := hOwned.live hx hs
    refine ⟨hN, (lib_freeAll hLive).mpr ⟨hLib, ?_⟩⟩
    rintro ⟨y, hy, hs'⟩
    rw [hOwned.sole hx (hV y hy).1 hs hs'] at hxV
    exact hxV hy
  · exact hOwned.sole hx hy (hMem hs).2 (hMem hs').2
  · obtain ⟨hLib, hNot⟩ := (lib_freeAll hLive).mp hs
    obtain ⟨x, hx, hs⟩ := hOwned.used hN hLib
    refine ⟨x, hx, ?_⟩
    rw [hKept x fun hxV => hNot ⟨x, hxV, hs⟩]
    exact hs
  · rw [hNodes] at hn
    split_ifs at hn with hxV
    obtain ⟨s, b, hString, hs, hb⟩ := hOwned.lent hx hn hConst
    refine ⟨s, b, hString, ?_, hb⟩
    rw [Heap.bufs_freeAll, if_neg, hs]
    rw [hs]
    simp [hb]

end Owned

/-! ## More in use -/

/-- In `h'` more is in use from the break of `h` on; nothing else is different, and nothing was
freed wrongly. -/
structure Extends (h h' : Heap) : Prop where
  brk : h.brk ≤ h'.brk
  nodes : ∀ {a}, a < h.brk → h'.nodes a = h.nodes a
  bufs : ∀ {s}, s < h.brk → h'.bufs s = h.bufs s
  misuses : h'.misuses = h.misuses
  lastError : h'.lastError = h.lastError
  outcomes : ∃ k, ∀ n, h'.outcomes n = h.outcomes (n + k)

theorem Extends.refl (h : Heap) : Extends h h :=
  ⟨le_refl _, fun _ => rfl, fun _ => rfl, rfl, rfl, 0, fun _ => rfl⟩

theorem Extends.trans {h'' : Heap} (hExt : Extends h h') (hExt' : Extends h' h'') :
    Extends h h'' where
  brk := hExt.brk.trans hExt'.brk
  nodes ha := (hExt'.nodes (lt_of_lt_of_le ha hExt.brk)).trans (hExt.nodes ha)
  bufs hs := (hExt'.bufs (lt_of_lt_of_le hs hExt.brk)).trans (hExt.bufs hs)
  misuses := hExt'.misuses.trans hExt.misuses
  lastError := hExt'.lastError.trans hExt.lastError
  outcomes := by
    obtain ⟨k, hk⟩ := hExt.outcomes
    obtain ⟨k', hk'⟩ := hExt'.outcomes
    refine ⟨k' + k, fun n => ?_⟩
    rw [hk', hk, Nat.add_assoc]

/-- The nodes of `h` and those in use from its break on own what they did apart. -/
theorem Owned.join (hBounded : h.Bounded) (hExt : Extends h h') (hN : N ≤ h.brk)
    (hOld : Owned N h) (hNew : Owned h.brk h') : Owned N h' := by
  have hTexts : ∀ {x}, x < h.brk → h'.textsAt x = h.textsAt x := by
    intro x hx
    unfold Heap.textsAt
    rw [hExt.nodes hx]
  have hLib : ∀ {s}, s < h.brk → (h'.Lib s ↔ h.Lib s) := by
    intro s hs
    unfold Heap.Lib
    rw [hExt.bufs hs]
  have hLt : ∀ {x s}, N ≤ x → s ∈ h.textsAt x → s < h.brk :=
    fun hx hs => hBounded.lt_lib (hOld.live hx hs).2
  refine ⟨fun {x} hx => ?_, fun {x s} hx hs => ?_, fun {x y s} hx hy hs hs' => ?_,
    fun {s} hs hLive => ?_, fun {x n} hx hn hConst => ?_⟩
  · rcases Nat.lt_or_ge x h.brk with hxM | hxM
    · rw [hTexts hxM]
      exact hOld.nodup hx
    · exact hNew.nodup hxM
  · rcases Nat.lt_or_ge x h.brk with hxM | hxM
    · rw [hTexts hxM] at hs
      rw [hLib (hLt hx hs)]
      exact hOld.live hx hs
    · obtain ⟨hM, hLive⟩ := hNew.live hxM hs
      exact ⟨hN.trans hM, hLive⟩
  · rcases Nat.lt_or_ge x h.brk with hxM | hxM <;> rcases Nat.lt_or_ge y h.brk with hyM | hyM
    · rw [hTexts hxM] at hs
      rw [hTexts hyM] at hs'
      exact hOld.sole hx hy hs hs'
    · rw [hTexts hxM] at hs
      exact absurd (hLt hx hs) (not_lt_of_ge (hNew.live hyM hs').1)
    · rw [hTexts hyM] at hs'
      exact absurd (hLt hy hs') (not_lt_of_ge (hNew.live hxM hs).1)
    · exact hNew.sole hxM hyM hs hs'
  · rcases Nat.lt_or_ge s h.brk with hsM | hsM
    · rw [hLib hsM] at hLive
      obtain ⟨x, hx, hMem⟩ := hOld.used hs hLive
      have hxM : x < h.brk := by
        by_contra hNot
        rw [textsAt_none (hBounded.nodes (Nat.le_of_not_lt hNot))] at hMem
        cases hMem
      refine ⟨x, hx, ?_⟩
      rw [hTexts hxM]
      exact hMem
    · obtain ⟨x, hx, hMem⟩ := hNew.used hsM hLive
      exact ⟨x, hN.trans hx, hMem⟩
  · rcases Nat.lt_or_ge x h.brk with hxM | hxM
    · rw [hExt.nodes hxM] at hn
      obtain ⟨s, b, hString, hs, hb⟩ := hOld.lent hx hn hConst
      exact ⟨s, b, hString, (hExt.bufs (hBounded.lt_buf hs)).trans hs, hb⟩
    · exact hNew.lent hxM hn hConst

/-- The lists of children on both sides of the address `M`. -/
def joinAt (M : Addr) (kids kids' : Addr → List Addr) : Addr → List Addr :=
  Forest.join (· < M) kids kids'

theorem Represents.inside (hBounded : h.Bounded) (hRep : Represents N h kids) :
    Inside (· < h.brk) kids := by
  intro a c hc
  obtain ⟨-, -, n, hn, -⟩ := hRep.parent hc
  obtain ⟨m, hm⟩ := hRep.child_live hc
  exact ⟨hBounded.lt hn, hBounded.lt hm⟩

theorem Represents.outside (hRep : Represents M h kids) : Inside (¬ · < M) kids := by
  intro a c hc
  obtain ⟨hMc, hMa, -⟩ := hRep.parent hc
  exact ⟨Nat.not_lt.mpr hMa, Nat.not_lt.mpr hMc⟩

/-- The trees of `h` and those from its break on. -/
theorem WellFormed.join (hExt : Extends h h') (hN : N ≤ h.brk) (hOld : WellFormed N h kids)
    (hNew : WellFormed h.brk h' kids') : WellFormed N h' (joinAt h.brk kids kids') := by
  have hIn := hOld.trees.inside hOld.bounded
  have hOut := hNew.trees.outside
  refine ⟨hNew.bounded, fun {a n} ha hn hRef => ?_, fun {a c} hc => ?_,
    hOld.trees.forest.join hNew.trees.forest hIn hOut⟩
  · unfold joinAt Forest.join
    split
    · rename_i hM
      rw [hExt.nodes hM] at hn
      refine (hOld.trees.lists ha hn hRef).congr fun x hx => ?_
      unfold Heap.link
      rw [hExt.nodes (hIn a x hx).2]
    · rename_i hM
      exact hNew.trees.lists (Nat.le_of_not_lt hM) hn hRef
  · rcases (mem_join hIn hOut).mp hc with hc | hc
    · obtain ⟨hNc, hNa, n, hn, hRef⟩ := hOld.trees.parent hc
      refine ⟨hNc, hNa, n, ?_, hRef⟩
      rw [hExt.nodes (hIn a c hc).1, hn]
    · obtain ⟨hMc, hMa, n, hn, hRef⟩ := hNew.trees.parent hc
      exact ⟨hN.trans hMc, hN.trans hMa, n, hn, hRef⟩

/-! ## Sound heaps -/

/-- The nodes from `N` on form the trees `kids` and own their texts. -/
structure Sound (N : Addr) (h : Heap) (kids : Addr → List Addr) : Prop where
  wf : WellFormed N h kids
  owned : Owned N h

namespace Sound

theorem join (hExt : Extends h h') (hN : N ≤ h.brk) (hOld : Sound N h kids)
    (hNew : Sound h.brk h' kids') : Sound N h' (joinAt h.brk kids kids') :=
  ⟨hOld.wf.join hExt hN hNew.wf, hOld.owned.join hOld.wf.bounded hExt hN hNew.owned⟩

theorem of_nodes (hSound : Sound N h kids) (hBounded : h'.Bounded) (hNodes : h'.nodes = h.nodes)
    (hBufs : h'.bufs = h.bufs) : Sound N h' kids := by
  refine ⟨hSound.wf.of_nodes hBounded hNodes, hSound.owned.congr (fun a _ => ?_) hBufs⟩
  unfold Heap.hold
  rw [hNodes]

/-- An edit of a list of children. -/
theorem edited (hSound : Sound N h kids) (hEdited : Edited N h h' kids p ks touched) :
    Sound N h' (Function.update kids p ks) := by
  refine ⟨hEdited.wf, hSound.owned.congr (fun a _ => ?_) (by rw [hEdited.rest])⟩
  obtain ⟨c, hBody⟩ := hEdited.body
  have hHold : ∀ g : Heap, g.hold a = (g.body a).map CNode.hold := by
    intro g
    unfold Heap.hold Heap.body
    rw [Option.map_map]
    rfl
  rw [hHold, hHold, hBody]
  by_cases ha : a = p
  · subst ha
    rw [setChild, Function.update_self, Option.map_map]
    rfl
  · rw [setChild_of_ne ha]

/-- What is freed with a node, and that it may be. -/
theorem subtree (hSound : Sound N h kids) (ha : N ≤ a) (hn : h.nodes a = some n) :
    ∃ V, Subtree h kids a V ∧ (∀ x ∈ V, N ≤ x ∧ (h.nodes x).isSome) ∧
      freeCjson (some a) h = .ok ((), h.freeAll (h.blocksOf V)) ∧
      (h.freeAll (h.blocksOf V)).misuses = h.misuses := by
  obtain ⟨V, hV⟩ := exists_subtree hSound.wf.trees ha hn
  have hMem : ∀ x ∈ V, N ≤ x ∧ (h.nodes x).isSome := by
    intro x hx
    exact ⟨hSound.wf.trees.below_above ha ((hV.2.2 x).mp hx), hV.live x hx⟩
  obtain ⟨hNodup, hFreeable⟩ := hSound.owned.freeable hMem hV.2.1
  exact ⟨V, hV, hMem, freeCjson_run hSound.wf.bounded hV,
    Heap.freeAll_misuses hNodup hFreeable⟩

/-- Freeing a root. -/
theorem free (hSound : Sound N h kids) (hRoot : IsRoot kids a) (hV : Subtree h kids a V)
    (hMem : ∀ x ∈ V, N ≤ x ∧ (h.nodes x).isSome) :
    Sound N (h.freeAll (h.blocksOf V)) (prune kids a) :=
  ⟨hSound.wf.free hRoot hV, hSound.owned.free hMem⟩

end Sound

end CjsonRs.Ffi
