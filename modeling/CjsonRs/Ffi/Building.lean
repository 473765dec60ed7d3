import CjsonRs.Ffi.Owned

/-!
# Building trees

`Grown h h' kids roots` is what a call that builds nodes keeps: from the break of `h` on there
are the trees `kids` below the nodes `roots`, which own their texts, and nothing else is
different from `h`. The steps of such a call each keep it: a new node, a new text of a node, a
root added to another one, a root freed. With no root left the call has changed nothing.
-/

namespace CjsonRs.Ffi

open CjsonRs.Core Library Library.Link Library.Forest

/-- The trees below `roots` were built since `h`. -/
structure Grown (h h' : Heap) (kids : Addr → List Addr) (roots : List Addr) : Prop where
  ext : Extends h h'
  sound : Sound h.brk h' kids
  nodup : roots.Nodup
  root : ∀ r ∈ roots, h.brk ≤ r ∧ (h'.nodes r).isSome ∧ IsRoot kids r
  below : ∀ x, h.brk ≤ x → (h'.nodes x).isSome → ∃ r ∈ roots, Below kids r x
  mine : ∀ s b, h.brk ≤ s → h'.bufs s = some b → b.owned = true

/-- A call that started on `h` has built the tree `q`, or nothing. -/
def Built (h : Heap) (q : Ptr) (h' : Heap) : Prop := ∃ kids, Grown h h' kids q.toList

variable {h h' h'' : Heap} {a i r s x : Addr} {n m : CNode} {q : Ptr}
  {kids kids' : Addr → List Addr} {roots roots' touched : List Addr}

theorem extends_tick (h : Heap) : Extends h h.tick :=
  ⟨le_refl _, fun _ => rfl, fun _ => rfl, rfl, rfl, 1, fun _ => rfl⟩

theorem nodes_eq_of_brk_le (hExt : Extends h h') (hBounded : h.Bounded)
    (hNone : ∀ x, h.brk ≤ x → h'.nodes x = none) : h'.nodes = h.nodes := by
  funext x
  rcases Nat.lt_or_ge x h.brk with hx | hx
  · exact hExt.nodes hx
  · rw [hNone x hx, hBounded.nodes hx]

theorem bufs_eq_of_brk_le (hExt : Extends h h') (hBounded : h.Bounded)
    (hNone : ∀ s, h.brk ≤ s → h'.bufs s = none) : h'.bufs = h.bufs := by
  funext s
  rcases Nat.lt_or_ge s h.brk with hs | hs
  · exact hExt.bufs hs
  · rw [hNone s hs, hBounded.bufs hs]

namespace Grown

theorem bounded (hGrown : Grown h h' kids roots) : h'.Bounded := hGrown.sound.wf.bounded

/-- A call that has built nothing has changed nothing. -/
theorem unchanged (hGrown : Grown h h' kids []) (hBounded : h.Bounded) :
    h'.nodes = h.nodes ∧ h'.bufs = h.bufs ∧ h'.misuses = h.misuses := by
  have hDead : ∀ x, h.brk ≤ x → h'.nodes x = none := by
    intro x hx
    by_contra hLive
    obtain ⟨r, hr, -⟩ := hGrown.below x hx (Option.isSome_iff_ne_none.mpr hLive)
    cases hr
  refine ⟨nodes_eq_of_brk_le hGrown.ext hBounded hDead, ?_, hGrown.ext.misuses⟩
  refine bufs_eq_of_brk_le hGrown.ext hBounded fun s hs => ?_
  by_contra hLive
  obtain ⟨b, hb⟩ := Option.ne_none_iff_exists'.mp hLive
  obtain ⟨x, hx, hMem⟩ := hGrown.sound.owned.used hs
    (lib_iff.mpr ⟨b, hb, hGrown.mine s b hs hb⟩)
  rw [textsAt_none (hDead x hx)] at hMem
  cases hMem

/-- Nothing from `N` on, no trees. -/
theorem sound_dead {N : Addr} (hBounded : h.Bounded) (hNodes : ∀ {x}, N ≤ x → h.nodes x = none)
    (hLib : ∀ {s}, N ≤ s → ¬ h.Lib s) : Sound N h fun _ => [] := by
  have hTexts : ∀ {x}, N ≤ x → h.textsAt x = [] := fun hx => textsAt_none (hNodes hx)
  have hNil : ∀ {x s}, N ≤ x → s ∉ h.textsAt x := by
    intro x s hx hs
    rw [hTexts hx] at hs
    cases hs
  refine ⟨⟨hBounded, fun {x n} hx hn _ => ?_, fun {x c} hc => ?_, fun x => ?_, fun {x y c} hc => ?_,
    ⟨fun x => ⟨x, fun c hc => ?_⟩⟩⟩, fun {x} hx => ?_, fun {x s} hx hs => ?_,
    fun {x y s} hx _ hs _ => ?_, fun {s} hs hLive => ?_, fun {x n} hx hn => ?_⟩
  · rw [hNodes hx] at hn
    cases hn
  · cases hc
  · exact List.nodup_nil
  · cases hc
  · cases hc
  · rw [hTexts hx]
    exact List.nodup_nil
  · exact absurd hs (hNil hx)
  · exact absurd hs (hNil hx)
  · exact absurd hLive (hLib hs)
  · rw [hNodes hx] at hn
    cases hn

theorem sound_empty (hBounded : h.Bounded) : Sound h.brk h fun _ => [] :=
  sound_dead hBounded hBounded.nodes fun hs hLive =>
    absurd (hBounded.lt_lib hLive) (Nat.not_lt.mpr hs)

protected theorem refl (hBounded : h.Bounded) : Grown h h (fun _ => []) [] where
  ext := Extends.refl h
  sound := sound_empty hBounded
  nodup := List.nodup_nil
  root r hr := by cases hr
  below x hx hLive := by
    rw [hBounded.nodes hx] at hLive
    cases hLive
  mine s b hs hb := by
    rw [hBounded.bufs hs] at hb
    cases hb

/-- An allocation that fails. -/
theorem tick (hGrown : Grown h h' kids roots) : Grown h h'.tick kids roots where
  ext := hGrown.ext.trans (extends_tick h')
  sound := hGrown.sound.of_nodes hGrown.bounded.tick rfl rfl
  nodup := hGrown.nodup
  root := hGrown.root
  below := hGrown.below
  mine := hGrown.mine

/-- One call after another. -/
theorem trans (hGrown : Grown h h' kids roots) (hGrown' : Grown h' h'' kids' roots') :
    Grown h h'' (joinAt h'.brk kids kids') (roots' ++ roots) := by
  have hN := hGrown.ext.brk
  have hIn := hGrown.sound.wf.trees.inside hGrown.bounded
  have hOut := hGrown'.sound.wf.trees.outside
  have hLt : ∀ {r}, (h'.nodes r).isSome → r < h'.brk := by
    intro r hr
    obtain ⟨n, hn⟩ := Option.isSome_iff_exists.mp hr
    exact hGrown.bounded.lt hn
  refine ⟨hGrown.ext.trans hGrown'.ext, hGrown.sound.join hGrown'.ext hN hGrown'.sound, ?_,
    fun r hr => ?_, fun x hx hLive => ?_, fun s b hs hb => ?_⟩
  · refine List.nodup_append.mpr ⟨hGrown'.nodup, hGrown.nodup, ?_⟩
    rintro r hr r' hr' rfl
    exact absurd (hLt (hGrown.root r hr').2.1) (Nat.not_lt.mpr (hGrown'.root r hr).1)
  · rcases List.mem_append.mp hr with hr | hr
    · obtain ⟨hM, hLive, hRoot⟩ := hGrown'.root r hr
      refine ⟨hN.trans hM, hLive, fun p hp => ?_⟩
      rcases (mem_join hIn hOut).mp hp with hp | hp
      · exact absurd (hIn p r hp).2 (Nat.not_lt.mpr hM)
      · exact hRoot p hp
    · obtain ⟨hNr, hLive, hRoot⟩ := hGrown.root r hr
      have hM := hLt hLive
      refine ⟨hNr, by rw [hGrown'.ext.nodes hM]; exact hLive, fun p hp => ?_⟩
      rcases (mem_join hIn hOut).mp hp with hp | hp
      · exact hRoot p hp
      · exact (hOut p r hp).2 hM
  · rcases Nat.lt_or_ge x h'.brk with hM | hM
    · rw [hGrown'.ext.nodes hM] at hLive
      obtain ⟨r, hr, hBelow⟩ := hGrown.below x hx hLive
      exact ⟨r, List.mem_append_right _ hr, hBelow.join_left hIn hOut⟩
    · obtain ⟨r, hr, hBelow⟩ := hGrown'.below x hM hLive
      exact ⟨r, List.mem_append_left _ hr, hBelow.join_right hIn hOut⟩
  · rcases Nat.lt_or_ge s h'.brk with hM | hM
    · rw [hGrown'.ext.bufs hM] at hb
      exact hGrown.mine s b hs hb
    · exact hGrown'.mine s b hM hb

end Grown

/-! ## New nodes -/

/-- A node without children and texts of its own. -/
structure Leaf (n : CNode) : Prop where
  texts : n.texts = []
  key : n.constKey = false
  child : n.isRef = true ∨ n.child = none

section Push

theorem pushNode_self : (h.pushNode n).nodes h.brk = some n := Function.update_self ..

theorem pushNode_ne (hx : x ≠ h.brk) : (h.pushNode n).nodes x = h.nodes x :=
  Function.update_of_ne hx _ _

theorem Heap.Bounded.pushNode (hBounded : h.Bounded) (n : CNode) : (h.pushNode n).Bounded where
  nodes {x} hx := by
    have hne : x ≠ h.brk := Nat.ne_of_gt hx
    rw [pushNode_ne hne, hBounded.nodes (Nat.le_of_succ_le hx)]
  bufs hs := hBounded.bufs (Nat.le_of_succ_le hs)

theorem extends_pushNode (n : CNode) : Extends h (h.tick.pushNode n) where
  brk := Nat.le_succ _
  nodes ha := pushNode_ne (h := h.tick) (Nat.ne_of_lt ha)
  bufs _ := rfl
  misuses := rfl
  lastError := rfl
  outcomes := ⟨1, fun _ => rfl⟩

/-- A new leaf is a tree. -/
theorem grown_leaf (hBounded : h.Bounded) (hLeaf : Leaf n) :
    Grown h (h.tick.pushNode n) (fun _ => []) [h.brk] := by
  have hNode : ∀ {x m}, h.brk ≤ x → (h.tick.pushNode n).nodes x = some m → x = h.brk ∧ m = n := by
    intro x m hx hm
    by_cases hxB : x = h.brk
    · subst hxB
      rw [show (h.tick.pushNode n).nodes h.brk = some n from pushNode_self (h := h.tick)] at hm
      exact ⟨rfl, (Option.some.inj hm).symm⟩
    · rw [pushNode_ne (h := h.tick) hxB, Heap.tick_nodes, hBounded.nodes hx] at hm
      cases hm
  have hTexts : ∀ {x s}, h.brk ≤ x → s ∉ (h.tick.pushNode n).textsAt x := by
    intro x s hx hs
    cases hm : (h.tick.pushNode n).nodes x with
    | none =>
      rw [textsAt_none hm] at hs
      cases hs
    | some m =>
      rw [textsAt_eq hm, (hNode hx hm).2, hLeaf.texts] at hs
      cases hs
  have hEmpty := (Grown.sound_empty hBounded).wf.trees.forest
  refine ⟨extends_pushNode n, ⟨⟨hBounded.tick.pushNode n, fun {x m} hx hm hRef => ?_,
    fun {x c} hc => ?_, hEmpty⟩, fun {x} hx => ?_, fun {x s} hx hs => ?_,
    fun {x y s} hx _ hs _ => ?_, fun {s} hs hLive => ?_, fun {x m} hx hm hConst => ?_⟩,
    List.nodup_singleton _, fun r hr => ?_, fun x hx hLive => ?_, fun s b hs hb => ?_⟩
  · obtain ⟨-, rfl⟩ := hNode hx hm
    rcases hLeaf.child with hIs | hChild
    · rw [hIs] at hRef
      cases hRef
    · rw [hChild]
      exact isList_nil
  · cases hc
  · rw [List.eq_nil_iff_forall_not_mem.mpr fun s => hTexts hx]
    exact List.nodup_nil
  · exact absurd hs (hTexts hx)
  · exact absurd hs (hTexts hx)
  · exact absurd (hBounded.lt_lib hLive) (Nat.not_lt.mpr hs)
  · obtain ⟨-, rfl⟩ := hNode hx hm
    rw [hLeaf.key] at hConst
    cases hConst
  · rw [List.mem_singleton.mp hr]
    refine ⟨le_refl _, ?_, fun p hp => by cases hp⟩
    rw [show (h.tick.pushNode n).nodes h.brk = some n from pushNode_self (h := h.tick)]
    rfl
  · obtain ⟨m, hm⟩ := Option.isSome_iff_exists.mp hLive
    obtain ⟨rfl, -⟩ := hNode hx hm
    exact ⟨h.brk, List.mem_singleton_self _, below_refl _⟩
  · have hNone : h.bufs s = none := hBounded.bufs hs
    have hb' : h.bufs s = some b := hb
    rw [hNone] at hb'
    cases hb'

end Push

namespace Grown

/-! ## Moving and freeing -/

/-- A change of nodes and buffers from the break on. -/
theorem extends_of_above {N : Addr} (hExt : Extends h h') (hN : N = h.brk)
    (hBrk : h'.brk ≤ h''.brk) (hNodes : ∀ x, x < N → h''.nodes x = h'.nodes x)
    (hBufs : ∀ s, s < N → h''.bufs s = h'.bufs s) (hMisuses : h''.misuses = h'.misuses)
    (hError : h''.lastError = h'.lastError)
    (hOutcomes : ∃ k, ∀ n, h''.outcomes n = h'.outcomes (n + k)) : Extends h h'' := by
  subst hN
  refine ⟨hExt.brk.trans hBrk, fun hx => (hNodes _ hx).trans (hExt.nodes hx),
    fun hs => (hBufs _ hs).trans (hExt.bufs hs), hMisuses.trans hExt.misuses,
    hError.trans hExt.lastError, ?_⟩
  obtain ⟨k, hk⟩ := hExt.outcomes
  obtain ⟨k', hk'⟩ := hOutcomes
  refine ⟨k' + k, fun n => ?_⟩
  rw [hk', hk, Nat.add_assoc]

/-- A root is added to the children of another one. -/
theorem attach (hGrown : Grown h h' kids (i :: roots)) (ha : a ∈ roots)
    (hEdited : Edited h.brk h' h'' kids a (kids a ++ [i]) touched)
    (hTouched : ∀ x ∈ touched, h.brk ≤ x) :
    Grown h h'' (Function.update kids a (kids a ++ [i])) roots := by
  obtain ⟨hi, hNodup⟩ := List.nodup_cons.mp hGrown.nodup
  have haN := (hGrown.root a (List.mem_cons_of_mem i ha)).1
  have hLive : ∀ x, (h''.nodes x).isSome = (h'.nodes x).isSome := by
    intro x
    obtain ⟨c, hBody⟩ := hEdited.body
    rw [← isSome_body, ← isSome_body (h := h'), hBody]
    by_cases hx : x = a
    · subst hx
      rw [setChild, Function.update_self, Option.isSome_map]
    · rw [setChild_of_ne hx]
  have hSub : ∀ p, ∀ c ∈ kids p, c ∈ Function.update kids a (kids a ++ [i]) p := by
    intro p c hc
    by_cases hp : p = a
    · subst hp
      rw [Function.update_self]
      exact List.mem_append_left _ hc
    · rw [Function.update_of_ne hp]
      exact hc
  have hi' : i ∈ Function.update kids a (kids a ++ [i]) a := by
    rw [Function.update_self]
    simp
  refine ⟨extends_of_above hGrown.ext rfl (by rw [hEdited.rest]) (fun x hx => ?_) (fun s _ => ?_)
    (by rw [hEdited.rest]) (by rw [hEdited.rest]) ⟨0, fun n => by rw [hEdited.rest]; rfl⟩,
    hGrown.sound.edited hEdited, hNodup, fun r hr => ?_, fun x hx hx' => ?_, fun s b hs hb => ?_⟩
  · refine hEdited.kept x ?_ fun hMem => ?_
    · rintro rfl
      exact absurd haN (Nat.not_le.mpr hx)
    · exact absurd (hTouched x hMem) (Nat.not_le.mpr hx)
  · rw [hEdited.rest]
  · obtain ⟨hN, hr', hRoot⟩ := hGrown.root r (List.mem_cons_of_mem i hr)
    refine ⟨hN, by rw [hLive]; exact hr', fun p hp => ?_⟩
    have hMem : (p = a ∧ r = i) ∨ r ∈ kids p := by
      refine mem_update (fun c hc => ?_) hp
      simpa [or_comm] using hc
    rcases hMem with ⟨-, rfl⟩ | hMem
    · exact hi hr
    · exact hRoot p hMem
  · rw [hLive] at hx'
    obtain ⟨r, hr, hBelow⟩ := hGrown.below x hx hx'
    rcases List.mem_cons.mp hr with rfl | hr
    · exact ⟨a, ha, (below_child hi').trans (hBelow.mono hSub)⟩
    · exact ⟨r, hr, hBelow.mono hSub⟩
  · rw [hEdited.rest] at hb
    exact hGrown.mine s b hs hb

/-- A root is freed. -/
theorem free (hGrown : Grown h h' kids (r :: roots)) :
    ∃ h'', freeCjson (some r) h' = .ok ((), h'') ∧ ∃ kids', Grown h h'' kids' roots := by
  obtain ⟨hr, hNodup⟩ := List.nodup_cons.mp hGrown.nodup
  obtain ⟨hN, hLive, hRoot⟩ := hGrown.root r List.mem_cons_self
  obtain ⟨n, hn⟩ := Option.isSome_iff_exists.mp hLive
  obtain ⟨V, hV, hMem, hRun, hMisuses⟩ := hGrown.sound.subtree hN hn
  refine ⟨_, hRun, prune kids r, ?_⟩
  have hNodes : ∀ x, (h'.freeAll (h'.blocksOf V)).nodes x = if x ∈ V then none else h'.nodes x := by
    intro x
    rw [Heap.nodes_freeAll]
    exact if_congr (Heap.node_mem_blocksOf hV.live) rfl rfl
  refine ⟨extends_of_above hGrown.ext rfl (by rw [Heap.freeAll_brk]) (fun x hx => ?_)
    (fun s hs => ?_) hMisuses Heap.freeAll_lastError
    ⟨0, fun n => by rw [Heap.freeAll_outcomes]; rfl⟩,
    hGrown.sound.free hRoot hV hMem, hNodup, fun r' hr' => ?_, fun x hx hx' => ?_,
    fun s b hs hb => ?_⟩
  · rw [hNodes, if_neg fun hxV => absurd (hMem x hxV).1 (Nat.not_le.mpr hx)]
  · rw [Heap.bufs_freeAll, if_neg]
    rintro ⟨hFreed, -⟩
    obtain ⟨x, hx, hs'⟩ := (buf_mem hV.live).mp hFreed
    exact absurd (hGrown.sound.owned.live (hMem x hx).1 hs').1 (Nat.not_le.mpr hs)
  · obtain ⟨hN', hLive', hRoot'⟩ := hGrown.root r' (List.mem_cons_of_mem r hr')
    have hNot : ¬ Below kids r r' := by
      refine not_below_of_root hRoot' ?_
      rintro rfl
      exact hr hr'
    refine ⟨hN', ?_, fun p hp => ?_⟩
    · rw [hNodes, if_neg fun hxV => hNot ((hV.2.2 r').mp hxV)]
      exact hLive'
    · by_cases hp' : Below kids r p
      · rw [prune_of_below hp'] at hp
        cases hp
      · rw [prune_of_not_below hp'] at hp
        exact hRoot' p hp
  · rw [hNodes] at hx'
    split_ifs at hx' with hxV
    · cases hx'
    · have hNot : ¬ Below kids r x := fun hBelow => hxV ((hV.2.2 x).mpr hBelow)
      obtain ⟨r', hr', hBelow⟩ := hGrown.below x hx hx'
      rcases List.mem_cons.mp hr' with rfl | hr'
      · exact absurd hBelow hNot
      · exact ⟨r', hr', hBelow.prune hNot⟩
  · rw [Heap.bufs_freeAll] at hb
    split_ifs at hb
    exact hGrown.mine s b hs hb

/-- A root without children and texts is freed on its own. -/
theorem free_leaf (hGrown : Grown h h' kids (r :: roots)) (hn : h'.nodes r = some n)
    (hTexts : n.texts = []) (hChild : n.child = none) :
    ∃ kids', Grown h (h'.free (.node r)) kids' roots := by
  have hBlocks : n.blocks r = [.node r] := by
    rw [CNode.blocks, hTexts]
    rfl
  have hRun : freeCjson (some r) h' = .ok ((), h'.free (.node r)) := by
    show freeNode (2 * h'.brk + 1 + 1) (some r) h' = _
    cases hRef : n.isRef with
    | true => rw [freeNode_ref hn hRef, hBlocks, Heap.freeAll_singleton]
    | false =>
      have hKids : freeChildren (2 * h'.brk + 1) n.child h' = .ok ((), h'.freeAll []) := by
        rw [hChild]
        rfl
      rw [freeNode_own hn hRef hKids List.not_mem_nil, hBlocks, List.nil_append,
        Heap.freeAll_singleton]
  obtain ⟨h'', hFree, hGrown'⟩ := hGrown.free
  rw [hRun] at hFree
  cases hFree
  exact hGrown'

/-! ## New texts -/

/-- The node `a` gets a new text. -/
theorem retext (hGrown : Grown h h' kids roots) (ha : h.brk ≤ a) (hn : h'.nodes a = some n)
    (bytes : List UInt8) (hPrev : m.prev = n.prev) (hNext : m.next = n.next)
    (hShape : m.shape = n.shape) (hConst : m.constKey = false)
    (hTexts : m.texts.Perm (h'.brk :: n.texts)) :
    Grown h ((h'.tick.pushBuf bytes).setNode a m) kids roots := by
  have hBounded := hGrown.bounded
  have hn' : (h'.tick.pushBuf bytes).nodes a = some n := hn
  have hBufs : ∀ s, s ≠ h'.brk → ((h'.tick.pushBuf bytes).setNode a m).bufs s = h'.bufs s :=
    fun s hs => Function.update_of_ne hs _ _
  have hBuf : ((h'.tick.pushBuf bytes).setNode a m).bufs h'.brk = some ⟨bytes, true⟩ :=
    Function.update_self ..
  have hLt : ∀ x, x < h.brk → x ≠ h'.brk := fun x hx =>
    Nat.ne_of_lt (lt_of_lt_of_le hx hGrown.ext.brk)
  have hNodes : ∀ x, x ≠ a → ((h'.tick.pushBuf bytes).setNode a m).nodes x = h'.nodes x :=
    fun x hx => Heap.setNode_ne hx
  have hLive : ∀ x,
      (((h'.tick.pushBuf bytes).setNode a m).nodes x).isSome = (h'.nodes x).isSome := by
    intro x
    by_cases hx : x = a
    · rw [hx, Heap.setNode_self, hn]
      rfl
    · rw [hNodes x hx]
  refine ⟨extends_of_above hGrown.ext rfl (Nat.le_succ _) (fun x hx => hNodes x ?_)
    (fun s hs => hBufs s (hLt s hs)) rfl rfl ⟨1, fun _ => rfl⟩, ⟨?_, ?_⟩, hGrown.nodup,
    fun r hr => ?_, fun x hx hx' => ?_, fun s b hs hb => ?_⟩
  · rintro rfl
    exact absurd ha (Nat.not_le.mpr hx)
  · exact (hGrown.sound.wf.of_nodes (hBounded.tick.pushBuf bytes) rfl).setNode hn' hPrev hNext
      hShape
  · exact hGrown.sound.owned.pushText hBounded hGrown.ext.brk ha hn bytes hConst hTexts
  · rw [hLive]
    exact hGrown.root r hr
  · rw [hLive] at hx'
    exact hGrown.below x hx hx'
  · by_cases hs' : s = h'.brk
    · rw [hs', hBuf] at hb
      cases hb
      rfl
    · rw [hBufs s hs'] at hb
      exact hGrown.mine s b hs hb

/-- A root that can be added to another one. -/
theorem handed (hGrown : Grown h h' kids roots) (hi : i ∈ roots) (ha : a ∈ roots) (hne : a ≠ i) :
    Handed h.brk h' kids a i where
  above := (hGrown.root i hi).1
  live := (hGrown.root i hi).2.1
  root := (hGrown.root i hi).2.2
  apart := not_below_of_root (hGrown.root a ha).2.2 hne

end Grown

end CjsonRs.Ffi
