import CjsonRs.Ffi.Lockstep

/-!
# Locality

The interface touches no more memory than it is given. Whatever a client does on a heap, without
freeing anything wrongly, it does the same when there is more memory beside it, and that memory
stays as it was.
-/

namespace CjsonRs.Ffi

open CjsonRs.Core Library

variable {g g' h : Heap} {a s : Addr} {std : StdF64}

/-! ## Blocks beside blocks -/

section Apart

variable {β : Type} {f f' : Addr → Option β} {n x : Addr} {v : β}

/-- `f'` has something only below `n` and where `f` has nothing. -/
def Apart (n : Addr) (f f' : Addr → Option β) : Prop := ∀ a, (f' a).isSome → f a = none ∧ a < n

/-- Both together. -/
def beside (f f' : Addr → Option β) (a : Addr) : Option β := (f a).or (f' a)

theorem Apart.none_of_some (hApart : Apart n f f') (hx : f x = some v) : f' x = none := by
  by_contra hSome
  obtain ⟨hNone, -⟩ := hApart x (Option.isSome_iff_ne_none.mpr hSome)
  rw [hx] at hNone
  cases hNone

theorem Apart.none_of_le (hApart : Apart n f f') (hx : n ≤ x) : f' x = none := by
  by_contra hSome
  exact Nat.not_lt.mpr hx (hApart x (Option.isSome_iff_ne_none.mpr hSome)).2

/-- Only an address that `f'` does not have is written. -/
theorem Apart.update (hApart : Apart n f f') (hx : f' x = none) (w : Option β) :
    Apart n (Function.update f x w) f' := by
  intro a ha
  have hne : a ≠ x := by
    intro hEq
    rw [hEq, hx] at ha
    cases ha
  rw [Function.update_of_ne hne]
  exact hApart a ha

theorem Apart.succ (hApart : Apart n f f') : Apart (n + 1) f f' := fun a ha =>
  ⟨(hApart a ha).1, Nat.lt_succ_of_lt (hApart a ha).2⟩

theorem beside_update (hx : f' x = none) (w : Option β) :
    beside (Function.update f x w) f' = Function.update (beside f f') x w := by
  funext a
  by_cases ha : a = x
  · subst ha
    rw [beside, Function.update_self, Function.update_self, hx, Option.or_none]
  · rw [beside, Function.update_of_ne ha, Function.update_of_ne ha, beside]

theorem beside_of_some (hx : f x = some v) : beside f f' x = some v := by
  rw [beside, hx]
  rfl

/-- The same is written to two maps, one of which has all that the other has. -/
theorem update_of_some {f₂ : Addr → Option β} (hAll : ∀ {a v}, f a = some v → f₂ a = some v)
    (w : Option β) {a : Addr} (ha : Function.update f x w a = some v) :
    Function.update f₂ x w a = some v := by
  by_cases hax : a = x
  · subst hax
    rw [Function.update_self] at ha ⊢
    exact ha
  · rw [Function.update_of_ne hax] at ha ⊢
    exact hAll ha

end Apart

/-- Nodes and buffers beside a heap. -/
structure Frame where
  nodes : Addr → Option CNode
  bufs : Addr → Option Buf

/-- The frame has blocks only where the heap has none, now and later. -/
structure Frame.Beside (F : Frame) (h : Heap) : Prop where
  nodes : Apart h.brk h.nodes F.nodes
  bufs : Apart h.brk h.bufs F.bufs

/-- The heap together with the frame. -/
def Heap.withFrame (h : Heap) (F : Frame) : Heap :=
  { h with nodes := beside h.nodes F.nodes, bufs := beside h.bufs F.bufs }

variable {F : Frame} {base : List Block}

/-! ## The frame in lockstep -/

/-- The second heap has the blocks of the first one, and is the first one with the frame unless
something was freed wrongly since `base`. -/
structure Framed (F : Frame) (base : List Block) (g h : Heap) : Prop where
  brk : h.brk = g.brk
  outcomes : h.outcomes = g.outcomes
  lastError : h.lastError = g.lastError
  nodes : ∀ {a n}, g.nodes a = some n → h.nodes a = some n
  bufs : ∀ {s b}, g.bufs s = some b → h.bufs s = some b
  grown : base <+: g.misuses
  clean : g.misuses = base → F.Beside g ∧ h = g.withFrame F

/-- Something is freed wrongly. -/
theorem misused_ne (hGrown : base <+: g.misuses) (b : Block) : g.misuses ++ [b] ≠ base := by
  intro hEq
  have hLength := hGrown.length_le
  rw [← hEq, List.length_append, List.length_singleton] at hLength
  omega

/-- A write to the nodes. -/
theorem Framed.write (hRel : Framed F base g h) (hNone : F.Beside g → F.nodes a = none)
    (w : Option CNode) :
    Framed F base { g with nodes := Function.update g.nodes a w }
      { h with nodes := Function.update h.nodes a w } where
  brk := hRel.brk
  outcomes := hRel.outcomes
  lastError := hRel.lastError
  nodes hn := update_of_some hRel.nodes w hn
  bufs := hRel.bufs
  grown := hRel.grown
  clean hClean := by
    obtain ⟨hBeside, rfl⟩ := hRel.clean hClean
    have hNone' := hNone hBeside
    refine ⟨⟨hBeside.nodes.update hNone' w, hBeside.bufs⟩, ?_⟩
    simp only [Heap.withFrame, beside_update hNone']

/-- A write to the buffers. -/
theorem Framed.writeBuf (hRel : Framed F base g h) (hNone : F.Beside g → F.bufs s = none)
    (w : Option Buf) :
    Framed F base { g with bufs := Function.update g.bufs s w }
      { h with bufs := Function.update h.bufs s w } where
  brk := hRel.brk
  outcomes := hRel.outcomes
  lastError := hRel.lastError
  nodes := hRel.nodes
  bufs hb := update_of_some hRel.bufs w hb
  grown := hRel.grown
  clean hClean := by
    obtain ⟨hBeside, rfl⟩ := hRel.clean hClean
    have hNone' := hNone hBeside
    refine ⟨⟨hBeside.nodes, hBeside.bufs.update hNone' w⟩, ?_⟩
    simp only [Heap.withFrame, beside_update hNone']

/-- The break moves on. -/
theorem Framed.extend (hRel : Framed F base g h) :
    Framed F base { g with brk := g.brk + 1 } { h with brk := g.brk + 1 } where
  brk := rfl
  outcomes := hRel.outcomes
  lastError := hRel.lastError
  nodes := hRel.nodes
  bufs := hRel.bufs
  grown := hRel.grown
  clean hClean := by
    obtain ⟨hBeside, rfl⟩ := hRel.clean hClean
    exact ⟨⟨hBeside.nodes.succ, hBeside.bufs.succ⟩, rfl⟩

/-- A block is freed that the first heap cannot free; the second heap may lose it. -/
theorem Framed.misuse (hRel : Framed F base g h) {b : Block} (hb : ¬ g.Freeable b) :
    Framed F base (g.free b) (h.free b) where
  brk := by rw [Heap.free_brk, Heap.free_brk, hRel.brk]
  outcomes := by rw [Heap.free_outcomes, Heap.free_outcomes, hRel.outcomes]
  lastError := by rw [Heap.free_lastError, Heap.free_lastError, hRel.lastError]
  nodes {a n} hn := by
    rw [Heap.nodes_free] at hn ⊢
    split_ifs at hn ⊢
    exact hRel.nodes hn
  bufs {s c} hc := by
    rw [Heap.bufs_free] at hc ⊢
    split_ifs at hc with hDrop
    have hSame := hRel.bufs hc
    rw [hSame, ← hc, if_neg hDrop, hc]
  grown := by
    rw [Heap.misuses_free hb]
    exact hRel.grown.trans (List.prefix_append _ _)
  clean hClean := by
    rw [Heap.misuses_free hb] at hClean
    exact absurd hClean (misused_ne hRel.grown b)

theorem Framed.free (hRel : Framed F base g h) (b : Block) :
    Framed F base (g.free b) (h.free b) := by
  by_cases hb : g.Freeable b
  · cases b with
    | node a =>
      obtain ⟨n, hn⟩ := Option.isSome_iff_exists.mp hb
      have hRun : g.free (.node a) = g.dropNode a := if_pos hb
      have hRun' : h.free (.node a) = h.dropNode a := if_pos (by rw [hRel.nodes hn]; rfl)
      rw [hRun, hRun']
      exact hRel.write (fun hBeside => hBeside.nodes.none_of_some hn) none
    | buf s =>
      obtain ⟨c, hc, hOwned⟩ := lib_iff.mp hb
      have hRun : g.free (.buf s) = g.dropBuf s := if_pos hb
      have hRun' : h.free (.buf s) = h.dropBuf s := if_pos (by rw [hRel.bufs hc]; exact hOwned)
      rw [hRun, hRun']
      exact hRel.writeBuf (fun hBeside => hBeside.bufs.none_of_some hc) none
  · exact hRel.misuse hb

theorem Framed.tick (hRel : Framed F base g h) : Framed F base g.tick h.tick where
  brk := hRel.brk
  outcomes := by rw [Heap.tick, Heap.tick, hRel.outcomes]
  lastError := hRel.lastError
  nodes hn := hRel.nodes hn
  bufs hb := hRel.bufs hb
  grown := hRel.grown
  clean hClean := by
    obtain ⟨hBeside, rfl⟩ := hRel.clean hClean
    exact ⟨⟨hBeside.nodes, hBeside.bufs⟩, rfl⟩

theorem Framed.setError (hRel : Framed F base g h) (p : CharPtr) :
    Framed F base { g with lastError := p } { h with lastError := p } where
  brk := hRel.brk
  outcomes := hRel.outcomes
  lastError := rfl
  nodes hn := hRel.nodes hn
  bufs hb := hRel.bufs hb
  grown := hRel.grown
  clean hClean := by
    obtain ⟨hBeside, rfl⟩ := hRel.clean hClean
    exact ⟨⟨hBeside.nodes, hBeside.bufs⟩, rfl⟩

/-- The accesses to a heap do not touch what is beside it. -/
theorem lockstep_framed (F : Frame) (base : List Block) :
    Lockstep (fun _ => True) (Framed F base) where
  brk hRel := hRel.brk
  outcomes hRel := by rw [hRel.outcomes]
  lastError hRel := hRel.lastError
  node hRel hn := ⟨hRel.nodes hn, trivial⟩
  bytes hRel hb := ⟨_, hRel.bufs hb, rfl⟩
  tick hRel := hRel.tick
  pushNode {g h n} hRel _ := by
    rw [Heap.pushNode, Heap.pushNode, hRel.brk]
    exact (hRel.write (fun hBeside => hBeside.nodes.none_of_le (le_refl _)) (some n)).extend
  pushBuf {g h} hRel bytes := by
    rw [Heap.pushBuf, Heap.pushBuf, hRel.brk]
    exact (hRel.writeBuf (fun hBeside => hBeside.bufs.none_of_le (le_refl _)) _).extend
  setNode hRel hn _ := hRel.write (fun hBeside => hBeside.nodes.none_of_some hn) _
  setBytes {g h s b b'} hRel hb hb' bytes := by
    cases (hRel.bufs hb).symm.trans hb'
    exact hRel.writeBuf (fun hBeside => hBeside.bufs.none_of_some hb) _
  setError hRel p := hRel.setError p
  free hRel b := hRel.free b
  clamped _ := trivial
  same _ _ := trivial

/-- What a client does on a heap, it does on the heap with more memory beside it, which stays as
it is. -/
theorem Client.run_withFrame {α : Type} {r : α} (p : Client α) (hBeside : F.Beside g)
    (hRun : p.run std g = .ok (r, g')) (hClean : g'.misuses = g.misuses) :
    p.run std (g.withFrame F) = .ok (r, g'.withFrame F) ∧ F.Beside g' := by
  have hStart : Framed F g.misuses g (g.withFrame F) :=
    ⟨rfl, rfl, rfl, fun hn => beside_of_some hn, fun hb => beside_of_some hb, List.prefix_refl _,
      fun _ => ⟨hBeside, rfl⟩⟩
  obtain ⟨h', hRun', hRel⟩ :=
    respects_client (lockstep_framed F g.misuses) p g _ r g' hStart hRun
  obtain ⟨hBeside', rfl⟩ := hRel.clean hClean
  exact ⟨hRun', hBeside'⟩

/-- A heap with a `null` at 1. -/
def nullHeap : Heap where
  nodes := Function.update (fun _ => none) 1 (some { CNode.zeroed with type_ := cjsonNull })
  bufs := fun _ => none
  brk := 2
  outcomes := fun _ => true
  misuses := []
  lastError := none

/-- An object at 0 beside it. -/
def objectFrame : Frame where
  nodes := Function.update (fun _ => none) 0 (some { CNode.zeroed with type_ := cjsonObject })
  bufs := fun _ => none

theorem objectFrame_beside : objectFrame.Beside nullHeap := by
  refine ⟨fun a ha => ?_, fun s hs => ?_⟩
  · by_cases hZero : a = 0
    · subst hZero
      exact ⟨rfl, Nat.zero_lt_two⟩
    · simp only [objectFrame, Function.update_of_ne hZero] at ha
      cases ha
  · cases hs

/-- Delete the `null` and make a new one. -/
def renewNull : Client Answer :=
  .ask (.call (.delete (some 1))) fun _ => .ask (.call (.create .null)) fun r => .finish r

theorem renewNull_withFrame :
    ∃ g', renewNull.run ⟨fun _ => none, fun _ => []⟩ (nullHeap.withFrame objectFrame)
        = .ok (.item (some 2), g'.withFrame objectFrame) ∧ objectFrame.Beside g' :=
  ⟨_, Client.run_withFrame renewNull objectFrame_beside rfl rfl⟩

end CjsonRs.Ffi
