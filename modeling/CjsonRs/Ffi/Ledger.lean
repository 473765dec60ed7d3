import CjsonRs.Ffi.Custody
import CjsonRs.Ffi.Lockstep

/-!
# Texts in the hands of the client

A printed text is a buffer of the library that no node owns: the client holds it until it hands
it to `cJSON_free`. `Heap.lend` takes the held texts for buffers of the client, which is what they
are to every other call. A call does the same on both heaps, in lockstep, so that what is known
of ownership without held texts holds with them.
-/

namespace CjsonRs.Ffi

open CjsonRs.Core Library Library.Link Library.Forest

variable {g h h' : Heap} {a s : Addr} {n : CNode} {q : Ptr} {std : StdF64} {T : List Addr}
  {base : List Block} {b b' : Buf} {kids : Addr → List Addr}

/-- A held text counts as the client's. -/
def Buf.lend (b : Buf) (held : Bool) : Buf := { b with owned := b.owned && !held }

/-- The heap with the texts `T` taken for the client's. -/
def Heap.lend (h : Heap) (T : List Addr) : Heap :=
  { h with bufs := fun s => (h.bufs s).map (Buf.lend · (decide (s ∈ T))) }

/-! ## Reading a heap with held texts -/

theorem lend_bufs (hb : h.bufs s = some b) :
    (h.lend T).bufs s = some (b.lend (decide (s ∈ T))) := by
  simp only [Heap.lend, hb, Option.map_some]

theorem lend_bufs_none (hNone : h.bufs s = none) : (h.lend T).bufs s = none := by
  simp only [Heap.lend, hNone, Option.map_none]

theorem lend_of_not_mem (hs : s ∉ T) : (h.lend T).bufs s = h.bufs s := by
  simp [Heap.lend, Buf.lend, hs]

theorem lib_lend : (h.lend T).Lib s ↔ h.Lib s ∧ s ∉ T := by
  rw [lib_iff, lib_iff]
  constructor
  · rintro ⟨b', hb', hOwned⟩
    cases hb : h.bufs s with
    | none =>
      rw [lend_bufs_none hb] at hb'
      cases hb'
    | some b =>
      rw [lend_bufs hb] at hb'
      cases hb'
      simp only [Buf.lend, Bool.and_eq_true, Bool.not_eq_true', decide_eq_false_iff_not] at hOwned
      exact ⟨⟨b, rfl, hOwned.1⟩, hOwned.2⟩
  · rintro ⟨⟨b, hb, hOwned⟩, hs⟩
    exact ⟨b, by rw [lend_of_not_mem hs, hb], hOwned⟩

theorem bounded_lend (hBounded : h.Bounded) : (h.lend T).Bounded where
  nodes ha := hBounded.nodes ha
  bufs hs := lend_bufs_none (hBounded.bufs hs)

/-- The bytes are the same. -/
theorem readable_lend : (h.lend T).Readable s ↔ h.Readable s := by
  constructor
  · rintro ⟨b', hb', hNul⟩
    cases hb : h.bufs s with
    | none =>
      rw [lend_bufs_none hb] at hb'
      cases hb'
    | some b =>
      rw [lend_bufs hb] at hb'
      cases hb'
      exact ⟨b, hb, hNul⟩
  · rintro ⟨b, hb, hNul⟩
    exact ⟨_, lend_bufs hb, hNul⟩

theorem text_lend (q : Ptr) : (h.lend T).text q = h.text q := by
  cases q with
  | none => rfl
  | some s =>
    simp only [Heap.text]
    cases hb : h.bufs s with
    | none =>
      have hNone := lend_bufs_none (T := T) hb
      simp [hNone, hb]
    | some b =>
      have hSome := lend_bufs (T := T) hb
      simp [hSome, hb, Buf.lend]

theorem textAt_lend {x : Option (List UInt8)} (hx : TextAt h q x) : TextAt (h.lend T) q x := by
  cases q with
  | none => exact hx
  | some s =>
    obtain ⟨b, hb, hNul, rfl⟩ := hx
    exact ⟨_, lend_bufs hb, hNul, rfl⟩

theorem labelled_lend {l : Label} (hl : Labelled h n l) : Labelled (h.lend T) n l :=
  ⟨hl.tag, textAt_lend hl.valuestring, hl.valuedouble, textAt_lend hl.string⟩

theorem denotes_lend : (∀ t a, Denotes h a t → Denotes (h.lend T) a t) ∧
    ∀ ts q, DenotesList h q ts → DenotesList (h.lend T) q ts := by
  refine CTree.induct ?_ ?_ ?_
  · rintro l ts ih a ⟨n, hn, hl, hTs⟩
    exact ⟨n, hn, labelled_lend hl, ih n.child hTs⟩
  · rintro q rfl
    exact rfl
  · rintro t ts ihT ihTs q ⟨a, n, rfl, hn, ht, hTs⟩
    exact ⟨a, n, rfl, hn, ihT a ht, ihTs n.next hTs⟩

/-! ## What calls rely on -/

theorem handed_lend {p i : Addr} (hi : Handed 0 h kids p i) : Handed 0 (h.lend T) kids p i :=
  ⟨hi.above, hi.live, hi.root, hi.apart⟩

theorem keysReadable_lend {as : List Addr} (hKeys : KeysReadable h as) :
    KeysReadable (h.lend T) as := fun a ha n s hn hs =>
  readable_lend.mpr (hKeys a ha n s hn hs)

theorem Construct.admissible_lend {c : Construct} (hAdm : c.Admissible h) :
    c.Admissible (h.lend T) := by
  cases c with
  | string s => exact fun x hx => readable_lend.mpr (hAdm x hx)
  | raw s => exact fun x hx => readable_lend.mpr (hAdm x hx)
  | stringArray strings count =>
    intro vs hvs
    obtain ⟨hCount, hAll⟩ := hAdm vs hvs
    exact ⟨hCount, fun v hv x hx => readable_lend.mpr (hAll v hv x hx)⟩
  | _ => exact hAdm

theorem Edit.admissible_lend {e : Edit} (hAdm : e.Admissible h kids) :
    e.Admissible (h.lend T) kids := by
  cases e with
  | addItemToArray array item =>
    intro p i hp hi
    obtain ⟨hMut, hHanded⟩ := hAdm p i hp hi
    exact ⟨hMut, handed_lend hHanded⟩
  | addItemToObject object name item =>
    intro p s i hp hs hi
    obtain ⟨hMut, hHanded, hRead⟩ := hAdm p s i hp hs hi
    exact ⟨hMut, handed_lend hHanded, readable_lend.mpr hRead⟩
  | addItemToObjectCS object name item =>
    intro p s i hp hs hi
    obtain ⟨hMut, hHanded⟩ := hAdm p s i hp hs hi
    exact ⟨hMut, handed_lend hHanded⟩
  | insertItemInArray array which newitem =>
    intro p i hp hi
    obtain ⟨hMut, hHanded⟩ := hAdm p i hp hi
    exact ⟨hMut, handed_lend hHanded⟩
  | detachItemFromObject cs object string =>
    intro p s hp hs
    obtain ⟨hMut, hKeys, hRead⟩ := hAdm p s hp hs
    exact ⟨hMut, keysReadable_lend hKeys, readable_lend.mpr hRead⟩
  | deleteItemFromObject cs object string =>
    intro p s hp hs
    obtain ⟨hMut, hKeys, hRead⟩ := hAdm p s hp hs
    exact ⟨hMut, keysReadable_lend hKeys, readable_lend.mpr hRead⟩
  | replaceItemViaPointer parent item replacement =>
    intro p a i hp ha hi
    obtain ⟨hMut, hMem, hHanded⟩ := hAdm p a i hp ha hi
    exact ⟨hMut, hMem, handed_lend hHanded⟩
  | replaceItemInArray array which newitem =>
    intro p hp
    obtain ⟨hMut, hNew⟩ := hAdm p hp
    exact ⟨hMut, fun i hi => handed_lend (hNew i hi)⟩
  | replaceItemInObject cs object string newitem =>
    intro p s hp hs
    obtain ⟨hMut, hKeys, hRead, hNew⟩ := hAdm p s hp hs
    exact ⟨hMut, keysReadable_lend hKeys, readable_lend.mpr hRead,
      fun i hi => handed_lend (hNew i hi)⟩
  | _ => exact hAdm

theorem Call.admissible_lend {c : Call} (hAdm : c.Admissible h kids) :
    c.Admissible (h.lend T) kids := by
  have hSlice : ∀ {value : Ptr} {len : Nat},
      (∀ s, value = some s → ∃ b, h.bufs s = some b ∧ len ≤ b.bytes.length) →
      ∀ s, value = some s → ∃ b, (h.lend T).bufs s = some b ∧ len ≤ b.bytes.length := by
    intro value len hValue s hs
    obtain ⟨b, hb, hLen⟩ := hValue s hs
    exact ⟨_, lend_bufs hb, hLen⟩
  cases c with
  | parse value => exact fun s hs => readable_lend.mpr (hAdm s hs)
  | parseWithLength value len => exact hSlice hAdm
  | parseWithOpts value wantEnd strict => exact fun s hs => readable_lend.mpr (hAdm s hs)
  | parseWithLengthOpts value len wantEnd strict => exact hSlice hAdm
  | create c => exact Construct.admissible_lend hAdm
  | duplicate item recurse =>
    intro a ha
    obtain ⟨⟨n, l, hn, hl⟩, hTree⟩ := hAdm a ha
    refine ⟨⟨n, l, hn, labelled_lend hl⟩, fun hRecurse => ?_⟩
    obtain ⟨t, ht⟩ := hTree hRecurse
    exact ⟨t, denotes_lend.1 t a ht⟩
  | edit e => exact Edit.admissible_lend hAdm
  | addItemReferenceToArray array item => exact hAdm
  | addItemReferenceToObject object name item =>
    intro p s i hp hs hi
    obtain ⟨hMut, hRead, hLive⟩ := hAdm p s i hp hs hi
    exact ⟨hMut, readable_lend.mpr hRead, hLive⟩
  | addToObject object name m =>
    refine ⟨Construct.admissible_lend hAdm.1, fun p s hp hs => ?_⟩
    obtain ⟨hMut, hRead⟩ := hAdm.2 p s hp hs
    exact ⟨hMut, readable_lend.mpr hRead⟩
  | setValuestring object valuestring =>
    intro a s ha hs
    obtain ⟨hLive, hRead⟩ := hAdm a s ha hs
    exact ⟨hLive, readable_lend.mpr hRead⟩
  | delete item => exact hAdm

theorem keyIn_lend (cs : Bool) (string : Ptr) (as : List Addr) :
    keyIn (h.lend T) cs string as = keyIn h cs string as := by
  have hMatches : ∀ k, (h.lend T).matchesKey cs k = h.matchesKey cs k := by
    intro k
    funext a
    have hKey : (h.lend T).key a = h.key a := by
      unfold Heap.key
      simp only [text_lend]
      rfl
    rw [Heap.matchesKey, Heap.matchesKey, hKey]
  unfold keyIn
  simp only [text_lend, hMatches]

theorem Call.passesName_lend {c : Call} (hPass : c.PassesName (h.lend T) kids) :
    c.PassesName h kids := by
  cases c with
  | edit e =>
    cases e with
    | replaceItemInObject cs object string newitem =>
      obtain ⟨p, a, i, hp, hi, hKey, hMoved⟩ := hPass
      rw [keyIn_lend] at hKey
      exact ⟨p, a, i, hp, hi, hKey, hMoved⟩
    | _ => exact hPass
  | _ => exact hPass

/-! ## The two heaps in lockstep -/

/-- The second heap is the first one with `T` taken for the client's, unless something was freed
wrongly there since `base`. -/
structure Lent (T : List Addr) (base : List Block) (h g : Heap) : Prop where
  nodes : g.nodes = h.nodes
  brk : g.brk = h.brk
  outcomes : g.outcomes = h.outcomes
  lastError : g.lastError = h.lastError
  bufs : ∀ {s b}, h.bufs s = some b → ∃ b', g.bufs s = some b' ∧ b'.bytes = b.bytes ∧
    (b'.owned = true → b.owned = true)
  below : ∀ {s}, s ∈ T → s < h.brk
  grown : base <+: g.misuses
  clean : g.misuses = base → g = h.lend T ∧ ∀ s ∈ T, h.Lib s

theorem Lent.start (hBounded : h.Bounded) (hHeld : ∀ s ∈ T, h.Lib s) :
    Lent T h.misuses h (h.lend T) where
  nodes := rfl
  brk := rfl
  outcomes := rfl
  lastError := rfl
  bufs {s b} hb := ⟨_, lend_bufs hb, rfl, fun hOwned => by
    rw [Buf.lend, Bool.and_eq_true] at hOwned
    exact hOwned.1⟩
  below {s} hs := hBounded.lt_lib (hHeld s hs)
  grown := List.prefix_refl _
  clean _ := ⟨rfl, hHeld⟩

/-- A write to the nodes. -/
theorem Lent.write (hRel : Lent T base h g) (w : Option CNode) :
    Lent T base { h with nodes := Function.update h.nodes a w }
      { g with nodes := Function.update g.nodes a w } where
  nodes := by rw [hRel.nodes]
  brk := hRel.brk
  outcomes := hRel.outcomes
  lastError := hRel.lastError
  bufs hb := hRel.bufs hb
  below hs := hRel.below hs
  grown := hRel.grown
  clean hClean := by
    obtain ⟨rfl, hHeld⟩ := hRel.clean hClean
    exact ⟨rfl, hHeld⟩

/-- Lending commutes with a write to a buffer. -/
theorem lend_update (w : Option Buf) :
    Heap.lend { h with bufs := Function.update h.bufs s w } T =
      { h.lend T with
        bufs := Function.update (h.lend T).bufs s (w.map (Buf.lend · (decide (s ∈ T)))) } := by
  have hBufs : (fun x => (Function.update h.bufs s w x).map (Buf.lend · (decide (x ∈ T)))) =
      Function.update (h.lend T).bufs s (w.map (Buf.lend · (decide (s ∈ T)))) := by
    funext x
    by_cases hx : x = s
    · subst hx
      rw [Function.update_self, Function.update_self]
    · rw [Function.update_of_ne hx, Function.update_of_ne hx, Heap.lend]
  simp only [Heap.lend, hBufs]

/-- A write to a buffer on both sides. -/
theorem Lent.writeBuf (hRel : Lent T base h g) {w w' : Option Buf}
    (hw : ∀ c, w = some c → ∃ c', w' = some c' ∧ c'.bytes = c.bytes ∧
      (c'.owned = true → c.owned = true))
    (hLend : g = h.lend T → w' = w.map (Buf.lend · (decide (s ∈ T))))
    (hHeld : s ∈ T → h.Lib s → w.any Buf.owned = true) :
    Lent T base { h with bufs := Function.update h.bufs s w }
      { g with bufs := Function.update g.bufs s w' } where
  nodes := hRel.nodes
  brk := hRel.brk
  outcomes := hRel.outcomes
  lastError := hRel.lastError
  bufs {x c} hc := by
    dsimp only at hc ⊢
    by_cases hx : x = s
    · subst hx
      rw [Function.update_self] at hc ⊢
      exact hw c hc
    · rw [Function.update_of_ne hx] at hc ⊢
      exact hRel.bufs hc
  below hs := hRel.below hs
  grown := hRel.grown
  clean hClean := by
    obtain ⟨hEq, hLib⟩ := hRel.clean hClean
    refine ⟨?_, fun x hx => ?_⟩
    · rw [lend_update, ← hLend hEq, hEq]
    · show (Function.update h.bufs s w x).any Buf.owned = true
      by_cases hxs : x = s
      · subst hxs
        rw [Function.update_self]
        exact hHeld hx (hLib x hx)
      · rw [Function.update_of_ne hxs]
        exact hLib x hx

theorem Lent.extend (hRel : Lent T base h g) :
    Lent T base { h with brk := h.brk + 1 } { g with brk := h.brk + 1 } where
  nodes := hRel.nodes
  brk := rfl
  outcomes := hRel.outcomes
  lastError := hRel.lastError
  bufs hb := hRel.bufs hb
  below hs := Nat.lt_succ_of_lt (hRel.below hs)
  grown := hRel.grown
  clean hClean := by
    obtain ⟨rfl, hHeld⟩ := hRel.clean hClean
    exact ⟨rfl, hHeld⟩

/-- A new buffer is nobody's yet. -/
theorem Lent.pushBuf (hRel : Lent T base h g) (bytes : List UInt8) :
    Lent T base (h.pushBuf bytes) (g.pushBuf bytes) := by
  have hNew : h.brk ∉ T := fun hMem => Nat.lt_irrefl _ (hRel.below hMem)
  rw [Heap.pushBuf, Heap.pushBuf, hRel.brk]
  refine (hRel.writeBuf (s := h.brk) (fun c hc => ⟨c, hc, rfl, id⟩) (fun _ => ?_) fun _ _ => rfl)
    |>.extend
  simp [Buf.lend, hNew]

theorem Lent.setBytes (hRel : Lent T base h g) (hb : h.bufs s = some b) (hb' : g.bufs s = some b')
    (bytes : List UInt8) : Lent T base (h.setBytes s b bytes) (g.setBytes s b' bytes) := by
  obtain ⟨c, hc, hBytes, hOwned⟩ := hRel.bufs hb
  cases hc.symm.trans hb'
  refine hRel.writeBuf (fun d hd => ?_) (fun hEq => ?_) fun _ hLib => ?_
  · cases hd
    exact ⟨_, rfl, by rw [hBytes], hOwned⟩
  · rw [hEq, lend_bufs hb] at hb'
    cases hb'
    rfl
  · obtain ⟨d, hd, hYes⟩ := lib_iff.mp hLib
    cases hb.symm.trans hd
    exact hYes

/-- Freeing a block: what the second heap loses, the first one loses, and a held text that the
first one loses is freed wrongly on the second one. -/
theorem Lent.free (hRel : Lent T base h g) (x : Block) : Lent T base (h.free x) (g.free x) where
  nodes := by
    funext a
    rw [Heap.nodes_free, Heap.nodes_free, hRel.nodes]
  brk := by rw [Heap.free_brk, Heap.free_brk, hRel.brk]
  outcomes := by rw [Heap.free_outcomes, Heap.free_outcomes, hRel.outcomes]
  lastError := by rw [Heap.free_lastError, Heap.free_lastError, hRel.lastError]
  bufs {s c} hc := by
    rw [Heap.bufs_free] at hc ⊢
    split_ifs at hc with hDrop
    obtain ⟨c', hc', hBytes, hOwned⟩ := hRel.bufs hc
    have hKeep : ¬ (x = .buf s ∧ (g.bufs s).any Buf.owned = true) := by
      rintro ⟨hx, hYes⟩
      rw [hc', Option.any_some] at hYes
      exact hDrop ⟨hx, by rw [hc, Option.any_some, hOwned hYes]⟩
    rw [if_neg hKeep]
    exact ⟨c', hc', hBytes, hOwned⟩
  below {s} hs := by
    rw [Heap.free_brk]
    exact hRel.below hs
  grown := by
    by_cases hx : g.Freeable x
    · rw [Heap.free_misuses hx]
      exact hRel.grown
    · rw [Heap.misuses_free hx]
      exact hRel.grown.trans (List.prefix_append _ _)
  clean hClean := by
    by_cases hx : g.Freeable x
    · rw [Heap.free_misuses hx] at hClean
      obtain ⟨rfl, hHeld⟩ := hRel.clean hClean
      cases x with
      | node a =>
        have hLive : (h.nodes a).isSome := hx
        have hRun : h.free (.node a) = h.dropNode a := if_pos hLive
        have hRun' : (h.lend T).free (.node a) = (h.lend T).dropNode a := if_pos hLive
        rw [hRun, hRun']
        exact ⟨rfl, hHeld⟩
      | buf s =>
        obtain ⟨hLib, hs⟩ := lib_lend.mp hx
        have hRun : h.free (.buf s) = h.dropBuf s := if_pos hLib
        have hRun' : (h.lend T).free (.buf s) = (h.lend T).dropBuf s := if_pos hx
        rw [hRun, hRun']
        refine ⟨(lend_update none).symm, fun y hy => ?_⟩
        have hne : y ≠ s := fun hEq => hs (hEq ▸ hy)
        show (Function.update h.bufs s none y).any Buf.owned = true
        rw [Function.update_of_ne hne]
        exact hHeld y hy
    · rw [Heap.misuses_free hx] at hClean
      have hLength := hRel.grown.length_le
      rw [← hClean, List.length_append, List.length_singleton] at hLength
      omega

theorem Lent.tick (hRel : Lent T base h g) : Lent T base h.tick g.tick where
  nodes := hRel.nodes
  brk := hRel.brk
  outcomes := by rw [Heap.tick, Heap.tick, hRel.outcomes]
  lastError := hRel.lastError
  bufs hb := hRel.bufs hb
  below hs := hRel.below hs
  grown := hRel.grown
  clean hClean := by
    obtain ⟨rfl, hHeld⟩ := hRel.clean hClean
    exact ⟨rfl, hHeld⟩

theorem Lent.setError (hRel : Lent T base h g) (p : CharPtr) :
    Lent T base { h with lastError := p } { g with lastError := p } where
  nodes := hRel.nodes
  brk := hRel.brk
  outcomes := hRel.outcomes
  lastError := rfl
  bufs hb := hRel.bufs hb
  below hs := hRel.below hs
  grown := hRel.grown
  clean hClean := by
    obtain ⟨rfl, hHeld⟩ := hRel.clean hClean
    exact ⟨rfl, hHeld⟩

theorem lockstep_lent (T : List Addr) (base : List Block) :
    Lockstep (fun _ => True) (Lent T base) where
  brk hRel := hRel.brk
  outcomes hRel := by rw [hRel.outcomes]
  lastError hRel := hRel.lastError
  node hRel hn := ⟨by rw [hRel.nodes]; exact hn, trivial⟩
  bytes hRel hb := by
    obtain ⟨b', hb', hBytes, -⟩ := hRel.bufs hb
    exact ⟨b', hb', hBytes⟩
  tick hRel := hRel.tick
  pushNode {h g n} hRel _ := by
    rw [Heap.pushNode, Heap.pushNode, hRel.brk]
    exact (hRel.write (some n)).extend
  pushBuf hRel bytes := hRel.pushBuf bytes
  setNode hRel _ _ := hRel.write _
  setBytes hRel hb hb' bytes := hRel.setBytes hb hb' bytes
  setError hRel p := hRel.setError p
  free hRel b := hRel.free b
  clamped _ := trivial
  same _ _ := trivial

/-- A request does the same when the held texts are taken for the client's. While it frees
nothing wrongly then, they stay held. -/
theorem Request.run_lend {q : Request} {r : Answer} (hBounded : h.Bounded)
    (hHeld : ∀ s ∈ T, h.Lib s) (hRun : q.run std h = .ok (r, h')) :
    ∃ g, q.run std (h.lend T) = .ok (r, g) ∧
      (g.misuses = h.misuses → g = h'.lend T ∧ ∀ s ∈ T, h'.Lib s) := by
  obtain ⟨g, hRun', hRel⟩ := respects_request (lockstep_lent T h.misuses) q h (h.lend T) r h'
    (Lent.start hBounded hHeld) hRun
  exact ⟨g, hRun', hRel.clean⟩

end CjsonRs.Ffi
