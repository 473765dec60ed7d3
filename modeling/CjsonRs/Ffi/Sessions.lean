import CjsonRs.Ffi.Getters
import CjsonRs.Ffi.Ledger
import CjsonRs.Ffi.Separate

/-!
# Sessions

A session is a sequence of requests to the whole interface, with the texts that the client holds
in between: each printed text or allocated block, until it is handed to `cJSON_free`. While every
request respects the contract, each one returns, every buffer of the library is freed with one
node or held by the client, and what is left after the last root and the last text is nothing.
-/

namespace CjsonRs.Ffi

open CjsonRs.Core Library Library.Link Library.Forest

variable {h h' h₀ : Heap} {a s : Addr} {n : CNode} {std : StdF64} {T : List Addr} {b : Buf}
  {kids : Addr → List Addr}

/-! ## Requests -/

/-- The children of a node form a list that can be walked. -/
def Listed (h : Heap) (a : Addr) (as : List Addr) : Prop :=
  ∃ n, h.nodes a = some n ∧ IsList h.link n.child as ∧ as.Nodup

/-- The tree at an item, if there is one, can be read. -/
def ReadableTree (h : Heap) (item : Ptr) : Prop := ∀ a, item = some a → ∃ t, Denotes h a t

/-- A buffer that is the client's, or a text that it holds. -/
def Mine (h : Heap) (T : List Addr) (s : Addr) (b : Buf) : Prop :=
  h.bufs s = some b ∧ (b.owned = false ∨ s ∈ T)

/-- The buffer is the constant key of a node. -/
def LentKey (h : Heap) (s : Addr) : Prop :=
  ∃ a n, h.nodes a = some n ∧ n.constKey = true ∧ n.string = some s

namespace Request

/-- What a request relies on, when the client holds the texts `T`. A `NULL` argument is always
allowed. -/
def Admissible (h : Heap) (kids : Addr → List Addr) (T : List Addr) : Request → Prop
  | call c => c.Admissible h kids ∧ c.Lends (h.lend T) ∧ ¬ c.PassesName h kids
  | print item => ReadableTree h item
  | printUnformatted item => ReadableTree h item
  | printBuffered item _ _ => ReadableTree h item
  | printPreallocated item buffer length _ =>
    ReadableTree h item ∧ ∀ s, buffer = some s → ∃ b, Mine h T s b ∧ length ≤ b.bytes.length
  | minify json => ∀ s, json = some s → ∃ b, Mine h T s b ∧ 0 ∈ b.bytes
  | test _ item => ∀ a, item = some a → (h.nodes a).isSome
  | getArraySize array => ∀ a, array = some a → ∃ as, Listed h a as
  | getArrayItem array index => index ≤ intMax ∧ ∀ a, array = some a → ∃ as, Listed h a as
  | getObjectItem object string =>
    ∀ a s, object = some a → string = some s →
      h.Readable s ∧ ∃ as, Listed h a as ∧ KeysReadable h as
  | getObjectItemCaseSensitive object string =>
    ∀ a s, object = some a → string = some s →
      h.Readable s ∧ ∃ as, Listed h a as ∧ KeysReadable h as
  | hasObjectItem object string =>
    ∀ a s, object = some a → string = some s →
      h.Readable s ∧ ∃ as, Listed h a as ∧ KeysReadable h as
  | getStringValue item => ∀ a, item = some a → (h.nodes a).isSome
  | getNumberValue item => ∀ a, item = some a → (h.nodes a).isSome
  | compare x y _ => ReadableTree h x ∧ ReadableTree h y
  | setNumberHelper object _ => ∀ a, object = some a → (h.nodes a).isSome
  | getErrorPtr => True
  | malloc _ => True
  | free object => ∀ x, object = some x → ∃ s ∈ T, x = .buf s ∧ ¬ LentKey h s

/-- The texts that the client holds after a request. -/
def texts (T : List Addr) : Request → Answer → List Addr
  | print _, .reply (.item (some s)) => s :: T
  | printUnformatted _, .reply (.item (some s)) => s :: T
  | printBuffered _ _ _, .reply (.item (some s)) => s :: T
  | malloc _, .reply (.item (some s)) => s :: T
  | free (some (.buf s)), _ => T.erase s
  | _, _ => T

end Request

/-- Both numbers of a number are set. -/
theorem cjsonSetNumberHelper_run (hn : h.nodes a = some n) (number : F64) :
    cjsonSetNumberHelper (some a) number h
      = .ok (number, if tag n.type_ = cjsonNumber then
          h.setNode a { n with valuedouble := number, valueint := clampToInt number } else h) := by
  show (load (some a) >>= fun o => _) h = _
  rw [Run.bind_run_ok (load_run hn), Run.ite_run]
  by_cases hTag : tag n.type_ = cjsonNumber
  · rw [if_neg (not_not_intro hTag), if_pos hTag, Run.bind_run_ok (store_run hn _),
      Run.bind_run_ok (store_run Heap.setNode_self _)]
    have hTwice : ∀ m m', (h.setNode a m).setNode a m' = h.setNode a m' := fun m m' => by
      simp only [Heap.setNode, Function.update_idem]
    rw [hTwice]
    rfl
  · rw [if_pos hTag, if_neg hTag]
    rfl

/-! ## The invariant -/

/-- The heap is sound with the texts taken for the client's, and these are live. -/
structure Kept (h : Heap) (T : List Addr) (kids : Addr → List Addr) : Prop where
  sound : Sound 0 (h.lend T) kids
  misuses : h.misuses = []
  nodup : T.Nodup
  held : ∀ s ∈ T, h.Lib s

theorem bounded_of_lend (hBounded : (h.lend T).Bounded) : h.Bounded where
  nodes ha := hBounded.nodes ha
  bufs {s} hs := by
    cases hb : h.bufs s with
    | none => rfl
    | some b =>
      have hNone := hBounded.bufs hs
      rw [lend_bufs hb] at hNone
      cases hNone

namespace Kept

theorem bounded (hKept : Kept h T kids) : h.Bounded := bounded_of_lend hKept.sound.wf.bounded

theorem trees (hKept : Kept h T kids) : Represents 0 h kids :=
  (hKept.sound.wf.of_nodes hKept.bounded rfl).trees

theorem start (hStart : Start h) : Kept h [] fun _ => [] where
  sound := by
    have hSame : h.lend [] = h := by
      have hBufs : (fun s => (h.bufs s).map (Buf.lend · (decide (s ∈ ([] : List Addr)))))
          = h.bufs := by
        funext s
        cases h.bufs s <;> simp [Buf.lend]
      rw [Heap.lend, hBufs]
    rw [hSame]
    exact hStart.sound
  misuses := hStart.misuses
  nodup := List.nodup_nil
  held s hs := by cases hs

/-- A change of buffers that the client could make if it owned the texts it holds. -/
theorem caller {T' : List Addr} (hKept : Kept h T kids) (hStep : CallerStep (h.lend T) (h'.lend T'))
    (hNodup : T'.Nodup) (hHeld : ∀ s ∈ T', h'.Lib s) : Kept h' T' kids where
  sound := hStep.sound hKept.sound
  misuses := hStep.misuses.trans hKept.misuses
  nodup := hNodup
  held := hHeld

/-- A call that respects the contract keeps the invariant. -/
theorem call {c : Call} {r : Reply} (hKept : Kept h T kids) (hAdm : c.Admissible h kids)
    (hLends : c.Lends (h.lend T)) (hPass : ¬ c.PassesName h kids)
    (hRun : c.run std h = .ok (r, h')) : ∃ kids', Kept h' T kids' := by
  have hRun' : (Request.call c).run std h = .ok (.reply r, h') := Run.map_run_ok hRun
  obtain ⟨g, hLent, hClean⟩ := Request.run_lend hKept.bounded hKept.held hRun'
  rw [Request.run, map_eq_pure_bind, Run.bind_run_eq_ok] at hLent
  obtain ⟨r', g', hCall, hPure⟩ := hLent
  cases hPure
  obtain ⟨⟨kids', hSound⟩, hMisuses⟩ := (Call.conserves c hKept.sound (Call.admissible_lend hAdm)
    hLends fun hPasses => hPass (Call.passesName_lend hPasses)).post hCall
  obtain ⟨rfl, hHeld⟩ := hClean hMisuses
  exact ⟨kids', hSound, hMisuses.trans hKept.misuses, hKept.nodup, hHeld⟩

/-! ### Buffers -/

/-- A constant key is a buffer of the client. -/
theorem lentKey (hKept : Kept h T kids) (hs : LentKey h s) :
    ∃ b, (h.lend T).bufs s = some b ∧ b.owned = false := by
  obtain ⟨a, n, hn, hConst, hString⟩ := hs
  obtain ⟨s', b, hString', hb, hNot⟩ := hKept.sound.owned.lent (Nat.zero_le a) hn hConst
  rw [hString] at hString'
  cases hString'
  exact ⟨b, hb, hNot⟩

theorem tick (hKept : Kept h T kids) : Kept h.tick T kids := by
  refine hKept.caller ⟨bounded_lend hKept.bounded.tick, rfl, fun s b _ => Iff.rfl, ?_, rfl⟩
    hKept.nodup hKept.held
  exact fun a n s hn hConst hString => hKept.lentKey ⟨a, n, hn, hConst, hString⟩

/-- A new block goes to the client. -/
theorem pushText (hKept : Kept h T kids) (bytes : List UInt8) :
    Kept (h.tick.pushBuf bytes) (h.brk :: T) kids := by
  have hBounded := hKept.bounded
  have hNew : h.brk ∉ T := fun hMem => Nat.lt_irrefl _ (hBounded.lt_lib (hKept.held _ hMem))
  have hOld : ∀ s, s ≠ h.brk →
      ((h.tick.pushBuf bytes).lend (h.brk :: T)).bufs s = (h.lend T).bufs s := by
    intro s hs
    simp only [Heap.lend, Heap.pushBuf, Heap.tick, Function.update_of_ne hs, List.mem_cons, hs,
      false_or]
  have hBrk : ((h.tick.pushBuf bytes).lend (h.brk :: T)).bufs h.brk = some ⟨bytes, false⟩ := by
    simp [Heap.lend, Heap.pushBuf, Heap.tick, Buf.lend]
  have hNone : (h.lend T).bufs h.brk = none := lend_bufs_none (hBounded.bufs (le_refl _))
  refine hKept.caller ⟨bounded_lend (hBounded.tick.pushBuf bytes), rfl, fun s b hOwned => ?_, ?_,
    rfl⟩ (List.nodup_cons.mpr ⟨hNew, hKept.nodup⟩) fun s hs => ?_
  · by_cases hs : s = h.brk
    · subst hs
      rw [hBrk, hNone]
      constructor
      · intro hEq
        cases hEq
        cases hOwned
      · intro hEq
        cases hEq
    · rw [hOld s hs]
  · intro a n s hn hConst hString
    obtain ⟨b, hb, hNot⟩ := hKept.lentKey ⟨a, n, hn, hConst, hString⟩
    have hs : s ≠ h.brk := fun hEq => by
      rw [hEq, hNone] at hb
      cases hb
    exact ⟨b, (hOld s hs).trans hb, hNot⟩
  · show (Function.update h.bufs h.brk _ s).any Buf.owned = true
    rcases List.mem_cons.mp hs with rfl | hs
    · rw [Function.update_self]
      rfl
    · rw [Function.update_of_ne (ne_of_mem_of_not_mem hs hNew)]
      exact hKept.held s hs

/-- The client writes to a buffer of its own, or a text it holds. -/
theorem setBytes (hKept : Kept h T kids) (hMine : Mine h T s b) (bytes : List UInt8) :
    Kept (h.setBytes s b bytes) T kids := by
  obtain ⟨hb, hFree⟩ := hMine
  have hNot : ∀ c : Buf, c.owned = b.owned → (c.lend (decide (s ∈ T))).owned = false := by
    intro c hSame
    rw [Buf.lend, hSame]
    rcases hFree with hFree | hMem
    · rw [hFree, Bool.false_and]
    · rw [decide_eq_true hMem, Bool.not_true, Bool.and_false]
  have hOld : ∀ x, x ≠ s → ((h.setBytes s b bytes).lend T).bufs x = (h.lend T).bufs x := by
    intro x hx
    simp only [Heap.lend, Heap.setBytes, Function.update_of_ne hx]
  have hNew : ∃ c, ((h.setBytes s b bytes).lend T).bufs s = some c ∧ c.owned = false := by
    refine ⟨_, lend_bufs (Function.update_self ..), hNot _ rfl⟩
  refine hKept.caller ⟨bounded_lend ⟨fun ha => hKept.bounded.nodes ha, fun {x} hx => ?_⟩, rfl,
    fun x c hOwned => ?_, ?_, rfl⟩ hKept.nodup fun x hx => ?_
  · have hne : x ≠ s := Nat.ne_of_gt (lt_of_lt_of_le (hKept.bounded.lt_buf hb) hx)
    exact (Function.update_of_ne hne ..).trans (hKept.bounded.bufs hx)
  · by_cases hxs : x = s
    · subst hxs
      obtain ⟨d, hd, hFalse⟩ := hNew
      rw [hd, lend_bufs hb]
      constructor
      · intro hEq
        cases hEq
        rw [hFalse] at hOwned
        cases hOwned
      · intro hEq
        cases hEq
        rw [hNot b rfl] at hOwned
        cases hOwned
    · rw [hOld x hxs]
  · intro a n x hn hConst hString
    by_cases hxs : x = s
    · subst hxs
      exact hNew
    · rw [hOld x hxs]
      exact hKept.lentKey ⟨a, n, hn, hConst, hString⟩
  · show (Function.update h.bufs s _ x).any Buf.owned = true
    by_cases hxs : x = s
    · subst hxs
      rw [Function.update_self]
      obtain ⟨c, hc, hOwned⟩ := lib_iff.mp (hKept.held x hx)
      cases hb.symm.trans hc
      exact hOwned
    · rw [Function.update_of_ne hxs]
      exact hKept.held x hx

/-- The client gives a text back. -/
theorem dropText (hKept : Kept h T kids) (hs : s ∈ T) (hLent : ¬ LentKey h s) :
    Kept (h.free (.buf s)) (T.erase s) kids := by
  have hDrop : h.free (.buf s) = h.dropBuf s := if_pos (hKept.held s hs)
  have hErase : ∀ x, x ∈ T.erase s ↔ x ≠ s ∧ x ∈ T := fun x => hKept.nodup.mem_erase_iff
  have hOld : ∀ x, x ≠ s → ((h.dropBuf s).lend (T.erase s)).bufs x = (h.lend T).bufs x := by
    intro x hx
    simp only [Heap.lend, Heap.dropBuf, Function.update_of_ne hx, hErase, hx, ne_eq,
      not_false_eq_true, true_and]
  have hNone : ((h.dropBuf s).lend (T.erase s)).bufs s = none :=
    lend_bufs_none (Function.update_self ..)
  rw [hDrop]
  refine hKept.caller ⟨bounded_lend ⟨fun ha => hKept.bounded.nodes ha, fun {x} hx => ?_⟩, rfl,
    fun x c hOwned => ?_, ?_, rfl⟩ (hKept.nodup.erase s) fun x hx => ?_
  · show Function.update h.bufs s none x = none
    by_cases hxs : x = s
    · rw [hxs, Function.update_self]
    · rw [Function.update_of_ne hxs]
      exact hKept.bounded.bufs hx
  · by_cases hxs : x = s
    · subst hxs
      rw [hNone]
      constructor
      · intro hEq
        cases hEq
      · intro hEq
        have hLib : (h.lend T).Lib x := lib_iff.mpr ⟨c, hEq, hOwned⟩
        exact absurd hs (lib_lend.mp hLib).2
    · rw [hOld x hxs]
  · intro a n x hn hConst hString
    have hxs : x ≠ s := fun hEq => hLent ⟨a, n, hn, hConst, hEq ▸ hString⟩
    rw [hOld x hxs]
    exact hKept.lentKey ⟨a, n, hn, hConst, hString⟩
  · obtain ⟨hne, hMem⟩ := (hErase x).mp hx
    show (Function.update h.bufs s none x).any Buf.owned = true
    rw [Function.update_of_ne hne]
    exact hKept.held x hMem

/-- A node gets other numbers. -/
theorem setNumbers (hKept : Kept h T kids) (hn : h.nodes a = some n) (i : Int) (x : F64) :
    Kept (h.setNode a { n with valuedouble := x, valueint := i }) T kids := by
  have hMap : ∀ {β : Type} (f : CNode → β), f { n with valuedouble := x, valueint := i } = f n →
      ∀ y, ((h.setNode a { n with valuedouble := x, valueint := i }).nodes y).map f
        = (h.nodes y).map f := by
    intro β f hf y
    by_cases hy : y = a
    · rw [hy, Heap.setNode_self, hn, Option.map_some, Option.map_some, hf]
    · rw [Heap.setNode_ne hy]
  have hSound := hKept.sound
  have hBounded : ((h.lend T).setNode a { n with valuedouble := x, valueint := i }).Bounded :=
    hSound.wf.bounded.setNode (show (h.lend T).nodes a = some n from hn)
  refine ⟨⟨hSound.wf.congr hBounded ?_ ?_, hSound.owned.congr (fun y _ => ?_) rfl⟩, hKept.misuses,
    hKept.nodup, hKept.held⟩
  · funext y
    exact hMap (fun m => (⟨m.prev, m.next⟩ : Link Addr)) rfl y
  · funext y
    exact hMap CNode.shape rfl y
  · exact hMap CNode.hold rfl y

/-! ### Requests -/

theorem print (std : StdF64) {item : Ptr} (hKept : Kept h T kids) (hItem : ReadableTree h item)
    (pretty : Bool) :
    ∃ p h', printImpl std item pretty h = .ok (p, h') ∧ Kept h' (p.toList ++ T) kids := by
  cases item with
  | none => exact ⟨none, h, rfl, hKept⟩
  | some a =>
    obtain ⟨t, ht⟩ := hItem a rfl
    rw [printImpl_node hKept.bounded ht]
    cases t.printed std pretty with
    | none => exact ⟨none, h, rfl, hKept⟩
    | some s =>
      by_cases hYes : h.outcomes 0 = true
      · exact ⟨some h.brk, _, if_pos hYes, hKept.pushText _⟩
      · exact ⟨none, _, if_neg hYes, hKept.tick⟩

theorem printPreallocated (std : StdF64) {item buffer : Ptr} {length : Int}
    (hKept : Kept h T kids) (hItem : ReadableTree h item)
    (hBuffer : ∀ s, buffer = some s → ∃ b, Mine h T s b ∧ length ≤ b.bytes.length) (format : Int) :
    ∃ r h', cjsonPrintPreallocated std item buffer length format h = .ok (r, h') ∧
      Kept h' T kids := by
  cases item with
  | none => exact ⟨false, h, rfl, hKept⟩
  | some a =>
    cases buffer with
    | none => exact ⟨false, h, rfl, hKept⟩
    | some s =>
      obtain ⟨t, ht⟩ := hItem a rfl
      obtain ⟨b, hMine, hLength⟩ := hBuffer s rfl
      rw [cjsonPrintPreallocated_run hKept.bounded ht hMine.1 hLength]
      cases t.printed std (decide (format ≠ 0)) with
      | none => exact ⟨false, h, rfl, hKept⟩
      | some text =>
        by_cases hFits : (encode text).length + 1 ≤ length
        · exact ⟨true, _, if_pos hFits, hKept.setBytes hMine _⟩
        · exact ⟨false, h, if_neg hFits, hKept⟩

theorem minify {json : Ptr} (hKept : Kept h T kids)
    (hJson : ∀ s, json = some s → ∃ b, Mine h T s b ∧ 0 ∈ b.bytes) :
    ∃ h', minifyAt json h = .ok ((), h') ∧ Kept h' T kids := by
  cases json with
  | none => exact ⟨h, rfl, hKept⟩
  | some s =>
    obtain ⟨b, hMine, hNul⟩ := hJson s rfl
    obtain ⟨text, rest, hBytes, hText⟩ := List.eq_append_cons_of_mem hNul
    obtain ⟨tail, hRun, -⟩ := Minify.minifyInPlace_run hText rest
    refine ⟨h.setBytes s b (Minify.strip .text text ++ 0 :: tail), ?_, hKept.setBytes hMine _⟩
    simp only [minifyAt, hMine.1, cjsonMinify, hBytes, hRun]

theorem setNumberHelper {object : Ptr} (hKept : Kept h T kids)
    (hLive : ∀ a, object = some a → (h.nodes a).isSome) (number : F64) :
    ∃ h', cjsonSetNumberHelper object number h = .ok (number, h') ∧ Kept h' T kids := by
  cases object with
  | none => exact ⟨h, rfl, hKept⟩
  | some a =>
    obtain ⟨n, hn⟩ := Option.isSome_iff_exists.mp (hLive a rfl)
    rw [cjsonSetNumberHelper_run hn]
    by_cases hTag : tag n.type_ = cjsonNumber
    · rw [if_pos hTag]
      exact ⟨_, rfl, hKept.setNumbers hn _ _⟩
    · exact ⟨h, by rw [if_neg hTag], hKept⟩

/-! ### Readers -/

theorem getObjectItem {object string : Ptr} (hKept : Kept h T kids)
    (hAdm : ∀ a s, object = some a → string = some s →
      h.Readable s ∧ ∃ as, Listed h a as ∧ KeysReadable h as) (cs : Bool) :
    ∃ p, getObjectItemImpl object string cs h = .ok (p, h) := by
  cases object with
  | none => exact ⟨none, rfl⟩
  | some a =>
    cases string with
    | none => exact ⟨none, rfl⟩
    | some s =>
      obtain ⟨hRead, as, ⟨n, hn, hList, hNodup⟩, hKeys⟩ := hAdm a s rfl rfl
      refine ⟨_, getObjectItemImpl_run hKept.bounded hn hList hNodup hKeys fun x hx => ?_⟩
      cases hx
      exact hRead

theorem toValue {item : Ptr} (hKept : Kept h T kids) (hItem : ReadableTree h item) :
    ∃ v, cjsonToValue item h = .ok (v, h) := by
  cases item with
  | none => exact ⟨none, rfl⟩
  | some a =>
    obtain ⟨t, ht⟩ := hItem a rfl
    exact ⟨_, cjsonToValue_run hKept.bounded ht⟩

theorem compare {x y : Ptr} (hKept : Kept h T kids) (hx : ReadableTree h x)
    (hy : ReadableTree h y) (cs : Int) : ∃ r, cjsonCompare x y cs h = .ok (r, h) := by
  obtain ⟨v, hv⟩ := hKept.toValue hx
  obtain ⟨w, hw⟩ := hKept.toValue hy
  rw [cjsonCompare, Run.ite_run]
  split_ifs
  · exact ⟨false, rfl⟩
  · rw [Run.bind_run_ok hv, Run.bind_run_ok hw]
    cases v with
    | none => exact ⟨false, rfl⟩
    | some v =>
      cases w with
      | none => exact ⟨false, rfl⟩
      | some w => exact ⟨_, rfl⟩

/-- A reader of a node returns, and changes nothing. -/
theorem readNode {β : Type} {item : Ptr} {x : β} {f : CNode → M β}
    (hLive : ∀ a, item = some a → (h.nodes a).isSome) (hf : ∀ n, ∃ r, f n h = .ok (r, h)) :
    ∃ r, (if item.isNone then pure x else load item >>= f : M β) h = .ok (r, h) := by
  cases item with
  | none => exact ⟨x, rfl⟩
  | some a =>
    obtain ⟨n, hn⟩ := Option.isSome_iff_exists.mp (hLive a rfl)
    obtain ⟨r, hr⟩ := hf n
    exact ⟨r, (Run.bind_run_ok (load_run hn)).trans hr⟩

/-! ### All requests -/

/-- A request that respects the contract returns and keeps the invariant. -/
theorem request (std : StdF64) {q : Request} (hKept : Kept h T kids)
    (hAdm : q.Admissible h kids T) :
    ∃ r h' kids', q.run std h = .ok (r, h') ∧ Kept h' (q.texts T r) kids' := by
  cases q with
  | call c =>
    obtain ⟨hCall, hLends, hPass⟩ := hAdm
    have hWf : WellFormed 0 h kids := hKept.sound.wf.of_nodes hKept.bounded rfl
    have hMeets : Run.Meets (c.run std) h _ (Atomic h) := c.run_meets hKept.bounded
    obtain ⟨r, h', hRun, -⟩ := hMeets.returns ⟨kids, hWf, hCall⟩
    obtain ⟨kids', hKept'⟩ := hKept.call hCall hLends hPass hRun
    exact ⟨.reply r, h', kids', Run.map_run_ok hRun, hKept'⟩
  | print item =>
    obtain ⟨p, h', hRun, hKept'⟩ := hKept.print std hAdm true
    refine ⟨.item p, h', kids, Run.map_run_ok hRun, ?_⟩
    cases p <;> exact hKept'
  | printUnformatted item =>
    obtain ⟨p, h', hRun, hKept'⟩ := hKept.print std hAdm false
    refine ⟨.item p, h', kids, Run.map_run_ok hRun, ?_⟩
    cases p <;> exact hKept'
  | printBuffered item prebuffer fmt =>
    obtain ⟨p, h', hRun, hKept'⟩ : ∃ p h', cjsonPrintBuffered std item prebuffer fmt h = .ok (p, h')
        ∧ Kept h' (p.toList ++ T) kids := by
      rw [cjsonPrintBuffered]
      split_ifs
      · exact hKept.print std hAdm true
      · exact hKept.print std hAdm false
    refine ⟨.item p, h', kids, Run.map_run_ok hRun, ?_⟩
    cases p <;> exact hKept'
  | printPreallocated item buffer length format =>
    obtain ⟨r, h', hRun, hKept'⟩ := hKept.printPreallocated std hAdm.1 hAdm.2 format
    exact ⟨.flag r, h', kids, Run.map_run_ok hRun, hKept'⟩
  | minify json =>
    obtain ⟨h', hRun, hKept'⟩ := hKept.minify hAdm
    exact ⟨.done, h', kids, Run.map_run_ok hRun, hKept'⟩
  | test t item =>
    obtain ⟨r, hRun⟩ : ∃ r, t.run item h = .ok (r, h) := by
      cases t <;> exact readNode hAdm fun n => ⟨_, rfl⟩
    exact ⟨.flag r, h, kids, Run.map_run_ok hRun, hKept⟩
  | getArraySize array =>
    obtain ⟨r, hRun⟩ : ∃ r, cjsonGetArraySize array h = .ok (r, h) := by
      cases array with
      | none => exact ⟨0, rfl⟩
      | some a =>
        obtain ⟨as, n, hn, hList, hNodup⟩ := hAdm a rfl
        exact ⟨_, cjsonGetArraySize_run hKept.bounded hn hList hNodup⟩
    exact ⟨.int r, h, kids, Run.map_run_ok hRun, hKept⟩
  | getArrayItem array index =>
    obtain ⟨r, hRun⟩ : ∃ r, cjsonGetArrayItem array index h = .ok (r, h) := by
      cases array with
      | none => exact ⟨none, rfl⟩
      | some a =>
        obtain ⟨as, n, hn, hList, hNodup⟩ := hAdm.2 a rfl
        exact ⟨_, cjsonGetArrayItem_run hKept.bounded hn hList hNodup hAdm.1⟩
    exact ⟨.item r, h, kids, Run.map_run_ok hRun, hKept⟩
  | getObjectItem object string =>
    obtain ⟨p, hRun⟩ := hKept.getObjectItem hAdm false
    exact ⟨.item p, h, kids, Run.map_run_ok hRun, hKept⟩
  | getObjectItemCaseSensitive object string =>
    obtain ⟨p, hRun⟩ := hKept.getObjectItem hAdm true
    exact ⟨.item p, h, kids, Run.map_run_ok hRun, hKept⟩
  | hasObjectItem object string =>
    obtain ⟨p, hRun⟩ := hKept.getObjectItem hAdm false
    exact ⟨.flag p.isSome, h, kids, Run.map_run_ok ((Run.bind_run_ok hRun).trans rfl), hKept⟩
  | getStringValue item =>
    obtain ⟨r, hRun⟩ : ∃ r, cjsonGetStringValue item h = .ok (r, h) :=
      readNode hAdm fun n => by
        rw [Run.ite_run]
        split_ifs <;> exact ⟨_, rfl⟩
    exact ⟨.item r, h, kids, Run.map_run_ok hRun, hKept⟩
  | getNumberValue item =>
    obtain ⟨r, hRun⟩ : ∃ r, cjsonGetNumberValue item h = .ok (r, h) :=
      readNode hAdm fun n => by
        rw [Run.ite_run]
        split_ifs <;> exact ⟨_, rfl⟩
    exact ⟨.double r, h, kids, Run.map_run_ok hRun, hKept⟩
  | compare x y cs =>
    obtain ⟨r, hRun⟩ := hKept.compare hAdm.1 hAdm.2 cs
    exact ⟨.flag r, h, kids, Run.map_run_ok hRun, hKept⟩
  | setNumberHelper object number =>
    obtain ⟨h', hRun, hKept'⟩ := hKept.setNumberHelper hAdm number
    exact ⟨.double number, h', kids, Run.map_run_ok hRun, hKept'⟩
  | getErrorPtr => exact ⟨.charPtr h.lastError, h, kids, rfl, hKept⟩
  | malloc bytes =>
    by_cases hYes : h.outcomes 0 = true
    · have hRun : cjsonMalloc bytes h = .ok (some h.brk, h.tick.pushBuf bytes) := if_pos hYes
      exact ⟨.item (some h.brk), _, kids, Run.map_run_ok hRun, hKept.pushText bytes⟩
    · have hRun : cjsonMalloc bytes h = .ok (none, h.tick) := if_neg hYes
      exact ⟨.item none, _, kids, Run.map_run_ok hRun, hKept.tick⟩
  | free object =>
    cases object with
    | none => exact ⟨.done, h, kids, rfl, hKept⟩
    | some x =>
      obtain ⟨s, hs, rfl, hLent⟩ := hAdm x rfl
      exact ⟨.done, h.free (.buf s), kids, rfl, hKept.dropText hs hLent⟩

end Kept

/-! ## Sessions -/

/-- The heap, and the texts that the client holds. -/
structure Session where
  heap : Heap
  texts : List Addr

/-- A request that respects the contract, or a step of the client, which may also write to the
texts that it holds. -/
inductive Session.Step (std : StdF64) : Session → Session → Prop
  | request {q : Request} {h h' : Heap} {T : List Addr} {r : Answer} {kids : Addr → List Addr}
      (hTrees : Represents 0 h kids) (hAdm : q.Admissible h kids T)
      (hRun : q.run std h = .ok (r, h')) : Session.Step std ⟨h, T⟩ ⟨h', q.texts T r⟩
  | caller {h h' : Heap} {T : List Addr} (hStep : CallerStep (h.lend T) (h'.lend T))
      (hHeld : ∀ s ∈ T, h'.Lib s) : Session.Step std ⟨h, T⟩ ⟨h', T⟩

/-- The books of a session: what every block of the library is there for. -/
structure Accounted (h : Heap) (T : List Addr) (kids : Addr → List Addr) : Prop where
  /-- The free hook was only handed live blocks of the library. -/
  misuses : h.misuses = []
  nodup : T.Nodup
  /-- No node frees a text that the client holds. -/
  held : ∀ s ∈ T, h.Lib s ∧ ∀ a, s ∉ h.textsAt a
  /-- Every other buffer of the library is freed with one node, once. -/
  text : ∀ {s}, h.Lib s → s ∉ T → ∃! a, s ∈ h.textsAt a
  once : ∀ {a}, (h.textsAt a).Nodup
  root : ∀ {a}, (h.nodes a).isSome → ∃! r, (h.nodes r).isSome ∧ IsRoot kids r ∧ Below kids r a
  /-- Without a root, the texts that the client holds are all that is left. -/
  ended : (∀ r, (h.nodes r).isSome → ¬ IsRoot kids r) →
    (∀ a, h.nodes a = none) ∧ ∀ s, h.Lib s ↔ s ∈ T

namespace Kept

theorem accounted (hKept : Kept h T kids) : Accounted h T kids := by
  have hCustody : Custody (h.lend T) kids := hKept.sound.custody hKept.misuses
  refine ⟨hKept.misuses, hKept.nodup, fun s hs => ⟨hKept.held s hs, fun a hMem => ?_⟩,
    fun {s} hLib hs => hCustody.text (lib_lend.mpr ⟨hLib, hs⟩), hCustody.nodup, hCustody.root,
    fun hNone => ?_⟩
  · have hLib : (h.lend T).Lib s := (hKept.sound.owned.live (Nat.zero_le a) hMem).2
    exact (lib_lend.mp hLib).2 hs
  · obtain ⟨hNodes, hNoLib⟩ := hCustody.ended hNone
    refine ⟨hNodes, fun s => ⟨fun hLib => ?_, hKept.held s⟩⟩
    by_contra hs
    exact hNoLib s (lib_lend.mpr ⟨hLib, hs⟩)

/-- A step of a session keeps the invariant. -/
theorem step {S S' : Session} (hKept : Kept S.heap S.texts kids) (hStep : Session.Step std S S') :
    ∃ kids', Kept S'.heap S'.texts kids' := by
  cases hStep with
  | request hTrees hAdm hRun =>
    rw [hTrees.unique hKept.trees] at hAdm
    obtain ⟨r, h', kids', hRun', hKept'⟩ := hKept.request std hAdm
    cases hRun.symm.trans hRun'
    exact ⟨kids', hKept'⟩
  | caller hStep hHeld => exact ⟨kids, hKept.caller hStep hKept.nodup hHeld⟩

theorem run {S S' : Session} (hKept : Kept S.heap S.texts kids)
    (hRuns : Relation.ReflTransGen (Session.Step std) S S') :
    ∃ kids', Kept S'.heap S'.texts kids' := by
  induction hRuns with
  | refl => exact ⟨kids, hKept⟩
  | tail _ hStep ih =>
    obtain ⟨kids', hKept'⟩ := ih
    exact hKept'.step hStep

end Kept

/-- In every session of admissible requests (which pass no constant key on without its flag, and
actual children by pointer) all blocks of the library are accounted for, and every admissible
request returns. -/
theorem session_accounted (hStart : Start h₀)
    (hRuns : Relation.ReflTransGen (Session.Step std) ⟨h₀, []⟩ ⟨h, T⟩) :
    ∃ kids, Represents 0 h kids ∧ Accounted h T kids ∧
      ∀ q : Request, q.Admissible h kids T → ∃ r h', q.run std h = .ok (r, h') := by
  obtain ⟨kids, hKept⟩ := (Kept.start hStart).run hRuns
  refine ⟨kids, hKept.trees, hKept.accounted, fun q hAdm => ?_⟩
  obtain ⟨r, h', -, hRun, -⟩ := hKept.request std hAdm
  exact ⟨r, h', hRun⟩

/-! ## A session with a document -/

/-- The request respects the contract on a heap without handed texts, hands none out and leaves
the second heap. -/
def Request.Succeeds (q : Request) (h h' : Heap) : Prop :=
  ∃ kids r, Represents 0 h kids ∧ q.Admissible h kids [] ∧
    q.run Rfc.sampleF64 h = .ok (r, h') ∧ q.texts [] r = []

theorem Request.Succeeds.step {q : Request} (h : q.Succeeds h₀ h') :
    Session.Step Rfc.sampleF64 ⟨h₀, []⟩ ⟨h', []⟩ := by
  obtain ⟨kids, r, hTrees, hAdm, hRun, hTexts⟩ := h
  have hStep : Session.Step Rfc.sampleF64 ⟨h₀, []⟩ ⟨h', q.texts [] r⟩ :=
    .request hTrees hAdm hRun
  rw [hTexts] at hStep
  exact hStep

theorem Kept.succeeds {q : Request} {r : Answer} (hKept : Kept h [] kids)
    (hAdm : q.Admissible h kids []) (hRun : q.run Rfc.sampleF64 h = .ok (r, h'))
    (hTexts : q.texts [] r = []) : q.Succeeds h h' ∧ ∃ kids', Kept h' [] kids' := by
  obtain ⟨r', g, kids', hRun', hKept'⟩ := hKept.request Rfc.sampleF64 hAdm
  cases hRun.symm.trans hRun'
  rw [hTexts] at hKept'
  exact ⟨⟨kids, r, hKept.trees, hAdm, hRun, hTexts⟩, kids', hKept'⟩

/-- No node has `a` as its first child. -/
def notFirst (h : Heap) (a : Addr) : Bool :=
  (List.range h.brk).all fun p => (h.nodes p).all fun n => n.child != some a

/-- A node without a predecessor that is no first child is a root. -/
theorem Represents.isRoot_of_notFirst {q : Ptr} (hTrees : Represents 0 h kids)
    (hBounded : h.Bounded) (hLink : h.link a = some ⟨none, q⟩) (hFirst : notFirst h a = true) :
    IsRoot kids a := by
  intro p ha
  obtain ⟨-, hN, n, hn, hRef⟩ := hTrees.parent ha
  have hList := hTrees.lists hN hn hRef
  obtain ⟨xs, ys, hEq⟩ := List.append_of_mem ha
  rw [hEq] at hList
  obtain ⟨prev, next, hAround⟩ := hList.around
  cases hLink.symm.trans hAround.cell
  rcases hAround.before with ⟨-, hChild⟩ | ⟨b, _, hPrev, -⟩
  · have hLt : p < h.brk := hBounded.lt hn
    have hNe := List.all_eq_true.mp hFirst p (List.mem_range.mpr hLt)
    rw [hn, Option.all_some, hChild, bne_self_eq_false] at hNe
    cases hNe
  · cases hPrev

/-- The client's text `["a\u0000b"]` at 0. -/
def documentText : Heap := oneString (nulDocument ++ [0])

/-- It is parsed, a `null` is inserted before the string, the string is looked up, and the array
is deleted. -/
theorem session_succeeds : ∃ h₁ h₂ h₃ h₄,
    (Request.call (.parse (some 0))).Succeeds documentText h₁ ∧
    (Request.call (.create .null)).Succeeds h₁ h₂ ∧
    (Request.call (.edit (.insertItemInArray (some 1) 0 (some 4)))).Succeeds h₂ h₃ ∧
    (Request.getArrayItem (some 1) 1).Succeeds h₃ h₃ ∧
    (Request.call (.delete (some 1))).Succeeds h₃ h₄ := by
  have hText : TextAt documentText (some 0) (some nulDocument) := textAt_oneString (by decide)
  have hParse := cjsonParse_eq hText (by decide) parse_nulDocument
  -- All heaps are computed; what the contracts ask of them is read off.
  obtain ⟨h₁, h₂, h₃, h₄, hTree, ⟨hNull, hArray, hLeaf, hLink, hFirst⟩,
      ⟨hInsert, hArray', hLink', hFirst'⟩, hLookup, hDelete⟩ : ∃ h₁ h₂ h₃ h₄,
      valueToCjson (.array [.string ['a', '\x00', 'b']]) { documentText with lastError := none }
        = .ok (some 1, h₁) ∧
      ((Request.call (.create .null)).run Rfc.sampleF64 h₁ = .ok (.item (some 4), h₂) ∧
        Mutable 0 h₂ 1 ∧ (∃ n, h₂.nodes 4 = some n ∧ n.isRef = false ∧ n.child = none) ∧
        h₂.link 4 = some ⟨none, none⟩ ∧ notFirst h₂ 4 = true) ∧
      ((Request.call (.edit (.insertItemInArray (some 1) 0 (some 4)))).run Rfc.sampleF64 h₂
          = .ok (.flag true, h₃) ∧
        Mutable 0 h₃ 1 ∧ h₃.link 1 = some ⟨none, none⟩ ∧ notFirst h₃ 1 = true) ∧
      (Request.getArrayItem (some 1) 1).run Rfc.sampleF64 h₃ = .ok (.item (some 2), h₃) ∧
      (Request.call (.delete (some 1))).run Rfc.sampleF64 h₃ = .ok (.done, h₄) :=
    ⟨_, _, _, _, rfl, ⟨rfl, ⟨Nat.zero_le 1, _, rfl, rfl⟩, ⟨_, rfl, rfl, rfl⟩, rfl, rfl⟩,
      ⟨rfl, ⟨Nat.zero_le 1, _, rfl, rfl⟩, rfl, rfl⟩, rfl, rfl⟩
  have hReads : (Request.call (.parse (some 0))).Admissible documentText (fun _ => []) [] := by
    refine ⟨fun s hs => ?_, trivial, id⟩
    cases hs
    exact ⟨_, rfl, by decide⟩
  obtain ⟨hStep₁, kids₁, hKept₁⟩ := (Kept.start (start_oneString _)).succeeds hReads
    (Run.map_run_ok (Run.map_run_ok (hParse.trans hTree))) rfl
  have hCreates : (Request.call (.create .null)).Admissible h₁ kids₁ [] := ⟨trivial, trivial, id⟩
  obtain ⟨hStep₂, kids₂, hKept₂⟩ := hKept₁.succeeds hCreates hNull rfl
  have hAdds : (Request.call (.edit (.insertItemInArray (some 1) 0 (some 4)))).Admissible
      h₂ kids₂ [] := by
    refine ⟨fun p i hp hi => ?_, trivial, id⟩
    cases hp
    cases hi
    obtain ⟨n, hn, hRef, hChild⟩ := hLeaf
    have hRoot : IsRoot kids₂ 4 := hKept₂.trees.isRoot_of_notFirst hKept₂.bounded hLink hFirst
    have hNil : kids₂ 4 = [] := by
      have hList := hKept₂.trees.lists (Nat.zero_le 4) hn hRef
      rw [hChild] at hList
      exact hList.unique isList_nil
    refine ⟨hArray, Nat.zero_le 4, by rw [hn]; rfl, hRoot, fun hBelow => ?_⟩
    rw [below_leaf hNil] at hBelow
    cases hBelow
  obtain ⟨hStep₃, kids₃, hKept₃⟩ := hKept₂.succeeds hAdds hInsert rfl
  have hLooks : (Request.getArrayItem (some 1) 1).Admissible h₃ kids₃ [] := by
    refine ⟨by decide, fun a ha => ?_⟩
    cases ha
    obtain ⟨hN, n, hn, hRef⟩ := hArray'
    exact ⟨kids₃ 1, n, hn, hKept₃.trees.lists hN hn hRef, hKept₃.trees.forest.nodup 1⟩
  obtain ⟨hStep₄, -⟩ := hKept₃.succeeds hLooks hLookup rfl
  have hDeletes : (Request.call (.delete (some 1))).Admissible h₃ kids₃ [] := by
    refine ⟨fun a ha => ?_, trivial, id⟩
    cases ha
    obtain ⟨-, n, hn, -⟩ := hArray'
    exact ⟨by rw [hn]; rfl, hKept₃.trees.isRoot_of_notFirst hKept₃.bounded hLink' hFirst'⟩
  obtain ⟨hStep₅, -⟩ := hKept₃.succeeds hDeletes hDelete rfl
  exact ⟨h₁, h₂, h₃, h₄, hStep₁, hStep₂, hStep₃, hStep₄, hStep₅⟩

theorem session_accounted_document : ∃ h₁ h₂ h₃ h₄,
    (Request.call (.parse (some 0))).Succeeds documentText h₁ ∧
    (Request.call (.create .null)).Succeeds h₁ h₂ ∧
    (Request.call (.edit (.insertItemInArray (some 1) 0 (some 4)))).Succeeds h₂ h₃ ∧
    (Request.getArrayItem (some 1) 1).Succeeds h₃ h₃ ∧
    (Request.call (.delete (some 1))).Succeeds h₃ h₄ ∧
    ∃ kids, Represents 0 h₄ kids ∧ Accounted h₄ [] kids ∧
      ∀ q : Request, q.Admissible h₄ kids [] → ∃ r h', q.run Rfc.sampleF64 h₄ = .ok (r, h') := by
  obtain ⟨h₁, h₂, h₃, h₄, hParse, hNull, hInsert, hLookup, hDelete⟩ := session_succeeds
  refine ⟨h₁, h₂, h₃, h₄, hParse, hNull, hInsert, hLookup, hDelete, ?_⟩
  exact session_accounted (start_oneString _) (.tail (.tail (.tail (.tail (.tail .refl hParse.step)
    hNull.step) hInsert.step) hLookup.step) hDelete.step)

end CjsonRs.Ffi
