import CjsonRs.Ffi.Mirroring

/-!
# Sessions on documents

A session of a client is a run of documents: every request does to the documents what it says, and
is answered as they have it. The client holds printed texts in between, which are no part of the
documents; it keeps the names that it has lent as they are, and makes no references.
-/

namespace CjsonRs.Ffi

open CjsonRs.Core Library Library.Link Library.Forest

variable {h h' g h₀ : Heap} {a p s x : Addr} {n : CNode} {q item : Ptr} {T : List Addr} {b : Buf}
  {text : Option (List UInt8)} {l : Option Label} {L : Addr → Option Label} {D D' : Documents}
  {std : StdF64} {value : Ptr} {t : CTree}

/-! ## Held texts -/

theorem chars_lend (q : Ptr) : (h.lend T).chars q = h.chars q := by
  cases q with
  | none => rfl
  | some s =>
    simp only [Heap.chars, Option.bind_eq_bind, Option.bind_some]
    cases hb : h.bufs s with
    | none => rw [lend_bufs_none hb]
    | some b =>
      rw [lend_bufs hb]
      rfl

theorem textAt_iff : TextAt h (some s) text ↔ h.Readable s ∧ h.chars (some s) = text := by
  constructor
  · intro hText
    refine ⟨?_, hText.chars⟩
    obtain ⟨b, hb, hNul, -⟩ := hText
    exact ⟨b, hb, hNul⟩
  · intro ⟨hRead, hChars⟩
    rw [← hChars]
    exact textAt_chars hRead

theorem textAt_of_lend (hText : TextAt (h.lend T) q text) : TextAt h q text := by
  cases q with
  | none => exact hText
  | some s =>
    rw [textAt_iff, readable_lend, chars_lend] at hText
    exact textAt_iff.mpr hText

theorem labelled_of_lend {k : Label} (hl : Labelled (h.lend T) n k) : Labelled h n k :=
  ⟨hl.tag, textAt_of_lend hl.valuestring, hl.valuedouble, textAt_of_lend hl.string⟩

theorem wears_lend : Wears (h.lend T) x l ↔ Wears h x l := by
  cases hn : h.nodes x with
  | none => rw [wears_none hn, wears_none (show (h.lend T).nodes x = none from hn)]
  | some n =>
    rw [wears_some hn, wears_some (show (h.lend T).nodes x = some n from hn)]
    constructor
    · intro ⟨hRef, k, hk, hl⟩
      exact ⟨hRef, k, hk, labelled_of_lend hl⟩
    · intro ⟨hRef, k, hk, hl⟩
      exact ⟨hRef, k, hk, labelled_lend hl⟩

theorem depicts_lend : Depicts (h.lend T) L ↔ Depicts h L := forall_congr' fun _ => wears_lend

theorem exists_lend {P : List UInt8 → Prop} :
    (∃ b, (h.lend T).bufs s = some b ∧ P b.bytes) ↔ ∃ b, h.bufs s = some b ∧ P b.bytes := by
  constructor
  · intro ⟨b, hb, hP⟩
    cases hOld : h.bufs s with
    | none =>
      rw [lend_bufs_none hOld] at hb
      cases hb
    | some c =>
      rw [lend_bufs hOld] at hb
      cases hb
      exact ⟨c, rfl, hP⟩
  · intro ⟨b, hb, hP⟩
    exact ⟨_, lend_bufs hb, hP⟩

theorem ParseCall.reads_lend {call : ParseCall} {bytes : List UInt8} :
    call.Reads (h.lend T) s bytes ↔ call.Reads h s bytes := by
  cases call with
  | parse => exact exists_lend (P := fun all => 0 ∈ all ∧ bytes = cstr all)
  | withLength len => exact exists_lend (P := fun all => len ≤ all.length ∧ bytes = all.take len)
  | withOpts => exact exists_lend (P := fun all => 0 ∈ all ∧ bytes = cstr all)
  | withLengthOpts len =>
    exact exists_lend (P := fun all => len ≤ all.length ∧ bytes = all.take len)

theorem Construct.tree_lend (c : Construct) : c.tree (h.lend T) = c.tree h := by
  cases c <;> simp only [tree, value, text_lend]

theorem Edit.plan_lend (e : Edit) : e.plan D (h.lend T) = e.plan D h := by
  have hOutcomes : (h.lend T).outcomes = h.outcomes := rfl
  cases e with
  | addItemToArray array item => cases array <;> cases item <;> rfl
  | addItemToObject object name item =>
    cases object <;> cases name <;> cases item <;>
      simp only [plan, text_lend, chars_lend, hOutcomes]
  | addItemToObjectCS object name item =>
    cases object <;> cases name <;> cases item <;> simp only [plan, chars_lend]
  | insertItemInArray array which newitem => cases array <;> cases newitem <;> rfl
  | detachItemViaPointer parent item => cases parent <;> cases item <;> rfl
  | detachItemFromArray array which => cases array <;> rfl
  | detachItemFromObject cs object string => cases object <;> simp only [plan, text_lend]
  | deleteItemFromArray array which => cases array <;> rfl
  | deleteItemFromObject cs object string => cases object <;> simp only [plan, text_lend]
  | replaceItemViaPointer parent item replacement =>
    cases parent <;> cases item <;> cases replacement <;> rfl
  | replaceItemInArray array which newitem => cases array <;> cases newitem <;> rfl
  | replaceItemInObject cs object string newitem =>
    cases object <;> cases newitem <;> simp only [plan, text_lend]

theorem Documents.reads_lend {call : ParseCall} {v : Value} :
    Reads std (h.lend T) call value v ↔ Reads std h call value v := by
  simp only [Reads, ParseCall.reads_lend]

theorem Documents.fits_lend {object name : Ptr} {m : Member} :
    D.Fits (h.lend T) object name m p t ↔ D.Fits h object name m p t := by
  constructor
  · intro hFits
    refine ⟨hFits.object, hFits.tag, ?_, ?_, hFits.memory⟩
    · rw [← text_lend]
      exact hFits.name
    · rw [← Construct.tree_lend]
      exact hFits.member
  · intro hFits
    refine ⟨hFits.object, hFits.tag, ?_, ?_, hFits.memory⟩
    · rw [text_lend]
      exact hFits.name
    · rw [Construct.tree_lend]
      exact hFits.member

theorem Documents.settable_lend {object valuestring : Ptr} :
    D.Settable (h.lend T) object valuestring a ↔ D.Settable h object valuestring a := by
  constructor
  · intro hSettable
    refine ⟨hSettable.object, hSettable.tag, ?_, hSettable.memory⟩
    rw [← text_lend]
    exact hSettable.text
  · intro hSettable
    refine ⟨hSettable.object, hSettable.tag, ?_, hSettable.memory⟩
    rw [text_lend]
    exact hSettable.text

/-- What a call does does not depend on who owns the texts. -/
theorem Documents.afterCall_of_lend {c : Call} {r : Reply}
    (hAfter : D.AfterCall std (h.lend T) c r D') : D.AfterCall std h c r D' := by
  have hParsing : ∀ {c : Call}, (∀ call value, c.parsing = some (call, value) →
        ∃ q, r = .item q ∧ D.Parses std (h.lend T) call value q D') →
      ∀ call value, c.parsing = some (call, value) →
        ∃ q, r = .item q ∧ D.Parses std h call value q D' := by
    intro c hAll call value hc
    obtain ⟨q, hr, hParses⟩ := hAll call value hc
    simp only [Parses, reads_lend] at hParses
    exact ⟨q, hr, hParses⟩
  cases c with
  | parse value => exact hParsing hAfter
  | parseWithLength value len => exact hParsing hAfter
  | parseWithOpts value wantEnd strict => exact hParsing hAfter
  | parseWithLengthOpts value len wantEnd strict => exact hParsing hAfter
  | create c =>
    obtain ⟨q, hr, hGains⟩ := hAfter
    rw [Construct.tree_lend] at hGains
    exact ⟨q, hr, hGains⟩
  | edit e =>
    have hOutcome : e.outcome D (h.lend T) = e.outcome D h := by
      rw [Edit.outcome, Edit.plan_lend]
      rfl
    exact Eq.trans hAfter hOutcome
  | addToObject object name m =>
    obtain ⟨q, hr, hAdds⟩ := hAfter
    simp only [Adds, fits_lend, chars_lend] at hAdds
    exact ⟨q, hr, hAdds⟩
  | setValuestring object valuestring =>
    obtain ⟨q, hr, hSets⟩ := hAfter
    simp only [SetsText, settable_lend, chars_lend] at hSets
    exact ⟨q, hr, hSets⟩
  | duplicate item recurse => exact hAfter
  | delete item => exact hAfter
  | addItemReferenceToArray => exact hParsing hAfter
  | addItemReferenceToObject => exact hParsing hAfter

/-! ## The invariant -/

/-- The books of a session with the documents that the heap depicts. -/
structure Carries (h : Heap) (T : List Addr) (D : Documents) : Prop where
  kept : Kept h T D.children
  depicts : Depicts h D.label

/-- The requests that make no reference, lend no unterminated name, and write to no lent one. -/
def Request.Plain (h : Heap) : Request → Prop
  | call c => c.Plain h
  | printPreallocated _ buffer _ _ => ∀ s, buffer = some s → ¬ LentKey h s
  | minify json => ∀ s, json = some s → ¬ LentKey h s
  | _ => True

/-- The request returns, does to the documents what it says, and is answered as they have it. -/
def Request.Mirrors (std : StdF64) (h : Heap) (T : List Addr) (D : Documents)
    (q : Request) : Prop :=
  ∃ r h' D', q.run std h = .ok (r, h') ∧ Carries h' (q.texts T r) D' ∧ D.After std h q r D' ∧
    D.Answers std h q r h'

/-- Nodes and the texts they use stay. -/
theorem Depicts.of_uses (hDepicts : Depicts h L) (hNodes : h'.nodes = h.nodes)
    (hBufs : ∀ x n s, h.nodes x = some n → n.Uses s → h'.bufs s = h.bufs s) : Depicts h' L := by
  intro x
  apply (hDepicts x).of_bare (bare_of_nodes (congrFun hNodes x))
  intro n s hn hs
  exact hBufs x n s hn hs

namespace Carries

theorem start (hStart : Start h) : Carries h [] Documents.empty where
  kept := Kept.start hStart
  depicts x := (wears_none (hStart.nodes x)).mpr rfl

/-- With the held texts taken for the client's, the heap is sound. -/
theorem portrays (hC : Carries h T D) : Portrays (h.lend T) D :=
  ⟨hC.kept.sound, depicts_lend.mpr hC.depicts⟩

theorem bounded (hC : Carries h T D) : h.Bounded := hC.kept.bounded

/-- What a node uses is a text of the library that the client does not hold, or a name lent to
it. -/
theorem uses (hC : Carries h T D) (hn : h.nodes x = some n) (hs : n.Uses s) :
    (h.Lib s ∧ s ∉ T) ∨ LentKey h s := by
  have hOwned := hC.kept.sound.owned
  have hRef := (hC.depicts.node hn).1
  rcases uses_cases hOwned (show (h.lend T).nodes x = some n from hn) hRef hs with
    hMem | ⟨b, -, -, hConst, hString⟩
  · exact Or.inl (lib_lend.mp (hOwned.live (Nat.zero_le x) hMem).2)
  · exact Or.inr ⟨x, n, hn, hConst, hString⟩

/-- A buffer that the client may write to, and that is not lent, is used by no node. -/
theorem unused (hC : Carries h T D) (hMine : Mine h T s b) (hLent : ¬ LentKey h s)
    (hn : h.nodes x = some n) : ¬ n.Uses s := by
  intro hs
  rcases hC.uses hn hs with ⟨hLib, hNot⟩ | hKey
  · obtain ⟨hb, hOwned | hMem⟩ := hMine
    · rw [Heap.Lib, hb, Option.any_some, hOwned] at hLib
      cases hLib
    · exact hNot hMem
  · exact hLent hKey

/-- What is used is older than the next block. -/
theorem used_old (hC : Carries h T D) (hn : h.nodes x = some n) (hs : n.Uses s) : s ≠ h.brk := by
  obtain ⟨-, k, -, hl⟩ := hC.depicts.node hn
  obtain ⟨b, hb⟩ := hl.uses hs
  exact Nat.ne_of_lt (hC.bounded.lt_buf hb)

theorem tree (hC : Carries h T D) (ha : (h.nodes a).isSome) : ∃ t, D.Tree a t ∧ Denotes h a t := by
  obtain ⟨t, ht⟩ := hC.depicts.exists_tree hC.kept.trees ha
  exact ⟨t, ht, denotes_of_tree hC.depicts hC.kept.trees ht⟩

/-- An item that can be read is a document. -/
theorem readable (hC : Carries h T D) (hItem : ReadableTree h item) (ha : item = some a) :
    ∃ t, D.Tree a t ∧ Denotes h a t := by
  obtain ⟨t, ht⟩ := hItem a ha
  apply hC.tree
  cases t with
  | node l ts =>
    obtain ⟨n, hn, -⟩ := ht
    rw [hn]
    rfl

/-- The children of a node, as its readers find them. -/
theorem list (hC : Carries h T D) (hn : h.nodes a = some n) :
    IsList h.link n.child (D.children a) ∧ (D.children a).Nodup :=
  ⟨hC.kept.trees.lists (Nat.zero_le a) hn (hC.depicts.node hn).1,
    hC.kept.trees.forest.nodup a⟩

/-! ## Calls -/

theorem call {c : Call} (hC : Carries h T D) (hAdm : c.Admissible h D.children)
    (hLends : c.Lends (h.lend T)) (hPass : ¬ c.PassesName h D.children) (hPlain : c.Plain h) :
    (Request.call c).Mirrors std h T D := by
  obtain ⟨r, h', -, hRun, -⟩ := hC.kept.request std (q := .call c) ⟨hAdm, hLends, hPass⟩
  obtain ⟨g, hLent, hClean⟩ := Request.run_lend hC.bounded hC.kept.held hRun
  have hPlain' : c.Plain (h.lend T) := by
    cases c with
    | edit e =>
      cases e with
      | addItemToObjectCS object name item =>
        intro s hs
        exact readable_lend.mpr (hPlain s hs)
      | _ => exact trivial
    | _ => exact hPlain
  obtain ⟨r', g', D', hCall, hMisuses, hP, hAfter⟩ :=
    c.mirrors std hC.portrays (Call.admissible_lend hAdm) hLends
      (fun hPasses => hPass (Call.passesName_lend hPasses)) hPlain'
  cases hLent.symm.trans (Run.map_run_ok hCall)
  obtain ⟨rfl, hHeld⟩ := hClean hMisuses
  refine ⟨.reply r', h', D', hRun, ⟨?_, depicts_lend.mp hP.depicts⟩, ?_, trivial⟩
  · exact ⟨hP.sound, hMisuses.trans hC.kept.misuses, hC.kept.nodup, hHeld⟩
  · exact ⟨r', rfl, Documents.afterCall_of_lend hAfter⟩

/-! ## Buffers -/

theorem tick (hC : Carries h T D) : Carries h.tick T D :=
  ⟨hC.kept.tick, hC.depicts.of_uses rfl fun _ _ _ _ _ => rfl⟩

theorem pushText (hC : Carries h T D) (bytes : List UInt8) :
    Carries (h.tick.pushBuf bytes) (h.brk :: T) D := by
  refine ⟨hC.kept.pushText bytes, hC.depicts.of_uses rfl fun x n s hn hs => ?_⟩
  exact Function.update_of_ne (hC.used_old hn hs) ..

theorem setBytes (hC : Carries h T D) (hMine : Mine h T s b) (hLent : ¬ LentKey h s)
    (bytes : List UInt8) : Carries (h.setBytes s b bytes) T D := by
  refine ⟨hC.kept.setBytes hMine bytes, hC.depicts.of_uses rfl fun x n s' hn hs => ?_⟩
  apply Function.update_of_ne
  intro hEq
  exact hC.unused hMine hLent hn (hEq ▸ hs)

theorem dropText (hC : Carries h T D) (hs : s ∈ T) (hLent : ¬ LentKey h s) :
    Carries (h.free (.buf s)) (T.erase s) D := by
  obtain ⟨b, hb, -⟩ := lib_iff.mp (hC.kept.held s hs)
  have hDrop : h.free (.buf s) = h.dropBuf s := if_pos (hC.kept.held s hs)
  refine ⟨hC.kept.dropText hs hLent, ?_⟩
  rw [hDrop]
  refine hC.depicts.of_uses rfl fun x n s' hn hUses => ?_
  apply Function.update_of_ne
  intro hEq
  exact hC.unused ⟨hb, Or.inr hs⟩ hLent hn (hEq ▸ hUses)

/-- The client leaves the names alone that it has lent. -/
theorem caller (hC : Carries h T D) (hStep : CallerStep (h.lend T) (h'.lend T))
    (hHeld : ∀ s ∈ T, h'.Lib s) (hNames : ∀ s, LentKey h s → h'.bufs s = h.bufs s) :
    Carries h' T D := by
  have hNodes : h'.nodes = h.nodes := hStep.nodes
  refine ⟨hC.kept.caller hStep hC.kept.nodup hHeld, ?_⟩
  apply hC.depicts.of_uses hNodes
  intro x n s hn hs
  rcases hC.uses hn hs with ⟨hLib, hNot⟩ | hKey
  · obtain ⟨b, hb, hOwned⟩ := lib_iff.mp hLib
    rw [hb, ← lend_of_not_mem hNot]
    apply (hStep.lib s b hOwned).mpr
    rw [lend_of_not_mem hNot, hb]
  · exact hNames s hKey

/-! ## Printers -/

theorem print (std : StdF64) (hC : Carries h T D) (hItem : ReadableTree h item) (pretty : Bool) :
    ∃ p h', printImpl std item pretty h = .ok (p, h') ∧ Carries h' (p.toList ++ T) D ∧
      D.Prints std h item pretty (.item p) h' := by
  cases item with
  | none => exact ⟨none, h, rfl, hC, none, none, rfl, rfl, Or.inl ⟨rfl, Or.inl rfl⟩⟩
  | some a =>
    obtain ⟨t, ht, hDenotes⟩ := hC.readable hItem rfl
    have hText : D.Text std (some a) pretty (t.printed std pretty) := ⟨t, ht, rfl⟩
    rw [printImpl_node hC.bounded hDenotes]
    cases hPrinted : t.printed std pretty with
    | none =>
      rw [hPrinted] at hText
      exact ⟨none, h, rfl, hC, none, none, hText, rfl, Or.inl ⟨rfl, Or.inl rfl⟩⟩
    | some s =>
      rw [hPrinted] at hText
      by_cases hYes : h.outcomes 0 = true
      · refine ⟨some h.brk, _, if_pos hYes, hC.pushText _, some s, some h.brk, hText, rfl, ?_⟩
        exact Or.inr ⟨s, h.brk, rfl, hYes, rfl, Function.update_self ..⟩
      · refine ⟨none, _, if_neg hYes, hC.tick, some s, none, hText, rfl, ?_⟩
        exact Or.inl ⟨rfl, Or.inr (Bool.eq_false_iff.mpr hYes)⟩

theorem printPreallocated (std : StdF64) {buffer : Ptr} {length : Int} (hC : Carries h T D)
    (hItem : ReadableTree h item)
    (hBuffer : ∀ s, buffer = some s → ∃ b, Mine h T s b ∧ length ≤ b.bytes.length)
    (hLent : ∀ s, buffer = some s → ¬ LentKey h s) (format : Int) :
    ∃ r h', cjsonPrintPreallocated std item buffer length format h = .ok (r, h') ∧
      Carries h' T D ∧ D.Fills std item buffer length (format ≠ 0) (.flag r) h' := by
  cases item with
  | none =>
    refine ⟨false, h, rfl, hC, none, rfl, Or.inl ⟨rfl, fun s hs => ?_⟩⟩
    cases hs
  | some a =>
    obtain ⟨t, ht, hDenotes⟩ := hC.readable hItem rfl
    have hText : D.Text std (some a) (format ≠ 0) (t.printed std (format ≠ 0)) := ⟨t, ht, rfl⟩
    cases buffer with
    | none => exact ⟨false, h, rfl, hC, _, hText, Or.inl ⟨rfl, fun s _ => Or.inl rfl⟩⟩
    | some s =>
      obtain ⟨b, hMine, hLength⟩ := hBuffer s rfl
      rw [cjsonPrintPreallocated_run hC.bounded hDenotes hMine.1 hLength]
      cases hPrinted : t.printed std (decide (format ≠ 0)) with
      | none =>
        rw [hPrinted] at hText
        refine ⟨false, h, rfl, hC, none, hText, Or.inl ⟨rfl, fun w hw => ?_⟩⟩
        cases hw
      | some w =>
        rw [hPrinted] at hText
        by_cases hFits : (encode w).length + 1 ≤ length
        · refine ⟨true, _, if_pos hFits, hC.setBytes hMine (hLent s rfl) _, some w, hText, ?_⟩
          refine Or.inr ⟨rfl, w, s, _, rfl, hFits, rfl, Function.update_self .., ?_⟩
          exact List.prefix_append _ _
        · refine ⟨false, h, if_neg hFits, hC, some w, hText, Or.inl ⟨rfl, fun w' hw => ?_⟩⟩
          cases hw
          exact Or.inr (by omega)

theorem minify {json : Ptr} (hC : Carries h T D)
    (hJson : ∀ s, json = some s → ∃ b, Mine h T s b ∧ 0 ∈ b.bytes)
    (hLent : ∀ s, json = some s → ¬ LentKey h s) :
    ∃ h', minifyAt json h = .ok ((), h') ∧ Carries h' T D := by
  cases json with
  | none => exact ⟨h, rfl, hC⟩
  | some s =>
    obtain ⟨b, hMine, hNul⟩ := hJson s rfl
    obtain ⟨text, rest, hBytes, hText⟩ := List.eq_append_cons_of_mem hNul
    obtain ⟨tail, hRun, -⟩ := Minify.minifyInPlace_run hText rest
    refine ⟨h.setBytes s b (Minify.strip .text text ++ 0 :: tail), ?_,
      hC.setBytes hMine (hLent s rfl) _⟩
    simp only [minifyAt, hMine.1, cjsonMinify, hBytes, hRun]

/-! ## Readers -/

/-- The keys of the children can be read. -/
theorem keysReadable (hC : Carries h T D) (as : List Addr) : KeysReadable h as := by
  intro a _ n s hn hs
  obtain ⟨-, k, -, hl⟩ := hC.depicts.node hn
  have hText := hl.string
  rw [hs] at hText
  obtain ⟨b, hb, hNul, -⟩ := hText
  exact ⟨b, hb, hNul⟩

theorem getObjectItem {object string : Ptr} (hC : Carries h T D)
    (hAdm : ∀ a s, object = some a → string = some s →
      h.Readable s ∧ ∃ as, Listed h a as ∧ KeysReadable h as) (cs : Bool) :
    getObjectItemImpl object string cs h
      = .ok (object.bind (D.find cs (h.text string)), h) := by
  cases object with
  | none => rfl
  | some a =>
    cases string with
    | none => rfl
    | some s =>
      obtain ⟨hRead, as, ⟨n, hn, -⟩, -⟩ := hAdm a s rfl rfl
      obtain ⟨hList, hNodup⟩ := hC.list hn
      rw [getObjectItemImpl_run hC.bounded hn hList hNodup (hC.keysReadable _), Option.bind_some,
        Documents.find, hC.depicts.keyIn_eq]
      intro s' hs'
      cases hs'
      exact hRead

theorem test {t : TypeTest} (hC : Carries h T D)
    (hAdm : ∀ a, item = some a → (h.nodes a).isSome) :
    t.run item h = .ok (item.any fun a => (D.label a).any fun l => t.Passes l.tag, h) := by
  cases item with
  | none => cases t <;> rfl
  | some a =>
    obtain ⟨n, hn⟩ := Option.isSome_iff_exists.mp (hAdm a rfl)
    obtain ⟨-, k, hk, hl⟩ := hC.depicts.node hn
    rw [t.run_node hn, Option.any_some, hk, Option.any_some, hl.tag]

theorem getArraySize {array : Ptr} (hC : Carries h T D)
    (hAdm : ∀ a, array = some a → ∃ as, Listed h a as) :
    cjsonGetArraySize array h
      = .ok (array.elim 0 fun a => min (D.children a).length intMax, h) := by
  cases array with
  | none => rfl
  | some a =>
    obtain ⟨as, n, hn, -⟩ := hAdm a rfl
    obtain ⟨hList, hNodup⟩ := hC.list hn
    exact cjsonGetArraySize_run hC.bounded hn hList hNodup

theorem getArrayItem {array : Ptr} {index : Int} (hC : Carries h T D) (hMax : index ≤ intMax)
    (hAdm : ∀ a, array = some a → ∃ as, Listed h a as) :
    cjsonGetArrayItem array index h = .ok (array.bind (D.item index), h) := by
  cases array with
  | none => rfl
  | some a =>
    obtain ⟨as, n, hn, -⟩ := hAdm a rfl
    obtain ⟨hList, hNodup⟩ := hC.list hn
    exact cjsonGetArrayItem_run hC.bounded hn hList hNodup hMax

theorem getStringValue (hC : Carries h T D) (hAdm : ∀ a, item = some a → (h.nodes a).isSome) :
    ∃ q, cjsonGetStringValue item h = .ok (q, h) ∧ h.chars q = (do
      let l ← D.label (← item)
      if l.tag = cjsonString then l.valuestring else none) := by
  cases item with
  | none => exact ⟨none, rfl, rfl⟩
  | some a =>
    obtain ⟨n, hn⟩ := Option.isSome_iff_exists.mp (hAdm a rfl)
    obtain ⟨-, k, hk, hl⟩ := hC.depicts.node hn
    refine ⟨_, cjsonGetStringValue_run hn, ?_⟩
    simp only [Option.bind_eq_bind, Option.bind_some, hk, hl.tag]
    split_ifs
    · exact hl.valuestring.chars
    · rfl

theorem getNumberValue (hC : Carries h T D) (hAdm : ∀ a, item = some a → (h.nodes a).isSome) :
    cjsonGetNumberValue item h = .ok (((item.bind D.label).filter (·.tag == cjsonNumber)).elim
      f64Nan Label.valuedouble, h) := by
  cases item with
  | none => rfl
  | some a =>
    obtain ⟨n, hn⟩ := Option.isSome_iff_exists.mp (hAdm a rfl)
    obtain ⟨-, k, hk, hl⟩ := hC.depicts.node hn
    rw [cjsonGetNumberValue_run hn, Option.bind_some, hk, Option.filter_some, hl.tag]
    by_cases hTag : k.tag = cjsonNumber
    · rw [if_pos hTag, if_pos (beq_iff_eq.mpr hTag), hl.valuedouble]
      rfl
    · rw [if_neg hTag, if_neg fun hEq => hTag (beq_iff_eq.mp hEq)]
      rfl

theorem compare {x y : Ptr} (hC : Carries h T D) (hx : ReadableTree h x) (hy : ReadableTree h y)
    (cs : Int) : ∃ b, cjsonCompare x y cs h = .ok (b, h) ∧ (b = true ↔
      ∃ a b t u, x = some a ∧ y = some b ∧ D.Tree a t ∧ D.Tree b u ∧
        compareTrees (cs ≠ 0) t u = true) := by
  cases x with
  | none =>
    refine ⟨false, rfl, fun hFalse => Bool.false_ne_true.elim hFalse, ?_⟩
    intro hAlike
    obtain ⟨a, b, t, u, ha, -⟩ := hAlike
    cases ha
  | some a =>
    cases y with
    | none =>
      refine ⟨false, rfl, fun hFalse => Bool.false_ne_true.elim hFalse, ?_⟩
      intro hAlike
      obtain ⟨a, b, t, u, -, hb, -⟩ := hAlike
      cases hb
    | some b =>
      obtain ⟨t, ht, hT⟩ := hC.readable hx rfl
      obtain ⟨u, hu, hU⟩ := hC.readable hy rfl
      refine ⟨_, cjsonCompare_run hC.bounded hT hU, ?_, ?_⟩
      · exact fun hTrue => ⟨a, b, t, u, rfl, rfl, ht, hu, hTrue⟩
      · intro ⟨a', b', t', u', ha, hb, ht', hu', hTrue⟩
        cases ha
        cases hb
        rw [denotes_unique.1 t a t' hT (denotes_of_tree hC.depicts hC.kept.trees ht'),
          denotes_unique.1 u b u' hU (denotes_of_tree hC.depicts hC.kept.trees hu')]
        exact hTrue

theorem setNumberHelper {object : Ptr} (hC : Carries h T D)
    (hAdm : ∀ a, object = some a → (h.nodes a).isSome) (number : F64) :
    (Request.setNumberHelper object number).Mirrors std h T D := by
  cases object with
  | none => exact ⟨.double number, h, D, rfl, hC, rfl, rfl⟩
  | some a =>
    obtain ⟨n, hn⟩ := Option.isSome_iff_exists.mp (hAdm a rfl)
    have hTag := hC.depicts.hasTag_node hn cjsonNumber
    have hRun := Run.map_run_ok (f := Answer.double) (cjsonSetNumberHelper_run hn number)
    by_cases hNumber : tag n.type_ = cjsonNumber
    · rw [if_pos hNumber] at hRun
      refine ⟨.double number, _, D.relabel a ({ · with valuedouble := number }), hRun,
        ⟨hC.kept.setNumbers hn _ _, hC.depicts.setNumbers hn _ _⟩, ?_, rfl⟩
      exact (if_pos (hTag.trans (beq_iff_eq.mpr hNumber))).symm
    · rw [if_neg hNumber] at hRun
      refine ⟨.double number, h, D, hRun, hC, ?_, rfl⟩
      apply Eq.symm
      apply if_neg
      rw [hTag]
      exact fun hEq => hNumber (beq_iff_eq.mp hEq)

/-! ## All requests -/

/-- Every request returns, does to the documents what it says, and is answered as they have it. -/
theorem request (std : StdF64) {q : Request} (hC : Carries h T D)
    (hAdm : q.Admissible h D.children T) (hPlain : q.Plain h) : q.Mirrors std h T D := by
  cases q with
  | call c => exact hC.call hAdm.1 hAdm.2.1 hAdm.2.2 hPlain
  | print item =>
    obtain ⟨p, h', hRun, hC', hPrints⟩ := hC.print std hAdm true
    refine ⟨.item p, h', D, Run.map_run_ok hRun, ?_, rfl, hPrints⟩
    cases p <;> exact hC'
  | printUnformatted item =>
    obtain ⟨p, h', hRun, hC', hPrints⟩ := hC.print std hAdm false
    refine ⟨.item p, h', D, Run.map_run_ok hRun, ?_, rfl, hPrints⟩
    cases p <;> exact hC'
  | printBuffered item prebuffer fmt =>
    obtain ⟨p, h', hRun, hC', hPrints⟩ := hC.print std hAdm (fmt ≠ 0)
    have hRun' : cjsonPrintBuffered std item prebuffer fmt h = .ok (p, h') := by
      rw [cjsonPrintBuffered]
      by_cases hFmt : fmt ≠ 0
      · rw [if_pos hFmt]
        rw [decide_eq_true hFmt] at hRun
        exact hRun
      · rw [if_neg hFmt]
        rw [decide_eq_false hFmt] at hRun
        exact hRun
    refine ⟨.item p, h', D, Run.map_run_ok hRun', ?_, rfl, hPrints⟩
    cases p <;> exact hC'
  | printPreallocated item buffer length format =>
    obtain ⟨r, h', hRun, hC', hFills⟩ :=
      hC.printPreallocated std hAdm.1 hAdm.2 hPlain format
    exact ⟨.flag r, h', D, Run.map_run_ok hRun, hC', rfl, hFills⟩
  | minify json =>
    obtain ⟨h', hRun, hC'⟩ := hC.minify hAdm hPlain
    exact ⟨.done, h', D, Run.map_run_ok hRun, hC', rfl, trivial⟩
  | test t item => exact ⟨_, h, D, Run.map_run_ok (hC.test hAdm), hC, rfl, rfl⟩
  | getArraySize array => exact ⟨_, h, D, Run.map_run_ok (hC.getArraySize hAdm), hC, rfl, rfl⟩
  | getArrayItem array index =>
    exact ⟨_, h, D, Run.map_run_ok (hC.getArrayItem hAdm.1 hAdm.2), hC, rfl, rfl⟩
  | getObjectItem object string =>
    exact ⟨_, h, D, Run.map_run_ok (hC.getObjectItem hAdm false), hC, rfl, rfl⟩
  | getObjectItemCaseSensitive object string =>
    exact ⟨_, h, D, Run.map_run_ok (hC.getObjectItem hAdm true), hC, rfl, rfl⟩
  | hasObjectItem object string =>
    refine ⟨_, h, D, Run.map_run_ok (Run.bind_run_ok (hC.getObjectItem hAdm false)), hC, rfl, rfl⟩
  | getStringValue item =>
    obtain ⟨q, hRun, hChars⟩ := hC.getStringValue hAdm
    exact ⟨.item q, h, D, Run.map_run_ok hRun, hC, rfl, q, rfl, hChars⟩
  | getNumberValue item => exact ⟨_, h, D, Run.map_run_ok (hC.getNumberValue hAdm), hC, rfl, rfl⟩
  | compare x y cs =>
    obtain ⟨b, hRun, hIff⟩ := hC.compare hAdm.1 hAdm.2 cs
    exact ⟨.flag b, h, D, Run.map_run_ok hRun, hC, rfl, b, rfl, hIff⟩
  | setNumberHelper object number => exact hC.setNumberHelper hAdm number
  | getErrorPtr => exact ⟨.charPtr h.lastError, h, D, rfl, hC, rfl, trivial⟩
  | malloc bytes =>
    by_cases hYes : h.outcomes 0 = true
    · have hRun : cjsonMalloc bytes h = .ok (some h.brk, h.tick.pushBuf bytes) := if_pos hYes
      exact ⟨.item (some h.brk), _, D, Run.map_run_ok hRun, hC.pushText bytes, rfl, trivial⟩
    · have hRun : cjsonMalloc bytes h = .ok (none, h.tick) := if_neg hYes
      exact ⟨.item none, _, D, Run.map_run_ok hRun, hC.tick, rfl, trivial⟩
  | free object =>
    cases object with
    | none => exact ⟨.done, h, D, rfl, hC, rfl, trivial⟩
    | some x =>
      obtain ⟨s, hs, rfl, hLent⟩ := hAdm x rfl
      exact ⟨.done, h.free (.buf s), D, rfl, hC.dropText hs hLent, rfl, trivial⟩

/-- The documents are what the readers see. -/
theorem tree_iff (hC : Carries h T D) : D.Tree a t ↔ Denotes h a t := by
  constructor
  · exact denotes_of_tree hC.depicts hC.kept.trees
  · intro ht
    have hItem : ReadableTree h (some a) := by
      intro b hb
      cases hb
      exact ⟨t, ht⟩
    obtain ⟨u, hu, hDenotes⟩ := hC.readable hItem rfl
    rw [denotes_unique.1 t a u ht hDenotes]
    exact hu

end Carries

/-! ## Runs -/

/-- A step of a session without references, in which the client leaves the names alone that it
has lent. -/
inductive Session.PlainStep (std : StdF64) : Session → Session → Prop
  | request {q : Request} {h h' : Heap} {T : List Addr} {r : Answer} {kids : Addr → List Addr}
      (hTrees : Represents 0 h kids) (hAdm : q.Admissible h kids T) (hPlain : q.Plain h)
      (hRun : q.run std h = .ok (r, h')) : Session.PlainStep std ⟨h, T⟩ ⟨h', q.texts T r⟩
  | caller {h h' : Heap} {T : List Addr} (hStep : CallerStep (h.lend T) (h'.lend T))
      (hHeld : ∀ s ∈ T, h'.Lib s) (hNames : ∀ s, LentKey h s → h'.bufs s = h.bufs s) :
      Session.PlainStep std ⟨h, T⟩ ⟨h', T⟩

/-- The documents follow a step of the session. -/
inductive Documents.Step (std : StdF64) : Session × Documents → Session × Documents → Prop
  | request {q : Request} {h h' : Heap} {T : List Addr} {r : Answer} {D D' : Documents}
      (hRun : q.run std h = .ok (r, h')) (hAfter : D.After std h q r D')
      (hAnswers : D.Answers std h q r h') :
      Documents.Step std (⟨h, T⟩, D) (⟨h', q.texts T r⟩, D')
  | caller {h h' : Heap} {T : List Addr} {D : Documents} (hNodes : h'.nodes = h.nodes) :
      Documents.Step std (⟨h, T⟩, D) (⟨h', T⟩, D)

namespace Carries

/-- The documents can follow every step. -/
theorem step {S S' : Session} (hC : Carries S.heap S.texts D)
    (hStep : Session.PlainStep std S S') :
    ∃ D', Documents.Step std (S, D) (S', D') ∧ Carries S'.heap S'.texts D' := by
  cases hStep with
  | request hTrees hAdm hPlain hRun =>
    rw [hTrees.unique hC.kept.trees] at hAdm
    obtain ⟨r, h', D', hRun', hC', hAfter, hAnswers⟩ := hC.request std hAdm hPlain
    cases hRun.symm.trans hRun'
    exact ⟨D', .request hRun hAfter hAnswers, hC'⟩
  | caller hStep hHeld hNames =>
    exact ⟨D, .caller hStep.nodes, hC.caller hStep hHeld hNames⟩

theorem run {S S' : Session} (hC : Carries S.heap S.texts D)
    (hRuns : Relation.ReflTransGen (Session.PlainStep std) S S') :
    ∃ D', Relation.ReflTransGen (Documents.Step std) (S, D) (S', D') ∧
      Carries S'.heap S'.texts D' := by
  induction hRuns with
  | refl => exact ⟨D, .refl, hC⟩
  | tail _ hStep ih =>
    obtain ⟨D', hRuns', hC'⟩ := ih
    obtain ⟨D'', hStep', hC''⟩ := hC'.step hStep
    exact ⟨D'', .tail hRuns' hStep', hC''⟩

end Carries

/-- Every session of admissible requests without references is a run of documents: each request
did to them what it says and was answered as they had it. In the end they are what the readers
see, and every such request will be answered so. -/
theorem session_documents (hStart : Start h₀)
    (hRuns : Relation.ReflTransGen (Session.PlainStep std) ⟨h₀, []⟩ ⟨h, T⟩) :
    ∃ D, Relation.ReflTransGen (Documents.Step std) (⟨h₀, []⟩, Documents.empty) (⟨h, T⟩, D) ∧
      Represents 0 h D.children ∧ (∀ a t, D.Tree a t ↔ Denotes h a t) ∧
      ∀ q : Request, q.Admissible h D.children T → q.Plain h → q.Mirrors std h T D := by
  obtain ⟨D, hSteps, hC⟩ := (Carries.start hStart).run hRuns
  exact ⟨D, hSteps, hC.kept.trees, fun a t => hC.tree_iff, fun q => hC.request std⟩

theorem Request.Succeeds.plainStep {q : Request} (hSucceeds : q.Succeeds h h')
    (hPlain : q.Plain h) : Session.PlainStep Rfc.sampleF64 ⟨h, []⟩ ⟨h', []⟩ := by
  obtain ⟨kids, r, hTrees, hAdm, hRun, hTexts⟩ := hSucceeds
  have hStep : Session.PlainStep Rfc.sampleF64 ⟨h, []⟩ ⟨h', q.texts [] r⟩ :=
    .request hTrees hAdm hPlain hRun
  rw [hTexts] at hStep
  exact hStep

theorem session_documents_document : ∃ h₁ h₂ h₃ h₄,
    (Request.call (.parse (some 0))).Succeeds documentText h₁ ∧
    (Request.call (.create .null)).Succeeds h₁ h₂ ∧
    (Request.call (.edit (.insertItemInArray (some 1) 0 (some 4)))).Succeeds h₂ h₃ ∧
    (Request.getArrayItem (some 1) 1).Succeeds h₃ h₃ ∧
    (Request.call (.delete (some 1))).Succeeds h₃ h₄ ∧
    ∃ D, Relation.ReflTransGen (Documents.Step Rfc.sampleF64)
        (⟨documentText, []⟩, Documents.empty) (⟨h₄, []⟩, D) ∧
      Represents 0 h₄ D.children ∧ (∀ a t, D.Tree a t ↔ Denotes h₄ a t) ∧
      ∀ q : Request, q.Admissible h₄ D.children [] → q.Plain h₄ →
        q.Mirrors Rfc.sampleF64 h₄ [] D := by
  obtain ⟨h₁, h₂, h₃, h₄, hParse, hNull, hInsert, hLookup, hDelete⟩ := session_succeeds
  refine ⟨h₁, h₂, h₃, h₄, hParse, hNull, hInsert, hLookup, hDelete, ?_⟩
  have hRuns : Relation.ReflTransGen (Session.PlainStep Rfc.sampleF64) ⟨documentText, []⟩
      ⟨h₄, []⟩ := .tail (.tail (.tail (.tail (.tail .refl (hParse.plainStep trivial))
        (hNull.plainStep trivial)) (hInsert.plainStep trivial)) (hLookup.plainStep trivial))
        (hDelete.plainStep trivial)
  exact session_documents (start_oneString _) hRuns

end CjsonRs.Ffi
