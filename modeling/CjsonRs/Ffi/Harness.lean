import CjsonRs.Ffi.Atomicity
import CjsonRs.Ffi.Getters
import CjsonRs.Ffi.Separate
import CjsonRs.Ffi.Symmetry

/-!
# The fuzz target

The fuzz target `fuzz_ffi_roundtrip` parses a text, prints the tree in both formats and frees
everything, for an address sanitizer to find leaks and double frees. It leaves every heap as it
found it, whatever the text and whichever allocations fail.
-/

namespace CjsonRs.Ffi

open CjsonRs.Core Library Library.Forest

variable {h h' h'' : Heap} {a s : Addr} {std : StdF64} {t : CTree} {kids : Addr → List Addr}
  {roots : List Addr}

/-! ## The target -/

/-- Free a printed text, unless it is `NULL`. -/
def freeText (printed : Answer) (next : Client Unit) : Client Unit :=
  match printed with
  | .reply (.item (some s)) => .ask (.free (some (.buf s))) fun _ => next
  | _ => next

/-- The fuzz target on the C string at `buf`. -/
def fuzzFfiRoundtrip (buf : Addr) : Client Unit :=
  .ask (.call (.parse (some buf))) fun root =>
    match root with
    | .reply (.item (some root)) =>
      .ask (.print (some root)) fun printed =>
        freeText printed <| .ask (.printUnformatted (some root)) fun printedCompact =>
          freeText printedCompact <| .ask (.call (.delete (some root))) fun _ => .finish ()
    | _ => .finish ()

/-! ## A text that is printed and freed -/

/-- A heap with the same blocks, after requests to the allocator that came to nothing. -/
structure Idled (h h' : Heap) : Prop where
  nodes : h'.nodes = h.nodes
  bufs : h'.bufs = h.bufs
  misuses : h'.misuses = h.misuses
  lastError : h'.lastError = h.lastError
  brk : h.brk ≤ h'.brk
  outcomes : ∃ k, ∀ n, h'.outcomes n = h.outcomes (n + k)

namespace Idled

theorem kept (hIdled : Idled h h') : Extends h h' where
  brk := hIdled.brk
  nodes _ := by rw [hIdled.nodes]
  bufs _ := by rw [hIdled.bufs]
  misuses := hIdled.misuses
  lastError := hIdled.lastError
  outcomes := hIdled.outcomes

theorem bounded (hIdled : Idled h h') (hBounded : h.Bounded) : h'.Bounded where
  nodes ha := by
    rw [hIdled.nodes]
    exact hBounded.nodes (hIdled.brk.trans ha)
  bufs hs := by
    rw [hIdled.bufs]
    exact hBounded.bufs (hIdled.brk.trans hs)

/-- What was built is still there. -/
theorem grown (hIdled : Idled h' h'') (hGrown : Grown h h' kids roots) :
    Grown h h'' kids roots where
  ext := hGrown.ext.trans hIdled.kept
  sound := hGrown.sound.of_nodes (hIdled.bounded hGrown.bounded) hIdled.nodes hIdled.bufs
  nodup := hGrown.nodup
  root r hr := by
    rw [hIdled.nodes]
    exact hGrown.root r hr
  below x := by
    rw [hIdled.nodes]
    exact hGrown.below x
  mine s b := by
    rw [hIdled.bufs]
    exact hGrown.mine s b

theorem denotes (hIdled : Idled h h') (ht : Denotes h a t) : Denotes h' a t := by
  refine (denotes_mono (fun x n hn => ?_) fun s b hb => ?_).1 t a ht
  · rw [hIdled.nodes]
    exact hn
  · rw [hIdled.bufs]
    exact hb

protected theorem refl (h : Heap) : Idled h h := ⟨rfl, rfl, rfl, rfl, le_refl _, 0, fun _ => rfl⟩

theorem tick (h : Heap) : Idled h h.tick := ⟨rfl, rfl, rfl, rfl, le_refl _, 1, fun _ => rfl⟩

/-- A new buffer that is freed at once. -/
theorem freed (hBounded : h.Bounded) (bytes : List UInt8) :
    Idled h ((h.tick.pushBuf bytes).free (.buf h.brk)) := by
  have hLib : (h.tick.pushBuf bytes).Lib h.brk := by
    show (Function.update h.bufs h.brk _ h.brk).any Buf.owned = true
    rw [Function.update_self]
    rfl
  have hRun : (h.tick.pushBuf bytes).free (.buf h.brk) = (h.tick.pushBuf bytes).dropBuf h.brk :=
    if_pos hLib
  rw [hRun]
  refine ⟨rfl, ?_, rfl, rfl, Nat.le_succ _, 1, fun _ => rfl⟩
  show Function.update (Function.update h.bufs h.brk _) h.brk none = h.bufs
  rw [Function.update_idem, ← hBounded.bufs (le_refl h.brk), Function.update_eq_self]

end Idled

/-- A tree is printed, and its text freed before the client goes on. -/
theorem print_freeText_run {q : Request} (pretty : Bool) (hBounded : h.Bounded)
    (ht : Denotes h a t) (hq : q.run std = Answer.item <$> printImpl std (some a) pretty)
    (next : Client Unit) :
    ∃ h', Idled h h' ∧ Denotes h' a t ∧
      (Client.ask q fun printed => freeText printed next).run std h = next.run std h' := by
  have hRun : ∀ {p : Ptr} {g : Heap}, printImpl std (some a) pretty h = .ok (p, g) →
      (Client.ask q fun printed => freeText printed next).run std h
        = (freeText (.item p) next).run std g := by
    intro p g hPrint
    show (q.run std >>= fun printed => (freeText printed next).run std) h = _
    rw [hq, Run.bind_run_ok (Run.map_run_ok hPrint)]
  have hPrint : printImpl std (some a) pretty h = _ := printImpl_node hBounded ht pretty
  cases hText : t.printed std pretty with
  | none =>
    rw [hText] at hPrint
    exact ⟨h, Idled.refl h, ht, hRun hPrint⟩
  | some text =>
    rw [hText] at hPrint
    by_cases hYes : h.outcomes 0 = true
    · have hIdled := Idled.freed hBounded (encode text ++ [0])
      exact ⟨_, hIdled, hIdled.denotes ht, hRun (hPrint.trans (if_pos hYes))⟩
    · exact ⟨_, Idled.tick h, (Idled.tick h).denotes ht, hRun (hPrint.trans (if_neg hYes))⟩

/-! ## The run -/

/-- Parsing plants the tree of the value, or leaves all blocks as they are. -/
theorem cjsonParse_plants (std : StdF64) {input : List UInt8} (hBounded : h.Bounded)
    (hText : TextAt h (some s) (some input)) :
    ∃ p : CharPtr, (∃ v h' kids a, parse std (stripUtf8Bom input).1 = .ok v ∧
        cjsonParse std (some s) h = .ok (some a, h') ∧
        Planted { h with lastError := p } h' kids a (.ofValue v)) ∨
      ∃ h', cjsonParse std (some s) h = .ok (none, h') ∧
        Built { h with lastError := p } none h' := by
  obtain ⟨b, hb, hNul, hInput⟩ := hText
  cases hInput
  rw [cjsonParse, Run.bind_run_ok (loadBytes_run hb hNul), parseBytes]
  generalize stripUtf8Bom (cstr b.bytes) = stripped
  obtain ⟨parsedBytes, bomSkip⟩ := stripped
  simp only [ne_eq, one_ne_zero, not_false_eq_true, if_true]
  cases hParse : parse std parsedBytes with
  | ok v =>
    refine ⟨none, ?_⟩
    have hNext : ∀ {q : Ptr} {g : Heap}, valueToCjson v { h with lastError := none } = .ok (q, g) →
        (do
          let r ← (do
            setLastError none
            let item ← valueToCjson v
            return (⟨item, none⟩ : Parsed))
          return r.item : M Ptr) h = .ok (q, g) := by
      intro q g hRun
      show ((valueToCjson v >>= fun item => pure (⟨item, none⟩ : Parsed)) >>= fun r => pure r.item)
        { h with lastError := none } = _
      rw [bind_assoc, Run.bind_run_ok hRun]
      rfl
    rcases plants_valueToCjson v _ (bounded_lastError hBounded none) with
      ⟨h', kids, a, hRun, hPlanted⟩ | ⟨h', hRun, ⟨kids, hGrown⟩, -⟩
    · exact Or.inl ⟨v, h', kids, a, rfl, hNext hRun, hPlanted⟩
    · exact Or.inr ⟨h', hNext hRun, kids, hGrown⟩
  | error e => exact ⟨_, Or.inr ⟨_, rfl, built_none (bounded_lastError hBounded _)⟩⟩

/-- The fuzz target returns and leaves the blocks of the heap as they were. -/
theorem fuzzFfiRoundtrip_restores (std : StdF64) (hBounded : h.Bounded) (hRead : h.Readable s) :
    ∃ h', (fuzzFfiRoundtrip s).run std h = .ok ((), h') ∧ h'.nodes = h.nodes ∧
      h'.bufs = h.bufs ∧ h'.misuses = h.misuses := by
  obtain ⟨b, hb, hNul⟩ := hRead
  obtain ⟨p, ⟨v, h₁, kids, a, -, hParse, hPlanted⟩ | ⟨h₁, hParse, kids, hGrown⟩⟩ :=
    cjsonParse_plants std hBounded ⟨b, hb, hNul, rfl⟩
  · have hShown : Denotes h₁ a (.ofValue v) :=
      (denotes_of_shows hPlanted.grown.sound.wf.trees).1 _ a hPlanted.root.1 hPlanted.shows
    -- The text in the first format, then the one in the second.
    obtain ⟨h₂, hIdled₂, hShown₂, hPrint₂⟩ := print_freeText_run true hPlanted.grown.bounded hShown
      (show (Request.print (some a)).run std = _ from rfl)
      (.ask (.printUnformatted (some a)) fun printedCompact =>
        freeText printedCompact <| .ask (.call (.delete (some a))) fun _ => .finish ())
    have hGrown₂ := hIdled₂.grown hPlanted.grown
    obtain ⟨h₃, hIdled₃, -, hPrint₃⟩ := print_freeText_run false hGrown₂.bounded hShown₂
      (show (Request.printUnformatted (some a)).run std = _ from rfl)
      (.ask (.call (.delete (some a))) fun _ => .finish ())
    obtain ⟨h₄, hDelete, kids', hGrown₄⟩ := (hIdled₃.grown hGrown₂).free
    refine ⟨h₄, ?_, hGrown₄.unchanged (bounded_lastError hBounded p)⟩
    have hDeleted : (Request.call (.delete (some a))).run std h₃ = .ok (.done, h₄) :=
      Run.map_run_ok (Run.map_run_ok hDelete)
    show ((Answer.reply <$> (Reply.item <$> cjsonParse std (some s))) >>= fun r => _) h = _
    rw [Run.bind_run_ok (Run.map_run_ok (Run.map_run_ok hParse))]
    exact hPrint₂.trans (hPrint₃.trans (Run.bind_run_ok hDeleted))
  · have hRun : (fuzzFfiRoundtrip s).run std h = .ok ((), h₁) := by
      show ((Answer.reply <$> (Reply.item <$> cjsonParse std (some s))) >>= fun r => _) h = _
      rw [Run.bind_run_ok (Run.map_run_ok (Run.map_run_ok hParse))]
      rfl
    exact ⟨h₁, hRun, hGrown.unchanged (bounded_lastError hBounded p)⟩

/-- The text `[null]` at 0, and memory for two blocks. -/
def shortOfMemory : Heap :=
  { oneString [0x5B, 0x6E, 0x75, 0x6C, 0x6C, 0x5D, 0] with outcomes := fun n => n < 2 }

/-- Both nodes are built, and neither text. -/
theorem fuzzFfiRoundtrip_restores_short :
    ∃ h', (fuzzFfiRoundtrip 0).run Rfc.sampleF64 shortOfMemory = .ok ((), h') ∧
      h'.nodes = shortOfMemory.nodes ∧ h'.bufs = shortOfMemory.bufs ∧
      h'.misuses = shortOfMemory.misuses :=
  fuzzFfiRoundtrip_restores Rfc.sampleF64 ⟨fun _ => rfl, fun hs => if_neg (Nat.ne_of_gt hs)⟩
    ⟨_, rfl, by decide⟩

end CjsonRs.Ffi
