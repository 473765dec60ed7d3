import CjsonRs.Library.Buffer
import Mathlib.Data.List.Basic

/-!
# Minification

`minify_in_place` of `cjson-rs-ffi/src/convert.rs`. The code is four loops over one buffer with
a position of reading and one of writing; `step` is one test of the loop that control is in,
with what it does. `strip` says what the loops keep of the text ahead, and one step keeps what
is written together with what is still to be kept (`At`). From this the buffer ends as the
stripped text, and no position leaves the text on the way.
-/

namespace CjsonRs.Ffi

open Library

namespace Minify

/-! ## The code -/

/-- The loop that control is in, or the end. -/
inductive Loop where
  | text
  | string
  | lineComment
  | blockComment
  | done
  deriving DecidableEq, Repr

/-- The local variables, with the two pointers as offsets from `json`. -/
structure Control where
  loop : Loop
  read : Nat
  write : Nat
  deriving DecidableEq, Repr

abbrev Text (α : Type) := Run (Buffer UInt8) Buffer.Fault α

/-- `*write = *read;` -/
def copyByte (read write : Nat) : Text Unit := do
  let b ← Buffer.load read
  Buffer.store write b

/-- `while *read != 0 { match *read as u8 { .. } }` -/
def textStep (read write : Nat) : Text Control := do
  let b ← Buffer.load read
  if b = 0 then do
    -- behind the loop
    Buffer.store write 0
    return ⟨.done, read, write⟩
  else if b = 0x20 ∨ b = 0x09 ∨ b = 0x0A ∨ b = 0x0D then
    return ⟨.text, read + 1, write⟩
  else if b = 0x22 then do
    copyByte read write
    return ⟨.string, read + 1, write + 1⟩
  else if b = 0x2F then do
    -- the guards of the two comment arms, then the last arm
    let c ← Buffer.load (read + 1)
    if c = 0x2F then
      return ⟨.lineComment, read, write⟩
    else do
      let c ← Buffer.load (read + 1)
      if c = 0x2A then
        return ⟨.blockComment, read + 2, write⟩
      else do
        copyByte read write
        return ⟨.text, read + 1, write + 1⟩
  else do
    copyByte read write
    return ⟨.text, read + 1, write + 1⟩

/-- `while *read != 0 && *read as u8 != b'"' { .. }`, with the closing quote behind it -/
def stringStep (read write : Nat) : Text Control := do
  let b ← Buffer.load read
  if b = 0 then
    return ⟨.text, read, write⟩
  else if b = 0x22 then do
    copyByte read write
    return ⟨.text, read + 1, write + 1⟩
  else if b = 0x5C then do
    let c ← Buffer.load (read + 1)
    if c ≠ 0 then do
      copyByte read write
      copyByte (read + 1) (write + 1)
      return ⟨.string, read + 2, write + 2⟩
    else do
      copyByte read write
      return ⟨.string, read + 1, write + 1⟩
  else do
    copyByte read write
    return ⟨.string, read + 1, write + 1⟩

/-- `while *read != 0 && *read as u8 != b'\n' { .. }` -/
def lineStep (read write : Nat) : Text Control := do
  let b ← Buffer.load read
  if b = 0 ∨ b = 0x0A then
    return ⟨.text, read, write⟩
  else
    return ⟨.lineComment, read + 1, write⟩

/-- `while *read != 0 && !(*read as u8 == b'*' && *read.add(1) as u8 == b'/') { .. }`, with the
step over the end of the comment behind it -/
def blockStep (read write : Nat) : Text Control := do
  let b ← Buffer.load read
  if b = 0 then
    return ⟨.text, read, write⟩
  else if b = 0x2A then do
    let c ← Buffer.load (read + 1)
    if c = 0x2F then
      return ⟨.text, read + 2, write⟩
    else
      return ⟨.blockComment, read + 1, write⟩
  else
    return ⟨.blockComment, read + 1, write⟩

/-- One test of the loop that control is in. -/
def step (c : Control) : Text Control :=
  match c.loop with
  | .text => textStep c.read c.write
  | .string => stringStep c.read c.write
  | .lineComment => lineStep c.read c.write
  | .blockComment => blockStep c.read c.write
  | .done => pure c

/-- Steps up to the end. -/
def steps : Nat → Control → Text Control
  | 0, _ => Run.fault .diverges
  | n + 1, c => if c.loop = .done then pure c else step c >>= steps n

end Minify

/-- `minify_in_place` on what `json` points to, `none` for `NULL`. -/
def minifyInPlace : Option (List UInt8) → Except Buffer.Fault (Option (List UInt8))
  | none => .ok none
  | some json =>
    match Minify.steps (3 * json.length + 2) ⟨.text, 0, 0⟩ ⟨json, 0⟩ with
    | .ok (_, b) => .ok (some b.cells)
    | .error e => .error e

def cjsonMinify (json : Option (List UInt8)) : Except Buffer.Fault (Option (List UInt8)) :=
  minifyInPlace json

namespace Minify

/-! ## What is kept -/

/-- What a loop and those after it keep of the text ahead. -/
def strip : Loop → List UInt8 → List UInt8
  | .done, _ => []
  | _, [] => []
  | .text, b :: r =>
    if b = 0x20 ∨ b = 0x09 ∨ b = 0x0A ∨ b = 0x0D then strip .text r
    else if b = 0x22 then b :: strip .string r
    else if b = 0x2F then
      match r with
      | [] => [b]
      | c :: r' =>
        if c = 0x2F then strip .lineComment r'
        else if c = 0x2A then strip .blockComment r'
        else b :: strip .text (c :: r')
    else b :: strip .text r
  | .string, b :: r =>
    if b = 0x22 then b :: strip .text r
    else if b = 0x5C then
      match r with
      | [] => [b]
      | c :: r' => b :: c :: strip .string r'
    else b :: strip .string r
  | .lineComment, b :: r => if b = 0x0A then strip .text r else strip .lineComment r
  | .blockComment, b :: r =>
    if b = 0x2A then
      match r with
      | [] => []
      | c :: r' => if c = 0x2F then strip .text r' else strip .blockComment (c :: r')
    else strip .blockComment r

section Strip

variable {r : List UInt8} {x y : UInt8}

@[simp] theorem strip_nil (l : Loop) : strip l [] = [] := by
  cases l <;> rfl

theorem strip_space (hx : x = 0x20 ∨ x = 0x09 ∨ x = 0x0A ∨ x = 0x0D) :
    strip .text (x :: r) = strip .text r := by
  cases r <;> exact if_pos hx

theorem strip_quote : strip .text (0x22 :: r) = 0x22 :: strip .string r := by
  cases r <;> rfl

theorem strip_slash_slash : strip .text (0x2F :: 0x2F :: r) = strip .lineComment r := rfl

theorem strip_slash_star : strip .text (0x2F :: 0x2A :: r) = strip .blockComment r := rfl

/-- A slash that starts no comment. -/
theorem strip_slash (h : r.headD 0 ≠ 0x2F) (h' : r.headD 0 ≠ 0x2A) :
    strip .text (0x2F :: r) = 0x2F :: strip .text r := by
  cases r with
  | nil => rfl
  | cons c r => exact (if_neg h).trans (if_neg h')

theorem strip_plain (hx : ¬ (x = 0x20 ∨ x = 0x09 ∨ x = 0x0A ∨ x = 0x0D)) (hx' : x ≠ 0x22)
    (hx'' : x ≠ 0x2F) : strip .text (x :: r) = x :: strip .text r := by
  cases r <;> exact (if_neg hx).trans ((if_neg hx').trans (if_neg hx''))

theorem strip_string_quote : strip .string (0x22 :: r) = 0x22 :: strip .text r := by
  cases r <;> rfl

theorem strip_string_backslash :
    strip .string (0x5C :: y :: r) = 0x5C :: y :: strip .string r := rfl

theorem strip_string_plain (hx : x ≠ 0x22) (hx' : x ≠ 0x5C) :
    strip .string (x :: r) = x :: strip .string r := by
  cases r <;> exact (if_neg hx).trans (if_neg hx')

theorem strip_line_newline : strip .lineComment (0x0A :: r) = strip .text r := rfl

theorem strip_line_skip (hx : x ≠ 0x0A) :
    strip .lineComment (x :: r) = strip .lineComment r := if_neg hx

theorem strip_block_end : strip .blockComment (0x2A :: 0x2F :: r) = strip .text r := rfl

theorem strip_block_skip (h : ¬ (x = 0x2A ∧ r.headD 0 = 0x2F)) :
    strip .blockComment (x :: r) = strip .blockComment r := by
  by_cases hx : x = 0x2A
  · have hHead : r.headD 0 ≠ 0x2F := fun hEq => h ⟨hx, hEq⟩
    cases r with
    | nil => exact if_pos hx
    | cons c r => exact (if_pos hx).trans (if_neg hHead)
  · cases r <;> exact if_neg hx

end Strip

/-! ## Where the loops are -/

variable {text rest kept ahead : List UInt8} {b : Buffer UInt8} {c c' : Control} {x y : UInt8}
  {r w n : Nat}

/-- The positions are at `ahead` in the text, `kept` is still to be written, and no load went
behind the first NUL. -/
structure At (text rest : List UInt8) (r w : Nat) (b : Buffer UInt8) (kept ahead : List UInt8) :
    Prop where
  window : ∃ out gap, b.Window (text.length + 1) r w out gap (ahead ++ 0 :: rest) ∧
    out ++ kept = strip .text text
  front : ∃ front, text = front ++ ahead ∧ front.length = r

namespace At

theorem read_le (h : At text rest r w b kept ahead) : r + ahead.length = text.length := by
  obtain ⟨front, rfl, rfl⟩ := h.front
  exact List.length_append.symm

/-- A load keeps everything. -/
theorem load_end (h : At text rest r w b kept []) :
    ∃ b', Buffer.load r b = .ok (0, b') ∧ At text rest r w b' kept [] := by
  obtain ⟨out, gap, hWindow, hOut⟩ := h.window
  have hRead := h.read_le
  rw [List.length_nil] at hRead
  obtain ⟨b', hRun, hWindow'⟩ := hWindow.load (by omega)
  exact ⟨b', hRun, ⟨out, gap, hWindow', hOut⟩, h.front⟩

theorem load (h : At text rest r w b kept (x :: ahead)) :
    ∃ b', Buffer.load r b = .ok (x, b') ∧ At text rest r w b' kept (x :: ahead) := by
  obtain ⟨out, gap, hWindow, hOut⟩ := h.window
  have hRead := h.read_le
  rw [List.length_cons] at hRead
  obtain ⟨b', hRun, hWindow'⟩ := hWindow.load (by omega)
  exact ⟨b', hRun, ⟨out, gap, hWindow', hOut⟩, h.front⟩

/-- The byte behind the next one is there, as the next one is not the NUL. -/
theorem load_second (h : At text rest r w b kept (x :: ahead)) :
    ∃ b', Buffer.load (r + 1) b = .ok (ahead.headD 0, b') ∧
      At text rest r w b' kept (x :: ahead) := by
  obtain ⟨out, gap, hWindow, hOut⟩ := h.window
  have hRead := h.read_le
  rw [List.length_cons] at hRead
  cases ahead with
  | nil =>
    obtain ⟨b', hRun, hWindow'⟩ := hWindow.load_second (by omega)
    exact ⟨b', hRun, ⟨out, gap, hWindow', hOut⟩, h.front⟩
  | cons y ahead =>
    obtain ⟨b', hRun, hWindow'⟩ := hWindow.load_second (by omega)
    exact ⟨b', hRun, ⟨out, gap, hWindow', hOut⟩, h.front⟩

theorem front_tail (h : At text rest r w b kept (x :: ahead)) :
    ∃ front, text = front ++ ahead ∧ front.length = r + 1 := by
  obtain ⟨front, rfl, rfl⟩ := h.front
  exact ⟨front ++ [x], by simp, by simp⟩

theorem skip (h : At text rest r w b kept (x :: ahead)) : At text rest (r + 1) w b kept ahead := by
  obtain ⟨out, gap, hWindow, hOut⟩ := h.window
  exact ⟨⟨out, gap ++ [x], hWindow.skip, hOut⟩, h.front_tail⟩

theorem copy (h : At text rest r w b (x :: kept) (x :: ahead)) :
    ∃ b', copyByte r w b = .ok ((), b') ∧ At text rest (r + 1) (w + 1) b' kept ahead := by
  obtain ⟨b₁, hLoad, h₁⟩ := h.load
  obtain ⟨out, gap, hWindow, hOut⟩ := h₁.window
  obtain ⟨b', hStore, hWindow'⟩ := hWindow.copy
  refine ⟨b', ?_, ⟨_, _, hWindow', ?_⟩, h.front_tail⟩
  · rw [copyByte, Run.bind_run_ok hLoad, hStore]
  · rw [List.append_assoc, List.singleton_append, hOut]

/-- The NUL behind what is kept. -/
theorem close (h : At text rest r w b [] []) :
    ∃ b', Buffer.store w 0 b = .ok ((), b') ∧ At text rest r w b' [] [] ∧
      ∃ tail, b'.cells = strip .text text ++ 0 :: tail := by
  obtain ⟨out, gap, hWindow, hOut⟩ := h.window
  rw [List.append_nil] at hOut
  obtain ⟨b', gap', tail, hStore, hWindow', hCells⟩ := hWindow.close
  refine ⟨b', hStore, ⟨⟨out, gap', hWindow', by rw [List.append_nil, hOut]⟩, h.front⟩, tail, ?_⟩
  rw [hCells, hOut]

theorem ne_zero (hText : 0 ∉ text) (h : At text rest r w b kept (x :: ahead)) : x ≠ 0 := by
  obtain ⟨front, rfl, -⟩ := h.front
  rintro rfl
  exact hText (by simp)

end At

/-! ## One step -/

/-- An upper bound for the steps up to the end. -/
def rank : Loop → List UInt8 → Nat
  | .text, u => 3 * u.length + 1
  | .string, u => 3 * u.length + 2
  | .lineComment, u => 3 * u.length + if u.headD 0x0A = 0x0A then 2 else 0
  | .blockComment, u => 3 * u.length + 2
  | .done, _ => 0

/-- Control is at its place in the text, with fewer than `n` steps to go; at the end the text is
stripped. -/
def Placed (text rest : List UInt8) (n : Nat) (c : Control) (b : Buffer UInt8) : Prop :=
  ∃ ahead, At text rest c.read c.write b (strip c.loop ahead) ahead ∧ rank c.loop ahead < n ∧
    (c.loop = .done → ahead = [] ∧ ∃ tail, b.cells = strip .text text ++ 0 :: tail)

theorem At.placed {l : Loop} (h : At text rest r w b (strip l ahead) ahead) (hl : l ≠ .done)
    (hRank : rank l ahead < n) : Placed text rest n ⟨l, r, w⟩ b :=
  ⟨ahead, h, hRank, fun hDone => absurd hDone hl⟩

/-- At the end of the text every loop leaves for the outer one. -/
theorem At.placed_end {l : Loop} (h : At text rest r w b (strip l []) []) (hRank : 1 < n) :
    Placed text rest n ⟨.text, r, w⟩ b := by
  rw [strip_nil] at h
  exact ⟨[], h, hRank, nofun⟩

theorem headD_eq {u : List UInt8} (hy : y ≠ 0) (h : u.headD 0 = y) : ∃ v, u = y :: v := by
  cases u with
  | nil => exact absurd h.symm hy
  | cons z v => exact ⟨v, congrArg (· :: v) h⟩

theorem lineStep_run (hText : 0 ∉ text)
    (h : At text rest r w b (strip .lineComment ahead) ahead) :
    ∃ c b', lineStep r w b = .ok (c, b') ∧ Placed text rest (rank .lineComment ahead) c b' := by
  cases ahead with
  | nil =>
    obtain ⟨b', hLoad, h'⟩ := h.load_end
    refine ⟨⟨.text, r, w⟩, b', ?_, h'.placed_end (Nat.lt_succ_self 1)⟩
    rw [lineStep, Run.bind_run_ok hLoad, if_pos (Or.inl rfl)]
    rfl
  | cons x ahead =>
    obtain ⟨b', hLoad, h'⟩ := h.load
    by_cases hx : x = 0x0A
    · subst hx
      rw [strip_line_newline, ← strip_space (x := 0x0A) (by decide)] at h'
      refine ⟨⟨.text, r, w⟩, b', ?_, h'.placed nofun (Nat.lt_succ_self _)⟩
      rw [lineStep, Run.bind_run_ok hLoad, if_pos (Or.inr rfl)]
      rfl
    · have hNot : ¬ (x = 0 ∨ x = 0x0A) := not_or.mpr ⟨h.ne_zero hText, hx⟩
      rw [strip_line_skip hx] at h'
      refine ⟨⟨.lineComment, r + 1, w⟩, b', ?_, h'.skip.placed nofun ?_⟩
      · rw [lineStep, Run.bind_run_ok hLoad, if_neg hNot]
        rfl
      · simp only [rank, List.length_cons]
        split <;> omega

theorem blockStep_run (hText : 0 ∉ text)
    (h : At text rest r w b (strip .blockComment ahead) ahead) :
    ∃ c b', blockStep r w b = .ok (c, b') ∧ Placed text rest (rank .blockComment ahead) c b' := by
  cases ahead with
  | nil =>
    obtain ⟨b', hLoad, h'⟩ := h.load_end
    refine ⟨⟨.text, r, w⟩, b', ?_, h'.placed_end (Nat.lt_succ_self 1)⟩
    rw [blockStep, Run.bind_run_ok hLoad, if_pos rfl]
    rfl
  | cons x ahead =>
    obtain ⟨b₁, hLoad, h₁⟩ := h.load
    have hZero := h.ne_zero hText
    have hRank : rank .blockComment ahead < rank .blockComment (x :: ahead) := by
      simp only [rank, List.length_cons]
      omega
    by_cases hx : x = 0x2A
    · obtain ⟨b', hLoad', h'⟩ := h₁.load_second
      by_cases hy : ahead.headD 0 = 0x2F
      · obtain ⟨ahead, rfl⟩ := headD_eq (by decide) hy
        subst hx
        rw [strip_block_end] at h'
        refine ⟨⟨.text, r + 2, w⟩, b', ?_, h'.skip.skip.placed nofun ?_⟩
        · rw [blockStep, Run.bind_run_ok hLoad, if_neg hZero, if_pos rfl,
            Run.bind_run_ok hLoad', if_pos hy]
          rfl
        · simp only [rank, List.length_cons]
          omega
      · rw [strip_block_skip fun hEnd => hy hEnd.2] at h'
        refine ⟨⟨.blockComment, r + 1, w⟩, b', ?_, h'.skip.placed nofun hRank⟩
        rw [blockStep, Run.bind_run_ok hLoad, if_neg hZero, if_pos hx, Run.bind_run_ok hLoad',
          if_neg hy]
        rfl
    · rw [strip_block_skip fun hEnd => hx hEnd.1] at h₁
      refine ⟨⟨.blockComment, r + 1, w⟩, b₁, ?_, h₁.skip.placed nofun hRank⟩
      rw [blockStep, Run.bind_run_ok hLoad, if_neg hZero, if_neg hx]
      rfl

theorem stringStep_run (hText : 0 ∉ text)
    (h : At text rest r w b (strip .string ahead) ahead) :
    ∃ c b', stringStep r w b = .ok (c, b') ∧ Placed text rest (rank .string ahead) c b' := by
  cases ahead with
  | nil =>
    obtain ⟨b', hLoad, h'⟩ := h.load_end
    refine ⟨⟨.text, r, w⟩, b', ?_, h'.placed_end (Nat.lt_succ_self 1)⟩
    rw [stringStep, Run.bind_run_ok hLoad, if_pos rfl]
    rfl
  | cons x ahead =>
    obtain ⟨b₁, hLoad, h₁⟩ := h.load
    have hZero := h.ne_zero hText
    by_cases hx : x = 0x22
    · rw [hx, strip_string_quote] at h₁
      obtain ⟨b', hCopy, h'⟩ := h₁.copy
      refine ⟨⟨.text, r + 1, w + 1⟩, b', ?_, h'.placed nofun ?_⟩
      · rw [stringStep, Run.bind_run_ok hLoad, if_neg hZero, if_pos hx, Run.bind_run_ok hCopy]
        rfl
      · simp only [rank, List.length_cons]
        omega
    · by_cases hx' : x = 0x5C
      · obtain ⟨b₂, hLoad', h₂⟩ := h₁.load_second
        subst hx'
        cases ahead with
        | nil =>
          -- The backslash is the last byte of the text.
          have h₃ : At text rest r w b₂ (0x5C :: strip .string []) [0x5C] := h₂
          obtain ⟨b', hCopy, h'⟩ := h₃.copy
          refine ⟨⟨.string, r + 1, w + 1⟩, b', ?_, h'.placed nofun (Nat.lt_add_of_pos_left ?_)⟩
          · rw [stringStep, Run.bind_run_ok hLoad, if_neg hZero, if_neg hx, if_pos rfl,
              Run.bind_run_ok hLoad', if_neg (fun h => h rfl), Run.bind_run_ok hCopy]
            rfl
          · decide
        | cons y ahead =>
          have hy : (y :: ahead).headD 0 ≠ 0 := h₂.skip.ne_zero hText
          rw [strip_string_backslash] at h₂
          obtain ⟨b₃, hCopy, h₃⟩ := h₂.copy
          obtain ⟨b', hCopy', h'⟩ := h₃.copy
          refine ⟨⟨.string, r + 2, w + 2⟩, b', ?_, h'.placed nofun ?_⟩
          · rw [stringStep, Run.bind_run_ok hLoad, if_neg hZero, if_neg hx, if_pos rfl,
              Run.bind_run_ok hLoad', if_pos hy, Run.bind_run_ok hCopy, Run.bind_run_ok hCopy']
            rfl
          · simp only [rank, List.length_cons]
            omega
      · rw [strip_string_plain hx hx'] at h₁
        obtain ⟨b', hCopy, h'⟩ := h₁.copy
        refine ⟨⟨.string, r + 1, w + 1⟩, b', ?_, h'.placed nofun ?_⟩
        · rw [stringStep, Run.bind_run_ok hLoad, if_neg hZero, if_neg hx, if_neg hx',
            Run.bind_run_ok hCopy]
          rfl
        · simp only [rank, List.length_cons]
          omega

theorem textStep_run (hText : 0 ∉ text) (h : At text rest r w b (strip .text ahead) ahead) :
    ∃ c b', textStep r w b = .ok (c, b') ∧ Placed text rest (rank .text ahead) c b' := by
  cases ahead with
  | nil =>
    obtain ⟨b₁, hLoad, h₁⟩ := h.load_end
    obtain ⟨b', hClose, h', hEnd⟩ := h₁.close
    refine ⟨⟨.done, r, w⟩, b', ?_, [], h', Nat.zero_lt_one, fun _ => ⟨rfl, hEnd⟩⟩
    rw [textStep, Run.bind_run_ok hLoad, if_pos rfl, Run.bind_run_ok hClose]
    rfl
  | cons x ahead =>
    obtain ⟨b₁, hLoad, h₁⟩ := h.load
    have hZero := h.ne_zero hText
    have hRank : rank .text ahead < rank .text (x :: ahead) := by
      simp only [rank, List.length_cons]
      omega
    by_cases hSpace : x = 0x20 ∨ x = 0x09 ∨ x = 0x0A ∨ x = 0x0D
    · rw [strip_space hSpace] at h₁
      refine ⟨⟨.text, r + 1, w⟩, b₁, ?_, h₁.skip.placed nofun hRank⟩
      rw [textStep, Run.bind_run_ok hLoad, if_neg hZero, if_pos hSpace]
      rfl
    by_cases hQuote : x = 0x22
    · rw [hQuote, strip_quote] at h₁
      obtain ⟨b', hCopy, h'⟩ := h₁.copy
      refine ⟨⟨.string, r + 1, w + 1⟩, b', ?_, h'.placed nofun ?_⟩
      · rw [textStep, Run.bind_run_ok hLoad, if_neg hZero, if_neg hSpace, if_pos hQuote,
          Run.bind_run_ok hCopy]
        rfl
      · simp only [rank, List.length_cons]
        omega
    by_cases hSlash : x = 0x2F
    · subst hSlash
      obtain ⟨b₂, hLoad', h₂⟩ := h₁.load_second
      by_cases hLine : ahead.headD 0 = 0x2F
      · obtain ⟨ahead, rfl⟩ := headD_eq (by decide) hLine
        rw [strip_slash_slash, ← strip_line_skip (x := 0x2F) (by decide),
          ← strip_line_skip (x := 0x2F) (by decide)] at h₂
        refine ⟨⟨.lineComment, r, w⟩, b₂, ?_, h₂.placed nofun (Nat.lt_succ_self _)⟩
        rw [textStep, Run.bind_run_ok hLoad, if_neg hZero, if_neg hSpace, if_neg hQuote,
          if_pos rfl, Run.bind_run_ok hLoad', if_pos hLine]
        rfl
      obtain ⟨b₃, hLoad'', h₃⟩ := h₂.load_second
      by_cases hBlock : ahead.headD 0 = 0x2A
      · obtain ⟨ahead, rfl⟩ := headD_eq (by decide) hBlock
        rw [strip_slash_star] at h₃
        refine ⟨⟨.blockComment, r + 2, w⟩, b₃, ?_, h₃.skip.skip.placed nofun ?_⟩
        · rw [textStep, Run.bind_run_ok hLoad, if_neg hZero, if_neg hSpace, if_neg hQuote,
            if_pos rfl, Run.bind_run_ok hLoad', if_neg hLine, Run.bind_run_ok hLoad'',
            if_pos hBlock]
          rfl
        · simp only [rank, List.length_cons]
          omega
      · rw [strip_slash hLine hBlock] at h₃
        obtain ⟨b', hCopy, h'⟩ := h₃.copy
        refine ⟨⟨.text, r + 1, w + 1⟩, b', ?_, h'.placed nofun hRank⟩
        rw [textStep, Run.bind_run_ok hLoad, if_neg hZero, if_neg hSpace, if_neg hQuote,
          if_pos rfl, Run.bind_run_ok hLoad', if_neg hLine, Run.bind_run_ok hLoad'',
          if_neg hBlock, Run.bind_run_ok hCopy]
        rfl
    · rw [strip_plain hSpace hQuote hSlash] at h₁
      obtain ⟨b', hCopy, h'⟩ := h₁.copy
      refine ⟨⟨.text, r + 1, w + 1⟩, b', ?_, h'.placed nofun hRank⟩
      rw [textStep, Run.bind_run_ok hLoad, if_neg hZero, if_neg hSpace, if_neg hQuote,
        if_neg hSlash, Run.bind_run_ok hCopy]
      rfl

/-- Every step up to the end brings control to a place in the text that is nearer to it. -/
theorem step_run (hText : 0 ∉ text) (hLoop : c.loop ≠ .done) (h : Placed text rest n c b) :
    ∃ c' b' m, step c b = .ok (c', b') ∧ Placed text rest m c' b' ∧ m < n := by
  obtain ⟨l, r, w⟩ := c
  obtain ⟨ahead, hAt, hRank, -⟩ := h
  cases l with
  | text =>
    obtain ⟨c', b', hRun, h'⟩ := textStep_run hText hAt
    exact ⟨c', b', _, hRun, h', hRank⟩
  | string =>
    obtain ⟨c', b', hRun, h'⟩ := stringStep_run hText hAt
    exact ⟨c', b', _, hRun, h', hRank⟩
  | lineComment =>
    obtain ⟨c', b', hRun, h'⟩ := lineStep_run hText hAt
    exact ⟨c', b', _, hRun, h', hRank⟩
  | blockComment =>
    obtain ⟨c', b', hRun, h'⟩ := blockStep_run hText hAt
    exact ⟨c', b', _, hRun, h', hRank⟩
  | done => exact absurd rfl hLoop

/-! ## Runs -/

theorem Placed.mono {m : Nat} (h : Placed text rest m c b) (hLe : m ≤ n) :
    Placed text rest n c b := by
  obtain ⟨ahead, hAt, hRank, hEnd⟩ := h
  exact ⟨ahead, hAt, Nat.lt_of_lt_of_le hRank hLe, hEnd⟩

theorem placed_start (text rest : List UInt8) :
    Placed text rest (3 * text.length + 2) ⟨.text, 0, 0⟩ ⟨text ++ 0 :: rest, 0⟩ :=
  ⟨text, ⟨⟨[], [], Buffer.Window.start _ _, rfl⟩, [], rfl, rfl⟩, Nat.lt_succ_self _, nofun⟩

/-- What a run on `json` goes through. -/
inductive Reaches (json : List UInt8) : Control → Buffer UInt8 → Prop
  | start : Reaches json ⟨.text, 0, 0⟩ ⟨json, 0⟩
  | step {c c' : Control} {b b' : Buffer UInt8} (h : Reaches json c b) (hLoop : c.loop ≠ .done)
      (hStep : step c b = .ok (c', b')) : Reaches json c' b'

theorem placed_of_reaches (hText : 0 ∉ text) (h : Reaches (text ++ 0 :: rest) c b) :
    ∃ n, Placed text rest n c b := by
  induction h with
  | start => exact ⟨_, placed_start text rest⟩
  | step _ hLoop hStep ih =>
    obtain ⟨n, hPlaced⟩ := ih
    obtain ⟨c', b', m, hRun, h', -⟩ := step_run hText hLoop hPlaced
    cases hStep.symm.trans hRun
    exact ⟨m, h'⟩

/-- A run ends within the steps it is given. -/
theorem steps_run (hText : 0 ∉ text) (h : Placed text rest n c b) :
    ∃ c' b', steps n c b = .ok (c', b') ∧ c'.loop = .done ∧ Placed text rest n c' b' := by
  induction n generalizing c b with
  | zero =>
    obtain ⟨_, _, hRank, _⟩ := h
    cases hRank
  | succ n ih =>
    by_cases hLoop : c.loop = .done
    · refine ⟨c, b, ?_, hLoop, h⟩
      rw [steps, if_pos hLoop]
      rfl
    · obtain ⟨c₁, b₁, m, hRun, h₁, hm⟩ := step_run hText hLoop h
      obtain ⟨c', b', hRun', hDone, h'⟩ := ih (h₁.mono (Nat.le_of_lt_succ hm))
      refine ⟨c', b', ?_, hDone, h'.mono (Nat.le_succ n)⟩
      rw [steps, if_neg hLoop, Run.bind_run_ok hRun, hRun']

/-- Where control is, the position of writing is not ahead of that of reading, which is in the
text; what is ahead is as it was, and no byte behind the first NUL was loaded. -/
structure Inside (text rest : List UInt8) (c : Control) (b : Buffer UInt8) : Prop where
  write_le : c.write ≤ c.read
  read_le : c.read ≤ text.length
  unread : b.cells.drop c.read = (text ++ 0 :: rest).drop c.read
  seen : b.seen ≤ text.length + 1

theorem Placed.inside (h : Placed text rest n c b) : Inside text rest c b := by
  obtain ⟨ahead, hAt, -, -⟩ := h
  obtain ⟨out, gap, hWindow, -⟩ := hAt.window
  have hRead := hAt.read_le
  obtain ⟨front, hFront, hLength⟩ := hAt.front
  refine ⟨hWindow.write_le_read, by omega, ?_, hWindow.seen⟩
  rw [hWindow.drop_read, hFront, List.append_assoc, ← hLength, List.drop_left]

/-- The stripped text is what is left, in front of what was behind the text. -/
theorem minifyInPlace_run (hText : 0 ∉ text) (rest : List UInt8) :
    ∃ tail, minifyInPlace (some (text ++ 0 :: rest)) = .ok (some (strip .text text ++ 0 :: tail)) ∧
      (strip .text text = text → tail = rest) := by
  have hFuel : 3 * text.length + 2 ≤ 3 * (text ++ 0 :: rest).length + 2 := by
    rw [List.length_append]
    omega
  obtain ⟨c, b, hRun, hDone, hPlaced⟩ := steps_run hText ((placed_start text rest).mono hFuel)
  have hUnread := hPlaced.inside.unread
  obtain ⟨ahead, hAt, -, hEnd⟩ := hPlaced
  obtain ⟨rfl, tail, hCells⟩ := hEnd hDone
  have hRead := hAt.read_le
  rw [List.length_nil, Nat.add_zero] at hRead
  refine ⟨tail, ?_, fun hSame => ?_⟩
  · rw [minifyInPlace, hRun, ← hCells]
  · rw [hCells, hRead, hSame, List.drop_left, List.drop_left] at hUnread
    exact (List.cons.inj hUnread).2

/-! ## Subsequences -/

theorem strip_sublist (l : Loop) (u : List UInt8) : (strip l u).Sublist u := by
  fun_induction strip l u with
  | case1 u => exact List.nil_sublist u
  | case2 l hl => exact List.Sublist.refl []
  -- a byte is dropped
  | case3 b r hb ih => exact ih.cons b
  | case14 r ih => exact ih.cons 0x0A
  | case15 b r hb ih => exact ih.cons b
  | case18 c r hc ih => exact ih.cons 0x2A
  | case19 b r hb ih => exact ih.cons b
  -- the two bytes of a comment mark
  | case6 r h h' ih => exact (ih.cons 0x2F).cons 0x2F
  | case7 r h h' h'' ih => exact (ih.cons 0x2A).cons 0x2F
  | case16 => exact List.nil_sublist [0x2A]
  | case17 r ih => exact (ih.cons 0x2F).cons 0x2A
  -- a byte is kept
  | case4 r h ih => exact ih.cons_cons 0x22
  | case5 h h' => exact List.Sublist.refl [0x2F]
  | case8 c r hc hc' h h' ih => exact ih.cons_cons 0x2F
  | case9 b r h h' h'' ih => exact ih.cons_cons b
  | case10 r ih => exact ih.cons_cons 0x22
  | case11 h => exact List.Sublist.refl [0x5C]
  | case13 b r h h' ih => exact ih.cons_cons b
  -- an escape
  | case12 c r h ih => exact (ih.cons_cons c).cons_cons 0x5C

/-- On every NUL-terminated text, whatever it is, `minify_in_place` returns with a NUL-terminated
subsequence of it. In every state on the way control can go on, the position of writing is not
ahead of that of reading, nothing ahead is overwritten, and nothing behind the first NUL is
read. -/
theorem minifyInPlace_inside (hText : 0 ∉ text) (rest : List UInt8) :
    (∃ out tail, minifyInPlace (some (text ++ 0 :: rest)) = .ok (some (out ++ 0 :: tail)) ∧
      0 ∉ out ∧ out.Sublist text) ∧
    ∀ c b, Reaches (text ++ 0 :: rest) c b → Inside text rest c b ∧
      (c.loop ≠ .done → ∃ c' b', step c b = .ok (c', b')) := by
  constructor
  · obtain ⟨tail, hRun, -⟩ := minifyInPlace_run hText rest
    have hSublist := strip_sublist .text text
    exact ⟨_, tail, hRun, fun hMem => hText (hSublist.subset hMem), hSublist⟩
  · intro c b h
    obtain ⟨n, hPlaced⟩ := placed_of_reaches hText h
    refine ⟨hPlaced.inside, fun hLoop => ?_⟩
    obtain ⟨c', b', -, hRun, -⟩ := step_run hText hLoop hPlaced
    exact ⟨c', b', hRun⟩

/-- A string that is not closed and ends in a backslash. -/
theorem minifyInPlace_inside_openString :
    (∃ out tail, minifyInPlace (some ([0x20, 0x22, 0x5C] ++ 0 :: [0x22])) =
        .ok (some (out ++ 0 :: tail)) ∧ 0 ∉ out ∧ out.Sublist [0x20, 0x22, 0x5C]) ∧
    ∀ c b, Reaches ([0x20, 0x22, 0x5C] ++ 0 :: [0x22]) c b →
      Inside [0x20, 0x22, 0x5C] [0x22] c b ∧
      (c.loop ≠ .done → ∃ c' b', step c b = .ok (c', b')) :=
  minifyInPlace_inside (by decide) [0x22]

end Minify

end CjsonRs.Ffi
