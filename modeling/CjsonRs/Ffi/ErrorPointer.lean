import CjsonRs.Ffi.Atomicity
import CjsonRs.Ffi.RoundTrip
import CjsonRs.Rfc.CutStrings

/-!
# The error pointer

What the parse entry points tell about where they stopped: the offset `error_byte_offset`
derives from an error, the pointer kept for `cJSON_GetErrorPtr` and the one stored through
`return_parse_end`.
-/

namespace CjsonRs.Ffi

open CjsonRs.Core CjsonRs.Core.Tokeniser CjsonRs.Rfc Library

variable {std : StdF64}

/-! ## The offset of an error -/

theorem errorByteOffset_eof (pos : Position) (n : Nat) :
    errorByteOffset (.unexpectedEof pos) n = n := rfl

theorem errorByteOffset_of_ne {e : Error} (h : ∀ pos, e ≠ .unexpectedEof pos) (n : Nat) :
    errorByteOffset e n = e.position.offset := by
  cases e <;> first | rfl | exact absurd rfl (h _)

theorem errorByteOffset_le {input : List UInt8} {e : Error} (h : ErrorInside input e) :
    errorByteOffset e input.length ≤ input.length := by
  rcases h with ⟨pos, rfl⟩ | h
  · exact le_rfl
  · cases e <;> first | exact le_rfl | exact h.le

/-! ## The strict and the prefix parser -/

/-- On every input that `parse_prefix` rejects, `parse` reports an error too. The two errors
have the same byte offset exactly when the tokens of the input reach its end. -/
theorem errorByteOffset_agrees_iff {input : List UInt8} {e : Error}
    (h : parsePrefix std input = .error e) :
    ∃ e', parse std input = .error e' ∧
      (errorByteOffset e' input.length = errorByteOffset e input.length ↔
        ReachesEnd std ParserOptions.default.nestingLimit input) := by
  rw [reachesEnd_iff]
  obtain ⟨tks, t', hRun, hTokens, hStop⟩ := tokenise_stops std input
  have hParser : (parserOf tks ParserOptions.default.nestingLimit).parseValue = .error e := by
    unfold parsePrefix at h
    dsimp only at h
    split at h
    · rename_i e' he
      cases h
      rwa [hTokens] at he
    · cases h
  rw [hTokens]
  rcases hStop with ⟨-, hTokenise⟩ | ⟨l, t₁, e', -, hReads, hEnd, hNext, hTokenise⟩
  · refine ⟨e, ?_, iff_of_true rfl (Or.inl ⟨tks, hTokenise⟩)⟩
    unfold parse parseWithOptions
    simp only [hTokenise]
    rw [show Parser.mk tks 0 0 _ = parserOf tks _ from rfl, hParser]
  · refine ⟨e', by unfold parse parseWithOptions; simp only [hTokenise], ?_⟩
    obtain ⟨hLe, hLt⟩ := nextToken_error_inside hEnd hNext
    rw [hReads.input_eq, hRun.inside.2.1] at hLt
    change e'.position.offset < input.length at hLt
    have hOffset := hReads.offset_le
    simp only [hTokenise, reduceCtorEq, exists_false, false_or, Except.error.injEq]
    rcases parser_error_kind hParser with ⟨⟨pos, rfl⟩, hContinues⟩ | ⟨hne, hNot, tk, hMem, hPos⟩
    · rw [errorByteOffset_eof]
      refine ⟨fun hEq => ⟨?_, hContinues⟩, ?_⟩
      · by_contra hEof
        rw [errorByteOffset_of_ne (not_exists.mp hEof)] at hEq
        omega
      · rintro ⟨⟨pos', rfl⟩, -⟩
        rfl
    · refine ⟨fun hEq => ?_, fun hEof => absurd hEof.2 hNot⟩
      have hToken := (hRun.inside.2.2 tk hMem).1
      have hInput := (hRun.inside.2.2 tk hMem).2.2
      change tk.pos.offset < input.length at hInput
      rw [errorByteOffset_of_ne hne, hPos] at hEq
      by_cases hEof : ∃ pos, e' = .unexpectedEof pos
      · obtain ⟨pos, rfl⟩ := hEof
        rw [errorByteOffset_eof] at hEq
        omega
      · rw [errorByteOffset_of_ne (not_exists.mp hEof)] at hEq
        omega

/-- `[@` -/
def openAt : List UInt8 := [0x5B, 0x40]

/-- A parser that knows no number. -/
def noNumbers : StdF64 where
  parse _ := none
  display _ := []

theorem parsePrefix_openAt :
    parsePrefix noNumbers openAt = .error (.unexpectedEof Position.start) := by
  have hCheck : (match parsePrefix noNumbers openAt with
      | .ok _ => false
      | .error e => e == .unexpectedEof Position.start) = true := by decide +kernel
  split at hCheck
  · cases hCheck
  · rename_i e he
    rw [he, eq_of_beq hCheck]

theorem parse_openAt : parse noNumbers openAt = .error (.unexpectedChar '@' ⟨1, 2, 1⟩) := by
  have hCheck : (match parse noNumbers openAt with
      | .ok _ => false
      | .error e => e == .unexpectedChar '@' ⟨1, 2, 1⟩) = true := by decide +kernel
  split at hCheck
  · cases hCheck
  · rename_i e he
    rw [he, eq_of_beq hCheck]

/-- A byte that starts no token, behind tokens that could go on: the strict parser reports the
byte, the prefix parser the end of the input. -/
theorem errorByteOffset_disagrees : ¬ ∀ (std : StdF64) (input : List UInt8) (e : Error),
    parsePrefix std input = .error e → ∃ e', parse std input = .error e' ∧
      errorByteOffset e' input.length = errorByteOffset e input.length := by
  intro h
  obtain ⟨e', he', hEq⟩ := h noNumbers openAt _ parsePrefix_openAt
  cases parse_openAt.symm.trans he'
  exact absurd hEq (by decide)

theorem errorByteOffset_agrees_iff_openAt :
    ∃ e', parse noNumbers openAt = .error e' ∧
      (errorByteOffset e' openAt.length
          = errorByteOffset (.unexpectedEof Position.start) openAt.length ↔
        ReachesEnd noNumbers ParserOptions.default.nestingLimit openAt) :=
  errorByteOffset_agrees_iff parsePrefix_openAt

/-! ## The entry points -/

/-- The parse entry points, with the arguments besides the buffer. -/
inductive ParseCall where
  | parse
  | withLength (bufferLength : Nat)
  | withOpts (wantEnd : Bool) (requireNullTerminated : Int)
  | withLengthOpts (bufferLength : Nat) (wantEnd : Bool) (requireNullTerminated : Int)
  deriving DecidableEq, Repr

namespace ParseCall

def run (std : StdF64) (value : Ptr) : ParseCall → M Parsed
  | parse => (fun item => ⟨item, none⟩) <$> cjsonParse std value
  | withLength len => (fun item => ⟨item, none⟩) <$> cjsonParseWithLength std value len
  | withOpts wantEnd strict => cjsonParseWithOpts std value wantEnd strict
  | withLengthOpts len wantEnd strict => cjsonParseWithLengthOpts std value len wantEnd strict

/-- Whether a parse end is requested. -/
def wantEnd : ParseCall → Bool
  | parse | withLength _ => false
  | withOpts wantEnd _ | withLengthOpts _ wantEnd _ => wantEnd

/-- Whether the whole buffer has to be one document. -/
def strict : ParseCall → Bool
  | parse | withLength _ => true
  | withOpts _ strict | withLengthOpts _ _ strict => strict ≠ 0

/-- `bytes` is what the call has to parse: a C string, or the given number of bytes. -/
def Reads (h : Heap) (s : Addr) (bytes : List UInt8) : ParseCall → Prop
  | parse | withOpts _ _ => ∃ b, h.bufs s = some b ∧ 0 ∈ b.bytes ∧ bytes = cstr b.bytes
  | withLength len | withLengthOpts len _ _ =>
    ∃ b, h.bufs s = some b ∧ len ≤ b.bytes.length ∧ bytes = b.bytes.take len

end ParseCall

/-- What the core parser makes of a buffer, behind its byte order mark. -/
def parseOutcome (std : StdF64) (strict : Bool) (bytes : List UInt8) : Except Error Value :=
  if strict then parse std (stripUtf8Bom bytes).1
  else (parsePrefix std (stripUtf8Bom bytes).1).map Prod.fst

/-- The pointers into the buffer that a call leaves behind. -/
structure Reports (std : StdF64) (s : Addr) (bytes : List UInt8) (wantEnd strict : Bool) (h : Heap)
    (r : Parsed) (h' : Heap) : Prop where
  accepted : ∀ v, parseOutcome std strict bytes = .ok v →
    cjsonGetErrorPtr h' = .ok (none, h') ∧
      ∃ m ≤ bytes.length, r.stored = (if wantEnd then some (some (s, m)) else none) ∧
        (strict = true → m = bytes.length) ∧
        (strict = false → cjsonParseWithLength std (some s) m h = .ok (r.item, h') ∧
          parse std (stripUtf8Bom (bytes.take m)).1 = .ok v)
  rejected : ∀ e, parseOutcome std strict bytes = .error e → r.item = none ∧
    ∃ k ≤ bytes.length, cjsonGetErrorPtr h' = .ok (some (s, k), h') ∧
      r.stored = if wantEnd then some (some (s, k)) else none

/-! ## The byte order mark -/

/-- The mark and what is left of the buffer. -/
theorem stripUtf8Bom_length (bytes : List UInt8) :
    (stripUtf8Bom bytes).2 + (stripUtf8Bom bytes).1.length = bytes.length := by
  unfold stripUtf8Bom
  split_ifs with hBom
  · have hLength := congrArg List.length hBom
    simp only [List.length_take, List.length_cons, List.length_nil] at hLength
    simp only [List.length_drop]
    omega
  · exact Nat.zero_add _

/-- The first bytes of a buffer start with the same mark, if they reach beyond it. -/
theorem stripUtf8Bom_take (bytes : List UInt8) (n : Nat) (hn : 0 < n) :
    (stripUtf8Bom (bytes.take ((stripUtf8Bom bytes).2 + n))).1 = (stripUtf8Bom bytes).1.take n := by
  by_cases hBom : bytes.take 3 = [0xEF, 0xBB, 0xBF]
  · have hStrip : stripUtf8Bom bytes = (bytes.drop 3, 3) := if_pos hBom
    have hTake : (bytes.take (3 + n)).take 3 = [0xEF, 0xBB, 0xBF] := by
      rw [List.take_take, Nat.min_eq_left (Nat.le_add_right 3 n), hBom]
    rw [hStrip, stripUtf8Bom, if_pos hTake]
    simp [List.drop_take]
  · have hStrip : stripUtf8Bom bytes = (bytes, 0) := if_neg hBom
    have hTake : (bytes.take n).take 3 ≠ [0xEF, 0xBB, 0xBF] := by
      intro hEq
      refine hBom ?_
      have hLength := congrArg List.length hEq
      simp only [List.length_take, List.length_cons, List.length_nil] at hLength
      rwa [List.take_take, Nat.min_eq_left (by omega)] at hEq
    rw [hStrip, Nat.zero_add, stripUtf8Bom, if_neg hTake]

/-! ## Runs -/

variable {h h' : Heap} {s : Addr} {bytes : List UInt8} {v : Value}

/-- The result of a call that stores `p` if a parse end is requested. -/
def parsedAt (wantEnd : Bool) (p : CharPtr) (item : Ptr) : Parsed :=
  ⟨item, if wantEnd then some p else none⟩

/-- What `parseBytes` goes on with. -/
def parseStop (std : StdF64) (strict : Bool) (bytes : List UInt8) (whole : Nat) :
    Except Error (Value × Nat) :=
  if strict then (parse std (stripUtf8Bom bytes).1).map fun v => (v, whole)
  else (parsePrefix std (stripUtf8Bom bytes).1).map fun r => (r.1, (stripUtf8Bom bytes).2 + r.2)

theorem parseOutcome_eq {strict : Bool} (whole : Nat) :
    parseOutcome std strict bytes = (parseStop std strict bytes whole).map Prod.fst := by
  unfold parseOutcome parseStop
  split
  · cases parse std (stripUtf8Bom bytes).1 <;> rfl
  · cases parsePrefix std (stripUtf8Bom bytes).1 <;> rfl

/-- An error lies inside what is left behind the byte order mark. -/
theorem parseStop_error {strict : Bool} {whole : Nat} {e : Error}
    (h : parseStop std strict bytes whole = .error e) :
    ErrorInside (stripUtf8Bom bytes).1 e := by
  unfold parseStop at h
  split at h
  · cases hParse : parse std (stripUtf8Bom bytes).1 with
    | error e' =>
      rw [hParse] at h
      cases h
      exact parseWithOptions_error_inside hParse
    | ok v =>
      rw [hParse] at h
      cases h
  · cases hParse : parsePrefix std (stripUtf8Bom bytes).1 with
    | error e' =>
      rw [hParse] at h
      cases h
      exact parsePrefix_error_inside hParse
    | ok r =>
      rw [hParse] at h
      cases h

/-- A strict success ends at the end of the buffer, a prefix is a document of its own. -/
theorem parseStop_ok {strict : Bool} {stop : Nat}
    (h : parseStop std strict bytes bytes.length = .ok (v, stop)) : stop ≤ bytes.length ∧
      (strict = true → stop = bytes.length) ∧
      (strict = false → parse std (stripUtf8Bom (bytes.take stop)).1 = .ok v) := by
  have hBom := stripUtf8Bom_length bytes
  unfold parseStop at h
  split at h
  · rename_i hStrict
    cases hParse : parse std (stripUtf8Bom bytes).1 with
    | error e => simp [hParse, Except.map] at h
    | ok v' =>
      rw [hParse] at h
      cases h
      refine ⟨le_rfl, fun _ => rfl, ?_⟩
      rw [hStrict]
      exact nofun
  · rename_i hStrict
    cases hParse : parsePrefix std (stripUtf8Bom bytes).1 with
    | error e => simp [hParse, Except.map] at h
    | ok r =>
      rw [hParse] at h
      cases h
      obtain ⟨hPos, hLe, -, hPrefix⟩ := parse_of_parsePrefix hParse
      refine ⟨by omega, fun hEq => absurd hEq hStrict, fun _ => ?_⟩
      rw [stripUtf8Bom_take bytes _ hPos]
      exact hPrefix

theorem parseBytes_ok {value : Addr} {wantEnd : Bool} {whole stop : Nat} {strict : Int}
    (hOk : parseStop std (strict ≠ 0) bytes whole = .ok (v, stop)) :
    parseBytes std value bytes wantEnd whole strict h
      = (parsedAt wantEnd (some (value, stop)) <$> valueToCjson v)
        { h with lastError := none } := by
  unfold parseStop at hOk
  simp only [decide_eq_true_eq] at hOk
  unfold parseBytes
  dsimp only
  rw [hOk]
  rfl

theorem parseBytes_error {value : Addr} {wantEnd : Bool} {whole : Nat} {strict : Int} {e : Error}
    (hError : parseStop std (strict ≠ 0) bytes whole = .error e) :
    parseBytes std value bytes wantEnd whole strict h
      = (let errPtr : CharPtr := some (value, (stripUtf8Bom bytes).2
          + errorByteOffset e (stripUtf8Bom bytes).1.length)
        .ok (parsedAt wantEnd errPtr none, { h with lastError := errPtr })) := by
  unfold parseStop at hError
  simp only [decide_eq_true_eq] at hError
  unfold parseBytes
  dsimp only
  rw [hError]
  rfl

theorem Built.lastError {q : Ptr} (hBuilt : Built h q h') : h'.lastError = h.lastError := by
  obtain ⟨kids, hGrown⟩ := hBuilt
  exact hGrown.ext.lastError

/-- Strict parsing of the bytes that are loaded builds the tree of their value. -/
theorem cjsonParseWithLength_run {len : Nat} (hLoad : loadSlice (some s) len h = .ok (bytes, h))
    (hParse : parse std (stripUtf8Bom bytes).1 = .ok v) :
    cjsonParseWithLength std (some s) len h = valueToCjson v { h with lastError := none } := by
  have hStop : parseStop std (decide ((1 : Int) ≠ 0)) bytes len = .ok (v, len) := by
    simp [parseStop, hParse, Except.map]
  rw [cjsonParseWithLength, Run.bind_run_ok hLoad]
  show (parseBytes std s bytes false len 1 h >>= fun r => pure (r.1.item, r.2)) = _
  rw [parseBytes_ok hStop, map_eq_pure_bind, Run.bind_run]
  cases valueToCjson v { h with lastError := none } <;> rfl

/-- Any first bytes of the buffer can be loaded. -/
def Loads (h : Heap) (s : Addr) (bytes : List UInt8) : Prop :=
  ∀ m ≤ bytes.length, loadSlice (some s) m h = .ok (bytes.take m, h)

theorem parseBytes_reports (std : StdF64) (hBounded : h.Bounded) (hLoads : Loads h s bytes)
    (wantEnd : Bool) (strict : Int) :
    ∃ r h', parseBytes std s bytes wantEnd bytes.length strict h = .ok (r, h') ∧
      Reports std s bytes wantEnd (strict ≠ 0) h r h' := by
  have hOutcome : parseOutcome std (strict ≠ 0) bytes = _ := parseOutcome_eq bytes.length
  cases hStop : parseStop std (strict ≠ 0) bytes bytes.length with
  | error e =>
    rw [hStop] at hOutcome
    refine ⟨_, _, parseBytes_error hStop, ⟨fun v hv => ?_, fun e' _ => ?_⟩⟩
    · cases hOutcome.symm.trans hv
    · have hBom := stripUtf8Bom_length bytes
      have hLe := errorByteOffset_le (parseStop_error hStop)
      exact ⟨rfl, _, by omega, rfl, rfl⟩
  | ok r =>
    obtain ⟨v, stop⟩ := r
    rw [hStop] at hOutcome
    obtain ⟨hLe, hWhole, hPrefix⟩ := parseStop_ok hStop
    obtain ⟨q, h', hRun, hBuilt⟩ :=
      ((forms_valueToCjson v _ (bounded_lastError hBounded none)).meets).returns trivial
    refine ⟨parsedAt wantEnd (some (s, stop)) q, h', ?_, ⟨fun v' hv' => ?_, fun e he => ?_⟩⟩
    · rw [parseBytes_ok hStop]
      exact Run.map_run_ok hRun
    · cases hOutcome.symm.trans hv'
      refine ⟨?_, stop, hLe, rfl, hWhole, fun hNot => ⟨?_, hPrefix hNot⟩⟩
      · rw [cjsonGetErrorPtr, hBuilt.lastError]
      · rw [cjsonParseWithLength_run (hLoads stop hLe) (hPrefix hNot)]
        exact hRun
    · cases hOutcome.symm.trans he

theorem loads_of_first {b : Buf} (hb : h.bufs s = some b) (hPrefix : bytes <+: b.bytes) :
    Loads h s bytes := by
  intro m hm
  have hLe := hm.trans hPrefix.length_le
  have hTake : b.bytes.take m = bytes.take m := by
    obtain ⟨r, hr⟩ := hPrefix
    rw [← hr, List.take_append_of_le_length hm]
  simp only [loadSlice, hb, if_pos hLe, hTake]

theorem cjsonParseWithOpts_reports (std : StdF64) (hBounded : h.Bounded) {b : Buf}
    (hb : h.bufs s = some b) (hNul : 0 ∈ b.bytes) (wantEnd : Bool) (strict : Int) :
    ∃ r h', cjsonParseWithOpts std (some s) wantEnd strict h = .ok (r, h') ∧
      Reports std s (cstr b.bytes) wantEnd (strict ≠ 0) h r h' := by
  obtain ⟨r, h', hRun, hReports⟩ := parseBytes_reports std hBounded
    (loads_of_first hb (List.takeWhile_prefix _)) wantEnd strict
  exact ⟨r, h', (Run.bind_run_ok (loadBytes_run hb hNul)).trans hRun, hReports⟩

theorem cjsonParseWithLengthOpts_reports (std : StdF64) (hBounded : h.Bounded) {b : Buf}
    (hb : h.bufs s = some b) {len : Nat} (hLen : len ≤ b.bytes.length) (wantEnd : Bool)
    (strict : Int) :
    ∃ r h', cjsonParseWithLengthOpts std (some s) len wantEnd strict h = .ok (r, h') ∧
      Reports std s (b.bytes.take len) wantEnd (strict ≠ 0) h r h' := by
  have hLoad : loadSlice (some s) len h = .ok (b.bytes.take len, h) := by
    simp only [loadSlice, hb, if_pos hLen]
  have hLength : (b.bytes.take len).length = len := List.length_take_of_le hLen
  obtain ⟨r, h', hRun, hReports⟩ := parseBytes_reports std hBounded
    (loads_of_first hb (List.take_prefix len b.bytes)) wantEnd strict
  rw [hLength] at hRun
  exact ⟨r, h', (Run.bind_run_ok hLoad).trans hRun, hReports⟩

/-- The short entry points store nothing. -/
theorem reports_item {strict : Bool} {r : Parsed}
    (hReports : Reports std s bytes false strict h r h') :
    Reports std s bytes false strict h ⟨r.item, none⟩ h' where
  accepted v hv := by
    obtain ⟨hNull, m, hm, -, hStrict, hPrefix⟩ := hReports.accepted v hv
    exact ⟨hNull, m, hm, rfl, hStrict, hPrefix⟩
  rejected e he := by
    obtain ⟨hItem, k, hk, hError, -⟩ := hReports.rejected e he
    exact ⟨hItem, k, hk, hError, rfl⟩

/-- Every parse entry point, on a buffer that it may read: the error pointer is NULL when the
text is accepted and points into the buffer or to its end otherwise; the parse end is the
error pointer, the end of the buffer, or the end of a prefix that strict parsing accepts. -/
theorem ParseCall.pointers_in_buffer (call : ParseCall) (hBounded : h.Bounded)
    (hReads : call.Reads h s bytes) : ∃ r h', call.run std (some s) h = .ok (r, h') ∧
      Reports std s bytes call.wantEnd call.strict h r h' := by
  cases call with
  | parse =>
    obtain ⟨b, hb, hNul, rfl⟩ := hReads
    obtain ⟨r, h', hRun, hReports⟩ :=
      cjsonParseWithOpts_reports std hBounded hb hNul false 1
    refine ⟨⟨r.item, none⟩, h', ?_, reports_item hReports⟩
    rw [ParseCall.run, cjsonParse_eq_opts]
    exact Run.map_run_ok (Run.map_run_ok hRun)
  | withLength len =>
    obtain ⟨b, hb, hLen, rfl⟩ := hReads
    obtain ⟨r, h', hRun, hReports⟩ :=
      cjsonParseWithLengthOpts_reports std hBounded hb hLen false 1
    refine ⟨⟨r.item, none⟩, h', ?_, reports_item hReports⟩
    rw [ParseCall.run, cjsonParseWithLength_eq_opts]
    exact Run.map_run_ok (Run.map_run_ok hRun)
  | withOpts wantEnd strict =>
    obtain ⟨b, hb, hNul, rfl⟩ := hReads
    exact cjsonParseWithOpts_reports std hBounded hb hNul wantEnd strict
  | withLengthOpts len wantEnd strict =>
    obtain ⟨b, hb, hLen, rfl⟩ := hReads
    exact cjsonParseWithLengthOpts_reports std hBounded hb hLen wantEnd strict

theorem pointers_in_openAt : ∃ r h',
    (ParseCall.withOpts true 0).run noNumbers (some 0) (oneString (openAt ++ [0])) = .ok (r, h') ∧
      Reports noNumbers 0 openAt true false (oneString (openAt ++ [0])) r h' :=
  ParseCall.pointers_in_buffer (.withOpts true 0) (bounded_oneString _)
    ⟨⟨openAt ++ [0], false⟩, rfl, by decide, by decide⟩

end CjsonRs.Ffi
