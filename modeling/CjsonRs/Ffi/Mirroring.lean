import CjsonRs.Ffi.Planting

/-!
# Calls on documents

Every call that builds, changes or deletes trees does to the documents what it says: a copy is a
new document with the texts of its source that are UTF-8, a parsed text is the document of its
value, and a member is built first and then added, or given up.
-/

namespace CjsonRs.Ffi

open CjsonRs.Core Library Library.Link Library.Forest

variable {h h' g : Heap} {a i p s x : Addr} {n m : CNode} {q name value : Ptr} {k : Str}
  {bytes : List UInt8} {D : Documents} {t : CTree} {v : Value} {std : StdF64}

/-! ## Copies -/

/-- What the readers see are contents. -/
theorem holds_of_denotes :
    (∀ t a, Denotes h a t → ∃ w, Holds h a w ∧ seen w = t) ∧
    ∀ ts q, DenotesList h q ts → ∃ ws, HoldsList h q ws ∧ seenAll ws = ts := by
  apply CTree.induct
  · intro l ts ih a hDenotes
    obtain ⟨n, hn, hl, hTs⟩ := hDenotes
    obtain ⟨ws, hWs, hSeen⟩ := ih n.child hTs
    refine ⟨.node ⟨n.type_, l.valuestring, n.valueint, l.valuedouble, l.string⟩ ws,
      ⟨n, hn, ⟨rfl, hl.valuestring, rfl, hl.valuedouble, hl.string⟩, hWs⟩, ?_⟩
    rw [seen, hSeen, Content.seen, hl.tag]
  · intro q hNil
    exact ⟨[], hNil, rfl⟩
  · intro t ts ihT ihTs q hDenotes
    obtain ⟨a, n, hq, hn, ht, hTs⟩ := hDenotes
    obtain ⟨w, hw, hSeen⟩ := ihT a ht
    obtain ⟨ws, hWs, hSeenAll⟩ := ihTs n.next hTs
    refine ⟨w :: ws, ⟨a, n, hq, hn, hw, hWs⟩, ?_⟩
    rw [seenAll, hSeen, hSeenAll]

/-- What the readers see of a copy. -/
theorem seen_copied :
    (∀ w, seen (w.map Content.copied) = (seen w).copied) ∧
    ∀ ws, seenAll (Rose.mapAll Content.copied ws) = CTree.copiedList (seenAll ws) := by
  apply Rose.induct
  · intro c ws ih
    have hTag : c.copied.seen.tag = c.seen.tag := tag_clearFlags c.type_
    rw [Rose.map, seen, seen, ih, CTree.copied, ← hTag]
    rfl
  · rfl
  · intro w ws ihW ihWs
    rw [Rose.mapAll, seenAll, seenAll, CTree.copiedList, ihW, ihWs]

/-- The copy of a document is a new document. -/
theorem duplicate_grows (hP : Portrays h D) (recurse : Int) (ht : D.Tree a t) :
    D.Grows (cjsonDuplicate (some a) recurse) h
      (some (if recurse ≠ 0 then t.copied else t.top.copied)) := by
  obtain ⟨w, hHolds, rfl⟩ := holds_of_denotes.1 t a
    (denotes_of_tree hP.depicts hP.sound.wf.trees ht)
  have hCopy : ∀ {deep : Bool} {u}, Source h a deep u →
      D.Grows (duplicate (some a) deep) h (some (seen u).copied) := by
    intro deep u hSource
    have hGrows := hP.forms (duplicate_exact hP.sound.wf.bounded hSource)
    rw [view, hSource.cut_copied, seen_copied.1] at hGrows
    exact hGrows
  unfold cjsonDuplicate
  by_cases hDeep : recurse ≠ 0
  · rw [if_pos hDeep, decide_eq_true hDeep]
    exact hCopy hHolds
  · rw [if_neg hDeep, decide_eq_false hDeep]
    cases w with
    | node c ws =>
      obtain ⟨n, hn, hc, -⟩ := hHolds
      have hTop : Source h a false (.node c []) := ⟨n, c, hn, hc, rfl⟩
      exact hCopy hTop

/-! ## Parsed texts -/

theorem ParseCall.reads_unique {call : ParseCall} {bytes' : List UInt8}
    (hReads : call.Reads h s bytes) (hReads' : call.Reads h s bytes') : bytes = bytes' := by
  cases call <;>
  · obtain ⟨b, hb, -, rfl⟩ := hReads
    obtain ⟨b', hb', -, rfl⟩ := hReads'
    cases hb.symm.trans hb'
    rfl

/-- The call builds nothing, and sets the error pointer. -/
def Rejects (h : Heap) (y : M Parsed) : Prop :=
  ∃ r p, y h = .ok (r, { h with lastError := p }) ∧ r.item = none

theorem parseBytes_rejects {wantEnd : Bool} {strict : Int} {e : Error}
    (hOutcome : parseOutcome std (strict ≠ 0) bytes = .error e) :
    Rejects h (parseBytes std s bytes wantEnd bytes.length strict) := by
  have hEq : parseOutcome std (strict ≠ 0) bytes = _ := parseOutcome_eq bytes.length
  cases hStop : parseStop std (strict ≠ 0) bytes bytes.length with
  | error e' => exact ⟨_, _, parseBytes_error hStop, rfl⟩
  | ok r =>
    rw [hStop] at hEq
    cases hEq.symm.trans hOutcome

theorem ParseCall.rejects (call : ParseCall) {e : Error} (hReads : call.Reads h s bytes)
    (hOutcome : parseOutcome std call.strict bytes = .error e) :
    Rejects h (call.run std (some s)) := by
  apply call.run_rule hReads
  · intro wantEnd strict hStrict
    rw [hStrict] at hOutcome
    exact parseBytes_rejects hOutcome
  · intro x y hSame hRejects
    obtain ⟨r, p, hRun, hItem⟩ := hRejects
    exact ⟨r, p, hSame.trans hRun, hItem⟩
  · intro x hRejects
    obtain ⟨r, p, hRun, hItem⟩ := hRejects
    exact ⟨⟨r.item, none⟩, p, Run.map_run_ok (Run.map_run_ok hRun), hItem⟩

theorem ParseCall.run_none (call : ParseCall) (h : Heap) :
    ∃ r, call.run std none h = .ok (r, { h with lastError := none }) ∧ r.item = none := by
  cases call <;> exact ⟨_, rfl, rfl⟩

/-- The error pointer is no part of the documents. -/
theorem Portrays.lastError (hP : Portrays h D) (p : CharPtr) :
    Portrays { h with lastError := p } D :=
  hP.same (bounded_lastError hP.sound.wf.bounded p) rfl rfl

/-- A text that is accepted is a new document. -/
theorem ParseCall.parses (call : ParseCall) (std : StdF64) (hP : Portrays h D)
    (hAdm : ∀ s, value = some s → ∃ bytes, call.Reads h s bytes) :
    ∃ r h' D', call.run std value h = .ok (r, h') ∧ h'.misuses = h.misuses ∧ Portrays h' D' ∧
      D.Parses std h call value r.item D' := by
  have hNothing : ∀ {q : Ptr}, q = none → D.Gains h none q D := by
    intro q hq
    refine Or.inl ⟨hq, rfl, fun u hu => ?_⟩
    cases hu
  cases value with
  | none =>
    obtain ⟨r, hRun, hItem⟩ := call.run_none h
    refine ⟨r, _, D, hRun, rfl, hP.lastError none, Or.inr ⟨fun v hv => ?_, hNothing hItem⟩⟩
    obtain ⟨s, bytes, hs, -⟩ := hv
    cases hs
  | some s =>
    obtain ⟨bytes, hReads⟩ := hAdm s rfl
    cases hOutcome : parseOutcome std call.strict bytes with
    | error e =>
      obtain ⟨r, p, hRun, hItem⟩ := call.rejects hReads hOutcome
      refine ⟨r, _, D, hRun, rfl, hP.lastError p, Or.inr ⟨fun v hv => ?_, hNothing hItem⟩⟩
      obtain ⟨s', bytes', hs, hReads', hOk⟩ := hv
      cases hs
      cases ParseCall.reads_unique hReads hReads'
      cases hOutcome.symm.trans hOk
    | ok v =>
      have hValue : Documents.Reads std h call (some s) v := ⟨s, bytes, rfl, hReads, hOutcome⟩
      have hP₀ := hP.lastError none
      rcases call.takes hP.sound.wf.bounded hReads hOutcome with
        ⟨hPlenty, r, h', hRun, -, a, kids, hItem, hFormed⟩ | ⟨hNo, r, h', hRun, hItem, hBuilt⟩
      · obtain ⟨D', hP', hPlants⟩ := hP₀.planted hFormed
        rw [view_contentsOf] at hPlants
        refine ⟨r, h', D', hRun, hFormed.grown.ext.misuses, hP', Or.inl ⟨v, hValue, Or.inr ?_⟩⟩
        refine ⟨a, .ofValue v, hItem, rfl, ?_, hPlants⟩
        rw [← view_contentsOf, blocks_view.1]
        exact hPlenty
      · obtain ⟨hP', hMisuses⟩ := hP₀.unchanged hBuilt
        refine ⟨r, h', D, hRun, hMisuses, hP', Or.inl ⟨v, hValue, Or.inl ⟨hItem, rfl, ?_⟩⟩⟩
        intro u hu
        cases hu
        rw [← view_contentsOf, blocks_view.1]
        exact hNo

/-- The calls that parse. -/
theorem Call.run_parsing {c : Call} {call : ParseCall} (hc : c.parsing = some (call, value)) :
    c.run std = (fun r => Reply.item r.item) <$> call.run std value := by
  cases c <;> cases hc
  · rw [Call.run, ParseCall.run, ← comp_map]
    rfl
  · rw [Call.run, ParseCall.run, ← comp_map]
    rfl
  · rfl
  · rfl

/-- What an admissible call parses. -/
theorem Call.reads_of_admissible {c : Call} {call : ParseCall}
    (hc : c.parsing = some (call, value)) (hAdm : c.Admissible h D.children) :
    ∀ s, value = some s → ∃ bytes, call.Reads h s bytes := by
  intro s hs
  cases c <;> cases hc <;> obtain ⟨b, hb, hFits⟩ := hAdm s hs
  · exact ⟨_, b, hb, hFits, rfl⟩
  · exact ⟨_, b, hb, hFits, rfl⟩
  · exact ⟨_, b, hb, hFits, rfl⟩
  · exact ⟨_, b, hb, hFits, rfl⟩

/-! ## New members -/

theorem Documents.Plants.kept {D' : Documents} (hPlants : D.Plants a t D')
    (hx : (D.label x).isSome) : ¬ Below D'.children a x ∧ D'.label x = D.label x := by
  have hNot : ¬ Below D'.children a x := by
    intro hBelow
    rw [hPlants.new x hBelow] at hx
    cases hx
  exact ⟨hNot, (hPlants.old x hNot).1⟩

/-- A new document is given up. -/
theorem Documents.Plants.drop {D' : Documents} (hP : Portrays h D) (hPlants : D.Plants a t D') :
    D'.drop a = D := by
  obtain ⟨L, kids⟩ := D
  have hLabel : (D'.drop a).label = L := by
    funext x
    by_cases hx : Below D'.children a x
    · rw [D'.drop_gone hx]
      exact (hPlants.new x hx).symm
    · rw [D'.drop_kept hx]
      exact (hPlants.old x hx).1
  have hKids : (D'.drop a).children = kids := by
    funext x
    by_cases hx : Below D'.children a x
    · have hNone : h.nodes x = none := by
        have hLive := hP.depicts.isSome (x := x)
        rw [hPlants.new x hx] at hLive
        cases hn : h.nodes x with
        | none => rfl
        | some n =>
          rw [hn] at hLive
          cases hLive
      exact (if_pos hx).trans (hP.sound.wf.trees.childless hNone).symm
    · exact (if_neg hx).trans (hPlants.old x hx).2
  exact congrArg₂ Documents.mk hLabel hKids

theorem Documents.Plants.label_root {D' : Documents} (hPlants : D.Plants a t D') :
    (D'.label a).isSome := by
  have hTree := hPlants.tree
  cases t with
  | node l ts =>
    rw [hTree.1]
    rfl

theorem chars_extends (hExt : Extends h g) (hBounded : h.Bounded)
    (hRead : Construct.ReadablePtr h q) : g.chars q = h.chars q := by
  cases q with
  | none => rfl
  | some s =>
    obtain ⟨b, hb, -⟩ := hRead s rfl
    simp only [Heap.chars, Option.bind_eq_bind, Option.bind_some, hb,
      (hExt.bufs (hBounded.lt_buf hb)).trans hb]

/-- A new tree may be added to a node that was there before. -/
theorem Portrays.handed {D₁ : Documents} (hP : Portrays h D) (hP₁ : Portrays g D₁)
    (hPlants : D.Plants i t D₁) (hp : Mutable 0 h p) :
    Mutable 0 g p ∧ Handed 0 g D₁.children p i := by
  obtain ⟨-, n, hn, -⟩ := hp
  have hLabel : (D.label p).isSome := by
    rw [hP.depicts.isSome, hn]
    rfl
  obtain ⟨hNot, hSame⟩ := hPlants.kept hLabel
  have hLive : (g.nodes p).isSome := by
    rw [← hP₁.depicts.isSome, hSame]
    exact hLabel
  obtain ⟨m, hm⟩ := Option.isSome_iff_exists.mp hLive
  have hRoot : (g.nodes i).isSome := by
    rw [← hP₁.depicts.isSome]
    exact hPlants.label_root
  exact ⟨⟨Nat.zero_le p, m, hm, (hP₁.depicts.node hm).1⟩,
    ⟨Nat.zero_le i, hRoot, hPlants.root, hNot⟩⟩

theorem Documents.Plants.hasTag {D' : Documents} (hPlants : D.Plants a t D')
    (hp : (D.label p).isSome) (w : TypeWord) : D'.hasTag w p = D.hasTag w p := by
  unfold Documents.hasTag
  rw [(hPlants.kept hp).2]

theorem Member.plain (m : Member) : m.construct.Plain := by
  cases m <;> exact trivial

section Added

variable {object : Ptr} {D₁ : Documents} {u : CTree} {m : Member} {c : Change}

/-- What is needed to add a new tree that was built on `h`. -/
structure Ready (h g : Heap) (D D₁ : Documents) (name : Ptr) (m : Member) (i : Addr)
    (u : CTree) : Prop where
  plants : D.Plants i u D₁
  tree : m.construct.tree h = some u
  memory : h.Plenty (u.blocks + 1) ↔ g.outcomes 0 = true
  text : Construct.ReadablePtr h name → g.text name = h.text name
  chars : Construct.ReadablePtr h name → g.chars name = h.chars name

/-- A member that fits is added. -/
theorem Ready.plan (hReady : Ready h g D D₁ name m i u) {u' : CTree}
    (hFits : D.Fits h object name m p u') (hRead : Construct.ReadablePtr h name) :
    (Edit.addItemToObject object name (some i)).plan D₁ g
      = some (D₁.append p i (some (h.chars name))) := by
  cases hReady.tree.symm.trans hFits.member
  have hText : (g.text name).isSome := by
    rw [hReady.text hRead]
    exact hFits.name
  have hLabel : (D.label p).isSome := by
    have hTag := hFits.tag
    rw [Documents.hasTag] at hTag
    cases hl : D.label p with
    | none =>
      rw [hl] at hTag
      cases hTag
    | some l => rfl
  have hTag : D₁.hasTag cjsonObject p = true := by
    rw [hReady.plants.hasTag hLabel]
    exact hFits.tag
  rw [hFits.object, ← hReady.chars hRead]
  cases name with
  | none => cases hText
  | some s => exact if_pos ⟨hTag, hText, hReady.memory.mp hFits.memory⟩

/-- What is added fits. -/
theorem Ready.fits (hReady : Ready h g D D₁ name m i u)
    (hPlan : (Edit.addItemToObject object name (some i)).plan D₁ g = some c)
    (hAdm : ∀ p s, object = some p → name = some s →
      (D.label p).isSome ∧ Construct.ReadablePtr h (some s)) :
    ∃ p, D.Fits h object name m p u ∧ c = D₁.append p i (some (h.chars name)) := by
  cases object with
  | none => cases hPlan
  | some p =>
    cases name with
    | none => cases hPlan
    | some s =>
      obtain ⟨hLabel, hRead⟩ := hAdm p s rfl rfl
      rw [Edit.plan, hReady.plants.hasTag hLabel, hReady.text hRead, hReady.chars hRead] at hPlan
      split_ifs at hPlan with hIf
      cases hPlan
      exact ⟨p, ⟨rfl, hIf.1, hIf.2.1, hReady.tree, hReady.memory.mpr hIf.2.2⟩, rfl⟩

/-- A new tree is added, or given up. -/
theorem Ready.added (hReady : Ready h g D D₁ name m i u) (hP : Portrays h D)
    (hP₁ : Portrays g D₁)
    (hAdm : (Edit.addItemToObject object name (some i)).Admissible g D₁.children) :
    ∃ q h' D', addToObject object name (some i) g = .ok (q, h') ∧ h'.misuses = g.misuses ∧
      Portrays h' D' ∧ ((Edit.addItemToObject object name (some i)).plan D₁ g).elim
        (q = none ∧ D' = D) fun c => q = some i ∧ D' = D₁.change c := by
  obtain ⟨r, g', hAdd, hr, hMisuses, hP'⟩ := Edit.addItemToObject_mirrors hP₁ hAdm
  obtain ⟨added, hAdded, rfl⟩ : ∃ added,
      cjsonAddItemToObject object name (some i) g = .ok (added, g') ∧ r = .flag added := by
    rw [Edit.run, map_eq_pure_bind, Run.bind_run_eq_ok] at hAdd
    obtain ⟨added, g₁, hAdded, hPure⟩ := hAdd
    cases hPure
    exact ⟨added, hAdded, rfl⟩
  have hRun : addToObject object name (some i) g
      = (if !added then do
          freeCjson (some i)
          return none
        else return some i : M Ptr) g' := Run.bind_run_ok hAdded
  rw [hRun]
  cases hPlan : (Edit.addItemToObject object name (some i)).plan D₁ g with
  | none =>
    rw [Edit.outcome, hPlan] at hr hP'
    cases (show Reply.flag added = .flag false from hr)
    have hP₁' : Portrays g' D₁ := hP'
    have hRoot : (g'.nodes i).isSome := by
      rw [← hP₁'.depicts.isSome]
      exact hReady.plants.label_root
    obtain ⟨h', hFree, hFreed, hDropped⟩ := hP₁'.free hReady.plants.root hRoot
    rw [hReady.plants.drop hP] at hDropped
    exact ⟨none, h', D, Run.bind_run_ok hFree, hFreed.trans hMisuses, hDropped, rfl, rfl⟩
  | some c =>
    have hDone : c.reply = .flag true := by
      obtain ⟨p, s, hEq⟩ : ∃ p s, c = D₁.append p i s := by
        cases object with
        | none => cases hPlan
        | some p =>
          cases name with
          | none => cases hPlan
          | some s =>
            rw [Edit.plan] at hPlan
            split_ifs at hPlan
            cases hPlan
            exact ⟨p, _, rfl⟩
      rw [hEq]
      rfl
    rw [Edit.outcome, hPlan] at hr hP'
    cases (show Reply.flag added = .flag true from hr.trans hDone)
    exact ⟨some i, g', D₁.change c, rfl, hMisuses, hP', rfl, rfl⟩

/-- A member is built and added, or given up. -/
theorem addToObject_mirrors (m : Member) (hP : Portrays h D)
    (hAdm : (Call.addToObject object name m).Admissible h D.children) :
    ∃ q h' D', m.run object name h = .ok (q, h') ∧ h'.misuses = h.misuses ∧ Portrays h' D' ∧
      D.Adds h object name m q D' := by
  have hBounded := hP.sound.wf.bounded
  obtain ⟨q, g, D₁, hRun, hMisuses, hP₁, hGains, hPays⟩ := m.construct.grows hP hAdm.1 m.plain
  rw [Member.run_eq, Run.bind_run_ok hRun]
  rcases hGains with ⟨rfl, rfl, hNo⟩ | ⟨i, u, rfl, hTree, hPlenty, hPlants⟩
  · refine ⟨none, g, D₁, rfl, hMisuses, hP₁, Or.inl ⟨rfl, rfl, ?_⟩⟩
    intro p u hFits
    apply hNo u hFits.member
    intro j hj
    exact hFits.memory j (Nat.lt_succ_of_lt hj)
  · obtain ⟨hExt, hSpent⟩ := hPays u rfl hTree
    have hReady : Ready h g D D₁ name m i u := by
      refine ⟨hPlants, hTree, ?_, text_extends hExt hBounded, chars_extends hExt hBounded⟩
      rw [hSpent.plenty_iff, plenty_one]
      exact and_iff_right hPlenty
    have hAdm₁ : (Edit.addItemToObject object name (some i)).Admissible g D₁.children := by
      intro p s i' hp hs hi'
      cases hi'
      obtain ⟨hMutable, hRead⟩ := hAdm.2 p s hp hs
      obtain ⟨hMutable', hHanded⟩ := hP.handed hP₁ hPlants hMutable
      exact ⟨hMutable', hHanded, hExt.readable hBounded hRead⟩
    have hArgs : ∀ p s, object = some p → name = some s →
        (D.label p).isSome ∧ Construct.ReadablePtr h (some s) := by
      intro p s hp hs
      obtain ⟨⟨-, n, hn, -⟩, hRead⟩ := hAdm.2 p s hp hs
      refine ⟨?_, fun s' hs' => ?_⟩
      · rw [hP.depicts.isSome, hn]
        rfl
      · cases hs'
        exact hRead
    obtain ⟨q, h', D', hAdded, hMisuses', hP', hPlan⟩ := hReady.added hP hP₁ hAdm₁
    refine ⟨q, h', D', hAdded, hMisuses'.trans hMisuses, hP', ?_⟩
    cases hChange : (Edit.addItemToObject object name (some i)).plan D₁ g with
    | none =>
      rw [hChange] at hPlan
      refine Or.inl ⟨hPlan.1, hPlan.2, fun p u' hFits => ?_⟩
      have hRead : Construct.ReadablePtr h name := by
        intro s hs
        exact (hAdm.2 p s hFits.object hs).2
      cases hChange.symm.trans (hReady.plan hFits hRead)
    | some c =>
      rw [hChange] at hPlan
      obtain ⟨p, hFits, rfl⟩ := hReady.fits hChange hArgs
      exact Or.inr ⟨p, u, i, D₁, hFits, hPlan.1, hPlants, hPlan.2⟩

end Added

/-! ## Texts -/

/-- What is no string, or no UTF-8, changes nothing. -/
theorem cjsonSetValuestring_skip (hn : h.nodes a = some n) (hRead : h.Readable s)
    (hNot : tag n.type_ ≠ cjsonString ∨ h.text (some s) = none) :
    cjsonSetValuestring (some a) (some s) h = .ok (none, h) := by
  show (load (some a) >>= fun o => _) h = _
  rw [Run.bind_run_ok (load_run hn)]
  by_cases hIf : tag n.type_ ≠ cjsonString ∨ n.isRef = true
  · rw [if_pos hIf]
    rfl
  · have hText : h.text (some s) = none := hNot.resolve_left fun hNe => hIf (Or.inl hNe)
    rw [if_neg hIf, Run.bind_run_ok (loadStr_text hRead), hText]
    rfl

/-- A string that is no reference gets a copy of the text. -/
theorem cjsonSetValuestring_run (hn : h.nodes a = some n) (hString : tag n.type_ = cjsonString)
    (hRef : n.isRef = false) (hRead : h.Readable s) (hText : h.text (some s) = some k) :
    cjsonSetValuestring (some a) (some s) h
      = .ok (if h.outcomes 0 then (some h.brk,
          ((h.tick.pushBuf (encode k ++ [0])).freeAll (n.valuestring.toList.map .buf)).setNode a
            { n with valuestring := some h.brk })
        else (none, h.tick)) := by
  have hIf : ¬ (tag n.type_ ≠ cjsonString ∨ n.isRef = true) := by
    rw [hRef]
    exact fun hOr => hOr.elim (fun hNe => hNe hString) Bool.false_ne_true
  have hAlloc := allocCstr_run k h
  show (load (some a) >>= fun o => _) h = _
  rw [Run.bind_run_ok (load_run hn), if_neg hIf, Run.bind_run_ok (loadStr_text hRead), hText]
  show (allocCstr k >>= fun newBuf => _) h = _
  by_cases hYes : h.outcomes 0 = true
  · rw [if_pos hYes] at hAlloc ⊢
    have hn₁ : (h.tick.pushBuf (encode k ++ [0])).nodes a = some n := hn
    have hn₂ : ((h.tick.pushBuf (encode k ++ [0])).freeAll
        (n.valuestring.toList.map .buf)).nodes a = some n := by
      rw [nodes_freeTexts]
      exact hn
    refine (Run.bind_run_ok hAlloc).trans ?_
    refine (Run.bind_run_ok (load_run hn₁)).trans ?_
    refine (Run.bind_run_ok (hookFree_run _)).trans ?_
    exact Run.bind_run_ok (store_run hn₂ _)
  · rw [if_neg hYes] at hAlloc ⊢
    exact Run.bind_run_ok hAlloc

/-- The new text is a copy. -/
theorem Portrays.newValue (hP : Portrays h D) (hn : h.nodes a = some n)
    (hText : h.text (some s) = some k) :
    Portrays (((h.tick.pushBuf (encode k ++ [0])).freeAll
        (n.valuestring.toList.map .buf)).setNode a { n with valuestring := some h.brk })
      (D.relabel a ({ · with valuestring := h.chars (some s) })) := by
  rw [Portrays.chars_of_text hText]
  refine ⟨(sound_newValue hP.sound hn (hP.depicts.node hn).1 _).1, ?_⟩
  exact hP.depicts.newValue hP.sound.owned hP.sound.wf.bounded hn (by simp)

/-- A string gets a copy of the text, or nothing happens. -/
theorem setValuestring_mirrors {object valuestring : Ptr} (hP : Portrays h D)
    (hAdm : (Call.setValuestring object valuestring).Admissible h D.children) :
    ∃ q h' D', cjsonSetValuestring object valuestring h = .ok (q, h') ∧
      h'.misuses = h.misuses ∧ Portrays h' D' ∧ D.SetsText h object valuestring q D' := by
  have hNothing : ∀ {g : Heap}, cjsonSetValuestring object valuestring h = .ok (none, g) →
      g.misuses = h.misuses → Portrays g D → (∀ a, ¬ D.Settable h object valuestring a) →
      ∃ q h' D', cjsonSetValuestring object valuestring h = .ok (q, h') ∧
        h'.misuses = h.misuses ∧ Portrays h' D' ∧ D.SetsText h object valuestring q D' := by
    intro g hRun hMisuses hP' hNot
    exact ⟨none, g, D, hRun, hMisuses, hP', Or.inl ⟨rfl, rfl, hNot⟩⟩
  cases object with
  | none =>
    apply hNothing rfl rfl hP
    intro a hSettable
    cases hSettable.object
  | some a =>
    cases valuestring with
    | none =>
      apply hNothing rfl rfl hP
      intro a' hSettable
      cases hSettable.text
    | some s =>
      obtain ⟨hLive, hRead⟩ := hAdm a s rfl rfl
      obtain ⟨n, hn⟩ := Option.isSome_iff_exists.mp hLive
      have hRef := (hP.depicts.node hn).1
      have hTag := hP.depicts.hasTag_node hn cjsonString
      by_cases hFits : tag n.type_ = cjsonString ∧ (h.text (some s)).isSome = true
      · obtain ⟨hString, hSome⟩ := hFits
        obtain ⟨k, hText⟩ := Option.isSome_iff_exists.mp hSome
        have hRun := cjsonSetValuestring_run hn hString hRef hRead hText
        by_cases hYes : h.outcomes 0 = true
        · rw [if_pos hYes] at hRun
          refine ⟨_, _, _, hRun, (sound_newValue hP.sound hn hRef _).2, hP.newValue hn hText,
            Or.inr ⟨a, ⟨rfl, ?_, hSome, hYes⟩, rfl, rfl⟩⟩
          exact hTag.trans (beq_iff_eq.mpr hString)
        · rw [if_neg hYes] at hRun
          apply hNothing hRun rfl hP.tick
          intro a' hSettable
          exact hYes hSettable.memory
      · have hNot : tag n.type_ ≠ cjsonString ∨ h.text (some s) = none := by
          rw [not_and_or, Option.not_isSome_iff_eq_none] at hFits
          exact hFits
        apply hNothing (cjsonSetValuestring_skip hn hRead hNot) rfl hP
        intro a' hSettable
        cases hSettable.object
        apply hFits
        exact ⟨beq_iff_eq.mp (hTag.symm.trans hSettable.tag), hSettable.text⟩

/-! ## All calls -/

namespace Call

/-- The calls that make no reference and lend no unterminated name. -/
def Plain (h : Heap) : Call → Prop
  | create c => c.Plain
  | edit e => e.Legible h
  | addItemReferenceToArray .. | addItemReferenceToObject .. => False
  | _ => True

/-- The call does to the documents what it says. -/
def Mirrors (std : StdF64) (h : Heap) (D : Documents) (c : Call) : Prop :=
  ∃ r h' D', c.run std h = .ok (r, h') ∧ h'.misuses = h.misuses ∧ Portrays h' D' ∧
    D.AfterCall std h c r D'

theorem parsing_mirrors {c : Call} {call : ParseCall} (hc : c.parsing = some (call, value))
    (hP : Portrays h D) (hAdm : c.Admissible h D.children) : c.Mirrors std h D := by
  obtain ⟨r, h', D', hRun, hMisuses, hP', hParses⟩ :=
    call.parses std hP (reads_of_admissible hc hAdm)
  refine ⟨.item r.item, h', D', ?_, hMisuses, hP', ?_⟩
  · rw [run_parsing hc]
    exact Run.map_run_ok hRun
  · have hAfter : ∀ call' value', c.parsing = some (call', value') →
        ∃ q, Reply.item r.item = .item q ∧ D.Parses std h call' value' q D' := by
      intro call' value' hc'
      cases hc.symm.trans hc'
      exact ⟨r.item, rfl, hParses⟩
    cases c <;> cases hc <;> exact hAfter

theorem duplicate_mirrors (hP : Portrays h D) {item : Ptr} {recurse : Int}
    (hAdm : (duplicate item recurse).Admissible h D.children) :
    (duplicate item recurse).Mirrors std h D := by
  cases item with
  | none => exact ⟨.item none, h, D, rfl, rfl, hP, none, rfl, rfl, rfl⟩
  | some a =>
    obtain ⟨⟨n, -, hn, -⟩, -⟩ := hAdm a rfl
    obtain ⟨t, ht⟩ := hP.depicts.exists_tree hP.sound.wf.trees (a := a) (by rw [hn]; rfl)
    obtain ⟨q, h', D', hRun, hMisuses, hP', hGains, -⟩ := duplicate_grows hP recurse ht
    exact ⟨.item q, h', D', Run.map_run_ok hRun, hMisuses, hP', q, rfl, t, ht, hGains⟩

theorem delete_mirrors (hP : Portrays h D) {item : Ptr}
    (hAdm : (delete item).Admissible h D.children) : (delete item).Mirrors std h D := by
  cases item with
  | none => exact ⟨.done, h, D, rfl, rfl, hP, rfl, rfl⟩
  | some a =>
    obtain ⟨hLive, hRoot⟩ := hAdm a rfl
    obtain ⟨h', hRun, hMisuses, hP'⟩ := hP.free hRoot hLive
    exact ⟨.done, h', D.drop a, Run.map_run_ok hRun, hMisuses, hP', rfl, rfl⟩

/-- Every call returns, and does to the documents what it says. -/
theorem mirrors (c : Call) (std : StdF64) (hP : Portrays h D) (hAdm : c.Admissible h D.children)
    (hLends : c.Lends h) (hPass : ¬ c.PassesName h D.children) (hPlain : c.Plain h) :
    c.Mirrors std h D := by
  cases c with
  | parse => exact parsing_mirrors rfl hP hAdm
  | parseWithLength => exact parsing_mirrors rfl hP hAdm
  | parseWithOpts => exact parsing_mirrors rfl hP hAdm
  | parseWithLengthOpts => exact parsing_mirrors rfl hP hAdm
  | create c =>
    obtain ⟨q, h', D', hRun, hMisuses, hP', hGains, -⟩ := c.grows hP hAdm hPlain
    exact ⟨.item q, h', D', Run.map_run_ok hRun, hMisuses, hP', q, rfl, hGains⟩
  | duplicate => exact duplicate_mirrors hP hAdm
  | edit e =>
    obtain ⟨r, h', hRun, hr, hMisuses, hP'⟩ := e.mirrors hP hAdm hLends hPass hPlain
    exact ⟨r, h', (e.outcome D h).1, hRun, hMisuses, hP', congrArg (Prod.mk _) hr⟩
  | addItemReferenceToArray => exact hPlain.elim
  | addItemReferenceToObject => exact hPlain.elim
  | addToObject object name m =>
    obtain ⟨q, h', D', hRun, hMisuses, hP', hAdds⟩ := addToObject_mirrors m hP hAdm
    exact ⟨.item q, h', D', Run.map_run_ok hRun, hMisuses, hP', q, rfl, hAdds⟩
  | setValuestring =>
    obtain ⟨q, h', D', hRun, hMisuses, hP', hSets⟩ := setValuestring_mirrors hP hAdm
    exact ⟨.item q, h', D', Run.map_run_ok hRun, hMisuses, hP', q, rfl, hSets⟩
  | delete => exact delete_mirrors hP hAdm

end Call

end CjsonRs.Ffi
