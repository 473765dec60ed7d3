import CjsonRs.Ffi.RoundTrip
import CjsonRs.Ffi.Soundness

/-!
# Ownership over whole runs

A run is a sequence of calls that respect the ownership contract, between which the caller may
do what it likes with its own buffers. While no call passes a constant key on without its flag,
and the calls that take a child by pointer get one, every state is in `Custody`: only live blocks
of the library were freed, each once, the flags of a node say what it owns, and without a root
nothing of the library is left.
-/

namespace CjsonRs.Ffi

open CjsonRs.Core Library Library.Link Library.Forest

variable {h h' h₀ : Heap} {a c s : Addr} {n : CNode} {std : StdF64} {kids : Addr → List Addr}
  {P : Call → Heap → (Addr → List Addr) → Prop}

/-! ## Runs -/

/-- A heap on which nothing was allocated yet: all buffers are the caller's. -/
structure Start (h : Heap) : Prop where
  bounded : h.Bounded
  nodes : ∀ a, h.nodes a = none
  bufs : ∀ s b, h.bufs s = some b → b.owned = false
  misuses : h.misuses = []

/-- The caller changes, allocates or releases buffers of its own, but keeps the names it has
lent to constant keys. -/
structure CallerStep (h h' : Heap) : Prop where
  bounded : h'.Bounded
  nodes : h'.nodes = h.nodes
  lib : ∀ s b, b.owned = true → (h'.bufs s = some b ↔ h.bufs s = some b)
  lent : ∀ a n s, h.nodes a = some n → n.constKey = true → n.string = some s →
    ∃ b, h'.bufs s = some b ∧ b.owned = false
  misuses : h'.misuses = h.misuses

/-- The ownership contract of a call: what it relies on, except that an item passed by pointer
only has to be live. -/
def Call.Contract (h : Heap) (kids : Addr → List Addr) : Call → Prop
  | edit (.detachItemViaPointer parent item) =>
    ∀ p a, parent = some p → item = some a → Mutable 0 h p ∧ (h.nodes a).isSome
  | edit (.replaceItemViaPointer parent item replacement) =>
    ∀ p a i, parent = some p → item = some a → replacement = some i →
      Mutable 0 h p ∧ (h.nodes a).isSome ∧ Handed 0 h kids p i
  | c => c.Admissible h kids

/-- `DetachItemViaPointer` and `ReplaceItemViaPointer` get a child of their parent. -/
def Call.PassesChild (kids : Addr → List Addr) : Call → Prop
  | edit (.detachItemViaPointer parent item) =>
    ∀ p a, parent = some p → item = some a → a ∈ kids p
  | edit (.replaceItemViaPointer parent item replacement) =>
    ∀ p a, parent = some p → item = some a → replacement.isSome → a ∈ kids p
  | _ => True

theorem Call.admissible_iff (hTrees : Represents 0 h kids) (call : Call) :
    call.Admissible h kids ↔ call.Contract h kids ∧ call.PassesChild kids := by
  have hLive : ∀ {p a}, a ∈ kids p → (h.nodes a).isSome := fun ha => by
    obtain ⟨n, hn⟩ := hTrees.child_live ha
    rw [hn]
    rfl
  cases call with
  | edit e =>
    cases e with
    | detachItemViaPointer parent item =>
      constructor
      · intro hAdm
        exact ⟨fun p a hp ha => ⟨(hAdm p a hp ha).1, hLive (hAdm p a hp ha).2⟩,
          fun p a hp ha => (hAdm p a hp ha).2⟩
      · rintro ⟨hContract, hChild⟩ p a hp ha
        exact ⟨(hContract p a hp ha).1, hChild p a hp ha⟩
    | replaceItemViaPointer parent item replacement =>
      constructor
      · intro hAdm
        refine ⟨fun p a i hp ha hi => ?_, fun p a hp ha hSome => ?_⟩
        · obtain ⟨hMutable, hChild, hHanded⟩ := hAdm p a i hp ha hi
          exact ⟨hMutable, hLive hChild, hHanded⟩
        · obtain ⟨i, hi⟩ := Option.isSome_iff_exists.mp hSome
          exact (hAdm p a i hp ha hi).2.1
      · rintro ⟨hContract, hChild⟩ p a i hp ha hi
        obtain ⟨hMutable, -, hHanded⟩ := hContract p a i hp ha hi
        exact ⟨hMutable, hChild p a hp ha (Option.isSome_iff_exists.mpr ⟨i, hi⟩), hHanded⟩
    | _ => exact ⟨fun hAdm => ⟨hAdm, trivial⟩, And.left⟩
  | _ => exact ⟨fun hAdm => ⟨hAdm, trivial⟩, And.left⟩

/-- A call with `P` that respects the contract, or a step of the caller. -/
inductive Step (std : StdF64) (P : Call → Heap → (Addr → List Addr) → Prop) : Heap → Heap → Prop
  | call {c : Call} {h h' : Heap} {r : Reply} {kids : Addr → List Addr}
      (hTrees : Represents 0 h kids) (hContract : c.Contract h kids) (hLends : c.Lends h)
      (hP : P c h kids) (hRun : c.run std h = .ok (r, h')) : Step std P h h'
  | caller {h h' : Heap} (hStep : CallerStep h h') : Step std P h h'

theorem Step.mono {Q : Call → Heap → (Addr → List Addr) → Prop} (hStep : Step std P h h')
    (hPQ : ∀ {c kids}, P c h kids → Q c h kids) : Step std Q h h' := by
  cases hStep with
  | call hTrees hContract hLends hP hRun => exact .call hTrees hContract hLends (hPQ hP) hRun
  | caller hStep => exact .caller hStep

/-- The calls that pass no constant key on and get actual children by pointer. -/
def Careful (c : Call) (h : Heap) (kids : Addr → List Addr) : Prop :=
  c.PassesChild kids ∧ ¬ c.PassesName h kids

/-! ## Custody -/

/-- What holds of ownership between two calls. -/
structure Custody (h : Heap) (kids : Addr → List Addr) : Prop where
  /-- The free hook was only handed live blocks of the library. -/
  misuses : h.misuses = []
  /-- A key is the library's exactly when it is not constant. -/
  key : ∀ {a n s}, h.nodes a = some n → n.string = some s → (h.Lib s ↔ n.constKey = false)
  /-- The `valuestring` and the children of a node that is no reference are its own. -/
  value : ∀ {a n s}, h.nodes a = some n → n.isRef = false → n.valuestring = some s → h.Lib s
  children : ∀ {a n}, h.nodes a = some n → n.isRef = false → IsList h.link n.child (kids a)
  reference : ∀ {a n}, h.nodes a = some n → n.isRef = true → kids a = []
  /-- Every buffer of the library is freed with one node, once, and every node with one root. -/
  text : ∀ {s}, h.Lib s → ∃! a, s ∈ h.textsAt a
  nodup : ∀ {a}, (h.textsAt a).Nodup
  root : ∀ {a}, (h.nodes a).isSome → ∃! r, (h.nodes r).isSome ∧ IsRoot kids r ∧ Below kids r a
  /-- With the last root goes the last block. -/
  ended : (∀ r, (h.nodes r).isSome → ¬ IsRoot kids r) →
    (∀ a, h.nodes a = none) ∧ ∀ s, ¬ h.Lib s

/-- A root above a live node is live. -/
theorem Represents.root_live (hRep : Represents 0 h kids) {r : Addr} (hBelow : Below kids r a)
    (ha : (h.nodes a).isSome) : (h.nodes r).isSome := by
  rcases below_iff.mp hBelow with rfl | ⟨c, hc, -⟩
  · exact ha
  · obtain ⟨-, -, n, hn, -⟩ := hRep.parent hc
    rw [hn]
    rfl

theorem Sound.exists_root (hSound : Sound 0 h kids) (ha : (h.nodes a).isSome) :
    ∃ r, (h.nodes r).isSome ∧ IsRoot kids r ∧ Below kids r a := by
  have hIn : ∀ {b c}, c ∈ kids b → b ∈ Finset.range h.brk := fun hc =>
    Finset.mem_range.mpr (hSound.wf.trees.inside hSound.wf.bounded _ _ hc).1
  obtain ⟨r, hr, hBelow⟩ := Forest.exists_root hSound.wf.trees.forest hIn a
  exact ⟨r, hSound.wf.trees.root_live hBelow ha, hr, hBelow⟩

/-- A sound heap on which nothing was freed wrongly. -/
theorem Sound.custody (hSound : Sound 0 h kids) (hMisuses : h.misuses = []) : Custody h kids := by
  have hOwned := hSound.owned
  have hTrees := hSound.wf.trees
  have hUsed : ∀ {s}, h.Lib s → ∃ a, s ∈ h.textsAt a := fun hs => by
    obtain ⟨a, -, hMem⟩ := hOwned.used (Nat.zero_le _) hs
    exact ⟨a, hMem⟩
  refine ⟨hMisuses, fun {a n s} hn hs => ?_, fun {a n s} hn hRef hs => ?_,
    fun {a n} hn hRef => hTrees.lists (Nat.zero_le a) hn hRef, fun {a n} hn hRef => ?_,
    fun {s} hs => ?_, fun {a} => hOwned.nodup (Nat.zero_le a), fun {a} ha => ?_, fun hNone => ?_⟩
  · constructor
    · intro hLib
      refine Bool.eq_false_iff.mpr fun hConst => ?_
      obtain ⟨u, b, hu, hb, hNot⟩ := hOwned.lent (Nat.zero_le a) hn hConst
      rw [hs] at hu
      cases hu
      obtain ⟨b', hb', hYes⟩ := lib_iff.mp hLib
      rw [hb] at hb'
      cases hb'
      rw [hNot] at hYes
      cases hYes
    · intro hConst
      refine (hOwned.live (Nat.zero_le a) ?_).2
      rw [textsAt_eq hn, CNode.texts, CNode.ownKey, hConst, hs]
      exact List.mem_append_right _ (List.mem_singleton_self s)
  · refine (hOwned.live (Nat.zero_le a) ?_).2
    rw [textsAt_eq hn, CNode.texts, CNode.ownValue, hRef, hs]
    exact List.mem_append_left _ (List.mem_singleton_self s)
  · refine hTrees.kids_eq_nil fun m hm _ => ?_
    rw [hn] at hm
    cases hm
    exact hRef
  · obtain ⟨a, ha⟩ := hUsed hs
    exact ⟨a, ha, fun b hb => hOwned.sole (Nat.zero_le b) (Nat.zero_le a) hb ha⟩
  · obtain ⟨r, hLive, hr, hBelow⟩ := hSound.exists_root ha
    refine ⟨r, ⟨hLive, hr, hBelow⟩, ?_⟩
    rintro r' ⟨-, hr', hBelow'⟩
    exact root_unique hTrees.forest hr' hr hBelow' hBelow
  · have hDead : ∀ a, h.nodes a = none := by
      intro a
      by_contra hLive
      obtain ⟨r, hLive, hr, -⟩ := hSound.exists_root (Option.isSome_iff_ne_none.mpr hLive)
      exact hNone r hLive hr
    refine ⟨hDead, fun s hs => ?_⟩
    obtain ⟨a, ha⟩ := hUsed hs
    rw [textsAt_none (hDead a)] at ha
    cases ha

/-! ## Steps and runs keep it -/

theorem Start.sound (hStart : Start h) : Sound 0 h fun _ => [] := by
  refine Grown.sound_dead hStart.bounded (fun {a} _ => hStart.nodes a) fun {s} _ hLib => ?_
  obtain ⟨b, hb, hOwned⟩ := lib_iff.mp hLib
  rw [hStart.bufs s b hb] at hOwned
  cases hOwned

theorem CallerStep.sound (hStep : CallerStep h h') (hSound : Sound 0 h kids) :
    Sound 0 h' kids := by
  have hOwned := hSound.owned
  have hTexts : ∀ a, h'.textsAt a = h.textsAt a := fun a => by
    rw [Heap.textsAt, Heap.textsAt, hStep.nodes]
  have hLib : ∀ s, h'.Lib s ↔ h.Lib s := by
    intro s
    rw [lib_iff, lib_iff]
    exact exists_congr fun b => and_congr_left fun hb => hStep.lib s b hb
  refine ⟨hSound.wf.of_nodes hStep.bounded hStep.nodes, fun {a} ha => ?_, fun {a s} ha hs => ?_,
    fun {a b s} ha hb hs hs' => ?_, fun {s} hN hs => ?_, fun {a n} ha hn hConst => ?_⟩
  · rw [hTexts]
    exact hOwned.nodup ha
  · rw [hTexts] at hs
    rw [hLib]
    exact hOwned.live ha hs
  · rw [hTexts] at hs hs'
    exact hOwned.sole ha hb hs hs'
  · obtain ⟨a, ha, hMem⟩ := hOwned.used hN ((hLib s).mp hs)
    exact ⟨a, ha, by rw [hTexts]; exact hMem⟩
  · rw [hStep.nodes] at hn
    obtain ⟨s, -, hString, -⟩ := hOwned.lent ha hn hConst
    obtain ⟨b, hb, hNot⟩ := hStep.lent a n s hn hConst hString
    exact ⟨s, b, hString, hb, hNot⟩

/-- A step of a run keeps a sound heap sound. -/
theorem Step.conserves (hStep : Step std Careful h h') (hSound : Sound 0 h kids) :
    Conserves h h' := by
  cases hStep with
  | call hTrees hContract hLends hP hRun =>
    rw [hTrees.unique hSound.wf.trees] at hContract hP
    have hAdm := (Call.admissible_iff hSound.wf.trees _).mpr ⟨hContract, hP.1⟩
    exact (Call.conserves _ hSound hAdm hLends hP.2).post hRun
  | caller hStep => exact ⟨⟨kids, hStep.sound hSound⟩, hStep.misuses⟩

theorem run_sound (hStart : Start h₀)
    (hRuns : Relation.ReflTransGen (Step std Careful) h₀ h) :
    (∃ kids, Sound 0 h kids) ∧ h.misuses = [] := by
  induction hRuns with
  | refl => exact ⟨⟨_, hStart.sound⟩, hStart.misuses⟩
  | tail _ hStep ih =>
    obtain ⟨⟨kids, hSound⟩, hMisuses⟩ := ih
    obtain ⟨hSound', hSame⟩ := hStep.conserves hSound
    exact ⟨hSound', hSame.trans hMisuses⟩

/-- In every run in which no call passes a constant key on and the calls that take a child by
pointer get one, every state is in custody, and every call that respects the contract and gets
actual children returns. -/
theorem run_custody (hStart : Start h₀)
    (hRuns : Relation.ReflTransGen (Step std Careful) h₀ h) :
    ∃ kids, Represents 0 h kids ∧ Custody h kids ∧
      ∀ c : Call, c.Contract h kids → c.PassesChild kids →
        ∃ r h', c.run std h = .ok (r, h') := by
  obtain ⟨⟨kids, hSound⟩, hMisuses⟩ := run_sound hStart hRuns
  refine ⟨kids, hSound.wf.trees, hSound.custody hMisuses, fun c hContract hChild => ?_⟩
  have hAdm := (Call.admissible_iff hSound.wf.trees c).mpr ⟨hContract, hChild⟩
  have hMeets : Run.Meets (c.run std) h _ (Atomic h) := c.run_meets hSound.wf.bounded
  exact (Run.meets_iff.mp hMeets).2 ⟨kids, hSound.wf, hAdm⟩

/-! ## A run that frees a name of the caller -/

/-- The heap with a new root. -/
def withNode (h : Heap) (n : CNode) : Heap := (h.tick.pushNode .zeroed).setNode h.brk n

theorem wellFormed_withNode (hWf : WellFormed 0 h fun _ => []) (hn : n.child = none) :
    WellFormed 0 (withNode h n) fun _ => [] := by
  have hNode : (h.tick.pushNode .zeroed).nodes h.brk = some .zeroed := Function.update_self ..
  refine ⟨(hWf.bounded.tick.pushNode _).setNode hNode, ⟨fun {a m} _ hm hRef => ?_, nofun,
    hWf.trees.forest⟩⟩
  by_cases ha : a = h.brk
  · subst ha
    cases (Heap.setNode_self (h := h.tick.pushNode .zeroed) (n := n)).symm.trans hm
    rw [hn]
    exact isList_nil
  · have hOld : h.nodes a = some m := by
      rw [← hm, withNode, Heap.setNode_ne ha]
      exact (pushNode_ne (h := h.tick) ha).symm
    cases hChild : m.child with
    | none => exact isList_nil
    | some c =>
      have hList := hWf.trees.lists (Nat.zero_le a) hOld hRef
      rw [hChild] at hList
      obtain ⟨bs, hbs⟩ := hList.cons
      cases hbs

/-- The heap an edit leaves. -/
def Edit.left (e : Edit) (h : Heap) : Heap :=
  match e.run h with
  | .ok (_, h') => h'
  | .error _ => h

theorem Edit.left_wellFormed {e : Edit} (hWf : WellFormed 0 h kids)
    (hAdm : e.Admissible h kids) : WellFormed 0 (e.left h) (e.after h kids) := by
  obtain ⟨r, h', hRun, hWf'⟩ := e.refines hWf hAdm
  have hLeft : e.left h = h' := by rw [left, hRun]
  rw [hLeft]
  exact hWf'

/-- The caller's name `k` at 0. -/
def lentName : Heap := oneString [0x6B, 0]

theorem start_oneString (bytes : List UInt8) : Start (oneString bytes) := by
  refine ⟨bounded_oneString _, fun _ => rfl, fun s b hb => ?_, rfl⟩
  have hb' : (if s = 0 then some (⟨bytes, false⟩ : Buf) else none) = some b := hb
  split_ifs at hb'
  cases hb'
  rfl

/-- The name, an object at 1 and two `null`s. -/
def objectRoot : Heap := withNode lentName { CNode.zeroed with type_ := cjsonObject }

def twoNodes : Heap := withNode objectRoot { CNode.zeroed with type_ := cjsonNull }

def threeNodes : Heap := withNode twoNodes { CNode.zeroed with type_ := cjsonNull }

theorem wellFormed_objectRoot : WellFormed 0 objectRoot fun _ => [] :=
  wellFormed_withNode (start_oneString [0x6B, 0]).sound.wf rfl

theorem wellFormed_twoNodes : WellFormed 0 twoNodes fun _ => [] :=
  wellFormed_withNode wellFormed_objectRoot rfl

theorem wellFormed_threeNodes : WellFormed 0 threeNodes fun _ => [] :=
  wellFormed_withNode wellFormed_twoNodes rfl

/-- The first `null` is added under the name. -/
def addNamed : Edit := .addItemToObjectCS (some 1) (some 0) (some 2)

/-- The second takes its place. -/
def replaceNamed : Edit := .replaceItemViaPointer (some 1) (some 2) (some 3)

theorem admissible_addNamed : addNamed.Admissible threeNodes fun _ => [] := by
  rintro p s i ⟨⟩ ⟨⟩ ⟨⟩
  refine ⟨⟨Nat.zero_le 1, _, rfl, rfl⟩, Nat.zero_le 2, rfl, fun _ => nofun, fun hBelow => ?_⟩
  rw [below_leaf rfl] at hBelow
  cases hBelow

theorem wellFormed_addNamed :
    WellFormed 0 (addNamed.left threeNodes) (Function.update (fun _ => []) 1 [2]) :=
  Edit.left_wellFormed wellFormed_threeNodes admissible_addNamed

theorem mem_onlyChild {p x : Addr} (hc : c ∈ Function.update (fun _ => []) p [x] a) : c = x := by
  by_cases ha : a = p
  · subst ha
    rw [Function.update_self] at hc
    exact List.mem_singleton.mp hc
  · rw [Function.update_of_ne ha] at hc
    cases hc

theorem admissible_replaceNamed :
    replaceNamed.Admissible (addNamed.left threeNodes) (Function.update (fun _ => []) 1 [2]) := by
  rintro p a i ⟨⟩ ⟨⟩ ⟨⟩
  refine ⟨⟨Nat.zero_le 1, _, rfl, rfl⟩, List.mem_singleton_self 2,
    ⟨Nat.zero_le 3, rfl, fun a hc => ?_, fun hBelow => ?_⟩⟩
  · cases mem_onlyChild hc
  · rw [below_leaf rfl] at hBelow
    cases hBelow

theorem run_addNamed :
    Relation.ReflTransGen (Step std Careful) lentName (addNamed.left threeNodes) := by
  have hObject : Step std Careful lentName objectRoot :=
    .call (c := .create .object) (start_oneString [0x6B, 0]).sound.wf.trees trivial trivial
      ⟨trivial, id⟩ rfl
  have hNull : Step std Careful objectRoot twoNodes :=
    .call (c := .create .null) wellFormed_objectRoot.trees trivial trivial ⟨trivial, id⟩ rfl
  have hNull' : Step std Careful twoNodes threeNodes :=
    .call (c := .create .null) wellFormed_twoNodes.trees trivial trivial ⟨trivial, id⟩ rfl
  have hLends : Call.Lends threeNodes (.edit addNamed) := by
    rintro s ⟨⟩
    exact ⟨_, rfl, rfl⟩
  have hAdd : Step std Careful threeNodes (addNamed.left threeNodes) :=
    .call (c := .edit addNamed) wellFormed_threeNodes.trees admissible_addNamed hLends
      ⟨trivial, id⟩ rfl
  exact .tail (.tail (.tail (.tail .refl hObject) hNull) hNull') hAdd

/-- A run that lends a name. -/
theorem run_custody_addNamed :
    ∃ kids, Represents 0 (addNamed.left threeNodes) kids ∧
      Custody (addNamed.left threeNodes) kids ∧
      ∀ c : Call, c.Contract (addNamed.left threeNodes) kids → c.PassesChild kids →
        ∃ r h', c.run Rfc.sampleF64 (addNamed.left threeNodes) = .ok (r, h') :=
  run_custody (start_oneString [0x6B, 0]) run_addNamed

/-- The object with the second `null` in place of the first. -/
def renamed : Heap := replaceNamed.left (addNamed.left threeNodes)

theorem wellFormed_renamed : WellFormed 0 renamed
    (prune (Function.update (Function.update (fun _ => []) 1 [2]) 1 [3]) 2) :=
  Edit.left_wellFormed wellFormed_addNamed admissible_replaceNamed

theorem run_renamed : Relation.ReflTransGen (Step std fun _ _ _ => True) lentName renamed := by
  have hAdded : Relation.ReflTransGen (Step std fun _ _ _ => True) lentName
      (addNamed.left threeNodes) :=
    Relation.ReflTransGen.mono (fun _ _ hStep => Step.mono hStep fun _ => trivial) _ _ run_addNamed
  have hContract := ((Call.admissible_iff wellFormed_addNamed.trees (.edit replaceNamed)).mp
    admissible_replaceNamed).1
  exact hAdded.tail (.call wellFormed_addNamed.trees hContract trivial trivial rfl)

/-- A member with a constant key is replaced by a node without a key, and the object deleted. -/
theorem run_frees_name :
    ¬ ∀ {std : StdF64} {h₀ h : Heap}, Start h₀ →
      Relation.ReflTransGen (Step std fun _ _ _ => True) h₀ h →
      ∃ kids, Represents 0 h kids ∧ Custody h kids := by
  intro hAll
  have hAdm : Call.Admissible renamed
      (prune (Function.update (Function.update (fun _ => []) 1 [2]) 1 [3]) 2)
      (.delete (some 1)) := by
    rintro a ⟨⟩
    refine ⟨rfl, fun p hc => ?_⟩
    rw [Function.update_idem] at hc
    cases mem_onlyChild (prune_sublist.subset hc)
  obtain ⟨h', hRun, hMisuses⟩ : ∃ h',
      (Call.delete (some 1)).run Rfc.sampleF64 renamed = .ok (.done, h') ∧
        h'.misuses = [.buf 0] := ⟨_, rfl, rfl⟩
  have hDelete : Step Rfc.sampleF64 (fun _ _ _ => True) renamed h' :=
    .call (c := .delete (some 1)) wellFormed_renamed.trees hAdm trivial trivial hRun
  obtain ⟨kids, -, hCustody⟩ := hAll (start_oneString [0x6B, 0]) (.tail run_renamed hDelete)
  rw [hCustody.misuses] at hMisuses
  cases hMisuses

end CjsonRs.Ffi
