import CjsonRs.Ffi.Planted

/-!
# What `value_to_cjson` builds

Whatever the allocator answers, `value_to_cjson` either builds the tree with the contents
`contentsOf v`, one block for each successful allocation, or one of these allocations failed and
nothing of the tree is left.
-/

namespace CjsonRs.Ffi

open CjsonRs.Core Library Library.Link Library.Forest

variable {h h' h'' g : Heap} {a i x : Addr} {n m : CNode} {c : Content} {q : Ptr}
  {kids kids' : Addr → List Addr} {roots : List Addr} {u : Rose Content}
  {ts us : List (Rose Content)} {t : CTree} {v : Value}

/-! ## New nodes -/

theorem allocNode_run (h : Heap) : allocNode h =
    if h.outcomes 0 then .ok (some h.brk, h.tick.pushNode .zeroed) else .ok (none, h.tick) := rfl

/-- Writing to a node right after it was allocated. -/
theorem store_pushNode (f : CNode → CNode) :
    store (some h.brk) f (h.tick.pushNode n) = .ok ((), h.tick.pushNode (f n)) := by
  have hNode : (h.tick.pushNode n).nodes h.brk = some n := pushNode_self (h := h.tick)
  rw [store_run hNode]
  simp only [Heap.setNode, Heap.pushNode, Heap.tick, Function.update_idem]

theorem newNode_run (type : TypeWord) (h : Heap) : newNode type h =
    if h.outcomes 0 then .ok (some h.brk, h.tick.pushNode { CNode.zeroed with type_ := type })
    else .ok (none, h.tick) := by
  have hAlloc := allocNode_run h
  by_cases hYes : h.outcomes 0 = true
  · rw [if_pos hYes] at hAlloc ⊢
    rw [newNode, Run.bind_run_ok hAlloc]
    show (store (some h.brk) _ >>= fun _ => pure (some h.brk)) _ = _
    rw [Run.bind_run_ok (store_pushNode _)]
    rfl
  · rw [if_neg hYes] at hAlloc ⊢
    rw [newNode, Run.bind_run_ok hAlloc]
    rfl

/-- A new node of a type. -/
theorem bare_zeroed {type : TypeWord} (hRef : isReference type = false)
    (hConst : isConst type = false) : Bare { CNode.zeroed with type_ := type } :=
  ⟨rfl, rfl, rfl, rfl, rfl, hRef, hConst⟩

/-- A call that fills one new node. -/
theorem forms_push {x : M Ptr} (hBounded : h.Bounded) (hBare : Bare n)
    (hRun : x h = if h.outcomes 0 then .ok (some h.brk, h.tick.pushNode n)
      else .ok (none, h.tick)) : Forms x h (.node n.content []) := by
  apply takes_alloc hRun
  · exact spent_tick
  · exact ⟨h.brk, _, rfl, formed_leaf hBounded hBare⟩
  · exact ⟨rfl, _, (Grown.refl hBounded).tick⟩

theorem forms_newNode (hBounded : h.Bounded) {type : TypeWord} (hRef : isReference type = false)
    (hConst : isConst type = false) : Forms (newNode type) h (.node (plain type) []) :=
  forms_push hBounded (bare_zeroed hRef hConst) (newNode_run type h)

/-! ## Numbers -/

theorem newNumber_run (num : F64) (h : Heap) : newNumber num h =
    if h.outcomes 0 then
      .ok (some h.brk, h.tick.pushNode
        { CNode.zeroed with type_ := cjsonNumber, valuedouble := num, valueint := clampToInt num })
    else .ok (none, h.tick) := by
  have hNew := newNode_run cjsonNumber h
  by_cases hYes : h.outcomes 0 = true
  · rw [if_pos hYes] at hNew ⊢
    rw [newNumber, Run.bind_run_ok hNew]
    show (store (some h.brk) _ >>= fun _ => store (some h.brk) _ >>= fun _ => pure (some h.brk)) _
      = _
    rw [Run.bind_run_ok (store_pushNode _), Run.bind_run_ok (store_pushNode _)]
    rfl
  · rw [if_neg hYes] at hNew ⊢
    rw [newNumber, Run.bind_run_ok hNew]
    rfl

theorem forms_newNumber (hBounded : h.Bounded) (num : F64) :
    Forms (newNumber num) h (contentsOf (.number num)) := by
  have hRef : isReference cjsonNumber = false := rfl
  have hConst : isConst cjsonNumber = false := rfl
  exact forms_push hBounded ⟨rfl, rfl, rfl, rfl, rfl, hRef, hConst⟩ (newNumber_run num h)

/-! ## Texts -/

/-- The `valuestring` of a new node is filled, or the node is freed. -/
def fillText (a : Addr) (s : Str) : M Ptr := do
  let valuestring ← allocCstr s
  store (some a) ({ · with valuestring := valuestring })
  if valuestring.isNone then
    hookFree (some (.node a))
    return none
  return some a

theorem texts_setValue {s : Addr} (hRef : n.isRef = false) (hNone : n.valuestring = none) :
    ({ n with valuestring := some s } : CNode).texts = s :: n.texts := by
  show (if n.isRef then none else some s).toList ++ n.ownKey.toList
    = s :: ((if n.isRef then none else n.valuestring).toList ++ n.ownKey.toList)
  rw [hRef, hNone]
  rfl

theorem stored_none (hText : Stored h q none) : q = none := by
  cases q with
  | none => rfl
  | some s =>
    obtain ⟨bytes, -, hSome⟩ := hText
    cases hSome

/-- The root of a finished tree without texts and children. -/
theorem Formed.bare (hFormed : Formed h h' kids a (.node c [])) (hValue : c.valuestring = none)
    (hString : c.string = none) : ∃ n, h'.nodes a = some n ∧ Bare n := by
  obtain ⟨⟨n, hn, hRef, hConst, hc⟩, hNil⟩ := hFormed.bears
  have hNil' : kids a = [] := hNil
  have hList := hFormed.grown.sound.wf.trees.lists hFormed.root.1 hn hRef
  rw [hNil'] at hList
  obtain ⟨q, -, hChild⟩ := hList
  have hLink := hFormed.link
  rw [link_eq hn, Option.some.injEq, Link.mk.injEq] at hLink
  refine ⟨n, hn, hLink.1, hLink.2, hChild.symm, ?_, ?_, hRef, hConst⟩
  · exact stored_none (hValue ▸ hc.valuestring)
  · exact stored_none (hString ▸ hc.string)

theorem allocCstr_takes (s : Str) (h : Heap) :
    Takes (allocCstr s) h 1 (fun q g => q = some h.brk ∧ g = h.tick.pushBuf (encode s ++ [0]))
      fun q g => q = none ∧ g = h.tick :=
  takes_alloc (allocCstr_run s h) spent_tick ⟨rfl, rfl⟩ ⟨rfl, rfl⟩

/-- The root of a finished tree without texts and children gets a text. -/
theorem Formed.fillText (hFormed : Formed h h' kids a (.node c [])) (hValue : c.valuestring = none)
    (hString : c.string = none) (s : Str) :
    Takes (fillText a s) h' 1
      (fun q g => q = some a ∧
        Formed h g kids a (.node { c with valuestring := some (encode s) } []))
      fun q g => q = none ∧ Built h none g := by
  obtain ⟨n, hn, hBare⟩ := hFormed.bare hValue hString
  obtain ⟨⟨n', hn', -, -, hc⟩, -⟩ := hFormed.bears
  rw [hn] at hn'
  cases hn'
  refine (allocCstr_takes s h').bind (k := 0) ?_ ?_
  · intro q g ⟨hq, hg⟩
    subst hq hg
    have hn₁ : (h'.tick.pushBuf (encode s ++ [0])).nodes a = some n := hn
    apply takes_bind_of_run (store_run hn₁ _)
    · exact spent_zero
    apply takes_pure
    refine ⟨rfl, hFormed.retext hn _ rfl rfl rfl hBare.key ?_ ?_⟩
    · rw [texts_setValue hBare.own hBare.valuestring]
    · have hBufs := bufsKept_pushBuf (a := a) (m := { n with valuestring := some h'.brk })
        hFormed.grown.bounded (encode s ++ [0])
      exact ⟨hc.type_, stored_pushBuf (encode s), hc.valueint, hc.valuedouble,
        hc.string.frame hBufs⟩
  · intro q g ⟨hq, hg⟩
    subst hq hg
    have hn₁ : h'.tick.nodes a = some n := hn
    have hSame : h'.tick.setNode a { n with valuestring := none } = h'.tick := by
      rw [← hBare.valuestring]
      exact setNode_same hn₁
    refine ⟨none, h'.tick.free (.node a), ?_, rfl, ?_⟩
    · rw [Run.bind_run_ok (store_run hn₁ _), hSame]
      rfl
    · exact hFormed.grown.tick.free_leaf hn₁ hBare.leaf.texts hBare.child

/-- What follows a new node. -/
theorem newNode_bind {type : TypeWord} (f : Ptr → M Ptr) :
    (do
      let node ← newNode type
      if node.isNone then
        return none
      f node) = (do
      let node ← allocNode
      if node.isNone then
        return none
      store node ({ · with type_ := type })
      f node) := by
  simp only [newNode, bind_assoc, Run.ite_bind, pure_bind]
  congr 1
  funext node
  cases node <;> rfl

theorem valueToCjson_string (s : Str) : valueToCjson (.string s) = (do
    let node ← newNode cjsonString
    if node.isNone then
      return none
    let valuestring ← allocCstr s
    store node ({ · with valuestring := valuestring })
    if valuestring.isNone then
      hookFree (node.map .node)
      return none
    return node) := by
  rw [newNode_bind, valueToCjson]

theorem valueToCjson_array (items : List Value) : valueToCjson (.array items) = (do
    let node ← newNode cjsonArray
    if node.isNone then
      return none
    let appended ← appendItems node none items
    if !appended then
      freeCjson node
      return none
    return node) := by
  rw [newNode_bind, valueToCjson]

theorem valueToCjson_object (members : List (Str × Value)) : valueToCjson (.object members) = (do
    let node ← newNode cjsonObject
    if node.isNone then
      return none
    let appended ← appendMembers node none members
    if !appended then
      freeCjson node
      return none
    return node) := by
  rw [newNode_bind, valueToCjson]


/-- A new node with a text. -/
theorem forms_text {type : TypeWord} (hBounded : h.Bounded) (hRef : isReference type = false)
    (hConst : isConst type = false) (s : Str) :
    Forms (do
      let node ← newNode type
      if node.isNone then
        return none
      let valuestring ← allocCstr s
      store node ({ · with valuestring := valuestring })
      if valuestring.isNone then
        hookFree (node.map .node)
        return none
      return node) h (.node { plain type with valuestring := some (encode s) } []) := by
  refine (forms_newNode hBounded hRef hConst).bind (k := 1) ?_ ?_
  · intro q g ⟨a, kids, hq, hFormed⟩
    subst hq
    refine (hFormed.fillText rfl rfl s).mono ?_ fun _ _ hNone => hNone
    intro q g ⟨hq, hFilled⟩
    exact ⟨a, kids, hq, hFilled⟩
  · intro q g ⟨hq, hNone⟩
    subst hq
    exact ⟨none, g, rfl, rfl, hNone⟩

/-! ## Children -/

/-- A finished tree gets a key. -/
theorem Formed.keyed (hFormed : Formed h h' kids i u) (hString : u.label.string = none)
    (k : Str) :
    ∃ n, h'.nodes i = some n ∧ n.string = none ∧
      Formed h ((h'.tick.pushBuf (encode k ++ [0])).setNode i { n with string := some h'.brk })
        kids i (keyed k u) := by
  obtain ⟨c, ts⟩ := u
  obtain ⟨⟨n, hn, -, hConst, hc⟩, -⟩ := id hFormed.bears
  have hNoKey : c.string = none := hString
  have hNone : n.string = none := stored_none (hNoKey ▸ hc.string)
  refine ⟨n, hn, hNone, hFormed.retext hn _ rfl rfl rfl hConst ?_ ?_⟩
  · rw [texts_setString hConst hNone]
    exact List.perm_append_singleton _ _
  · have hBufs := bufsKept_pushBuf (a := i) (m := { n with string := some h'.brk })
      hFormed.grown.bounded (encode k ++ [0])
    exact ⟨hc.type_, hc.valuestring.frame hBufs, hc.valueint, hc.valuedouble,
      stored_pushBuf (encode k)⟩

/-- A finished tree is put behind the children of the one that was built before it. -/
theorem Formed.placeLast (hFormed : Formed h h' kids a (.node c ts))
    (hChild : Formed h' h'' kids' i u) :
    ∃ g kids'', placeLast a (kids a).getLast? i h'' = .ok ((), g) ∧
      (Formed h g kids'' a (.node c (ts ++ [u])) ∧ Spent h'' g 0) ∧
      (kids'' a).getLast? = some i := by
  obtain ⟨n, hn, hList, hNodup, hNew⟩ := hFormed.slot hChild
  obtain ⟨g, q, hRun, hSpliced, hW, -⟩ := placeLast_run (body_eq hn) hList hNodup hChild.link hNew
  obtain ⟨kids'', hAttached, hKids⟩ := hFormed.attach hChild hSpliced hW
  refine ⟨g, kids'', hRun, ⟨hAttached, fun n => ?_⟩, ?_⟩
  · rw [hW.rest]
    rfl
  · rw [hKids, List.getLast?_concat]

/-- The child `u` with the key it is linked under. -/
def asChild (key : Option Str) (u : Rose Content) : Rose Content := key.elim u (keyed · u)

theorem blocksIn_asChild (hString : u.label.string = none) (key : Option Str) :
    blocksIn (asChild key u) = blocksIn u + key.toList.length := by
  cases key with
  | none => rfl
  | some k =>
    obtain ⟨c, ts⟩ := u
    have hNoKey : c.string = none := hString
    simp only [asChild, Option.elim_some, Ffi.keyed, blocksIn, Rose.total, Content.blocks, hNoKey]
    simp
    omega

/-- The step of `append_children`: a finished child is linked behind the others, or there was no
memory for its key and it is gone. -/
theorem linkChild_takes (hFormed : Formed h h' kids a (.node c ts))
    (hChild : Formed h' h'' kids' i u) (hString : u.label.string = none) (key : Option Str) :
    Takes (linkChild (some a) (kids a).getLast? key (some i)) h'' key.toList.length
      (fun r g => r = some (some i) ∧ ∃ kids'',
        Formed h g kids'' a (.node c (ts ++ [asChild key u])) ∧ (kids'' a).getLast? = some i)
      fun r g => r = none ∧ ∃ kids'', Grown h g kids'' [a] := by
  cases key with
  | none =>
    obtain ⟨g, kids'', hRun, hPlaced, hLast⟩ := hFormed.placeLast hChild
    rw [linkChild_item]
    apply takes_bind_of_run hRun hPlaced.2
    exact takes_pure ⟨rfl, kids'', hPlaced.1, hLast⟩
  | some k =>
    obtain ⟨n, hn, hNone, hKeyed⟩ := hChild.keyed hString k
    rw [linkChild_member]
    refine (allocCstr_takes k h'').bind (k := 0) ?_ ?_
    · intro q g ⟨hq, hg⟩
      subst hq hg
      have hn₁ : (h''.tick.pushBuf (encode k ++ [0])).nodes i = some n := hn
      obtain ⟨g, kids'', hRun, hPlaced, hLast⟩ := hFormed.placeLast hKeyed
      apply takes_bind_of_run (store_run hn₁ _)
      · exact spent_zero
      apply takes_bind_of_run hRun hPlaced.2
      exact takes_pure ⟨rfl, kids'', hPlaced.1, hLast⟩
    · intro q g ⟨hq, hg⟩
      subst hq hg
      have hn₁ : h''.tick.nodes i = some n := hn
      have hSame : h''.tick.setNode i { n with string := none } = h''.tick := by
        rw [← hNone]
        exact setNode_same hn₁
      obtain ⟨g, hFree, kids'', hGrown⟩ := hChild.grown.tick.free
      refine ⟨none, g, ?_, rfl, _, hFormed.grown.trans hGrown⟩
      rw [Run.bind_run_ok (store_run hn₁ _), hSame]
      show (freeCjson (some i) >>= fun _ => pure none) _ = _
      rw [Run.bind_run_ok hFree]
      rfl

/-! ## Loops over children -/

/-- A loop of `append_children`: the trees `ts` are linked behind the children of a finished
tree, or one of the allocations for them failed. -/
def Adds (f : Ptr → Ptr → M Bool) (ts : List (Rose Content)) : Prop :=
  ∀ h h' kids a c us, Formed h h' kids a (.node c us) →
    Takes (f (some a) (kids a).getLast?) h' (Rose.totalList Content.blocks ts)
      (fun r g => r = true ∧ ∃ kids', Formed h g kids' a (.node c (us ++ ts)))
      fun r g => r = false ∧ ∃ kids', Grown h g kids' [a]

theorem adds_nil : Adds (fun _ _ => pure true) [] := by
  intro h h' kids a c us hFormed
  apply takes_pure
  rw [List.append_nil]
  exact ⟨rfl, kids, hFormed⟩

/-- One round of the loop. -/
theorem adds_cons {x : M Ptr} {f : Ptr → Ptr → M Bool} (key : Option Str)
    (hx : ∀ h : Heap, h.Bounded → Forms x h u) (hString : u.label.string = none)
    (hLoop : Adds f ts) :
    Adds (fun parent prev => do
      let child ← x
      match ← linkChild parent prev key child with
      | none => return false
      | some prev => f parent prev) (asChild key u :: ts) := by
  intro h h' kids a c us hFormed
  have hBlocks : Rose.totalList Content.blocks (asChild key u :: ts)
      = blocksIn u + (key.toList.length + Rose.totalList Content.blocks ts) := by
    have hKeyed := blocksIn_asChild hString key
    rw [Rose.totalList, ← Nat.add_assoc, ← hKeyed]
    rfl
  rw [hBlocks]
  refine (hx h' hFormed.grown.bounded).bind ?_ ?_
  · intro q h₁ hForm
    obtain ⟨i, kids₁, hq, hChild⟩ := hForm
    subst hq
    refine (linkChild_takes hFormed hChild hString key).bind ?_ ?_
    · intro r g hLink
      obtain ⟨hr, kids₂, hLinked, hLast⟩ := hLink
      subst hr
      have hRest := hLoop _ _ _ _ _ _ hLinked
      rw [hLast, List.append_assoc] at hRest
      exact hRest
    · intro r g hLink
      obtain ⟨hr, hGrown⟩ := hLink
      subst hr
      exact ⟨false, g, rfl, rfl, hGrown⟩
  · intro q h₁ hForm
    obtain ⟨hq, kids₁, hGrown⟩ := hForm
    subst hq
    exact ⟨false, h₁, rfl, rfl, _, hFormed.grown.trans hGrown⟩

/-- A new container is filled, or freed. -/
theorem forms_container {f : Ptr → Ptr → M Bool} (hBounded : h.Bounded) {type : TypeWord}
    (hRef : isReference type = false) (hConst : isConst type = false) (hLoop : Adds f ts) :
    Forms (do
      let node ← newNode type
      if node.isNone then
        return none
      let appended ← f node none
      if !appended then
        freeCjson node
        return none
      return node) h (.node (plain type) ts) := by
  refine (forms_newNode hBounded hRef hConst).bind (k := Rose.totalList Content.blocks ts) ?_ ?_
  · intro q h₁ ⟨a, kids, hq, hFormed⟩
    subst hq
    have hNil : kids a = [] := by
      obtain ⟨-, hTs⟩ := hFormed.bears
      exact hTs
    have hFill := hLoop _ _ _ _ _ _ hFormed
    rw [hNil, List.getLast?_nil] at hFill
    refine hFill.bind (k := 0) ?_ ?_
    · intro r g ⟨hr, kids', hFilled⟩
      subst hr
      exact takes_pure ⟨a, kids', rfl, hFilled⟩
    · intro r g ⟨hr, kids', hGrown⟩
      subst hr
      obtain ⟨g', hFree, hGone⟩ := hGrown.free
      refine ⟨none, g', ?_, rfl, hGone⟩
      show (freeCjson (some a) >>= fun _ => pure none) g = _
      rw [Run.bind_run_ok hFree]
      rfl
  · intro q g ⟨hq, hNone⟩
    subst hq
    exact ⟨none, g, rfl, rfl, hNone⟩

/-! ## Values -/

theorem label_ofValue (v : Value) : (CTree.ofValue v).label.string = none := by
  cases v <;> rfl

theorem valueToCjson_number_run (n : F64) (h : Heap) :
    valueToCjson (.number n) h = newNumber n h := by
  have hAlloc := allocNode_run h
  rw [newNumber_run]
  by_cases hYes : h.outcomes 0 = true
  · rw [if_pos hYes] at hAlloc ⊢
    rw [valueToCjson, Run.bind_run_ok hAlloc]
    show (store (some h.brk) _ >>= fun _ => store (some h.brk) _ >>= fun _ =>
      store (some h.brk) _ >>= fun _ => pure (some h.brk)) _ = _
    rw [Run.bind_run_ok (store_pushNode _), Run.bind_run_ok (store_pushNode _),
      Run.bind_run_ok (store_pushNode _)]
    rfl
  · rw [if_neg hYes] at hAlloc ⊢
    rw [valueToCjson, Run.bind_run_ok hAlloc]
    rfl

theorem label_contentsOf (v : Value) : (contentsOf v).label.string = none := by
  cases v <;> rfl

/-- `value_to_cjson` builds the contents of the value, or nothing for want of memory. -/
theorem forms_valueToCjson (v : Value) :
    ∀ h : Heap, h.Bounded → Forms (valueToCjson v) h (contentsOf v) := by
  refine @Value.rec (fun v => ∀ h : Heap, h.Bounded → Forms (valueToCjson v) h (contentsOf v))
    (fun items => Adds (fun a last => appendItems a last items) (itemContents items))
    (fun members => Adds (fun a last => appendMembers a last members) (memberContents members))
    (fun m => ∀ h : Heap, h.Bounded → Forms (valueToCjson m.2) h (contentsOf m.2))
    ?_ ?_ ?_ ?_ ?_ ?_ ?_ ?_ ?_ ?_ (fun _ _ h => h) v
  · exact fun h hBounded => forms_newNode hBounded rfl rfl
  · intro b h hBounded
    cases b <;> exact forms_newNode hBounded rfl rfl
  · intro n h hBounded
    have hSame : valueToCjson (.number n) = newNumber n := funext (valueToCjson_number_run n)
    rw [hSame]
    exact forms_newNumber hBounded n
  · intro s h hBounded
    rw [valueToCjson_string]
    exact forms_text hBounded rfl rfl s
  · intro items ih h hBounded
    rw [valueToCjson_array]
    exact forms_container hBounded rfl rfl ih
  · intro members ih h hBounded
    rw [valueToCjson_object]
    exact forms_container hBounded rfl rfl ih
  · exact adds_nil
  · intro v items ihV ih
    have hCons := adds_cons none ihV (label_contentsOf v) ih
    exact hCons
  · exact adds_nil
  · intro m members ihV ih
    have hCons := adds_cons (some m.1) ihV (label_contentsOf m.2) ih
    exact hCons

/-- A call that builds the tree `t`, or fails for want of memory. -/
def Plants (x : M Ptr) (h : Heap) (t : CTree) : Prop :=
  (∃ h' kids a, x h = .ok (some a, h') ∧ Planted h h' kids a t) ∨
    ∃ h', x h = .ok (none, h') ∧ Failed h h' []

theorem Forms.plants {x : M Ptr} (hForms : Forms x h u) : Plants x h (view u) := by
  rcases hForms with ⟨-, q, h', hRun, -, a, kids, hq, hFormed⟩ | ⟨hNo, q, h', hRun, hq, hNone⟩
  · subst hq
    exact Or.inl ⟨h', kids, a, hRun, hFormed.planted⟩
  · subst hq
    refine Or.inr ⟨h', hRun, hNone, ?_⟩
    unfold Heap.Plenty at hNo
    push Not at hNo
    obtain ⟨k, -, hk⟩ := hNo
    exact ⟨k, by simpa using hk⟩

/-- `value_to_cjson` plants the tree of the value, or fails for want of memory. -/
theorem plants_valueToCjson (v : Value) (h : Heap) (hBounded : h.Bounded) :
    Plants (valueToCjson v) h (.ofValue v) := by
  have hPlants := (forms_valueToCjson v h hBounded).plants
  rw [view_contentsOf] at hPlants
  exact hPlants

end CjsonRs.Ffi
