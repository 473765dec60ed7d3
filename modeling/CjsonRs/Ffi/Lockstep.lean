import CjsonRs.Ffi.Requests
import CjsonRs.Library.Follows

/-!
# Two heaps in lockstep

Every function of the interface is built from a few accesses to the heap. A relation between
heaps that these accesses keep (`Lockstep`) is kept by every call, which returns the same on
the second heap as on the first. What is known of each node may be chosen with the relation
(`Good`), as long as it depends on the two numbers of the node only.
-/

namespace CjsonRs.Ffi

open CjsonRs.Core Library

variable {Good : CNode → Prop} {R : Heap → Heap → Prop} {std : StdF64} {α : Type}

/-- The two numbers of a node. -/
def CNode.numbers (n : CNode) : Int × F64 := (n.valueint, n.valuedouble)

/-- A relation between heaps that the accesses to a heap keep. -/
structure Lockstep (Good : CNode → Prop) (R : Heap → Heap → Prop) : Prop where
  brk : ∀ {g h}, R g h → h.brk = g.brk
  outcomes : ∀ {g h}, R g h → h.outcomes 0 = g.outcomes 0
  lastError : ∀ {g h}, R g h → h.lastError = g.lastError
  node : ∀ {g h a n}, R g h → g.nodes a = some n → h.nodes a = some n ∧ Good n
  bytes : ∀ {g h s b}, R g h → g.bufs s = some b → ∃ b', h.bufs s = some b' ∧ b'.bytes = b.bytes
  tick : ∀ {g h}, R g h → R g.tick h.tick
  pushNode : ∀ {g h n}, R g h → Good n → R (g.pushNode n) (h.pushNode n)
  pushBuf : ∀ {g h}, R g h → ∀ bytes, R (g.pushBuf bytes) (h.pushBuf bytes)
  setNode : ∀ {g h a n m}, R g h → g.nodes a = some n → Good m → R (g.setNode a m) (h.setNode a m)
  setBytes : ∀ {g h s b b'}, R g h → g.bufs s = some b → h.bufs s = some b' →
    ∀ bytes, R (g.setBytes s b bytes) (h.setBytes s b' bytes)
  setError : ∀ {g h}, R g h → ∀ p, R { g with lastError := p } { h with lastError := p }
  free : ∀ {g h}, R g h → ∀ b, R (g.free b) (h.free b)
  /-- Which nodes are good. -/
  clamped : ∀ {n : CNode}, n.valueint = clampToInt n.valuedouble → Good n
  same : ∀ {n m : CNode}, Good n → m.numbers = n.numbers → Good m

/-- On related heaps the program does the same. -/
abbrev Respects (R : Heap → Heap → Prop) (x : M α) : Prop := Run.Follows R x x

/-! ## Accesses -/

section Accesses

theorem respects_pure (a : α) : Respects R (pure a : M α) := Run.follows_pure a

theorem respects_diverge : Respects R (diverge : M α) := Run.follows_fault _ _

theorem respects_ite {b : Prop} [Decidable b] {x y : M α} (hx : Respects R x)
    (hy : Respects R y) : Respects R (if b then x else y) :=
  Run.follows_ite (fun _ => hx) fun _ => hy

variable (hR : Lockstep Good R)

include hR

theorem respects_load (p : Ptr) : Respects R (load p) := by
  intro g h n g' hRel hRun
  obtain ⟨a, rfl, hn, rfl⟩ := load_eq_ok hRun
  exact ⟨h, load_run (hR.node hRel hn).1, hRel⟩

/-- What is loaded is good. -/
theorem respects_load_bind (p : Ptr) {f : CNode → M α} (hf : ∀ n, Good n → Respects R (f n)) :
    Respects R (load p >>= f) := by
  refine (respects_load hR p).bind_of (fun g h n g' hRel hRun => ?_) hf
  obtain ⟨a, rfl, hn, rfl⟩ := load_eq_ok hRun
  exact (hR.node hRel hn).2

/-- An assignment that keeps good nodes good. -/
theorem respects_store_of (p : Ptr) {f : CNode → CNode} (hf : ∀ n, Good n → Good (f n)) :
    Respects R (store p f) := by
  intro g h u g' hRel hRun
  cases p with
  | none => cases hRun
  | some a =>
    simp only [store] at hRun
    split at hRun
    · cases hRun
    · rename_i n hn
      cases hRun
      obtain ⟨hn', hGood⟩ := hR.node hRel hn
      exact ⟨_, store_run hn' f, hR.setNode hRel hn (hf n hGood)⟩

/-- An assignment to other fields than the two numbers. -/
theorem respects_store (p : Ptr) {f : CNode → CNode} (hf : ∀ n, (f n).numbers = n.numbers) :
    Respects R (store p f) :=
  respects_store_of hR p fun n hn => hR.same hn (hf n)

/-- Two assignments in a row, between which the node need not be good. -/
theorem respects_store_store (p : Ptr) {f f' : CNode → CNode} {x : M α}
    (hf : ∀ n, Good n → Good (f' (f n))) (hx : Respects R x) :
    Respects R (store p f >>= fun _ => store p f' >>= fun _ => x) := by
  have hOnce : (store p f >>= fun _ => store p f' >>= fun _ => x)
      = store p (fun n => f' (f n)) >>= fun _ => x := by
    funext h
    cases p with
    | none => rfl
    | some a =>
      simp only [Run.bind_run, store]
      cases hn : h.nodes a with
      | none => rfl
      | some n =>
        have hSet : (h.setNode a (f n)).setNode a (f' (f n)) = h.setNode a (f' (f n)) := by
          simp only [Heap.setNode, Function.update_idem]
        simp only [Library.ok_bind, Heap.setNode_self, hSet]
  rw [hOnce]
  exact (respects_store_of hR p hf).bind fun _ => hx

theorem respects_loadBytes (p : Ptr) : Respects R (loadBytes p) := by
  intro g h bytes g' hRel hRun
  cases p with
  | none => cases hRun
  | some s =>
    simp only [loadBytes] at hRun
    split at hRun
    · cases hRun
    · rename_i b hb
      split_ifs at hRun with hNul
      cases hRun
      obtain ⟨b', hb', hEq⟩ := hR.bytes hRel hb
      refine ⟨h, ?_, hRel⟩
      rw [← hEq] at hNul ⊢
      exact loadBytes_run hb' hNul

theorem respects_loadStr (p : Ptr) : Respects R (loadStr p) :=
  (respects_loadBytes hR p).bind fun bytes => respects_pure (fromUtf8 bytes)

theorem respects_loadSlice (p : Ptr) (n : Nat) : Respects R (loadSlice p n) := by
  intro g h bytes g' hRel hRun
  cases p with
  | none => cases hRun
  | some s =>
    simp only [loadSlice] at hRun ⊢
    split at hRun
    · cases hRun
    · rename_i b hb
      split_ifs at hRun with hLe
      cases hRun
      obtain ⟨b', hb', hEq⟩ := hR.bytes hRel hb
      rw [hb', ← hEq]
      rw [← hEq] at hLe
      exact ⟨h, if_pos hLe, hRel⟩

theorem respects_hookFree (b : Option Block) : Respects R (hookFree b) := by
  cases b with
  | none => exact respects_pure ()
  | some b => exact Run.follows_step () fun g h hRel => hR.free hRel b

theorem respects_allocNode : Respects R allocNode := by
  intro g h p g' hRel hRun
  have hBrk := hR.brk hRel
  have hSame := hR.outcomes hRel
  simp only [allocNode, hookMallocNode] at hRun ⊢
  rw [hSame, hBrk]
  split_ifs at hRun ⊢
  · cases hRun
    exact ⟨_, rfl, hR.pushNode (hR.tick hRel) (hR.clamped clampToInt_zero.symm)⟩
  · cases hRun
    exact ⟨_, rfl, hR.tick hRel⟩

theorem respects_hookMallocBuf (bytes : List UInt8) : Respects R (hookMallocBuf bytes) := by
  intro g h p g' hRel hRun
  have hBrk := hR.brk hRel
  have hSame := hR.outcomes hRel
  simp only [hookMallocBuf] at hRun ⊢
  rw [hSame, hBrk]
  split_ifs at hRun ⊢
  · cases hRun
    exact ⟨_, rfl, hR.pushBuf (hR.tick hRel) bytes⟩
  · cases hRun
    exact ⟨_, rfl, hR.tick hRel⟩

theorem respects_setLastError (p : CharPtr) : Respects R (setLastError p) :=
  Run.follows_step () fun _ _ hRel => hR.setError hRel p

/-- Of the heap itself a program only reads the fuel for its loops, which the break gives. -/
theorem respects_get {x : Heap → M α} (hFuel : ∀ g h : Heap, h.fuel = g.fuel → x h = x g)
    (hx : ∀ h, Respects R (x h)) : Respects R (get >>= x) := by
  intro g h r g' hRel hRun
  have hEq : x h = x g := hFuel g h (by rw [Heap.fuel, Heap.fuel, hR.brk hRel])
  obtain ⟨h', hRun', hRel'⟩ := hx g g h r g' hRel hRun
  rw [← hEq] at hRun'
  exact ⟨h', hRun', hRel'⟩

theorem respects_fuel {x : Nat → M α} (hx : ∀ n, Respects R (x n)) :
    Respects R fun h => x h.fuel h :=
  respects_get hR (fun g h hEq => by rw [hEq]) fun h => hx h.fuel

end Accesses

/-! ## Building and freeing -/

section Nodes

variable (hR : Lockstep Good R)

include hR

theorem respects_newNode (t : TypeWord) : Respects R (newNode t) := by
  rw [newNode]
  refine (respects_allocNode hR).bind fun n => respects_ite (respects_pure none) ?_
  exact (respects_store hR n fun _ => by rfl).bind fun _ => respects_pure n

theorem respects_allocCstr (s : Str) : Respects R (allocCstr s) := respects_hookMallocBuf hR _

theorem respects_freeKey (a : Addr) : Respects R (freeKey a) := by
  rw [freeKey]
  refine (respects_load hR _).bind fun n => respects_ite ?_ (respects_hookFree hR _)
  exact (respects_hookFree hR _).bind fun _ => respects_hookFree hR _

theorem respects_freeNode (fuel : Nat) :
    (∀ p, Respects R (freeNode fuel p)) ∧ ∀ p, Respects R (freeChildren fuel p) := by
  induction fuel with
  | zero =>
    refine ⟨fun p => ?_, fun p => ?_⟩
    · cases p with
      | none => exact respects_pure ()
      | some a => exact respects_diverge
    · cases p with
      | none => exact respects_pure ()
      | some a => exact respects_diverge
  | succ fuel ih =>
    obtain ⟨ihNode, ihChildren⟩ := ih
    refine ⟨fun p => ?_, fun p => ?_⟩
    · cases p with
      | none => exact respects_pure ()
      | some a =>
        rw [freeNode_succ]
        refine (respects_load hR _).bind fun n => respects_ite ?_ (respects_freeKey hR a)
        refine (ihChildren _).bind fun _ => (respects_load hR _).bind fun n => ?_
        exact (respects_hookFree hR _).bind fun _ => respects_freeKey hR a
    · cases p with
      | none => exact respects_pure ()
      | some a =>
        rw [freeChildren_succ]
        refine (respects_load hR _).bind fun n => (ihNode _).bind fun _ => ihChildren n.next

theorem respects_freeCjson (p : Ptr) : Respects R (freeCjson p) :=
  respects_fuel hR fun fuel => (respects_freeNode hR fuel).1 p

/-! ## Lists of children -/

theorem respects_findTail (fuel : Nat) (a : Addr) : Respects R (findTail fuel a) := by
  induction fuel generalizing a with
  | zero => exact respects_diverge
  | succ fuel ih =>
    rw [findTail]
    refine (respects_load hR _).bind fun n => ?_
    cases n.next with
    | none => exact respects_pure a
    | some b => exact ih b

theorem respects_attachChild (parent child : Ptr) : Respects R (attachChild parent child) := by
  rw [attachChild]
  refine (respects_load hR _).bind fun p => ?_
  cases p.child with
  | none =>
    refine (respects_store hR _ fun _ => by rfl).bind fun _ => ?_
    exact (respects_store hR _ fun _ => by rfl).bind fun _ => respects_store hR _ fun _ => by rfl
  | some first =>
    refine respects_get hR (fun g h hEq => by rw [hEq]) fun h => ?_
    refine (respects_findTail hR h.fuel first).bind fun tail => ?_
    refine (respects_store hR _ fun _ => by rfl).bind fun _ => ?_
    exact (respects_store hR _ fun _ => by rfl).bind fun _ => respects_store hR _ fun _ => by rfl

theorem respects_detach (parent item : Ptr) : Respects R (detach parent item) := by
  have hEnd : Respects R (do
      store item ({ · with next := none })
      store item ({ · with prev := none })) :=
    (respects_store hR _ fun _ => by rfl).bind fun _ => respects_store hR _ fun _ => by rfl
  rw [detach]
  refine respects_ite (respects_pure ()) ((respects_load hR _).bind fun i => ?_)
  have hBack : Respects R (do
      if i.next.isSome then
        store i.next ({ · with prev := i.prev })
      store item ({ · with next := none })
      store item ({ · with prev := none })) :=
    respects_ite ((respects_store hR _ fun _ => by rfl).bind fun _ => hEnd) hEnd
  refine respects_ite ((respects_store hR _ fun _ => by rfl).bind fun _ => hBack) ?_
  exact respects_ite ((respects_store hR _ fun _ => by rfl).bind fun _ => hBack) hBack

theorem respects_childAtIndex (parent : Ptr) (which : Int) :
    Respects R (childAtIndex parent which) := by
  have hLoop : ∀ fuel cur i, Respects R (childAtIndexLoop which fuel cur i) := by
    intro fuel
    induction fuel with
    | zero =>
      intro cur i
      cases cur with
      | none => exact respects_pure none
      | some a => exact respects_diverge
    | succ fuel ih =>
      intro cur i
      cases cur with
      | none => exact respects_pure none
      | some a =>
        rw [childAtIndexLoop_succ]
        exact respects_ite (respects_pure _) ((respects_load hR _).bind fun n => ih n.next (i + 1))
  rw [childAtIndex]
  refine respects_ite (respects_pure none) ((respects_load hR _).bind fun p => ?_)
  exact respects_get hR (fun g h hEq => by rw [hEq]) fun h => hLoop h.fuel p.child 0

/-! ## Trees of values -/

theorem respects_linkChild (parent prev : Ptr) (key : Option Str) (child : Ptr) :
    Respects R (linkChild parent prev key child) := by
  have hLink : Respects R (do
      store child ({ · with prev := prev })
      if prev.isNone then
        store parent ({ · with child := child })
      else
        store prev ({ · with next := child })
      return some child) := by
    refine (respects_store hR _ fun _ => by rfl).bind fun _ => ?_
    refine respects_ite ?_ ?_
    · exact (respects_store hR _ fun _ => by rfl).bind fun _ => respects_pure _
    · exact (respects_store hR _ fun _ => by rfl).bind fun _ => respects_pure _
  rw [linkChild]
  refine respects_ite (respects_pure none) ?_
  cases key with
  | none => exact hLink
  | some k =>
    refine (respects_allocCstr hR k).bind fun string => ?_
    refine (respects_store hR _ fun _ => by rfl).bind fun _ => respects_ite ?_ hLink
    exact (respects_freeCjson hR child).bind fun _ => respects_pure none

theorem respects_appendItems {items : List Value}
    (hItems : ∀ v ∈ items, Respects R (valueToCjson v)) (parent prev : Ptr) :
    Respects R (appendItems parent prev items) := by
  induction items generalizing prev with
  | nil => exact respects_pure true
  | cons v items ih =>
    rw [appendItems]
    refine (hItems v List.mem_cons_self).bind fun child => ?_
    refine (respects_linkChild hR parent prev none child).bind fun linked => ?_
    cases linked with
    | none => exact respects_pure false
    | some prev => exact ih (fun u hu => hItems u (List.mem_cons_of_mem v hu)) prev

theorem respects_appendMembers {members : List (Str × Value)}
    (hMembers : ∀ m ∈ members, Respects R (valueToCjson m.2)) (parent prev : Ptr) :
    Respects R (appendMembers parent prev members) := by
  induction members generalizing prev with
  | nil => exact respects_pure true
  | cons m members ih =>
    rw [appendMembers]
    refine (hMembers m List.mem_cons_self).bind fun child => ?_
    refine (respects_linkChild hR parent prev (some m.1) child).bind fun linked => ?_
    cases linked with
    | none => exact respects_pure false
    | some prev => exact ih (fun u hu => hMembers u (List.mem_cons_of_mem m hu)) prev

/-- The nodes of `value_to_cjson` are allocated alike. -/
theorem respects_allocNode_bind {f : Ptr → M Ptr} (hf : ∀ node, Respects R (f node)) :
    Respects R (do
      let node ← allocNode
      if node.isNone then
        return none
      f node) :=
  (respects_allocNode hR).bind fun node => respects_ite (respects_pure none) (hf node)

theorem respects_valueToCjson (v : Value) : Respects R (valueToCjson v) := by
  induction v using Value.induct with
  | null =>
    rw [valueToCjson]
    refine respects_allocNode_bind hR fun node => ?_
    exact (respects_store hR _ fun _ => by rfl).bind fun _ => respects_pure node
  | bool b =>
    rw [valueToCjson]
    refine respects_allocNode_bind hR fun node => ?_
    exact (respects_store hR _ fun _ => by rfl).bind fun _ => respects_pure node
  | number n =>
    rw [valueToCjson]
    refine respects_allocNode_bind hR fun node => ?_
    refine (respects_store hR _ fun _ => by rfl).bind fun _ => ?_
    exact respects_store_store hR node (fun _ _ => hR.clamped rfl) (respects_pure node)
  | string s =>
    rw [valueToCjson]
    refine respects_allocNode_bind hR fun node => ?_
    refine (respects_store hR _ fun _ => by rfl).bind fun _ => ?_
    refine (respects_allocCstr hR s).bind fun valuestring => ?_
    refine (respects_store hR _ fun _ => by rfl).bind fun _ => respects_ite ?_ (respects_pure node)
    exact (respects_hookFree hR _).bind fun _ => respects_pure none
  | array items ih =>
    rw [valueToCjson]
    refine respects_allocNode_bind hR fun node => ?_
    refine (respects_store hR _ fun _ => by rfl).bind fun _ => ?_
    refine (respects_appendItems hR ih node none).bind fun appended => ?_
    refine respects_ite ?_ (respects_pure node)
    exact (respects_freeCjson hR node).bind fun _ => respects_pure none
  | object members ih =>
    rw [valueToCjson]
    refine respects_allocNode_bind hR fun node => ?_
    refine (respects_store hR _ fun _ => by rfl).bind fun _ => ?_
    refine (respects_appendMembers hR ih node none).bind fun appended => ?_
    refine respects_ite ?_ (respects_pure node)
    exact (respects_freeCjson hR node).bind fun _ => respects_pure none

/-! ## Copies -/

theorem respects_duplicateString (node src : Ptr) {set : Ptr → CNode → CNode}
    (hSet : ∀ p n, (set p n).numbers = n.numbers) : Respects R (duplicateString node src set) := by
  rw [duplicateString]
  refine respects_ite (respects_pure true) ((respects_loadStr hR src).bind fun text => ?_)
  cases text with
  | none => exact respects_pure true
  | some s =>
    refine (respects_allocCstr hR s).bind fun buf => ?_
    refine (respects_store hR _ (hSet buf)).bind fun _ => respects_ite ?_ (respects_pure true)
    exact (respects_freeCjson hR node).bind fun _ => respects_pure false

theorem respects_duplicateNode (fuel : Nat) :
    (∀ recurse p, Respects R (duplicateNode recurse fuel p)) ∧
      ∀ node p, Respects R (duplicateChildren fuel node p) := by
  induction fuel with
  | zero =>
    refine ⟨fun recurse p => ?_, fun node p => ?_⟩
    · cases p with
      | none => exact respects_pure none
      | some b => exact respects_diverge
    · cases p with
      | none => exact respects_pure true
      | some b => exact respects_diverge
  | succ fuel ih =>
    obtain ⟨ihNode, ihChildren⟩ := ih
    refine ⟨fun recurse p => ?_, fun node p => ?_⟩
    · cases p with
      | none => exact respects_pure none
      | some b =>
        rw [duplicateNode_succ]
        refine respects_allocNode_bind hR fun node => ?_
        refine respects_load_bind hR _ fun i hi => ?_
        refine (respects_store hR _ fun _ => by rfl).bind fun _ => ?_
        refine respects_store_store hR node (fun n _ => hR.same hi rfl) ?_
        refine (respects_duplicateString hR node _ fun _ _ => by rfl).bind fun copied => ?_
        refine respects_ite (respects_pure none) ?_
        refine (respects_duplicateString hR node _ fun _ _ => by rfl).bind fun copied => ?_
        refine respects_ite (respects_pure none) (respects_ite ?_ (respects_pure node))
        refine (ihChildren node i.child).bind fun copied => ?_
        exact respects_ite (respects_pure none) (respects_pure node)
    · cases p with
      | none => exact respects_pure true
      | some b =>
        rw [duplicateChildren_succ]
        refine (ihNode true _).bind fun dstChild => respects_ite ?_ ?_
        · exact (respects_freeCjson hR node).bind fun _ => respects_pure false
        · refine (respects_attachChild hR node dstChild).bind fun _ => ?_
          exact (respects_load hR _).bind fun s => ihChildren node s.next

theorem respects_duplicate (item : Ptr) (recurse : Bool) : Respects R (duplicate item recurse) :=
  respects_fuel hR fun fuel => (respects_duplicateNode hR fuel).1 recurse item

/-! ## Lookup -/

theorem respects_memberMatches (cs : Bool) (key : Str) (cur : Ptr) :
    Respects R (memberMatches cs key cur) := by
  rw [memberMatches]
  refine (respects_load hR _).bind fun n => respects_ite (respects_pure false) ?_
  refine (respects_loadStr hR _).bind fun text => ?_
  cases text with
  | none => exact respects_pure false
  | some k => exact respects_pure _

theorem respects_getObjectItemImpl (object string : Ptr) (cs : Bool) :
    Respects R (getObjectItemImpl object string cs) := by
  have hLoop : ∀ key fuel cur, Respects R (findMember cs key fuel cur) := by
    intro key fuel
    induction fuel with
    | zero =>
      intro cur
      cases cur with
      | none => exact respects_pure none
      | some a => exact respects_diverge
    | succ fuel ih =>
      intro cur
      cases cur with
      | none => exact respects_pure none
      | some a =>
        rw [findMember_succ]
        refine (respects_memberMatches hR cs key _).bind fun matched => ?_
        exact respects_ite (respects_pure _) ((respects_load hR _).bind fun n => ih n.next)
  rw [getObjectItemImpl]
  refine respects_ite (respects_pure none) ((respects_loadStr hR _).bind fun text => ?_)
  cases text with
  | none => exact respects_pure none
  | some key =>
    refine (respects_load hR _).bind fun o => ?_
    exact respects_get hR (fun g h hEq => by rw [hEq]) fun h => hLoop key h.fuel o.child

/-! ## Parsing -/

theorem respects_parseBytes (value : Addr) (bytes : List UInt8) (wantEnd : Bool) (whole : Nat)
    (strict : Int) : Respects R (parseBytes std value bytes wantEnd whole strict) := by
  rw [parseBytes]
  split
  dsimp only
  split
  · refine (respects_setLastError hR _).bind fun _ => ?_
    exact (respects_valueToCjson hR _).bind fun item => respects_pure _
  · exact (respects_setLastError hR _).bind fun _ => respects_pure _

theorem respects_cjsonParse (value : Ptr) : Respects R (cjsonParse std value) := by
  cases value with
  | none => exact (respects_setLastError hR none).bind fun _ => respects_pure none
  | some s =>
    refine (respects_loadBytes hR _).bind fun bytes => ?_
    exact (respects_parseBytes hR s bytes false _ 1).bind fun r => respects_pure r.item

theorem respects_cjsonParseWithLength (value : Ptr) (n : Nat) :
    Respects R (cjsonParseWithLength std value n) := by
  cases value with
  | none => exact (respects_setLastError hR none).bind fun _ => respects_pure none
  | some s =>
    refine (respects_loadSlice hR _ n).bind fun bytes => ?_
    exact (respects_parseBytes hR s bytes false n 1).bind fun r => respects_pure r.item

theorem respects_cjsonParseWithOpts (value : Ptr) (wantEnd : Bool) (strict : Int) :
    Respects R (cjsonParseWithOpts std value wantEnd strict) := by
  cases value with
  | none => exact (respects_setLastError hR none).bind fun _ => respects_pure _
  | some s =>
    exact (respects_loadBytes hR _).bind fun bytes =>
      respects_parseBytes hR s bytes wantEnd bytes.length strict

theorem respects_cjsonParseWithLengthOpts (value : Ptr) (n : Nat) (wantEnd : Bool)
    (strict : Int) : Respects R (cjsonParseWithLengthOpts std value n wantEnd strict) := by
  cases value with
  | none => exact (respects_setLastError hR none).bind fun _ => respects_pure _
  | some s =>
    exact (respects_loadSlice hR _ n).bind fun bytes =>
      respects_parseBytes hR s bytes wantEnd n strict

/-! ## Constructors -/

theorem respects_newNumber (num : F64) : Respects R (newNumber num) := by
  rw [newNumber]
  refine (respects_newNode hR _).bind fun n => respects_ite (respects_pure none) ?_
  exact respects_store_store hR n (fun _ _ => hR.clamped rfl) (respects_pure n)

theorem respects_createStringLike (s : Ptr) (t : TypeWord) :
    Respects R (createStringLike s t) := by
  rw [createStringLike]
  refine respects_ite (respects_pure none) ((respects_loadStr hR s).bind fun text => ?_)
  cases text with
  | none => exact respects_pure none
  | some str =>
    refine (respects_newNode hR t).bind fun n => respects_ite (respects_pure none) ?_
    refine (respects_allocCstr hR str).bind fun valuestring => ?_
    refine (respects_store hR _ fun _ => by rfl).bind fun _ => respects_ite ?_ (respects_pure n)
    exact (respects_hookFree hR _).bind fun _ => respects_pure none

theorem respects_createTypedArray {T : Type} {mk : T → M Ptr} (hMk : ∀ v, Respects R (mk v))
    (values : Option (List T)) (count : Int) : Respects R (createTypedArray mk values count) := by
  have hLoop : ∀ arr n vs, Respects R (fillArray mk arr n vs) := by
    intro arr n
    induction n with
    | zero => exact fun vs => respects_pure arr
    | succ n ih =>
      intro vs
      cases vs with
      | nil => exact Run.follows_fault _ _
      | cons v vs =>
        rw [fillArray_succ]
        refine (hMk v).bind fun item => respects_ite ?_ ?_
        · exact (respects_freeCjson hR arr).bind fun _ => respects_pure none
        · exact (respects_attachChild hR arr item).bind fun _ => ih vs
  cases values with
  | none => exact respects_pure none
  | some vs =>
    refine respects_ite (respects_pure none) ((respects_newNode hR _).bind fun arr => ?_)
    exact respects_ite (respects_pure none) (hLoop arr _ vs)

theorem respects_createContainerReference (t : TypeWord) (child : Ptr) :
    Respects R (createContainerReference t child) := by
  rw [createContainerReference]
  refine (respects_newNode hR _).bind fun n => respects_ite (respects_pure none) ?_
  exact (respects_store hR _ fun _ => by rfl).bind fun _ => respects_pure n

theorem respects_cjsonCreateStringReference (s : Ptr) :
    Respects R (cjsonCreateStringReference s) := by
  rw [cjsonCreateStringReference]
  refine respects_ite (respects_pure none) ((respects_newNode hR _).bind fun n => ?_)
  refine respects_ite (respects_pure none) ?_
  exact (respects_store hR _ fun _ => by rfl).bind fun _ => respects_pure n

theorem respects_construct (c : Construct) : Respects R c.run := by
  have hNumbers : ∀ (T : Type) (mk : T → F64) (values : Option (List T)) (count : Int),
      Respects R (createNumericArray values count mk) := fun T mk values count =>
    respects_createTypedArray hR (fun v => respects_newNumber hR (mk v)) values count
  cases c with
  | null => exact respects_newNode hR _
  | true => exact respects_newNode hR _
  | false => exact respects_newNode hR _
  | bool b => exact respects_newNode hR _
  | number num => exact respects_newNumber hR num
  | string s => exact respects_createStringLike hR s _
  | raw s => exact respects_createStringLike hR s _
  | array => exact respects_newNode hR _
  | object => exact respects_newNode hR _
  | intArray numbers count => exact hNumbers Int f64OfInt numbers count
  | floatArray numbers count => exact hNumbers (BitVec 32) f64OfF32 numbers count
  | doubleArray numbers count => exact hNumbers F64 id numbers count
  | stringArray strings count =>
    exact respects_createTypedArray hR (fun s => respects_createStringLike hR s _) strings count
  | stringReference s => exact respects_cjsonCreateStringReference hR s
  | objectReference child => exact respects_createContainerReference hR _ child
  | arrayReference child => exact respects_createContainerReference hR _ child

/-! ## Adding items -/

theorem respects_attachNamedChild (parent key child : Ptr) :
    Respects R (attachNamedChild parent key child) := by
  rw [attachNamedChild]
  refine respects_ite (respects_pure false) ((respects_loadStr hR key).bind fun text => ?_)
  cases text with
  | none => exact respects_pure false
  | some keyStr =>
    refine (respects_allocCstr hR keyStr).bind fun keyBuf => respects_ite (respects_pure _) ?_
    have hAttach : Respects R (do
        store child fun n => { n with type_ := clearConst n.type_ }
        store child ({ · with string := keyBuf })
        attachChild parent child
        return true) := by
      refine (respects_store hR _ fun _ => by rfl).bind fun _ => ?_
      refine (respects_store hR _ fun _ => by rfl).bind fun _ => ?_
      exact (respects_attachChild hR parent child).bind fun _ => respects_pure true
    refine (respects_load hR _).bind fun c => respects_ite ?_ hAttach
    exact (respects_hookFree hR _).bind fun _ => hAttach

theorem respects_cjsonAddItemToArray (array item : Ptr) :
    Respects R (cjsonAddItemToArray array item) := by
  rw [cjsonAddItemToArray]
  refine respects_ite (respects_pure false) ((respects_load hR _).bind fun a => ?_)
  refine respects_ite (respects_pure false) ?_
  exact (respects_attachChild hR array item).bind fun _ => respects_pure true

theorem respects_cjsonAddItemToObject (object name item : Ptr) :
    Respects R (cjsonAddItemToObject object name item) := by
  rw [cjsonAddItemToObject]
  refine respects_ite (respects_pure false) ((respects_load hR _).bind fun o => ?_)
  exact respects_ite (respects_pure false) (respects_attachNamedChild hR object name item)

theorem respects_cjsonAddItemToObjectCS (object name item : Ptr) :
    Respects R (cjsonAddItemToObjectCS object name item) := by
  have hAttach : Respects R (do
      store item fun n => { n with type_ := setConst n.type_ }
      store item ({ · with string := name })
      attachChild object item
      return true) := by
    refine (respects_store hR _ fun _ => by rfl).bind fun _ => ?_
    refine (respects_store hR _ fun _ => by rfl).bind fun _ => ?_
    exact (respects_attachChild hR object item).bind fun _ => respects_pure true
  rw [cjsonAddItemToObjectCS]
  refine respects_ite (respects_pure false) ((respects_load hR _).bind fun o => ?_)
  refine respects_ite (respects_pure false) ((respects_load hR _).bind fun i => ?_)
  exact respects_ite ((respects_hookFree hR _).bind fun _ => hAttach) hAttach

theorem respects_wrapAsReference_bind {f : Ptr → M Bool} (item : Ptr)
    (hf : ∀ r, Respects R (f r)) :
    Respects R (do
      let r ← wrapAsReference item
      if r.isNone then
        return false
      f r) := by
  refine Run.Follows.bind ?_ fun r => respects_ite (respects_pure false) (hf r)
  rw [wrapAsReference]
  refine respects_load_bind hR _ fun i hi => (respects_newNode hR _).bind fun r => ?_
  refine respects_ite (respects_pure none) ?_
  refine (respects_store hR _ fun _ => by rfl).bind fun _ => ?_
  refine respects_store_store hR r (fun n _ => hR.same hi rfl) ?_
  exact (respects_store hR _ fun _ => by rfl).bind fun _ => respects_pure r

theorem respects_cjsonAddItemReferenceToArray (array item : Ptr) :
    Respects R (cjsonAddItemReferenceToArray array item) := by
  rw [cjsonAddItemReferenceToArray]
  refine respects_ite (respects_pure false) ((respects_load hR _).bind fun a => ?_)
  refine respects_ite (respects_pure false) (respects_wrapAsReference_bind hR item fun r => ?_)
  exact (respects_attachChild hR array r).bind fun _ => respects_pure true

theorem respects_cjsonAddItemReferenceToObject (object name item : Ptr) :
    Respects R (cjsonAddItemReferenceToObject object name item) := by
  rw [cjsonAddItemReferenceToObject]
  refine respects_ite (respects_pure false) ((respects_load hR _).bind fun o => ?_)
  refine respects_ite (respects_pure false) (respects_wrapAsReference_bind hR item fun r => ?_)
  refine (respects_attachNamedChild hR object name r).bind fun attached => ?_
  refine respects_ite (respects_pure true) ?_
  exact (respects_freeCjson hR r).bind fun _ => respects_pure false

theorem respects_addToObject (object name item : Ptr) :
    Respects R (addToObject object name item) := by
  rw [addToObject]
  refine respects_ite (respects_pure none) ?_
  refine (respects_cjsonAddItemToObject hR object name item).bind fun added => ?_
  refine respects_ite ?_ (respects_pure item)
  exact (respects_freeCjson hR item).bind fun _ => respects_pure none

/-! ## Detaching and replacing -/

theorem respects_cjsonDetachItemFromArray (array : Ptr) (which : Int) :
    Respects R (cjsonDetachItemFromArray array which) := by
  rw [cjsonDetachItemFromArray]
  refine (respects_childAtIndex hR array which).bind fun item => ?_
  refine respects_ite (respects_pure none) ?_
  exact (respects_detach hR array item).bind fun _ => respects_pure item

theorem respects_detachObjectItem (object string : Ptr) (cs : Bool) :
    Respects R (detachObjectItem object string cs) := by
  rw [detachObjectItem]
  refine (respects_getObjectItemImpl hR object string cs).bind fun item => ?_
  refine respects_ite (respects_pure none) ?_
  exact (respects_detach hR object item).bind fun _ => respects_pure item

theorem respects_deleteObjectItem (object string : Ptr) (cs : Bool) :
    Respects R (deleteObjectItem object string cs) := by
  rw [deleteObjectItem]
  refine (respects_detachObjectItem hR object string cs).bind fun item => ?_
  exact respects_ite (respects_freeCjson hR item) (respects_pure ())

theorem respects_cjsonInsertItemInArray (array : Ptr) (which : Int) (newitem : Ptr) :
    Respects R (cjsonInsertItemInArray array which newitem) := by
  rw [cjsonInsertItemInArray]
  refine respects_ite (respects_pure false) ((respects_load hR _).bind fun a => ?_)
  refine respects_ite (respects_pure false) ?_
  refine (respects_childAtIndex hR array which).bind fun existing => respects_ite ?_ ?_
  · exact (respects_attachChild hR array newitem).bind fun _ => respects_pure true
  · refine (respects_load hR _).bind fun e => (respects_store hR _ fun _ => by rfl).bind fun _ => ?_
    refine (respects_store hR _ fun _ => by rfl).bind fun _ => (respects_load hR _).bind fun e => ?_
    refine respects_ite ?_ ?_
    · refine (respects_store hR _ fun _ => by rfl).bind fun _ => ?_
      exact (respects_store hR _ fun _ => by rfl).bind fun _ => respects_pure true
    · refine (respects_store hR _ fun _ => by rfl).bind fun _ => ?_
      exact (respects_store hR _ fun _ => by rfl).bind fun _ => respects_pure true

theorem respects_redirect (p : Addr) (q v : Ptr) : Respects R (redirect p q v) := by
  cases q with
  | none =>
    rw [redirect]
    exact respects_store hR _ fun _ => by rfl
  | some a =>
    rw [redirect]
    exact respects_store hR _ fun _ => by rfl

theorem respects_redirectBack (q v : Ptr) : Respects R (redirectBack q v) := by
  cases q with
  | none => exact respects_pure ()
  | some a =>
    rw [redirectBack]
    exact respects_store hR _ fun _ => by rfl

theorem respects_spliceOver (p a i : Addr) : Respects R (spliceOver p a i) := by
  rw [spliceOver]
  refine (respects_load hR _).bind fun n => (respects_store hR _ fun _ => by rfl).bind fun _ => ?_
  refine (respects_load hR _).bind fun n => (respects_store hR _ fun _ => by rfl).bind fun _ => ?_
  refine (respects_load hR _).bind fun n => (respects_redirect hR p _ _).bind fun _ => ?_
  exact (respects_load hR _).bind fun n => respects_redirectBack hR _ _

theorem respects_passKey (a i : Addr) : Respects R (passKey a i) := by
  rw [passKey]
  refine (respects_load hR _).bind fun n => respects_ite ?_ (respects_pure ())
  refine (respects_load hR _).bind fun r => respects_ite ?_ (respects_pure ())
  exact (respects_store hR _ fun _ => by rfl).bind fun _ => respects_store hR _ fun _ => by rfl

theorem respects_replaceViaPointer (parent item replacement : Ptr) :
    Respects R (replaceViaPointer parent item replacement) := by
  cases parent with
  | none => exact respects_pure false
  | some p =>
    cases item with
    | none => exact respects_pure false
    | some a =>
      cases replacement with
      | none => exact respects_pure false
      | some i =>
        rw [replaceViaPointer_eq]
        refine (respects_spliceOver hR p a i).bind fun _ => ?_
        refine (respects_passKey hR a i).bind fun _ => ?_
        refine (respects_store hR _ fun _ => by rfl).bind fun _ => ?_
        refine (respects_store hR _ fun _ => by rfl).bind fun _ => ?_
        exact (respects_freeCjson hR _).bind fun _ => respects_pure true

theorem respects_cjsonReplaceItemInArray (array : Ptr) (which : Int) (newitem : Ptr) :
    Respects R (cjsonReplaceItemInArray array which newitem) := by
  rw [cjsonReplaceItemInArray]
  refine (respects_childAtIndex hR array which).bind fun item => ?_
  exact respects_ite (respects_pure false) (respects_replaceViaPointer hR array item newitem)

theorem respects_replaceObjectItem (object string newitem : Ptr) (cs : Bool) :
    Respects R (replaceObjectItem object string newitem cs) := by
  rw [replaceObjectItem]
  refine (respects_getObjectItemImpl hR object string cs).bind fun item => ?_
  exact respects_ite (respects_pure false) (respects_replaceViaPointer hR object item newitem)

theorem respects_edit (e : Edit) : Respects R e.run := by
  cases e with
  | addItemToArray array item => exact (respects_cjsonAddItemToArray hR array item).map _
  | addItemToObject object name item =>
    exact (respects_cjsonAddItemToObject hR object name item).map _
  | addItemToObjectCS object name item =>
    exact (respects_cjsonAddItemToObjectCS hR object name item).map _
  | insertItemInArray array which newitem =>
    exact (respects_cjsonInsertItemInArray hR array which newitem).map _
  | detachItemViaPointer parent item =>
    refine Run.Follows.map (respects_ite (respects_pure none) ?_) _
    exact (respects_detach hR parent item).bind fun _ => respects_pure item
  | detachItemFromArray array which =>
    exact (respects_cjsonDetachItemFromArray hR array which).map _
  | detachItemFromObject cs object string =>
    cases cs with
    | false => exact (respects_detachObjectItem hR object string false).map _
    | true => exact (respects_detachObjectItem hR object string true).map _
  | deleteItemFromArray array which =>
    refine Run.Follows.map ((respects_cjsonDetachItemFromArray hR array which).bind ?_) _
    exact fun item => respects_ite (respects_freeCjson hR item) (respects_pure ())
  | deleteItemFromObject cs object string =>
    cases cs with
    | false => exact (respects_deleteObjectItem hR object string false).map _
    | true => exact (respects_deleteObjectItem hR object string true).map _
  | replaceItemViaPointer parent item replacement =>
    exact (respects_replaceViaPointer hR parent item replacement).map _
  | replaceItemInArray array which newitem =>
    exact (respects_cjsonReplaceItemInArray hR array which newitem).map _
  | replaceItemInObject cs object string newitem =>
    cases cs with
    | false => exact (respects_replaceObjectItem hR object string newitem false).map _
    | true => exact (respects_replaceObjectItem hR object string newitem true).map _

/-! ## Changing a node -/

theorem respects_cjsonSetValuestring (object valuestring : Ptr) :
    Respects R (cjsonSetValuestring object valuestring) := by
  rw [cjsonSetValuestring]
  refine respects_ite (respects_pure none) ((respects_load hR _).bind fun o => ?_)
  refine respects_ite (respects_pure none) ((respects_loadStr hR _).bind fun text => ?_)
  cases text with
  | none => exact respects_pure none
  | some s =>
    refine (respects_allocCstr hR s).bind fun newBuf => respects_ite (respects_pure none) ?_
    refine (respects_load hR _).bind fun o => (respects_hookFree hR _).bind fun _ => ?_
    exact (respects_store hR _ fun _ => by rfl).bind fun _ => respects_pure newBuf

theorem respects_cjsonSetNumberHelper (object : Ptr) (number : F64) :
    Respects R (cjsonSetNumberHelper object number) := by
  rw [cjsonSetNumberHelper]
  refine respects_ite (respects_pure number) ((respects_load hR _).bind fun o => ?_)
  refine respects_ite (respects_pure number) ?_
  exact respects_store_store hR object (fun _ _ => hR.clamped rfl) (respects_pure number)

theorem respects_call (c : Call) : Respects R (c.run std) := by
  cases c with
  | parse value => exact (respects_cjsonParse hR value).map _
  | parseWithLength value n => exact (respects_cjsonParseWithLength hR value n).map _
  | parseWithOpts value wantEnd strict =>
    exact (respects_cjsonParseWithOpts hR value wantEnd strict).map _
  | parseWithLengthOpts value n wantEnd strict =>
    exact (respects_cjsonParseWithLengthOpts hR value n wantEnd strict).map _
  | create c => exact (respects_construct hR c).map _
  | duplicate item recurse => exact (respects_duplicate hR item _).map _
  | edit e => exact respects_edit hR e
  | addItemReferenceToArray array item =>
    exact (respects_cjsonAddItemReferenceToArray hR array item).map _
  | addItemReferenceToObject object name item =>
    exact (respects_cjsonAddItemReferenceToObject hR object name item).map _
  | addToObject object name m =>
    have hMember : Respects R (m.run object name) := by
      rw [Member.run_eq]
      exact (respects_construct hR _).bind fun item => respects_addToObject hR object name item
    exact hMember.map _
  | setValuestring object valuestring =>
    exact (respects_cjsonSetValuestring hR object valuestring).map _
  | delete item => exact (respects_freeCjson hR item).map _

/-! ## Reading and printing -/

theorem respects_textOrEmpty (p : Ptr) : Respects R (textOrEmpty p) :=
  respects_ite (respects_pure _) (respects_loadStr hR p)

theorem respects_nodeToValue (fuel : Nat) :
    (∀ p, Respects R (nodeToValue fuel p)) ∧ (∀ p, Respects R (itemsToValues fuel p)) ∧
      ∀ p, Respects R (membersToValues fuel p) := by
  induction fuel with
  | zero =>
    refine ⟨fun p => ?_, fun p => ?_, fun p => ?_⟩ <;> cases p with
    | none => exact respects_pure _
    | some a => exact respects_diverge
  | succ fuel ih =>
    obtain ⟨ihNode, ihItems, ihMembers⟩ := ih
    refine ⟨fun p => ?_, fun p => ?_, fun p => ?_⟩
    · cases p with
      | none => exact respects_pure none
      | some a =>
        rw [nodeToValue_succ]
        refine (respects_load hR _).bind fun n => respects_ite (respects_pure _) ?_
        refine respects_ite (respects_pure _) (respects_ite (respects_pure _) ?_)
        refine respects_ite (respects_pure _) (respects_ite ?_ ?_)
        · exact (respects_textOrEmpty hR _).bind fun s => respects_pure _
        · refine respects_ite ((ihItems n.child).bind fun items => respects_pure _) ?_
          exact respects_ite ((ihMembers n.child).bind fun members => respects_pure _)
            (respects_pure none)
    · cases p with
      | none => exact respects_pure _
      | some a =>
        rw [itemsToValues_succ]
        refine (ihNode _).bind fun v => ?_
        cases v with
        | none => exact respects_pure none
        | some v =>
          refine (respects_load hR _).bind fun n => ?_
          exact (ihItems n.next).bind fun items => respects_pure _
    · cases p with
      | none => exact respects_pure _
      | some a =>
        rw [membersToValues_succ]
        refine (respects_load hR _).bind fun n => (respects_textOrEmpty hR _).bind fun key => ?_
        cases key with
        | none => exact respects_pure none
        | some key =>
          refine (ihNode _).bind fun v => ?_
          cases v with
          | none => exact respects_pure none
          | some v => exact (ihMembers n.next).bind fun members => respects_pure _

theorem respects_cjsonToValue (item : Ptr) : Respects R (cjsonToValue item) :=
  respects_fuel hR fun fuel => (respects_nodeToValue hR fuel).1 item

theorem respects_writeKey (out : Str) (string : Ptr) : Respects R (writeKey out string) := by
  rw [writeKey]
  refine respects_ite (respects_pure _) ((respects_loadStr hR string).bind fun text => ?_)
  cases text with
  | none => exact respects_pure _
  | some k => exact respects_pure _

theorem respects_writeCjsonPretty (fuel : Nat) :
    (∀ out p depth, Respects R (writeCjsonPretty std fuel out p depth)) ∧
      (∀ out p firstIter depth, Respects R (writePrettyItems std fuel out p firstIter depth)) ∧
      ∀ out p firstIter depth, Respects R (writePrettyMembers std fuel out p firstIter depth) := by
  induction fuel with
  | zero =>
    refine ⟨fun out p depth => ?_, fun out p firstIter depth => ?_, fun out p firstIter depth => ?_⟩
      <;> cases p with
    | none => exact respects_pure _
    | some a => exact respects_diverge
  | succ fuel ih =>
    obtain ⟨ihNode, ihItems, ihMembers⟩ := ih
    refine ⟨fun out p depth => ?_, fun out p firstIter depth => ?_, fun out p firstIter depth => ?_⟩
    · cases p with
      | none => exact respects_pure _
      | some a =>
        refine (respects_load hR _).bind fun n => respects_ite (respects_pure _) ?_
        refine respects_ite (respects_pure _) (respects_ite (respects_pure _) ?_)
        refine respects_ite (respects_pure _) (respects_ite ?_ (respects_ite ?_ ?_))
        · refine respects_ite (respects_pure _) ((respects_loadStr hR _).bind fun text => ?_)
          cases text with
          | none => exact respects_pure _
          | some s => exact respects_pure _
        · refine respects_ite (respects_pure _) ((respects_loadStr hR _).bind fun text => ?_)
          cases text with
          | none => exact respects_pure _
          | some s => exact respects_pure _
        · refine respects_ite (respects_ite (respects_pure _) ?_)
            (respects_ite ?_ (respects_pure _))
          · exact (ihItems _ n.child true depth).bind fun out => respects_pure _
          · refine respects_ite (respects_pure _) ?_
            exact (ihMembers _ n.child true depth).bind fun out => respects_pure _
    · cases p with
      | none => exact respects_pure _
      | some a =>
        refine (ihNode _ _ (depth + 1)).bind fun out => (respects_load hR _).bind fun n => ?_
        exact ihItems out n.next false depth
    · cases p with
      | none => exact respects_pure _
      | some a =>
        refine (respects_load hR _).bind fun n => (respects_writeKey hR _ _).bind fun out => ?_
        refine (ihNode _ _ (depth + 1)).bind fun out => (respects_load hR _).bind fun n => ?_
        exact ihMembers out n.next false depth

theorem respects_printText (item : Ptr) (pretty : Bool) :
    Respects R (printText std item pretty) := by
  rw [printText]
  refine respects_ite ?_ ((respects_cjsonToValue hR item).bind fun value => respects_pure _)
  refine respects_get hR (fun g h hEq => by rw [hEq]) fun h => ?_
  exact ((respects_writeCjsonPretty hR h.fuel).1 [] item 0).bind fun out => respects_pure _

theorem respects_printImpl (item : Ptr) (pretty : Bool) :
    Respects R (printImpl std item pretty) := by
  rw [printImpl]
  refine respects_ite (respects_pure none) ((respects_printText hR item pretty).bind fun text => ?_)
  cases text with
  | none => exact respects_pure none
  | some s => exact respects_hookMallocBuf hR _

theorem respects_storeText (buffer : Ptr) (bytes : List UInt8) :
    Respects R (storeText buffer bytes) := by
  intro g h u g' hRel hRun
  cases buffer with
  | none => cases hRun
  | some s =>
    simp only [storeText] at hRun ⊢
    split at hRun
    · cases hRun
    · rename_i b hb
      split_ifs at hRun with hLe
      cases hRun
      obtain ⟨b', hb', hEq⟩ := hR.bytes hRel hb
      rw [← hEq] at hLe
      rw [hb']
      exact ⟨_, if_pos hLe, hR.setBytes hRel hb hb' _⟩

theorem respects_cjsonPrintPreallocated (item buffer : Ptr) (length format : Int) :
    Respects R (cjsonPrintPreallocated std item buffer length format) := by
  rw [cjsonPrintPreallocated]
  refine respects_ite (respects_pure false) ((respects_printText hR item _).bind fun text => ?_)
  cases text with
  | none => exact respects_pure false
  | some s =>
    refine respects_ite (respects_pure false) ?_
    exact (respects_storeText hR buffer _).bind fun _ => respects_pure true

theorem respects_minifyAt (json : Ptr) : Respects R (minifyAt json) := by
  intro g h u g' hRel hRun
  cases json with
  | none =>
    cases hRun
    exact ⟨h, rfl, hRel⟩
  | some s =>
    simp only [minifyAt] at hRun ⊢
    split at hRun
    · cases hRun
    · rename_i b hb
      obtain ⟨b', hb', hEq⟩ := hR.bytes hRel hb
      rw [hb']
      simp only [hEq]
      split at hRun
      · rename_i bytes hBytes
        cases hRun
        exact ⟨_, rfl, hR.setBytes hRel hb hb' bytes⟩
      · cases hRun
        exact ⟨h, rfl, hRel⟩
      · cases hRun
      · cases hRun

theorem respects_typeTest (t : TypeTest) (item : Ptr) : Respects R (t.run item) := by
  have hTest : ∀ test : CNode → Bool, Respects R (do
      if item.isNone then
        return false
      let n ← load item
      return test n) := fun test =>
    respects_ite (respects_pure false) ((respects_load hR item).bind fun n => respects_pure _)
  cases t with
  | bool => exact hTest fun n => tag n.type_ == cjsonTrue || tag n.type_ == cjsonFalse
  | _ => exact hTest fun n => tag n.type_ == _

theorem respects_cjsonGetArraySize (array : Ptr) : Respects R (cjsonGetArraySize array) := by
  have hLoop : ∀ fuel cur count, Respects R (arraySizeLoop fuel cur count) := by
    intro fuel
    induction fuel with
    | zero =>
      intro cur count
      cases cur with
      | none => exact respects_pure count
      | some a => exact respects_diverge
    | succ fuel ih =>
      intro cur count
      cases cur with
      | none => exact respects_pure count
      | some a => exact (respects_load hR _).bind fun n => ih n.next _
  rw [cjsonGetArraySize]
  refine respects_ite (respects_pure 0) ((respects_load hR _).bind fun a => ?_)
  exact respects_get hR (fun g h hEq => by rw [hEq]) fun h => hLoop h.fuel a.child 0

theorem respects_cjsonGetArrayItem (array : Ptr) (index : Int) :
    Respects R (cjsonGetArrayItem array index) := by
  have hStep : ∀ i, Respects R (increment i) := fun i =>
    respects_ite (respects_pure (i + 1)) (Run.follows_fault _ _)
  have hLoop : ∀ fuel cur i, Respects R (arrayItemLoop index fuel cur i) := by
    intro fuel
    induction fuel with
    | zero =>
      intro cur i
      cases cur with
      | none => exact respects_pure none
      | some a => exact respects_diverge
    | succ fuel ih =>
      intro cur i
      cases cur with
      | none => exact respects_pure none
      | some a =>
        refine respects_ite (respects_pure _) ((respects_load hR _).bind fun n => ?_)
        exact (hStep i).bind fun i => ih n.next i
  rw [cjsonGetArrayItem]
  refine respects_ite (respects_pure none) ((respects_load hR _).bind fun a => ?_)
  exact respects_get hR (fun g h hEq => by rw [hEq]) fun h => hLoop h.fuel a.child 0

theorem respects_cjsonCompare (a b : Ptr) (cs : Int) : Respects R (cjsonCompare a b cs) := by
  rw [cjsonCompare]
  refine respects_ite (respects_pure false) ((respects_cjsonToValue hR a).bind fun va => ?_)
  refine (respects_cjsonToValue hR b).bind fun vb => ?_
  cases va with
  | none => exact respects_pure false
  | some va =>
    cases vb with
    | none => exact respects_pure false
    | some vb => exact respects_pure _

end Nodes

/-- Every function of the interface keeps a relation that the accesses to a heap keep. -/
theorem respects_request (hR : Lockstep Good R) (q : Request) : Respects R (q.run std) := by
  cases q with
  | call c => exact (respects_call hR c).map _
  | print item => exact (respects_printImpl hR item true).map _
  | printUnformatted item => exact (respects_printImpl hR item false).map _
  | printBuffered item prebuffer fmt =>
    refine Run.Follows.map (respects_ite ?_ ?_) _
    · exact respects_printImpl hR item true
    · exact respects_printImpl hR item false
  | printPreallocated item buffer length format =>
    exact (respects_cjsonPrintPreallocated hR item buffer length format).map _
  | minify json => exact (respects_minifyAt hR json).map _
  | test t item => exact (respects_typeTest hR t item).map _
  | getArraySize array => exact (respects_cjsonGetArraySize hR array).map _
  | getArrayItem array index => exact (respects_cjsonGetArrayItem hR array index).map _
  | getObjectItem object string =>
    exact (respects_getObjectItemImpl hR object string false).map _
  | getObjectItemCaseSensitive object string =>
    exact (respects_getObjectItemImpl hR object string true).map _
  | hasObjectItem object string =>
    refine Run.Follows.map ((respects_getObjectItemImpl hR object string false).bind ?_) _
    exact fun item => respects_pure item.isSome
  | getStringValue item =>
    refine Run.Follows.map (respects_ite (respects_pure none) ?_) _
    exact (respects_load hR item).bind fun n => respects_ite (respects_pure none) (respects_pure _)
  | getNumberValue item =>
    refine Run.Follows.map (respects_ite (respects_pure f64Nan) ?_) _
    exact (respects_load hR item).bind fun n => respects_ite (respects_pure _) (respects_pure _)
  | compare a b cs => exact (respects_cjsonCompare hR a b cs).map _
  | setNumberHelper object number => exact (respects_cjsonSetNumberHelper hR object number).map _
  | getErrorPtr =>
    refine Run.Follows.map (fun g h p g' hRel hRun => ?_) _
    cases hRun
    exact ⟨h, by rw [cjsonGetErrorPtr, hR.lastError hRel], hRel⟩
  | malloc bytes => exact (respects_hookMallocBuf hR bytes).map _
  | free object => exact (respects_hookFree hR object).map _

theorem respects_client (hR : Lockstep Good R) (p : Client α) : Respects R (p.run std) := by
  induction p with
  | finish a => exact respects_pure a
  | ask q next ih => exact (respects_request hR q).bind ih

end CjsonRs.Ffi
