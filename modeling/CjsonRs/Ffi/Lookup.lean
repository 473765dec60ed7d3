import CjsonRs.Ffi.Shape

/-!
# Finding a child

What `child_at_index` and `get_object_item_impl` return on a list of children: the child at
an index, the first child whose key matches.
-/

namespace CjsonRs.Ffi

open CjsonRs.Core Library Library.Link

namespace Heap

/-- A NUL-terminated buffer that can be read. -/
def Readable (h : Heap) (s : Addr) : Prop := ∃ b, h.bufs s = some b ∧ 0 ∈ b.bytes

/-- The text at a pointer, if it is one: the bytes in front of the first NUL, as UTF-8. -/
def text (h : Heap) (q : Ptr) : Option Str := do
  let s ← q
  let b ← h.bufs s
  fromUtf8 (cstr b.bytes)

/-- The key of a node. -/
def key (h : Heap) (a : Addr) : Option Str := do
  let n ← h.nodes a
  h.text n.string

/-- Whether the key of a node matches `key`. -/
def matchesKey (h : Heap) (caseSensitive : Bool) (key : Str) (a : Addr) : Bool :=
  (h.key a).any (keysMatch caseSensitive · key)

end Heap

variable {h : Heap} {a p s : Addr} {n : CNode} {c q q' : Ptr} {cs : Bool} {k : Str}
  {as : List Addr}

theorem loadStr_text (hs : h.Readable s) : loadStr (some s) h = .ok (h.text (some s), h) := by
  obtain ⟨b, hb, hNul⟩ := hs
  rw [loadStr_run hb hNul, Heap.text]
  simp [hb]

/-! ## By index -/

theorem childAtIndexLoop_succ (which i : Int) (fuel : Nat) (a : Addr) :
    childAtIndexLoop which (fuel + 1) (some a) i = (if i = which then pure (some a) else do
      let n ← load (some a)
      childAtIndexLoop which fuel n.next (i + 1)) := rfl

theorem childAtIndexLoop_run {which i : Int} {j fuel : Nat} (hSeg : Seg h.link q c as q' none)
    (hFuel : as.length ≤ fuel) (hWhich : which = i + j) :
    childAtIndexLoop which fuel c i h = .ok (as[j]?, h) := by
  induction as generalizing q c fuel i j with
  | nil =>
    obtain ⟨-, rfl⟩ := hSeg
    cases fuel <;> rfl
  | cons a as ih =>
    obtain ⟨rfl, next, hLink, hSeg⟩ := hSeg
    obtain ⟨n, hn, -, rfl⟩ := node_of_link hLink
    rw [List.length_cons] at hFuel
    obtain ⟨fuel, rfl⟩ := Nat.exists_eq_add_of_le' (show 1 ≤ fuel by omega)
    rw [childAtIndexLoop_succ]
    cases j with
    | zero =>
      rw [if_pos (by omega)]
      rfl
    | succ j =>
      rw [if_neg (by omega), Run.bind_run_ok (load_run hn), List.getElem?_cons_succ]
      exact ih hSeg (by omega) (by omega)

/-- The index of a child, if there is one. -/
def indexIn (which : Int) (as : List Addr) : Option Nat :=
  if 0 ≤ which ∧ which < as.length then some which.toNat else none

theorem childAtIndex_run {which : Int} (hBounded : h.Bounded) (hp : h.nodes p = some n)
    (hList : IsList h.link n.child as) (hNodup : as.Nodup) :
    childAtIndex (some p) which h = .ok ((indexIn which as).bind (as[·]?), h) := by
  have hLength := length_le_brk hBounded hList hNodup
  rw [childAtIndex, indexIn]
  by_cases hNeg : which < 0
  · rw [if_pos (Or.inr hNeg), if_neg (by omega)]
    rfl
  · have hNot : ¬ ((some p : Ptr).isNone ∨ which < 0) := by simpa using hNeg
    have hResult : (if 0 ≤ which ∧ which < as.length then some which.toNat else none).bind (as[·]?)
        = as[which.toNat]? := by
      by_cases hIn : which < as.length
      · rw [if_pos ⟨Int.not_lt.mp hNeg, hIn⟩]
        rfl
      · rw [if_neg fun hAnd => hIn hAnd.2, List.getElem?_eq_none (by omega)]
        rfl
    obtain ⟨q, hSeg⟩ := hList
    rw [if_neg hNot, hResult]
    show (load (some p) >>= fun n => get >>= fun h => _) h = _
    rw [Run.bind_run_ok (load_run hp), Run.bind_run_ok (Run.get_run h)]
    refine childAtIndexLoop_run hSeg ?_ (by omega)
    unfold Heap.fuel
    omega

/-! ## By key -/

/-- The keys of these nodes can be read. -/
def KeysReadable (h : Heap) (as : List Addr) : Prop :=
  ∀ a ∈ as, ∀ n s, h.nodes a = some n → n.string = some s → h.Readable s

theorem memberMatches_run (ha : h.nodes a = some n)
    (hKey : ∀ s, n.string = some s → h.Readable s) :
    memberMatches cs k (some a) h = .ok (h.matchesKey cs k a, h) := by
  rw [memberMatches, Run.bind_run_ok (load_run ha), Heap.matchesKey, Heap.key, ha]
  show _ = Except.ok (Option.any (keysMatch cs · k) (h.text n.string), h)
  cases hString : n.string with
  | none => rfl
  | some s =>
    simp only [Option.isNone_some, Bool.false_eq_true, if_false]
    rw [Run.bind_run_ok (loadStr_text (hKey s hString))]
    cases h.text (some s) <;> rfl

theorem findMember_succ (fuel : Nat) (a : Addr) :
    findMember cs k (fuel + 1) (some a) = (do
      let matched ← memberMatches cs k (some a)
      if matched then
        return some a
      let n ← load (some a)
      findMember cs k fuel n.next) := rfl

theorem findMember_run {fuel : Nat} (hSeg : Seg h.link q c as q' none) (hKeys : KeysReadable h as)
    (hFuel : as.length ≤ fuel) :
    findMember cs k fuel c h = .ok (as.find? (h.matchesKey cs k), h) := by
  induction as generalizing q c fuel with
  | nil =>
    obtain ⟨-, rfl⟩ := hSeg
    cases fuel <;> rfl
  | cons a as ih =>
    obtain ⟨rfl, next, hLink, hSeg⟩ := hSeg
    obtain ⟨n, hn, -, rfl⟩ := node_of_link hLink
    rw [List.length_cons] at hFuel
    obtain ⟨fuel, rfl⟩ := Nat.exists_eq_add_of_le' (show 1 ≤ fuel by omega)
    have hKey := hKeys a List.mem_cons_self n
    rw [findMember_succ, Run.bind_run_ok (memberMatches_run hn fun s hs => hKey s hn hs)]
    by_cases hMatch : h.matchesKey cs k a
    · rw [if_pos hMatch, List.find?_cons_of_pos hMatch]
      rfl
    · rw [if_neg hMatch, List.find?_cons_of_neg hMatch, Run.bind_run_ok (load_run hn)]
      exact ih hSeg (fun b hb => hKeys b (List.mem_cons_of_mem a hb)) (by omega)

/-- The index of the first child whose key matches the text at `string`. -/
def keyIn (h : Heap) (caseSensitive : Bool) (string : Ptr) (as : List Addr) : Option Nat := do
  let k ← h.text string
  as.findIdx? (h.matchesKey caseSensitive k)

theorem getObjectItemImpl_run {string : Ptr} (hBounded : h.Bounded) (hp : h.nodes p = some n)
    (hList : IsList h.link n.child as) (hNodup : as.Nodup) (hKeys : KeysReadable h as)
    (hString : ∀ s, string = some s → h.Readable s) :
    getObjectItemImpl (some p) string cs h = .ok ((keyIn h cs string as).bind (as[·]?), h) := by
  have hLength := length_le_brk hBounded hList hNodup
  rw [getObjectItemImpl, keyIn]
  cases string with
  | none => rfl
  | some s =>
    simp only [Option.isNone_some, Bool.false_eq_true, or_self, if_false]
    rw [Run.bind_run_ok (loadStr_text (hString s rfl))]
    cases h.text (some s) with
    | none => rfl
    | some k =>
      obtain ⟨q, hSeg⟩ := hList
      show (load (some p) >>= fun n => get >>= fun h => _) h = _
      rw [Run.bind_run_ok (load_run hp), Run.bind_run_ok (Run.get_run h)]
      refine (findMember_run hSeg hKeys ?_).trans ?_
      · unfold Heap.fuel
        omega
      · rw [List.find?_eq_bind_findIdx?_getElem?]
        rfl

end CjsonRs.Ffi
