import CjsonRs.Ffi.Refinement

/-!
# Replacing a member

`cJSON_ReplaceItemInObject` is meant to keep the key of the member it replaces ("Preserve the
original key on the replacement"). It hands the key over when the replacement has none, and
leaves a replacement that has one with its own key.
-/

namespace CjsonRs.Ffi

open CjsonRs.Core Library Library.Link Library.Forest

variable {h h' h₁ : Heap} {kids : Addr → List Addr} {a i p x s : Addr} {n ma mi : CNode} {c : Ptr}
  {xs ys V : List Addr} {w : Nat} {cs : Bool} {k : Str}

/-- No text that a node frees is used by another node, or twice by one. -/
structure SoleTexts (h : Heap) : Prop where
  key : ∀ {x y nx ny s}, h.nodes x = some nx → h.nodes y = some ny → nx.string = some s →
    s ∈ ny.texts → y = x ∧ ny.ownValue ≠ some s
  value : ∀ {x y nx ny s}, h.nodes x = some nx → h.nodes y = some ny → nx.ownValue = some s →
    s ∈ ny.texts → y = x

/-- The node `x` has the value it had: all fields but its links and its key are as before, and
so is the text it owns. -/
def SameValue (h h' : Heap) (x : Addr) : Prop :=
  (h'.body x).map ({ · with string := none }) = (h.body x).map ({ · with string := none }) ∧
    ∀ n s, h.nodes x = some n → n.ownValue = some s → h'.bufs s = h.bufs s

/-- The member of `p` at position `w` was replaced by `i` and the key of the member kept: the
keys are as before, the values too but for the one at `w`, which is that of `i`, and a lookup
of the key `k` that led to `w` finds `i`. -/
structure KeepsKey (h h' : Heap) (kids kids' : Addr → List Addr) (cs : Bool) (k : Str)
    (p i : Addr) (w : Nat) : Prop where
  keys : (kids' p).map h'.key = (kids p).map h.key
  members : kids' p = (kids p).set w i
  value : ∀ x, Below kids i x → SameValue h h' x ∧ kids' x = kids x ∧ (x ≠ i → h'.key x = h.key x)
  others : ∀ c ∈ kids p, (kids p)[w]? ≠ some c → ∀ x, Below kids c x →
    SameValue h h' x ∧ kids' x = kids x ∧ h'.key x = h.key x
  found : ∀ s, h'.Readable s → h'.text (some s) = some k →
    getObjectItemImpl (some p) (some s) cs h' = .ok (some i, h')

/-! ## What is freed with a replaced member -/

/-- The parts of a replacement, right before the member `a` is freed: `a` and `i` are not `p`,
not the same, and no other node but these three has other fields than before. -/
structure Parts (h h₁ : Heap) (kids kids₁ : Addr → List Addr) (p a i : Addr) (ma mi : CNode) :
    Prop where
  live : h.body a = some ma ∧ h.body i = some mi
  member : h₁.body a = some (if Moved ma mi then { ma with string := none } else ma)
  new : h₁.body i = some (if Moved ma mi then { mi with string := ma.string } else mi)
  same : ∀ x, x ≠ a → x ≠ i → x ≠ p → h₁.body x = h.body x
  bufs : h₁.bufs = h.bufs
  lists : ∀ x, x ≠ p → kids₁ x = kids x
  below : ∀ x, Below kids₁ a x ↔ Below kids a x
  apart : ¬ Below kids a i ∧ ¬ Below kids a p

theorem parts_of_replaced (hWf : WellFormed 0 h kids) (hi : Handed 0 h kids p i)
    (hEq : kids p = xs ++ a :: ys) (hReplaced : Replaced 0 h h₁ kids p a i (xs ++ i :: ys)) :
    ∃ ma mi, Parts h h₁ kids (Function.update kids p (xs ++ i :: ys)) p a i ma mi := by
  have haKid : a ∈ kids p := by rw [hEq]; simp
  have hap : a ≠ p := ne_of_child hWf.trees.forest haKid
  have hai : a ≠ i := fun hEq => hi.root p (hEq ▸ haKid)
  have hNotP : ¬ Below kids a p := not_below_child hWf.trees.forest haKid
  obtain ⟨c, ma, mi, hma, hmi, hBody⟩ := hReplaced.body
  have hma' : setChild h.body p c a = some ma := by rw [setChild_of_ne hap, hma]
  have hmi' : setChild h.body p c i = some mi := by rw [setChild_of_ne hi.ne, hmi]
  refine ⟨ma, mi, ⟨hma, hmi⟩, ?_, ?_, fun x hxa hxi hxp => ?_, ?_, fun x hx => ?_, fun x => ?_, ?_,
    hNotP⟩
  · rw [hBody, moveKey_self hma']
  · rw [hBody, moveKey_new hmi' hai]
  · rw [hBody, moveKey_of_ne hxa hxi, setChild_of_ne hxp]
  · rw [hReplaced.rest]
  · exact Function.update_of_ne hx _ _
  · refine below_congr fun q hq => Function.update_of_ne ?_ _ _
    rintro rfl
    exact hNotP hq
  · exact not_below_of_root hi.root hai.symm

theorem texts_body {m : CNode} (hBody : n.body = m) : n.texts = m.texts := by
  rw [← hBody]
  rfl

theorem string_body {m : CNode} (hBody : n.body = m) : n.string = m.string := by
  rw [← hBody]
  rfl

/-- A text that is freed with the member was owned below it, and is not the key that the
replacement was given. -/
theorem freed_text {kids₁ : Addr → List Addr} (hParts : Parts h h₁ kids kids₁ p a i ma mi)
    (hV : Subtree h₁ kids₁ a V) (hFreed : .buf s ∈ h₁.blocksOf V) :
    ∃ y n, Below kids a y ∧ h.nodes y = some n ∧ s ∈ n.texts ∧
      (y = a → Moved ma mi → n.ownValue = some s) := by
  obtain ⟨y, hy, m, hm, hs⟩ := Heap.buf_mem_blocksOf.mp hFreed
  have hBelow : Below kids a y := (hParts.below y).mp ((hV.2.2 y).mp hy)
  by_cases hya : y = a
  · subst hya
    obtain ⟨n, hn, hnBody⟩ := node_of_body hParts.live.1
    have hmBody := hParts.member
    rw [body_eq hm] at hmBody
    have hTexts := texts_body (Option.some.inj hmBody)
    rw [hTexts] at hs
    refine ⟨y, n, hBelow, hn, ?_, fun _ hMoved => ?_⟩
    · rw [texts_body hnBody]
      by_cases hMoved : Moved ma mi
      · rw [if_pos hMoved] at hs
        refine List.mem_append_left _ ?_
        simpa [CNode.texts, CNode.ownKey, CNode.ownValue] using hs
      · rw [if_neg hMoved] at hs
        exact hs
    · rw [if_pos hMoved] at hs
      have hValue : n.ownValue = ma.ownValue := by
        rw [← hnBody]
        rfl
      rw [hValue]
      simpa [CNode.texts, CNode.ownKey, CNode.ownValue] using hs
  · have hyi : y ≠ i := fun hEq => hParts.apart.1 (hEq ▸ hBelow)
    have hyp : y ≠ p := fun hEq => hParts.apart.2 (hEq ▸ hBelow)
    have hBody := hParts.same y hya hyi hyp
    rw [body_eq hm] at hBody
    obtain ⟨n, hn, hnBody⟩ := node_of_body hBody.symm
    refine ⟨y, n, hBelow, hn, ?_, fun hEq => absurd hEq hya⟩
    rw [texts_body hnBody]
    exact hs

/-! ## What the replacement leaves -/

section After

variable {kids₁ : Addr → List Addr}

/-- A key is the text at the `string` pointer. -/
theorem key_eq (hn : h.nodes x = some n) : h.key x = h.text n.string := by
  rw [Heap.key, hn]
  rfl

theorem text_congr {q : Ptr} (hBufs : ∀ s, q = some s → h'.bufs s = h.bufs s) :
    h'.text q = h.text q := by
  cases q with
  | none => rfl
  | some s =>
    simp only [Heap.text, Option.bind_eq_bind, Option.bind_some, hBufs s rfl]

/-- What the nodes are after the member was freed. -/
theorem body_freed (hV : Subtree h₁ kids₁ a V) (hx : ¬ Below kids₁ a x) :
    (h₁.freeAll (h₁.blocksOf V)).body x = h₁.body x := by
  classical
  unfold Heap.body
  rw [nodes_freeSubtree hV, if_neg hx]

/-- A text that is not freed is as before. -/
theorem bufs_freed (hBufs : h₁.bufs = h.bufs) (hs : .buf s ∉ h₁.blocksOf V) :
    (h₁.freeAll (h₁.blocksOf V)).bufs s = h.bufs s := by
  rw [Heap.bufs_freeAll, if_neg fun hAnd => hs hAnd.1, hBufs]

theorem sameValue_freed (hSole : SoleTexts h) (hParts : Parts h h₁ kids kids₁ p a i ma mi)
    (hV : Subtree h₁ kids₁ a V) (hx : ¬ Below kids a x) (hxp : x ≠ p) :
    SameValue h (h₁.freeAll (h₁.blocksOf V)) x := by
  have hxa : x ≠ a := fun hEq => hx (hEq ▸ below_refl x)
  refine ⟨?_, fun n s hn hs => bufs_freed hParts.bufs fun hFreed => ?_⟩
  · rw [body_freed hV ((hParts.below x).not.mpr hx)]
    by_cases hxi : x = i
    · subst hxi
      rw [hParts.new, hParts.live.2]
      by_cases hMoved : Moved ma mi
      · rw [if_pos hMoved]
        rfl
      · rw [if_neg hMoved]
    · rw [hParts.same x hxa hxi hxp]
  · obtain ⟨y, ny, hy, hny, hsy, -⟩ := freed_text hParts hV hFreed
    rw [hSole.value hn hny hs hsy] at hy
    exact hx hy

/-- The node `x` has the key that `y` had. -/
def SameKey (h h' : Heap) (x y : Addr) : Prop :=
  ∃ n n', h.nodes y = some n ∧ h'.nodes x = some n' ∧ n'.string = n.string ∧
    ∀ s, n.string = some s → h'.bufs s = h.bufs s

theorem SameKey.key {y : Addr} (hSame : SameKey h h' x y) : h'.key x = h.key y := by
  obtain ⟨n, n', hn, hn', hString, hBufs⟩ := hSame
  rw [key_eq hn', key_eq hn, hString]
  exact text_congr hBufs

theorem SameKey.readable {y : Addr} (hSame : SameKey h h' x y) {as : List Addr} (hy : y ∈ as)
    (hKeys : KeysReadable h as) (n' : CNode) (s : Addr) (hn' : h'.nodes x = some n')
    (hs : n'.string = some s) : h'.Readable s := by
  obtain ⟨n, m', hn, hm', hString, hBufs⟩ := hSame
  rw [hn'] at hm'
  cases hm'
  rw [hs] at hString
  obtain ⟨b, hb, hNul⟩ := hKeys y hy n s hn hString.symm
  exact ⟨b, (hBufs s hString.symm).trans hb, hNul⟩

/-- A node other than the replacement and the member keeps its key. -/
theorem sameKey_freed (hSole : SoleTexts h) (hParts : Parts h h₁ kids kids₁ p a i ma mi)
    (hV : Subtree h₁ kids₁ a V) (hn : h.nodes x = some n) (hx : ¬ Below kids a x) (hxp : x ≠ p)
    (hxi : x ≠ i) : SameKey h (h₁.freeAll (h₁.blocksOf V)) x x := by
  have hxa : x ≠ a := fun hEq => hx (hEq ▸ below_refl x)
  have hBody := hParts.same x hxa hxi hxp
  rw [← body_freed hV ((hParts.below x).not.mpr hx), body_eq hn] at hBody
  obtain ⟨n', hn', hEq⟩ := node_of_body hBody
  refine ⟨n, n', hn, hn', ?_, fun s hs => bufs_freed hParts.bufs fun hFreed => ?_⟩
  · rw [string_body hEq]
    rfl
  · obtain ⟨y, ny, hy, hny, hsy, -⟩ := freed_text hParts hV hFreed
    rw [(hSole.key hn hny hs hsy).1] at hy
    exact hx hy

/-- The replacement has its own key, or the member's when it had none. -/
theorem sameKey_new (hSole : SoleTexts h) (hParts : Parts h h₁ kids kids₁ p a i ma mi)
    (hV : Subtree h₁ kids₁ a V) :
    SameKey h (h₁.freeAll (h₁.blocksOf V)) i (if Moved ma mi then a else i) := by
  obtain ⟨na, hna, rfl⟩ := node_of_body hParts.live.1
  obtain ⟨ni, hni, rfl⟩ := node_of_body hParts.live.2
  have hBody := hParts.new
  rw [← body_freed hV ((hParts.below i).not.mpr hParts.apart.1)] at hBody
  obtain ⟨n', hn', hEq⟩ := node_of_body hBody
  by_cases hMoved : Moved na.body ni.body
  · rw [if_pos hMoved] at hEq ⊢
    refine ⟨na, n', hna, hn', ?_, fun s hs => bufs_freed hParts.bufs fun hFreed => ?_⟩
    · rw [string_body hEq]
      rfl
    · -- The key that was handed over is not freed with the member any more.
      obtain ⟨y, ny, -, hny, hsy, hOnly⟩ := freed_text hParts hV hFreed
      obtain ⟨hya, hNot⟩ := hSole.key hna hny hs hsy
      exact hNot (hOnly hya hMoved)
  · rw [if_neg hMoved] at hEq ⊢
    refine ⟨ni, n', hni, hn', ?_, fun s hs => bufs_freed hParts.bufs fun hFreed => ?_⟩
    · rw [string_body hEq]
      rfl
    · obtain ⟨y, ny, hy, hny, hsy, -⟩ := freed_text hParts hV hFreed
      rw [(hSole.key hni hny hs hsy).1] at hy
      exact hParts.apart.1 hy

end After

/-! ## The keys of the object -/

/-- The member that a lookup of a key leads to has a matching key. -/
theorem key_member (hKey : keyIn h cs (some s) (kids p) = some w) (ha : (kids p)[w]? = some a) :
    ∃ k k', h.text (some s) = some k ∧ h.key a = some k' ∧ keysMatch cs k' k = true := by
  unfold keyIn at hKey
  obtain ⟨k, hText, hFind⟩ := Option.bind_eq_some_iff.mp hKey
  obtain ⟨hLt, hMatch, -⟩ := List.findIdx?_eq_some_iff_getElem.mp hFind
  rw [List.getElem?_eq_getElem hLt, Option.some.injEq] at ha
  rw [ha] at hMatch
  unfold Heap.matchesKey at hMatch
  cases hk' : h.key a with
  | none =>
    rw [hk'] at hMatch
    cases hMatch
  | some k' =>
    rw [hk'] at hMatch
    exact ⟨k, k', hText, rfl, hMatch⟩

/-- A lookup only depends on the texts of the keys. -/
theorem keyIn_congr {as as' : List Addr} {s' : Addr} (hKeys : as'.map h'.key = as.map h.key)
    (hText : h'.text (some s') = h.text (some s)) :
    keyIn h' cs (some s') as' = keyIn h cs (some s) as := by
  have hMap : ∀ (g : Heap) (bs : List Addr) (k : Str),
      bs.findIdx? (g.matchesKey cs k) = (bs.map g.key).findIdx? (·.any (keysMatch cs · k)) := by
    intro g bs k
    rw [List.findIdx?_map]
    rfl
  simp only [keyIn, hText, hMap, hKeys]

/-- The keys of the object are kept exactly when the replacement had none or the same key. -/
theorem keys_eq_iff (hKeys : ∀ x ∈ xs ++ ys, h'.key x = h.key x)
    (hNew : h'.key i = if Moved ma mi then h.key a else h.key i) (hString : ma.string.isSome) :
    (xs ++ i :: ys).map h'.key = (xs ++ a :: ys).map h.key ↔
      mi.string = none ∨ h.key i = h.key a := by
  have hXs : xs.map h'.key = xs.map h.key :=
    List.map_congr_left fun x hx => hKeys x (List.mem_append_left _ hx)
  have hYs : ys.map h'.key = ys.map h.key :=
    List.map_congr_left fun x hx => hKeys x (List.mem_append_right _ hx)
  simp only [List.map_append, List.map_cons, hXs, hYs, List.append_cancel_left_eq,
    List.cons.injEq, and_true, hNew]
  by_cases hNone : mi.string = none
  · have hMoved : Moved ma mi := ⟨hString, by rw [hNone]; rfl⟩
    simp [hMoved, hNone]
  · have hNot : ¬ Moved ma mi := fun hMoved => hNone (Option.isNone_iff_eq_none.mp hMoved.2)
    simp [hNot, hNone]

/-! ## The call -/

open Edit

/-- The other members are apart from the one that is freed and from the replacement. -/
theorem others_apart (hWf : WellFormed 0 h kids) (hi : Handed 0 h kids p i) (ha : a ∈ kids p)
    (hc : x ∈ kids p) (hne : x ≠ a) {y : Addr} (hy : Below kids x y) :
    ¬ Below kids a y ∧ y ≠ p ∧ y ≠ i := by
  refine ⟨siblings_apart hWf.trees.forest hc ha hne hy, ?_, ?_⟩
  · rintro rfl
    exact not_below_child hWf.trees.forest hc hy
  · rintro rfl
    exact not_below_of_root hi.root (fun hEq => hi.root p (hEq ▸ hc)) hy

/-- What is below the replacement is apart from the member that is freed. -/
theorem new_apart (hWf : WellFormed 0 h kids) (hi : Handed 0 h kids p i) (ha : a ∈ kids p)
    (hx : Below kids i x) : ¬ Below kids a x ∧ x ≠ p := by
  refine ⟨fun hax => ?_, fun hEq => hi.apart (hEq ▸ hx)⟩
  rcases below_comparable hWf.trees.forest hx hax with hBelow | hBelow
  · rcases below_tail hBelow with hai | ⟨q, hq, haq⟩
    · exact hi.root p (hai ▸ ha)
    · rw [hWf.trees.forest.parent haq ha] at hq
      exact hi.apart hq
  · exact not_below_of_root hi.root (fun hia => hi.root p (hia ▸ ha)) hBelow

/-- A call that returns `true` has replaced the first matching member. -/
theorem replaceItemInObject_true (hWf : WellFormed 0 h kids) (hp : Mutable 0 h p)
    (hKeys : KeysReadable h (kids p)) (hs : h.Readable s)
    (hRun : (replaceItemInObject cs (some p) (some s) (some i)).run h = .ok (.flag true, h')) :
    ∃ w a, keyIn h cs (some s) (kids p) = some w ∧ (kids p)[w]? = some a ∧
      replaceViaPointer (some p) (some a) (some i) h = .ok (true, h') := by
  have hFind := getObjectItemImpl_kids hWf hp hKeys (some s)
    (fun t ht => by cases ht; exact hs) cs
  have hObject : replaceObjectItem (some p) (some s) (some i) cs h = .ok (true, h') := by
    have hMap : (Reply.flag <$> replaceObjectItem (some p) (some s) (some i) cs) h
        = .ok (.flag true, h') := by
      cases cs <;> exact hRun
    rw [map_eq_pure_bind, Run.bind_run_eq_ok] at hMap
    obtain ⟨b, h'', hRun, hPure⟩ := hMap
    cases hPure
    exact hRun
  rw [replaceObjectItem, Run.bind_run_ok hFind] at hObject
  cases hw : keyIn h cs (some s) (kids p) with
  | none =>
    rw [hw] at hObject
    cases hObject
  | some w =>
    obtain ⟨a, ha⟩ := keyIn_getElem hw
    rw [hw, show (some w).bind ((kids p)[·]?) = some a from ha] at hObject
    exact ⟨w, a, rfl, ha, hObject⟩

/-- The child `a` of `p` between `xs` and `ys` is replaced by `i`: `h₁` is the heap right before
the nodes `V` below `a` are freed. -/
structure Swap (h h₁ : Heap) (kids : Addr → List Addr) (p a i : Addr) (xs ys V : List Addr)
    (ma mi : CNode) : Prop where
  wf : WellFormed 0 h kids
  sole : SoleTexts h
  handed : Handed 0 h kids p i
  list : kids p = xs ++ a :: ys
  replaced : Replaced 0 h h₁ kids p a i (xs ++ i :: ys)
  parts : Parts h h₁ kids (Function.update kids p (xs ++ i :: ys)) p a i ma mi
  freed : Subtree h₁ (Function.update kids p (xs ++ i :: ys)) a V

namespace Swap

/-- The lists of children in the end. -/
noncomputable def kidsAfter (kids : Addr → List Addr) (p a i : Addr) (xs ys : List Addr) :
    Addr → List Addr := prune (Function.update kids p (xs ++ i :: ys)) a

theorem child (hSwap : Swap h h₁ kids p a i xs ys V ma mi) : a ∈ kids p := by
  rw [hSwap.list]
  simp

theorem after_parent (hSwap : Swap h h₁ kids p a i xs ys V ma mi) :
    kidsAfter kids p a i xs ys p = xs ++ i :: ys := by
  rw [kidsAfter, prune_of_not_below ((hSwap.parts.below p).not.mpr hSwap.parts.apart.2),
    Function.update_self]

theorem after_of_ne (hSwap : Swap h h₁ kids p a i xs ys V ma mi) (hxp : x ≠ p)
    (hx : ¬ Below kids a x) : kidsAfter kids p a i xs ys x = kids x := by
  rw [kidsAfter, prune_of_not_below ((hSwap.parts.below x).not.mpr hx), hSwap.parts.lists x hxp]

/-- The other members of the object. -/
theorem other (hSwap : Swap h h₁ kids p a i xs ys V ma mi) (hx : x ∈ xs ++ ys) :
    x ∈ kids p ∧ x ≠ a := by
  have hNodup := hSwap.wf.trees.forest.nodup p
  rw [hSwap.list] at hNodup ⊢
  obtain ⟨-, -, haXs, haYs, -⟩ := nodup_around hNodup
  refine ⟨by simpa using (List.mem_append.mp hx).imp id Or.inr, ?_⟩
  rintro rfl
  exact (List.mem_append.mp hx).elim haXs haYs

theorem sameKey_other (hSwap : Swap h h₁ kids p a i xs ys V ma mi) (hx : x ∈ xs ++ ys) :
    SameKey h (h₁.freeAll (h₁.blocksOf V)) x x := by
  obtain ⟨hMem, hxa⟩ := hSwap.other hx
  obtain ⟨m, hm⟩ := hSwap.wf.trees.child_live hMem
  obtain ⟨hNot, hxp, hxi⟩ :=
    others_apart hSwap.wf hSwap.handed hSwap.child hMem hxa (below_refl x)
  exact sameKey_freed hSwap.sole hSwap.parts hSwap.freed hm hNot hxp hxi

/-- The keys that are left can be read. -/
theorem keysReadable (hSwap : Swap h h₁ kids p a i xs ys V ma mi)
    (hKeys : KeysReadable h (i :: kids p)) :
    KeysReadable (h₁.freeAll (h₁.blocksOf V)) (xs ++ i :: ys) := by
  intro x hx m t hm ht
  rw [List.mem_append, List.mem_cons, or_left_comm] at hx
  rcases hx with rfl | hx
  · refine (sameKey_new hSwap.sole hSwap.parts hSwap.freed).readable ?_ hKeys m t hm ht
    split
    · exact List.mem_cons_of_mem _ hSwap.child
    · exact List.mem_cons_self
  · have hx' := List.mem_append.mpr hx
    have hMem := List.mem_cons_of_mem i (hSwap.other hx').1
    exact (hSwap.sameKey_other hx').readable hMem hKeys m t hm ht

/-- The object has the same keys exactly when the replacement had none, or the member's. -/
theorem keys_iff (hSwap : Swap h h₁ kids p a i xs ys V ma mi) (hString : ma.string.isSome) :
    (xs ++ i :: ys).map (h₁.freeAll (h₁.blocksOf V)).key = (kids p).map h.key ↔
      mi.string = none ∨ h.key i = h.key a := by
  have hNew : (h₁.freeAll (h₁.blocksOf V)).key i = if Moved ma mi then h.key a else h.key i := by
    rw [(sameKey_new hSwap.sole hSwap.parts hSwap.freed).key]
    split <;> rfl
  rw [hSwap.list]
  exact keys_eq_iff (fun x hx => (hSwap.sameKey_other hx).key) hNew hString

/-- With the keys everything else is kept. -/
theorem keepsKey (hSwap : Swap h h₁ kids p a i xs ys V ma mi)
    (hKeys : KeysReadable h (i :: kids p)) (hText : h.text (some s) = some k)
    (hw : keyIn h cs (some s) (kids p) = some w) (ha : (kids p)[w]? = some a)
    (hSet : (kids p).set w i = xs ++ i :: ys)
    (hList : (xs ++ i :: ys).map (h₁.freeAll (h₁.blocksOf V)).key = (kids p).map h.key) :
    KeepsKey h (h₁.freeAll (h₁.blocksOf V)) kids (kidsAfter kids p a i xs ys) cs k p i w where
  keys := by
    rw [hSwap.after_parent]
    exact hList
  members := hSwap.after_parent.trans hSet.symm
  value := by
    intro x hx
    obtain ⟨hNot, hxp⟩ := new_apart hSwap.wf hSwap.handed hSwap.child hx
    refine ⟨sameValue_freed hSwap.sole hSwap.parts hSwap.freed hNot hxp,
      hSwap.after_of_ne hxp hNot, fun hxi => ?_⟩
    obtain ⟨n, hn⟩ := Option.isSome_iff_exists.mp hSwap.handed.live
    obtain ⟨m, hm⟩ := hSwap.wf.trees.below_live hn hx
    exact (sameKey_freed hSwap.sole hSwap.parts hSwap.freed hm hNot hxp hxi).key
  others := by
    intro c hc hNe x hx
    have hca : c ≠ a := by
      rintro rfl
      exact hNe ha
    obtain ⟨hNot, hxp, hxi⟩ := others_apart hSwap.wf hSwap.handed hSwap.child hc hca hx
    obtain ⟨m, hm⟩ := hSwap.wf.trees.child_live hc
    obtain ⟨m, hm⟩ := hSwap.wf.trees.below_live hm hx
    exact ⟨sameValue_freed hSwap.sole hSwap.parts hSwap.freed hNot hxp,
      hSwap.after_of_ne hxp hNot,
      (sameKey_freed hSwap.sole hSwap.parts hSwap.freed hm hNot hxp hxi).key⟩
  found := by
    intro t ht hk
    have hWf : WellFormed 0 (h₁.freeAll (h₁.blocksOf V)) (kidsAfter kids p a i xs ys) :=
      hSwap.replaced.wf.free hSwap.replaced.root hSwap.freed
    have hMem : i ∈ kidsAfter kids p a i xs ys p := by
      rw [hSwap.after_parent]
      simp
    obtain ⟨-, hN, m, hm, hRef⟩ := hWf.trees.parent hMem
    have hKeys' := hSwap.keysReadable hKeys
    rw [← hSwap.after_parent] at hKeys' hList
    have hFound := getObjectItemImpl_kids hWf ⟨hN, m, hm, hRef⟩ hKeys' (some t)
      (fun u hu => by cases hu; exact ht) cs
    have hLt : w < (kids p).length := (List.getElem?_eq_some_iff.mp ha).1
    rw [hFound, keyIn_congr hList (hk.trans hText.symm), hw, hSwap.after_parent, ← hSet]
    show Except.ok (((kids p).set w i)[w]?, _) = _
    rw [List.getElem?_set_self hLt]

end Swap

/-- A successful replacement keeps the key of the member exactly when the replacement had no
key of its own, or one with the same text. -/
theorem replaceItemInObject_keepsKey_iff (hWf : WellFormed 0 h kids) (hSole : SoleTexts h)
    (hp : Mutable 0 h p) (hi : Handed 0 h kids p i) (hKeys : KeysReadable h (i :: kids p))
    (hs : h.Readable s) (hText : h.text (some s) = some k) (hn : h.nodes i = some n)
    (hRun : (replaceItemInObject cs (some p) (some s) (some i)).run h = .ok (.flag true, h')) :
    ∃ w a, keyIn h cs (some s) (kids p) = some w ∧ (kids p)[w]? = some a ∧
      (KeepsKey h h' kids ((replaceItemInObject cs (some p) (some s) (some i)).after h kids)
          cs k p i w ↔
        n.string = none ∨ h.key i = h.key a) := by
  have hKeysP : KeysReadable h (kids p) := fun x hx => hKeys x (List.mem_cons_of_mem i hx)
  obtain ⟨w, a, hw, ha, hReplace⟩ := replaceItemInObject_true hWf hp hKeysP hs hRun
  refine ⟨w, a, hw, ha, ?_⟩
  obtain ⟨xs, ys, hEq, -, hSet, -⟩ := split_at ha
  obtain ⟨h₁, V, hReplaced, hV, hRun'⟩ := replaceChild_run hWf hp hi hEq
  obtain ⟨ma, mi, hParts⟩ := parts_of_replaced hWf hi hEq hReplaced
  rw [hReplace] at hRun'
  cases hRun'
  have hSwap : Swap h h₁ kids p a i xs ys V ma mi :=
    ⟨hWf, hSole, hi, hEq, hReplaced, hParts, hV⟩
  have hAfter : (replaceItemInObject cs (some p) (some s) (some i)).after h kids
      = Swap.kidsAfter kids p a i xs ys := by
    simp only [after, listOp, hw, Option.map_some, Option.elim, overwriteAt, ListOp.apply, ha, hSet,
      Swap.kidsAfter]
  have hKeyA : ma.string.isSome := by
    obtain ⟨na, hna, hBody⟩ := node_of_body hParts.live.1
    obtain ⟨k₁, k', -, hk', -⟩ := key_member hw ha
    rw [key_eq hna] at hk'
    rw [← string_body hBody]
    cases hString : na.string with
    | none =>
      rw [hString] at hk'
      cases hk'
    | some _ => rfl
  have hKeyI : mi.string = n.string := by
    obtain ⟨ni, hni, hBody⟩ := node_of_body hParts.live.2
    rw [hn] at hni
    cases hni
    exact (string_body hBody).symm
  have hIff := hSwap.keys_iff hKeyA
  rw [hKeyI] at hIff
  rw [hAfter]
  constructor
  · intro hKeeps
    have hList := hKeeps.keys
    rw [hSwap.after_parent] at hList
    exact hIff.mp hList
  · exact fun hCond => hSwap.keepsKey hKeys hText hw ha (hSet i) (hIff.mpr hCond)

/-! ## A replacement with a key of its own -/

/-- An object with the member `"a": null`, and a root that was the member `"b": true`. -/
def otherKey : Heap where
  nodes
    | 0 => some { CNode.zeroed with type_ := cjsonObject, child := some 1 }
    | 1 => some { CNode.zeroed with type_ := cjsonNull, string := some 3 }
    | 2 => some { CNode.zeroed with type_ := cjsonTrue, string := some 4 }
    | _ => none
  bufs
    | 3 => some ⟨[0x61, 0], true⟩
    | 4 => some ⟨[0x62, 0], true⟩
    | 5 => some ⟨[0x61, 0], false⟩
    | _ => none
  brk := 6
  outcomes _ := true
  misuses := []
  lastError := none

/-- The children in `otherKey`. -/
def otherKids : Addr → List Addr
  | 0 => [1]
  | _ => []

theorem otherKey_nodes (hn : otherKey.nodes x = some n) :
    (x = 0 ∧ n.texts = [] ∧ n.string = none) ∨ (x = 1 ∧ n.texts = [3] ∧ n.string = some 3) ∨
      (x = 2 ∧ n.texts = [4] ∧ n.string = some 4) := by
  unfold otherKey at hn
  simp only at hn
  split at hn <;> cases hn
  · exact Or.inl ⟨rfl, rfl, rfl⟩
  · exact Or.inr (Or.inl ⟨rfl, rfl, rfl⟩)
  · exact Or.inr (Or.inr ⟨rfl, rfl, rfl⟩)

theorem wellFormed_otherKey : WellFormed 0 otherKey otherKids where
  bounded := by
    refine ⟨fun {a} ha => ?_, fun {t} ht => ?_⟩
    · by_contra hNot
      obtain ⟨n, hn⟩ := Option.ne_none_iff_exists'.mp hNot
      rcases otherKey_nodes hn with ⟨rfl, -⟩ | ⟨rfl, -⟩ | ⟨rfl, -⟩ <;> exact absurd ha (by decide)
    · have hLe : 6 ≤ t := ht
      unfold otherKey
      simp only
      split
      · exact absurd hLe (by decide)
      · exact absurd hLe (by decide)
      · exact absurd hLe (by decide)
      · rfl
  trees := by
    refine ⟨fun {a n} _ ha _ => ?_, fun {a c} hc => ?_, ⟨fun a => ?_, ?_, ⟨fun a => ?_⟩⟩⟩
    · unfold otherKey at ha
      simp only at ha
      split at ha <;> cases ha
      · exact ⟨some 1, rfl, none, rfl, rfl, rfl⟩
      · exact isList_nil
      · exact isList_nil
    · unfold otherKids at hc
      split at hc
      · exact ⟨Nat.zero_le c, Nat.zero_le 0, _, rfl, rfl⟩
      · cases hc
    · unfold otherKids
      split
      · exact List.nodup_singleton 1
      · exact List.nodup_nil
    · intro a b c hc hc'
      unfold otherKids at hc hc'
      split at hc <;> split at hc'
      · rfl
      · cases hc'
      · cases hc
      · cases hc
    · -- Only `1` is a child, and it has none.
      have hLeaf : ∀ a ≠ 0, Acc (fun c a => c ∈ otherKids a) a := by
        intro a ha
        refine ⟨a, fun c hc => ?_⟩
        unfold otherKids at hc
        split at hc
        · exact absurd rfl ha
        · cases hc
      by_cases ha : a = 0
      · subst ha
        refine ⟨0, fun c hc => hLeaf c ?_⟩
        rw [List.mem_singleton.mp hc]
        decide
      · exact hLeaf a ha

theorem soleTexts_otherKey : SoleTexts otherKey where
  key := by
    intro x y nx ny t hx hy ht hMem
    have hValue : ny.ownValue = none := by
      unfold otherKey at hy
      simp only at hy
      split at hy <;> cases hy <;> rfl
    refine ⟨?_, by rw [hValue]; exact fun hEq => by cases hEq⟩
    rcases otherKey_nodes hx with ⟨rfl, -, hsx⟩ | ⟨rfl, -, hsx⟩ | ⟨rfl, -, hsx⟩ <;>
      rcases otherKey_nodes hy with ⟨rfl, hty, -⟩ | ⟨rfl, hty, -⟩ | ⟨rfl, hty, -⟩ <;>
      rw [hsx] at ht <;> cases ht <;> rw [hty] at hMem <;> simp at hMem ⊢
  value := by
    intro x y nx ny t hx _ ht _
    unfold otherKey at hx
    simp only at hx
    split at hx <;> cases hx <;> cases ht

theorem handed_otherKey : Handed 0 otherKey otherKids 0 2 := by
  refine ⟨Nat.zero_le 2, rfl, fun q hq => ?_, fun hBelow => ?_⟩
  · unfold otherKids at hq
    split at hq
    · exact absurd (List.mem_singleton.mp hq) (by decide)
    · cases hq
  · rw [below_leaf rfl] at hBelow
    cases hBelow

theorem keysReadable_otherKey : KeysReadable otherKey (2 :: otherKids 0) := by
  intro x hx n t hn ht
  rcases otherKey_nodes hn with ⟨-, -, hs⟩ | ⟨-, -, hs⟩ | ⟨-, -, hs⟩ <;> rw [hs] at ht <;> cases ht
  · exact ⟨_, rfl, by decide⟩
  · exact ⟨_, rfl, by decide⟩

/-- The replacement keeps its own key. -/
theorem otherKey_run : ∃ h', (replaceItemInObject false (some 0) (some 5) (some 2)).run otherKey
    = .ok (.flag true, h') ∧ h'.key 2 = some ['b'] := by
  have hCheck : (match (replaceItemInObject false (some 0) (some 5) (some 2)).run otherKey with
      | .ok (.flag true, h') => decide (h'.key 2 = some ['b'])
      | _ => false) = true := by decide +kernel
  split at hCheck
  · rename_i h' hRun
    exact ⟨h', hRun, of_decide_eq_true hCheck⟩
  · cases hCheck

/-- A replacement can change a key. -/
theorem replaceItemInObject_changes_key :
    ¬ ∀ (h h' : Heap) (kids : Addr → List Addr) (cs : Bool) (p i s : Addr) (k : Str),
      WellFormed 0 h kids → SoleTexts h → Mutable 0 h p → Handed 0 h kids p i →
      KeysReadable h (i :: kids p) → h.Readable s → h.text (some s) = some k →
      (replaceItemInObject cs (some p) (some s) (some i)).run h = .ok (.flag true, h') →
      ∃ w, keyIn h cs (some s) (kids p) = some w ∧
        KeepsKey h h' kids ((replaceItemInObject cs (some p) (some s) (some i)).after h kids)
          cs k p i w := by
  intro hAll
  obtain ⟨h', hRun, hKey⟩ := otherKey_run
  obtain ⟨w, hw, hKeeps⟩ := hAll otherKey h' otherKids false 0 2 5 ['a'] wellFormed_otherKey
    soleTexts_otherKey ⟨Nat.zero_le 0, _, rfl, rfl⟩ handed_otherKey keysReadable_otherKey
    ⟨_, rfl, by decide⟩ (by decide +kernel) hRun
  have hZero : w = 0 := by
    obtain ⟨a, ha⟩ := keyIn_getElem hw
    have hLt : w < 1 := (List.getElem?_eq_some_iff.mp ha).1
    omega
  have hKeys := hKeeps.keys
  rw [hKeeps.members, hZero] at hKeys
  have hHead : h'.key 2 = otherKey.key 1 := (List.cons.inj hKeys).1
  have hOld : otherKey.key 1 = some ['a'] := by decide +kernel
  rw [hKey, hOld] at hHead
  cases hHead

/-- The replaced member of `otherKey` loses its key. -/
theorem replaceItemInObject_keepsKey_iff_otherKey : ∃ h' w a,
    keyIn otherKey false (some 5) (otherKids 0) = some w ∧ (otherKids 0)[w]? = some a ∧
      (KeepsKey otherKey h' otherKids
          ((replaceItemInObject false (some 0) (some 5) (some 2)).after otherKey otherKids)
          false ['a'] 0 2 w ↔
        (some 4 : Ptr) = none ∨ otherKey.key 2 = otherKey.key a) := by
  obtain ⟨h', hRun, -⟩ := otherKey_run
  obtain ⟨w, a, hw, ha, hIff⟩ := replaceItemInObject_keepsKey_iff wellFormed_otherKey
    soleTexts_otherKey ⟨Nat.zero_le 0, _, rfl, rfl⟩ handed_otherKey keysReadable_otherKey
    ⟨_, rfl, by decide⟩ (k := ['a']) (by decide +kernel) rfl hRun
  exact ⟨h', w, a, hw, ha, hIff⟩

end CjsonRs.Ffi
