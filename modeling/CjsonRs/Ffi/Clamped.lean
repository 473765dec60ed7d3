import CjsonRs.Ffi.Lockstep
import CjsonRs.Ffi.Separate
import Mathlib.Logic.Relation

/-!
# The integer beside a number

A node keeps its number twice, as `valuedouble` and as `valueint`. Whatever is requested, in
whatever order, the second is the first one clamped to a `c_int`.
-/

namespace CjsonRs.Ffi

open CjsonRs.Core Library

variable {g h h' h₀ : Heap} {a : Addr} {n : CNode} {std : StdF64}

/-- The two numbers of every node agree. -/
def Clamped (h : Heap) : Prop := ∀ a n, h.nodes a = some n → n.valueint = clampToInt n.valuedouble

theorem Clamped.of_nodes (hClamped : Clamped g) (hNodes : h.nodes = g.nodes) : Clamped h := by
  intro a n hn
  rw [hNodes] at hn
  exact hClamped a n hn

theorem Clamped.update (hClamped : Clamped g) (hn : n.valueint = clampToInt n.valuedouble)
    (hNodes : h.nodes = Function.update g.nodes a (some n)) : Clamped h := by
  intro x m hm
  rw [hNodes] at hm
  by_cases hx : x = a
  · rw [hx, Function.update_self] at hm
    cases hm
    exact hn
  · rw [Function.update_of_ne hx] at hm
    exact hClamped x m hm

theorem Clamped.free (hClamped : Clamped g) (b : Block) : Clamped (g.free b) := by
  intro x m hm
  rw [Heap.nodes_free] at hm
  split_ifs at hm
  exact hClamped x m hm

/-- The accesses to a heap keep the two numbers together. -/
theorem lockstep_clamped :
    Lockstep (fun n => n.valueint = clampToInt n.valuedouble) (fun g h => h = g ∧ Clamped g) where
  brk hRel := by rw [hRel.1]
  outcomes hRel := by rw [hRel.1]
  lastError hRel := by rw [hRel.1]
  node hRel hn := ⟨by rw [hRel.1]; exact hn, hRel.2 _ _ hn⟩
  bytes hRel hb := ⟨_, by rw [hRel.1]; exact hb, rfl⟩
  tick hRel := ⟨by rw [hRel.1], hRel.2.of_nodes rfl⟩
  pushNode hRel hGood := ⟨by rw [hRel.1], hRel.2.update hGood rfl⟩
  pushBuf hRel bytes := ⟨by rw [hRel.1], hRel.2.of_nodes rfl⟩
  setNode hRel _ hGood := ⟨by rw [hRel.1], hRel.2.update hGood rfl⟩
  setBytes {g h s b b'} hRel hb hb' bytes := by
    rw [hRel.1, hb] at hb'
    cases hb'
    exact ⟨by rw [hRel.1], hRel.2.of_nodes rfl⟩
  setError hRel p := ⟨by rw [hRel.1], hRel.2.of_nodes rfl⟩
  free hRel b := ⟨by rw [hRel.1], hRel.2.free b⟩
  clamped hEq := hEq
  same hEq hSame := by
    simp only [CNode.numbers, Prod.mk.injEq] at hSame
    rw [hSame.1, hSame.2, hEq]

/-- A request that returns, or a change by the caller to memory other than nodes. -/
inductive Requested (std : StdF64) : Heap → Heap → Prop
  | request {q : Request} {h h' : Heap} {r : Answer} (hRun : q.run std h = .ok (r, h')) :
    Requested std h h'
  | caller {h h' : Heap} (hNodes : h'.nodes = h.nodes) : Requested std h h'

theorem Requested.clamped (hStep : Requested std h h') (hClamped : Clamped h) : Clamped h' := by
  cases hStep with
  | request hRun =>
    obtain ⟨h'', -, rfl, hClamped'⟩ :=
      respects_request lockstep_clamped _ h h _ h' ⟨rfl, hClamped⟩ hRun
    exact hClamped'
  | caller hNodes => exact hClamped.of_nodes hNodes

theorem clampToInt_range (x : F64) :
    -2147483648 ≤ clampToInt x ∧ clampToInt x ≤ 2147483647 := by
  unfold clampToInt
  split_ifs <;> omega

/-- In every run, the integer of every node is its number, clamped to a `c_int`. -/
theorem run_clamped (hStart : ∀ a, h₀.nodes a = none)
    (hRuns : Relation.ReflTransGen (Requested std) h₀ h) (hn : h.nodes a = some n) :
    n.valueint = clampToInt n.valuedouble ∧ -2147483648 ≤ n.valueint ∧
      n.valueint ≤ 2147483647 := by
  have hClamped : Clamped h := by
    clear hn
    induction hRuns with
    | refl =>
      intro a n hn
      rw [hStart a] at hn
      cases hn
    | tail _ hStep ih => exact hStep.clamped ih
  rw [hClamped a n hn]
  exact ⟨rfl, clampToInt_range n.valuedouble⟩

/-- The double 2 ^ 1023. -/
def huge : F64 := ⟨0x7FE0000000000000⟩

/-- A node for a number that no `c_int` holds. -/
theorem run_clamped_huge :
    ∃ (h : Heap) (n : CNode), h.nodes 0 = some n ∧ n.valueint = clampToInt n.valuedouble ∧
      -2147483648 ≤ n.valueint ∧ n.valueint ≤ 2147483647 := by
  have std : StdF64 := ⟨fun _ => none, fun _ => []⟩
  obtain ⟨h, hRun⟩ : ∃ h, (Request.call (.create (.number huge))).run std untouched
      = .ok (.item (some 0), h) := ⟨_, rfl⟩
  obtain ⟨n, hn⟩ : ∃ n, h.nodes 0 = some n := by
    cases hRun
    exact ⟨_, rfl⟩
  exact ⟨h, n, hn, run_clamped (fun _ => rfl) (.tail .refl (.request hRun)) hn⟩

end CjsonRs.Ffi
