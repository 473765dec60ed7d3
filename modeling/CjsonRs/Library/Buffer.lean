import CjsonRs.Library.Run

/-!
# Rewriting a buffer in place

A buffer is read from the front and overwritten from the front at the same time. `Window` cuts
it at the two positions: what has been written, a gap of cells that are read and may be
overwritten, and what is ahead. As long as the position of writing is not ahead, a store never
hits a cell that has not been read, and the rules below move the cuts.
-/

namespace CjsonRs.Library

/-- A row of cells, with how far into it loads have reached. -/
structure Buffer (α : Type) where
  cells : List α
  /-- One past the last cell that was loaded. -/
  seen : Nat

namespace Buffer

variable {α : Type}

/-- An access outside the buffer, or a loop without end. -/
inductive Fault where
  | outside
  | diverges
  deriving DecidableEq, Repr

/-- The cell `i`. -/
def load (i : Nat) : Run (Buffer α) Fault α := fun b =>
  match b.cells[i]? with
  | none => .error .outside
  | some x => .ok (x, { b with seen := max b.seen (i + 1) })

/-- Assign `x` to the cell `i`. -/
def store (i : Nat) (x : α) : Run (Buffer α) Fault Unit := fun b =>
  if i < b.cells.length then .ok ((), { b with cells := b.cells.set i x }) else .error .outside

/-- The buffer is cut at the two positions, and no cell from `limit` on was loaded. -/
structure Window (limit : Nat) (b : Buffer α) (read write : Nat) (out gap ahead : List α) :
    Prop where
  cells : b.cells = out ++ (gap ++ ahead)
  write : write = out.length
  read : read = out.length + gap.length
  seen : b.seen ≤ limit

namespace Window

variable {limit r w : Nat} {b : Buffer α} {x y : α} {out gap ahead : List α}

theorem start (cells : List α) (limit : Nat) : Window limit ⟨cells, 0⟩ 0 0 [] [] cells :=
  ⟨rfl, rfl, rfl, Nat.zero_le limit⟩

theorem write_le_read (hw : Window limit b r w out gap ahead) : w ≤ r := by
  rw [hw.write, hw.read]
  exact Nat.le_add_right _ _

/-- The cells from the position of reading on. -/
theorem drop_read (hw : Window limit b r w out gap ahead) : b.cells.drop r = ahead := by
  rw [hw.cells, ← List.append_assoc, hw.read, ← List.length_append, List.drop_left]

theorem load (hw : Window limit b r w out gap (x :: ahead)) (hLimit : r < limit) :
    ∃ b', load r b = .ok (x, b') ∧ Window limit b' r w out gap (x :: ahead) := by
  have hCell : b.cells[r]? = some x := by
    rw [← List.head?_drop, hw.drop_read, List.head?_cons]
  refine ⟨{ b with seen := max b.seen (r + 1) }, ?_, hw.cells, hw.write, hw.read, ?_⟩
  · rw [Buffer.load, hCell]
  · exact Nat.max_le.mpr ⟨hw.seen, hLimit⟩

/-- The cell behind the next one. -/
theorem load_second (hw : Window limit b r w out gap (x :: y :: ahead)) (hLimit : r + 1 < limit) :
    ∃ b', Buffer.load (r + 1) b = .ok (y, b') ∧ Window limit b' r w out gap (x :: y :: ahead) := by
  have hCell : b.cells[r + 1]? = some y := by
    rw [← List.getElem?_drop, hw.drop_read]
    rfl
  refine ⟨{ b with seen := max b.seen (r + 1 + 1) }, ?_, hw.cells, hw.write, hw.read, ?_⟩
  · rw [Buffer.load, hCell]
  · exact Nat.max_le.mpr ⟨hw.seen, hLimit⟩

/-- A cell that is not kept joins the gap. -/
theorem skip (hw : Window limit b r w out gap (x :: ahead)) :
    Window limit b (r + 1) w out (gap ++ [x]) ahead where
  cells := by rw [hw.cells, List.append_assoc, List.singleton_append]
  write := hw.write
  read := by rw [hw.read, List.length_append, List.length_singleton, Nat.add_assoc]
  seen := hw.seen

/-- What is written where the gap starts, or over the next cell where there is none. -/
theorem store_run (hw : Window limit b r w out gap (x :: ahead)) (y : α) :
    ∃ b', store w y b = .ok ((), b') ∧ b'.seen = b.seen ∧
      b'.cells = out ++ y :: (gap ++ x :: ahead).tail := by
  have hLt : w < b.cells.length := by
    rw [hw.cells, hw.write]
    simp only [List.length_append, List.length_cons]
    omega
  refine ⟨{ b with cells := b.cells.set w y }, ?_, rfl, ?_⟩
  · rw [store, if_pos hLt]
  · change b.cells.set w y = _
    rw [hw.cells, hw.write, List.set_append_right _ _ (Nat.le_refl _), Nat.sub_self]
    cases gap <;> rfl

/-- The next cell is kept. -/
theorem copy (hw : Window limit b r w out gap (x :: ahead)) :
    ∃ b', store w x b = .ok ((), b') ∧
      Window limit b' (r + 1) (w + 1) (out ++ [x]) (gap ++ [x]).tail ahead := by
  obtain ⟨b', hRun, hSeen, hCells⟩ := hw.store_run x
  refine ⟨b', hRun, ?_, ?_, ?_, hSeen ▸ hw.seen⟩
  · rw [hCells, List.append_assoc, List.singleton_append]
    cases gap with
    | nil => rfl
    | cons g gap => simp
  · rw [hw.write, List.length_append, List.length_singleton]
  · rw [hw.read]
    simp only [List.length_append, List.length_singleton, List.length_tail]
    omega

/-- The next cell is written behind what is kept, and stays the next one. -/
theorem close (hw : Window limit b r w out gap (x :: ahead)) :
    ∃ b' gap' tail, store w x b = .ok ((), b') ∧
      Window limit b' r w out gap' (x :: ahead) ∧ b'.cells = out ++ x :: tail := by
  obtain ⟨b', hRun, hSeen, hCells⟩ := hw.store_run x
  cases gap with
  | nil =>
    exact ⟨b', [], ahead, hRun, ⟨hCells, hw.write, hw.read, hSeen ▸ hw.seen⟩, hCells⟩
  | cons g gap =>
    refine ⟨b', x :: gap, gap ++ x :: ahead, hRun, ⟨?_, hw.write, hw.read, hSeen ▸ hw.seen⟩, hCells⟩
    exact hCells

end Window

end Buffer

end CjsonRs.Library
