import Esoterica.Console.Script
import Esoterica.Proofs.Byter.Step
import Esoterica.Proofs.Halting
import Mathlib.Algebra.BigOperators.Fin
import Mathlib.Algebra.Order.BigOperators.Group.Finset

namespace Esoterica.Byter

-- No cell sends the walk right or down whenever it comes there, or back to the first cell.
def Grid.Homing (grid : Grid) : Prop :=
  ∀ cell, grid.get cell ∉ ['\x7d', '-', '$']

-- Whether a cell is an arrow that sends the walk right or down, until it turns.
def leadsOn (char : Char) : Bool :=
  char == '>' || char == 'V'

theorem turned_homing {char : Char} (h : char ∉ ['\x7d', '-', '$']) :
    turned char ∉ ['\x7d', '-', '$'] := by
  unfold turned
  split
  case h_5 => exact h
  all_goals decide

-- The cells of such a grid send the walk left or up, but for the arrows that lead on.
theorem heading_homing {char : Char} {down right : Int} (hchar : char ∉ ['\x7d', '-', '$'])
    (h : heading? char = some (down, right)) :
    down + right = -1 ∨ down + right = 1 ∧ leadsOn char = true ∧ leadsOn (turned char) = false := by
  unfold heading? at h
  split at h
  case h_5 | h_9 => simp at hchar
  case h_10 => cases h
  case h_4 | h_8 =>
    cases h
    exact .inr ⟨rfl, rfl, rfl⟩
  all_goals
    cases h
    exact .inl rfl

-- How high a walk stands on a diagonal of the grid, counted from 0 right before the first cell.
-- From one diagonal to the next the height grows, and less from each to the next.
def height : Nat → Nat
  | 0 => 0
  | diagonal + 1 => height diagonal + (64 - 2 * diagonal)

-- What an arrow that leads on keeps in store: more than the walk gains in height when it goes on
-- from there, and less than it loses when it goes back.
def store (cell : Nat) (char : Char) : Nat :=
  if leadsOn char then 63 - 2 * (cell / side + cell % side) else 0

def Grid.stores (grid : Grid) : Nat :=
  ∑ cell : Fin (side * side), store cell (grid.get cell)

-- Where one cell changes, the stores change by what that cell gives and takes.
theorem Grid.stores_update {grid grid' : Grid} {cell : Fin (side * side)} {char : Char}
    (h : grid'.get = Function.update grid.get cell char) :
    grid'.stores + store cell (grid.get cell) = grid.stores + store cell char := by
  unfold stores
  rw [← Finset.add_sum_erase _ _ (Finset.mem_univ cell),
    ← Finset.add_sum_erase _ _ (Finset.mem_univ cell), h]
  have hothers : ∑ other ∈ Finset.univ.erase cell,
        store other (Function.update grid.get cell char other) =
      ∑ other ∈ Finset.univ.erase cell, store other (grid.get other) := by
    refine Finset.sum_congr rfl fun other hother => ?_
    rw [Function.update_of_ne (Finset.ne_of_mem_erase hother)]
  rw [hothers, Function.update_self]
  omega

namespace Walk

def diagonal (w : Walk) : Nat :=
  (w.row + w.col + 1).toNat

def potential (w : Walk) : Nat :=
  height w.diagonal + w.grid.stores

variable {κ : Type} [Console κ] {w w' : Walk} {c c' : κ}

theorem homing_next (hw : w.grid.Homing) (h : step (w, c) = .next (w', c')) : w'.grid.Homing := by
  obtain ⟨cell, -, hgrid, -, -⟩ := of_step_next h
  intro other
  rw [hgrid]
  by_cases hother : other = cell
  · rw [hother, Function.update_self]
    exact turned_homing (hw cell)
  · rw [Function.update_of_ne hother]
    exact hw other

theorem potential_next_lt (hw : w.grid.Homing) (h : step (w, c) = .next (w', c')) :
    w'.potential < w.potential := by
  obtain ⟨cell, hcell, hgrid, -, hmove⟩ := of_step_next h
  have hchar : w.grid.get cell ∉ ['\x7d', '-', '$'] := hw cell
  have hplace := cell?_eq_some hcell
  have hstores := Grid.stores_update hgrid
  rcases hmove with ⟨hdollar, -⟩ | ⟨down, right, hheading, hrow, hcol⟩
  · simp [hdollar] at hchar
  obtain ⟨diagonal, hdiagonal⟩ : ∃ diagonal : Nat, (diagonal : Int) = w.row + w.col :=
    ⟨(w.row + w.col).toNat, by omega⟩
  have hhere : w.diagonal = diagonal + 1 := by
    unfold Walk.diagonal
    omega
  have hsum : (cell : Nat) / side + (cell : Nat) % side = diagonal := by
    simp only [side]
    omega
  have hle : diagonal ≤ 30 := by omega
  simp only [store, hsum] at hstores
  rcases heading_homing hchar hheading with hback | ⟨hon, hleads, hturned⟩
  · -- what the cell can take is less than the height that the walk loses
    have hthere : w'.diagonal = diagonal := by
      unfold Walk.diagonal
      omega
    have htaken : (if leadsOn (turned (w.grid.get cell)) then 63 - 2 * diagonal else 0) ≤
        63 - 2 * diagonal := by
      split <;> omega
    simp only [potential, hhere, hthere, height]
    omega
  · have hthere : w'.diagonal = diagonal + 2 := by
      unfold Walk.diagonal
      omega
    simp only [hleads, hturned, if_true, Bool.false_eq_true, if_false] at hstores
    simp only [potential, hhere, hthere, height]
    omega

end Walk

theorem Grid.stores_le (grid : Grid) : grid.stores ≤ 8448 := by
  calc
    grid.stores ≤ ∑ cell : Fin (side * side), (63 - 2 * (cell.val / side + cell.val % side)) := by
      refine Finset.sum_le_sum fun cell _ => ?_
      unfold store
      split <;> omega
    _ = 8448 := by decide +kernel

namespace Walk

variable {κ : Type} [Console κ]

-- A walk over such a grid is over after at most 8513 steps: in the first cell its height is 64.
theorem homing_walk_ends {grid : Grid} (h : grid.Homing) (c : κ) :
    ∃ r w' c', run 8513 ⟨grid, 0, 0⟩ c = some (r, w', c') ∧
      ((r = .ok () ∧ ∃ cell, w'.cell? = some cell ∧
          (w'.grid.get cell = '#' ∨ w'.grid.get cell ∉ commands)) ∨
        r = .error (.outOfGrid w'.row w'.col) ∧ w'.cell? = none) := by
  have hstart : (Walk.mk grid 0 0).potential < 8513 := by
    have hstores := grid.stores_le
    have hheight : height (Walk.mk grid 0 0).diagonal = 64 := rfl
    simp only [potential, hheight]
    omega
  have hstep (s t : Walk × κ) (hs : s.1.grid.Homing) (hnext : step s = .next t) :
      t.1.grid.Homing ∧ t.1.potential < s.1.potential :=
    ⟨homing_next hs hnext, potential_next_lt hs hnext⟩
  obtain ⟨⟨r, w', c'⟩, hrun⟩ := exists_runFor_of_measure_lt hstep (s := (⟨grid, 0, 0⟩, c)) h hstart
  obtain ⟨⟨w, c₀⟩, hstop⟩ := exists_stop_of_runFor hrun
  exact ⟨r, w', c', hrun, of_step_stop hstop⟩

end Walk

-- Arrows to the right and down in turn, with cells at the right and at the bottom that send every
-- walk back. A walk comes to most cells many times.
def checkered : Grid :=
  Vector.ofFn fun cell =>
    if cell / side = 15 then '+'
    else if (cell / side + cell % side) % 2 = 1 then 'V'
    else if cell % side = 15 then '0'
    else '>'

theorem checkered_homing : checkered.Homing := by
  intro cell
  have hcell : checkered.get cell = _ := Vector.getElem_ofFn cell.isLt
  rw [hcell]
  repeat' split
  all_goals decide

theorem Walk.homing_walk_ends_checkered :
    checkered.Homing ∧ ∃ r w c, run 8513 ⟨checkered, 0, 0⟩ (Script.ofInput "") = some (r, w, c) ∧
      ((r = .ok () ∧ ∃ cell, w.cell? = some cell ∧
          (w.grid.get cell = '#' ∨ w.grid.get cell ∉ commands)) ∨
        r = .error (.outOfGrid w.row w.col) ∧ w.cell? = none) :=
  ⟨checkered_homing, homing_walk_ends checkered_homing _⟩

end Esoterica.Byter
