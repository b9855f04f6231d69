import Esoterica.Byter
import Mathlib.Logic.Function.Basic
import Mathlib.Tactic.Tauto

namespace Esoterica.Byter

-- What a walk leaves behind in a cell: an arrow turns round, and all else stays.
def turned : Char → Char
  | '<' => '>'
  | '>' => '<'
  | 'V' => 'A'
  | 'A' => 'V'
  | char => char

-- How many rows down and columns right a cell sends the walk.
def heading? : Char → Option (Int × Int)
  | '0' | '<' | '\x7b' => some (0, -1)
  | '>' | '\x7d' => some (0, 1)
  | 'A' | '+' => some (-1, 0)
  | 'V' | '-' => some (1, 0)
  | _ => none

def prints (char : Char) : Bool :=
  ['\x7b', '\x7d', '+', '-', '$'].contains char

namespace Walk

variable {κ : Type} [Console κ] {w w' : Walk} {c c' : κ}

theorem cell?_eq_some {cell : Fin (side * side)} (h : w.cell? = some cell) :
    0 ≤ w.row ∧ w.row < 16 ∧ 0 ≤ w.col ∧ w.col < 16 ∧ (cell : Int) = w.row * 16 + w.col := by
  unfold cell? at h
  split at h
  case isFalse => cases h
  case isTrue hin =>
    obtain rfl := Option.some.inj h
    simp only [side] at hin ⊢
    omega

-- A step that goes on turns the cell where the walk stands, writes its number if the cell says so,
-- and follows it.
theorem of_step_next (h : step (w, c) = .next (w', c')) :
    ∃ cell, w.cell? = some cell ∧
      w'.grid.get = Function.update w.grid.get cell (turned (w.grid.get cell)) ∧
      (c' = if prints (w.grid.get cell) then emitNumber cell c else c) ∧
      (w.grid.get cell = '$' ∧ w'.row = 0 ∧ w'.col = 0 ∨
        ∃ down right, heading? (w.grid.get cell) = some (down, right) ∧
          w'.row = w.row + down ∧ w'.col = w.col + right) := by
  unfold step at h
  dsimp only at h
  cases hcell : w.cell? with
  | none => simp [hcell] at h
  | some cell =>
    have hget : w.grid[cell] = w.grid.get cell := rfl
    have hset (char : Char) :
        (w.grid.set cell char).get = Function.update w.grid.get cell char := by
      funext other
      by_cases hother : other = cell
      · rw [hother, Function.update_self]
        exact Vector.getElem_set_self cell.isLt
      · rw [Function.update_of_ne hother]
        exact Vector.getElem_set_ne cell.isLt other.isLt fun heq => hother (Fin.ext heq.symm)
    have hsame : w.grid.get = Function.update w.grid.get cell (w.grid.get cell) :=
      (Function.update_eq_self ..).symm
    refine ⟨cell, rfl, ?_⟩
    simp only [hcell, hget] at h
    generalize w.grid.get cell = char at h hsame ⊢
    split at h
    case h_10 =>
      cases h
      exact ⟨hsame, rfl, .inl ⟨rfl, rfl, rfl⟩⟩
    case h_11 => cases h
    -- four arrows, which turn round
    case h_2 | h_3 | h_4 | h_5 =>
      cases h
      exact ⟨hset _, rfl, .inr ⟨_, _, rfl, rfl, rfl⟩⟩
    all_goals
      cases h
      exact ⟨hsame, rfl, .inr ⟨_, _, rfl, rfl, rfl⟩⟩

-- A walk ends beside the grid or in a cell that is no command other than `#`.
theorem of_step_stop {r : Except Fault Unit} (h : step (w, c) = .stop r (w', c')) :
    (r = .ok () ∧ ∃ cell, w'.cell? = some cell ∧
        (w'.grid.get cell = '#' ∨ w'.grid.get cell ∉ commands)) ∨
      r = .error (.outOfGrid w'.row w'.col) ∧ w'.cell? = none := by
  unfold step at h
  dsimp only at h
  cases hcell : w.cell? with
  | none =>
    simp only [hcell] at h
    cases h
    exact .inr ⟨rfl, hcell⟩
  | some cell =>
    have hget : w.grid[cell] = w.grid.get cell := rfl
    simp only [hcell, hget] at h
    split at h
    case h_11 =>
      cases h
      refine .inl ⟨rfl, cell, hcell, ?_⟩
      simp only [commands, List.mem_cons, List.not_mem_nil]
      tauto
    all_goals cases h

-- What ends a walk changes nothing any more.
theorem eq_of_step_stop {s t : Walk × κ} {r : Except Fault Unit} (h : step s = .stop r t) :
    t = s := by
  unfold step at h
  dsimp only at h
  split at h
  · cases h
    rfl
  · split at h
    case h_11 =>
      cases h
      rfl
    all_goals cases h

end Walk

end Esoterica.Byter
