import Esoterica.Proofs.Byter.Step
import Esoterica.Proofs.Console.Reading
import Esoterica.Proofs.Halting
import Mathlib.Algebra.Ring.Parity

namespace Esoterica.Byter

def arrows : List Char :=
  ['<', '>', 'V', 'A']

theorem turned_of_notMem {char : Char} (h : char ∉ arrows) : turned char = char := by
  unfold turned
  split
  case h_5 => rfl
  all_goals simp [arrows] at h

theorem turned_involutive : Function.Involutive turned := by
  intro char
  by_cases h : char ∈ arrows
  · simp only [arrows, List.mem_cons, List.not_mem_nil, or_false] at h
    rcases h with rfl | rfl | rfl | rfl <;> rfl
  · rw [turned_of_notMem h, turned_of_notMem h]

theorem prints_turned (char : Char) : prints (turned char) = prints char := by
  unfold turned
  split <;> rfl

theorem natAbs_heading {char : Char} {down right : Int}
    (h : heading? char = some (down, right)) : down.natAbs + right.natAbs = 1 := by
  unfold heading? at h
  split at h
  case h_10 => cases h
  all_goals
    cases h
    rfl

-- What the cells that print write when a walk steps on `cells` one after the other.
def Grid.printed (grid : Grid) (cells : List (Fin (side * side))) : List Char :=
  (cells.filter fun cell => prints (grid.get cell)).map fun cell => Char.ofNat cell

-- Turning a cell does not change which cells print.
theorem Grid.printed_update {grid grid' : Grid} {cell : Fin (side * side)}
    (h : grid'.get = Function.update grid.get cell (turned (grid.get cell)))
    (cells : List (Fin (side * side))) : grid'.printed cells = grid.printed cells := by
  have hprints :
      (fun other => prints (grid'.get other)) = fun other => prints (grid.get other) := by
    funext other
    rw [h]
    by_cases hother : other = cell
    · rw [hother, Function.update_self, prints_turned]
    · rw [Function.update_of_ne hother]
  rw [printed, printed, hprints]

namespace Walk

variable {κ : Type} [Console κ]

-- The cells on which the walk steps in its first `count` steps.
def trail (count : Nat) (s : Walk × κ) : List (Fin (side * side)) :=
  (passed step count s).filterMap fun x => x.1.cell?

-- Every cell of the trail has the number of the row and the column where the walk stood.
theorem trail_places (count : Nat) (s : Walk × κ) :
    ((trail count s).map fun cell => (cell.val : Int)) =
        ((passed step count s).map fun x => x.1.row * 16 + x.1.col) ∧
      ∀ x ∈ passed step count s, 0 ≤ x.1.row ∧ x.1.row < 16 ∧ 0 ≤ x.1.col ∧ x.1.col < 16 := by
  have hcells : ∀ x ∈ passed step count s, ∃ cell, x.1.cell? = some cell := by
    rintro ⟨w, c⟩ hx
    obtain ⟨⟨w', c'⟩, hnext⟩ := exists_next_of_mem_passed hx
    obtain ⟨cell, hcell, -⟩ := of_step_next hnext
    exact ⟨cell, hcell⟩
  constructor
  · rw [trail, List.map_filterMap, ← List.filterMap_eq_map]
    apply List.filterMap_congr
    intro x hx
    obtain ⟨cell, hcell⟩ := hcells x hx
    obtain ⟨-, -, -, -, hplace⟩ := cell?_eq_some hcell
    rw [hcell, Option.map_some, hplace]
    rfl
  · intro x hx
    obtain ⟨cell, hcell⟩ := hcells x hx
    obtain ⟨hrow, hrow', hcol, hcol', -⟩ := cell?_eq_some hcell
    exact ⟨hrow, hrow', hcol, hcol'⟩

-- From `s` to `t` the walk has stepped on `cells`.
structure Treads (s : Walk × κ) (cells : List (Fin (side * side))) (t : Walk × κ) : Prop where
  grid (cell : Fin (side * side)) :
    t.1.grid.get cell = turned^[cells.count cell] (s.1.grid.get cell)
  console : t.2 = Console.emitAll s.2 (s.1.grid.printed cells)

theorem Treads.cons {w w' : Walk} {c c' : κ} {cell : Fin (side * side)}
    {cells : List (Fin (side * side))} {t : Walk × κ} (hcell : w.cell? = some cell)
    (hstep : step (w, c) = .next (w', c')) (h : Treads (w', c') cells t) :
    Treads (w, c) (cell :: cells) t := by
  obtain ⟨_, hsame, hgrid, hconsole, -⟩ := of_step_next hstep
  obtain rfl := Option.some.inj (hcell.symm.trans hsame)
  constructor
  · intro other
    rw [h.grid other, hgrid]
    -- this turn comes before all those that are still counted
    by_cases hother : other = cell
    · rw [hother, Function.update_self, List.count_cons_self, Function.iterate_succ_apply]
    · rw [Function.update_of_ne hother, List.count_cons_of_ne (Ne.symm hother)]
  · rw [h.console, Grid.printed_update hgrid, hconsole]
    cases hprints : prints (w.grid.get cell) with
    | true => simp [Grid.printed, hprints, Console.emitAll, emitNumber]
    | false => simp [Grid.printed, hprints]

theorem treads_trail {count : Nat} {s t : Walk × κ} (h : advance step count s = some t) :
    (trail count s).length = count ∧ Treads s (trail count s) t := by
  induction count generalizing s with
  | zero =>
    obtain rfl := Option.some.inj h
    exact ⟨rfl, fun _ => rfl, rfl⟩
  | succ count ih =>
    obtain ⟨w, c⟩ := s
    cases hstep : step (w, c) with
    | stop r u =>
      rw [advance, hstep] at h
      cases h
    | next u =>
      obtain ⟨cell, hcell, -⟩ := of_step_next hstep
      rw [advance_of_next hstep] at h
      obtain ⟨hlength, htreads⟩ := ih h
      have htrail : trail (count + 1) (w, c) = cell :: trail count u := by
        rw [trail, passed_of_next hstep, List.filterMap_cons, hcell, trail]
      rw [htrail]
      exact ⟨congrArg (· + 1) hlength, htreads.cons hcell hstep⟩

theorem Treads.get_of_notMem_arrows {s t : Walk × κ} {cells : List (Fin (side * side))}
    (h : Treads s cells t) {cell : Fin (side * side)} (hcell : s.1.grid.get cell ∉ arrows) :
    t.1.grid.get cell = s.1.grid.get cell := by
  rw [h.grid]
  exact Function.iterate_fixed (turned_of_notMem hcell) _

theorem Treads.get_eq {s t : Walk × κ} {cells : List (Fin (side * side))} (h : Treads s cells t)
    (cell : Fin (side * side)) :
    t.1.grid.get cell =
      if Even (cells.count cell) then s.1.grid.get cell else turned (s.1.grid.get cell) := by
  rw [h.grid]
  split
  case isTrue heven => rw [turned_involutive.iterate_even heven, id]
  case isFalse hodd => rw [turned_involutive.iterate_odd (Nat.not_even_iff_odd.mp hodd)]

-- One step beside an edge of the grid.
def Beside (row col : Int) : Prop :=
  (row = -1 ∨ row = 16) ∧ 0 ≤ col ∧ col ≤ 15 ∨ (col = -1 ∨ col = 16) ∧ 0 ≤ row ∧ row ≤ 15

theorem cell?_eq_none {w : Walk} (h : w.cell? = none) :
    ¬ (0 ≤ w.row ∧ w.row ≤ 15 ∧ 0 ≤ w.col ∧ w.col ≤ 15) := by
  unfold cell? at h
  split at h
  case isTrue => cases h
  case isFalse hout =>
    simp only [side] at hout
    omega

theorem beside_of_leads {grid : Grid} {c : κ} {t : Walk × κ}
    (h : Leads step (⟨grid, 0, 0⟩, c) t) (hout : t.1.cell? = none) :
    Beside t.1.row t.1.col := by
  rcases Relation.ReflTransGen.cases_tail h with heq | ⟨⟨w, c⟩, -, hnext⟩
  · subst heq
    exact absurd hout (by simp [cell?, side])
  · -- the last step began in a cell and went to one of its neighbours
    obtain ⟨cell, hcell, -, -, hmove⟩ := of_step_next hnext
    have hin := cell?_eq_some hcell
    have hout := cell?_eq_none hout
    unfold Beside
    rcases hmove with ⟨-, hrow, hcol⟩ | ⟨down, right, hheading, hrow, hcol⟩
    · omega
    · have hone := natAbs_heading hheading
      omega

-- What a walk has turned and written, it owes to the cells on which it has stepped, and where it
-- ends beside the grid, it has gone one step too far.
theorem trail_tells_grid_and_output (grid : Grid) :
    (∀ (κ : Type) [Console κ] (c : κ) (count : Nat) (w : Walk) (c' : κ),
      advance step count (⟨grid, 0, 0⟩, c) = some (w, c') →
        (trail count (⟨grid, 0, 0⟩, c)).length = count ∧
        ((trail count (⟨grid, 0, 0⟩, c)).map fun cell => (cell.val : Int)) =
          ((passed step count (⟨grid, 0, 0⟩, c)).map fun x => x.1.row * 16 + x.1.col) ∧
        (∀ x ∈ passed step count (⟨grid, 0, 0⟩, c),
          0 ≤ x.1.row ∧ x.1.row < 16 ∧ 0 ≤ x.1.col ∧ x.1.col < 16) ∧
        (∀ cell, grid.get cell ∉ arrows → w.grid.get cell = grid.get cell) ∧
        (∀ cell, grid.get cell ∈ arrows → w.grid.get cell =
          if Even ((trail count (⟨grid, 0, 0⟩, c)).count cell) then grid.get cell
          else turned (grid.get cell)) ∧
        c' = Console.emitAll c (grid.printed (trail count (⟨grid, 0, 0⟩, c)))) ∧
    (∀ (c : Script) (count : Nat) (w : Walk) (c' : Script),
      advance step count (⟨grid, 0, 0⟩, c) = some (w, c') →
        c'.output = c.output ++
          String.ofList (grid.printed (trail count (⟨grid, 0, 0⟩, c)))) ∧
    ∀ (κ : Type) [Console κ] (c : κ) (bound : Nat) (r : Except Fault Unit) (w : Walk) (c' : κ),
      run bound ⟨grid, 0, 0⟩ c = some (r, w, c') →
        (∃ count, advance step count (⟨grid, 0, 0⟩, c) = some (w, c')) ∧
        ∀ row col, r = .error (.outOfGrid row col) → Beside row col := by
  refine ⟨?_, ?_, ?_⟩
  · intro κ _ c count w c' h
    obtain ⟨hlength, htreads⟩ := treads_trail h
    obtain ⟨hplaces, hinside⟩ := trail_places count (⟨grid, 0, 0⟩, c)
    exact ⟨hlength, hplaces, hinside, fun cell => htreads.get_of_notMem_arrows,
      fun cell _ => htreads.get_eq cell, htreads.console⟩
  · intro c count w c' h
    obtain rfl : c' = _ := (treads_trail h).2.console
    exact Script.output_emitAll c _
  · intro κ _ c bound r w c' h
    obtain ⟨t, hleads, hstop⟩ := exists_leads_of_runFor h
    obtain rfl := eq_of_step_stop hstop
    refine ⟨exists_advance_of_leads hleads, ?_⟩
    rintro row col rfl
    obtain ⟨hok, -⟩ | ⟨herror, hout⟩ := of_step_stop hstop
    · cases hok
    · cases herror
      exact beside_of_leads hleads hout

-- The second cell sends the walk back to the first one, where an arrow has turned meanwhile.
def restarting : Grid :=
  Vector.ofFn fun cell => if cell.val = 0 then '>' else if cell.val = 1 then '$' else '#'

-- The arrow turns twice before the walk leaves the grid on the left.
theorem trail_tells_grid_and_output_restarting :
    (∃ w c first second, advance step 3 (⟨restarting, 0, 0⟩, Script.ofInput "") = some (w, c) ∧
      Fin.val first = 0 ∧ (trail 3 (⟨restarting, 0, 0⟩, Script.ofInput "")).count first = 2 ∧
      restarting.get first ∈ arrows ∧ w.grid.get first = restarting.get first ∧
      Fin.val second = 1 ∧ restarting.get second ∉ arrows ∧
      w.grid.get second = restarting.get second ∧ c.output = "\x01") ∧
    (∃ w c, run 4 ⟨restarting, 0, 0⟩ (Script.ofInput "") =
      some (.error (.outOfGrid 0 (-1)), w, c)) ∧ Beside 0 (-1) := by
  let start : Walk × Script := (⟨restarting, 0, 0⟩, .ofInput "")
  let first : Fin (side * side) := ⟨0, by decide⟩
  let second : Fin (side * side) := ⟨1, by decide⟩
  have hsteps : (advance step 3 start).isSome := by decide +kernel
  have hcount : (trail 3 start).count first = 2 := by decide +kernel
  have harrow : restarting.get first ∈ arrows := by decide +kernel
  have hother : restarting.get second ∉ arrows := by decide +kernel
  have hprinted : restarting.printed (trail 3 start) = ['\x01'] := by decide +kernel
  have hstopped : (run 4 start.1 start.2).map Prod.fst = some (.error (.outOfGrid 0 (-1))) := by
    decide +kernel
  obtain ⟨⟨w, c⟩, hadvance⟩ := Option.isSome_iff_exists.mp hsteps
  obtain ⟨⟨r, w', c'⟩, hrun, hr⟩ := Option.map_eq_some_iff.mp hstopped
  obtain rfl : r = .error (.outOfGrid 0 (-1)) := hr
  obtain ⟨hgrid, houtput, hend⟩ := trail_tells_grid_and_output restarting
  obtain ⟨-, -, -, hkept, hturned, -⟩ := hgrid Script _ _ _ _ hadvance
  have hfirst := hturned first harrow
  rw [if_pos (by rw [hcount]; exact even_two)] at hfirst
  have hwritten := houtput _ _ _ _ hadvance
  rw [hprinted] at hwritten
  refine ⟨⟨w, c, first, second, hadvance, rfl, hcount, harrow, hfirst, rfl, hother,
    hkept second hother, hwritten⟩, ⟨w', c', hrun⟩, ?_⟩
  exact (hend Script _ _ _ _ _ hrun).2 0 (-1) rfl

end Walk

end Esoterica.Byter
