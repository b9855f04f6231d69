import Esoterica.Console.Basic
import Esoterica.Progress

namespace Esoterica.Byter

def side : Nat := 16

-- The characters of a program; every other one is a comment.
def commands : List Char :=
  ['0', '<', '>', 'V', 'A', '\x7b', '\x7d', '+', '-', '$', '#']

inductive Fault where
  | invalidSize (count : Nat)
  | outOfGrid (row col : Int)
  deriving DecidableEq, Repr

def Fault.message : Fault → String
  | .invalidSize count => s!"program has {count} commands, expected 256"
  | .outOfGrid row col => s!"{row}x{col} is not a valid point in the grid"

abbrev Grid := Vector Char (side * side)

def Grid.ofText (text : List Char) : Except Fault Grid :=
  let cells := (text.filter (commands.contains ·)).toArray
  if h : cells.size = side * side then .ok ⟨cells, h⟩ else .error (.invalidSize cells.size)

def Grid.rows (grid : Grid) : List String :=
  (List.range side).map fun row => String.ofList ((grid.toList.drop (row * side)).take side)

structure Walk where
  grid : Grid
  row : Int := 0
  col : Int := 0

-- The number of the cell where a walk stands, unless it has left the grid.
def Walk.cell? (w : Walk) : Option (Fin (side * side)) :=
  if h : 0 ≤ w.row ∧ w.row < side ∧ 0 ≤ w.col ∧ w.col < side then
    some ⟨w.row.toNat * side + w.col.toNat, by
      simp only [side] at h ⊢
      omega⟩
  else none

namespace Walk

variable {κ : Type}

-- Goes `down` rows and `right` columns on.
def go (down right : Int) (w : Walk) (c : κ) : Progress (Walk × κ) (Except Fault Unit) :=
  .next ({ w with row := w.row + down, col := w.col + right }, c)

def turn (cell : Fin (side * side)) (arrow : Char) (down right : Int) (w : Walk) (c : κ) :
    Progress (Walk × κ) (Except Fault Unit) :=
  go down right { w with grid := w.grid.set cell arrow } c

variable [Console κ]

-- Writes the character whose code is the number of a cell.
def emitNumber (cell : Fin (side * side)) (c : κ) : κ :=
  Console.emit c (Char.ofNat cell)

def step (s : Walk × κ) : Progress (Walk × κ) (Except Fault Unit) :=
  let (w, c) := s
  match w.cell? with
  | none => .stop (.error (.outOfGrid w.row w.col)) (w, c)
  | some cell =>
    match w.grid[cell] with
    | '0' => go 0 (-1) w c
    | '<' => turn cell '>' 0 (-1) w c
    | '>' => turn cell '<' 0 1 w c
    | 'V' => turn cell 'A' 1 0 w c
    | 'A' => turn cell 'V' (-1) 0 w c
    | '\x7b' => go 0 (-1) w (emitNumber cell c)
    | '\x7d' => go 0 1 w (emitNumber cell c)
    | '+' => go (-1) 0 w (emitNumber cell c)
    | '-' => go 1 0 w (emitNumber cell c)
    | '$' => .next ({ w with row := 0, col := 0 }, emitNumber cell c)
    | _ => .stop (.ok ()) (w, c)

def run (bound : Nat) (w : Walk) (c : κ) : Option (Except Fault Unit × Walk × κ) :=
  runFor step bound (w, c)

def entries (filter : Filter) (w : Walk) : List Entry :=
  match w.cell? with
  | none => []
  | some cell =>
    if commands.contains w.grid[cell] && w.grid[cell] != '#' then []
    else filter.entry .debug fun _ => s!"byter halted at {w.row}x{w.col}"

def runLogged (filter : Filter) (bound : Nat) (w : Walk) (c : κ) :
    Option (Except Fault Unit × Walk × κ) :=
  runFor (fun (w, c) => step (w, Console.noteAll c (entries filter w))) bound (w, c)

end Walk

end Esoterica.Byter
