import Esoterica.Text.Line
import Esoterica.Text.Scalar

namespace Esoterica.Befunge

open Text

-- As wide as the longest line of the text, and as high as the text has lines.
structure Field where
  width : Nat
  height : Nat
  -- row by row
  cells : Array Int64

namespace Field

def blank : Int64 := codeOf ' '

-- The lines of a text, of which there is at least one.
def rowsOf (text : List Char) : List (List Char) :=
  match lines text with
  | [] => [[]]
  | rows => rows

def padded (width : Nat) (row : List Char) : List Int64 :=
  row.map codeOf ++ List.replicate (width - row.length) blank

def ofText (text : List Char) : Field :=
  let rows := rowsOf text
  let width := (rows.map List.length).foldl max 1
  ⟨width, rows.length, (rows.flatMap (padded width)).toArray⟩

def index (f : Field) (x y : Nat) : Nat :=
  y * f.width + x

def get (f : Field) (x y : Nat) : Int64 :=
  f.cells.getD (f.index x y) blank

def set (f : Field) (x y : Nat) (value : Int64) : Field :=
  { f with cells := f.cells.setIfInBounds (f.index x y) value }

-- The point with the given coordinates, if it is inside the field.
def point? (f : Field) (x y : Int64) : Option (Nat × Nat) :=
  if 0 ≤ x.toInt ∧ x.toInt < f.width ∧ 0 ≤ y.toInt ∧ y.toInt < f.height then
    some (x.toInt.toNat, y.toInt.toNat)
  else none

def rows (f : Field) : List (List Int64) :=
  (List.range f.height).map fun y => (List.range f.width).map fun x => f.get x y

end Field

end Esoterica.Befunge
