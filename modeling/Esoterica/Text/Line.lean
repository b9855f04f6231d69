
namespace Esoterica.Text

-- The text up to the first line feed, and what follows that line feed if there is one.
def splitLine (text : List Char) : List Char × Option (List Char) :=
  (text.takeWhile (· != '\n'), (text.dropWhile (· != '\n')).tail?)

-- The line without one carriage return at its end.
def dropReturn (line : List Char) : List Char :=
  if line.getLast? = some '\r' then line.dropLast else line

theorem length_dropWhile_le (p : Char → Bool) (text : List Char) :
    (text.dropWhile p).length ≤ text.length :=
  (List.dropWhile_sublist _).length_le

-- A line feed ends a line and is no part of it. A last line without one is kept as it stands.
def lines (text : List Char) : List (List Char) :=
  if text.isEmpty then []
  else
    match _h : splitLine text with
    | (line, none) => [line]
    | (line, some rest) => dropReturn line :: lines rest
termination_by text.length
decreasing_by
  simp only [splitLine, Prod.mk.injEq] at _h
  have hlen := length_dropWhile_le (· != '\n') text
  cases hd : text.dropWhile (· != '\n') with
  | nil => simp [hd] at _h
  | cons c more =>
    simp only [hd, List.tail?_cons, Option.some.injEq] at _h
    simp only [hd, List.length_cons] at hlen
    rw [← _h.2]
    omega

end Esoterica.Text
