import Esoterica.Befunge.Field
import Esoterica.Console.Basic
import Esoterica.Progress
import Esoterica.SplitMix
import Esoterica.Text.Blank
import Esoterica.Text.Decimal
import Esoterica.Text.Quoted

namespace Esoterica.Befunge

open Text

inductive Direction where
  | up
  | down
  | right
  | left
  deriving DecidableEq, Repr

namespace Direction

def opposite : Direction → Direction
  | up => down
  | down => up
  | right => left
  | left => right

def ofWord (word : UInt32) : Direction :=
  match word.toNat % 4 with
  | 0 => up
  | 1 => down
  | 2 => right
  | _ => left

end Direction

inductive Fault where
  | divisionByZero (x y : Nat)
  | outOfBounds (x y : Int64)
  | notANumber
  deriving DecidableEq, Repr

def Fault.message : Fault → String
  | .divisionByZero x y => s!"division by zero at {x}x{y}"
  | .outOfBounds x y =>
    Decimal.text x ++ "x" ++ Decimal.text y ++ " is outside the playfield"
  | .notANumber => "input is not a number"

structure Machine where
  field : Field
  -- the top first
  stack : List Int64 := []
  x : Nat := 0
  y : Nat := 0
  direction : Direction := .right
  -- whether cells are pushed and not executed
  quoting : Bool := false
  random : SplitMix

namespace Machine

def here (m : Machine) : Int64 :=
  m.field.get m.x m.y

def advance (m : Machine) : Machine :=
  match m.direction with
  | .up => { m with y := if m.y = 0 then m.field.height - 1 else m.y - 1 }
  | .down => { m with y := (m.y + 1) % m.field.height }
  | .right => { m with x := (m.x + 1) % m.field.width }
  | .left => { m with x := if m.x = 0 then m.field.width - 1 else m.x - 1 }

def push (m : Machine) (value : Int64) : Machine :=
  { m with stack := value :: m.stack }

def pop (m : Machine) : Int64 × Machine :=
  match m.stack with
  | [] => (0, m)
  | value :: rest => (value, { m with stack := rest })

def face (m : Machine) (direction : Direction) : Machine :=
  { m with direction }

inductive Outcome (κ : Type) where
  | done (machine : Machine) (console : κ)
  | halt (machine : Machine) (console : κ)
  | fault (fault : Fault) (machine : Machine) (console : κ)

variable {κ : Type}

-- Takes two operands, the right one first, and puts their combination back.
def binary (f : Int64 → Int64 → Int64) (m : Machine) : Machine :=
  let (right, m) := m.pop
  let (left, m) := m.pop
  m.push (f left right)

-- As `binary`, for an operation that has no result if the right operand is 0.
def divide (f : Int64 → Int64 → Int64) (m : Machine) (c : κ) : Outcome κ :=
  let (right, m) := m.pop
  let (left, m) := m.pop
  if right = 0 then .fault (.divisionByZero m.x m.y) m c else .done (m.push (f left right)) c

def ofBool (b : Bool) : Int64 :=
  if b then 1 else 0

variable [Console κ]

-- Executes the instruction `char`, to which the value of the current cell amounts.
def exec (char : Char) (value : Int64) (m : Machine) (c : κ) : Outcome κ :=
  if char.isDigit then .done (m.push (value - codeOf '0')) c
  else
    match char with
    | '+' => .done (m.binary (· + ·)) c
    | '-' => .done (m.binary (· - ·)) c
    | '*' => .done (m.binary (· * ·)) c
    | '\x60' => .done (m.binary fun left right => ofBool (right < left)) c
    | '/' => divide (· / ·) m c
    | '%' => divide (· % ·) m c
    | '!' =>
      let (value, m) := m.pop
      .done (m.push (ofBool (value = 0))) c
    | '>' => .done (m.face .right) c
    | '<' => .done (m.face .left) c
    | '^' => .done (m.face .up) c
    | 'v' => .done (m.face .down) c
    | '?' =>
      let (word, random) := m.random.next32
      .done { m with direction := .ofWord word, random } c
    | '_' =>
      let (value, m) := m.pop
      .done (m.face (if value = 0 then .right else .left)) c
    | '|' =>
      let (value, m) := m.pop
      .done (m.face (if value = 0 then .down else .up)) c
    | '"' => .done { m with quoting := true } c
    | ':' => .done (m.push (m.stack.head?.getD 0)) c
    | '\\' =>
      let (first, m) := m.pop
      let (second, m) := m.pop
      .done ((m.push first).push second) c
    | '$' => .done m.pop.2 c
    | '.' =>
      let (value, m) := m.pop
      .done m (Console.emitAll c (Decimal.ofInt value.toInt ++ [' ']))
    | ',' =>
      let (value, m) := m.pop
      .done m (Console.emit c ((scalar? value).getD '�'))
    | '#' => .done m.advance c
    | 'p' =>
      let (y, m) := m.pop
      let (x, m) := m.pop
      let (value, m) := m.pop
      match m.field.point? x y with
      | some (x, y) => .done { m with field := m.field.set x y value } c
      | none => .fault (.outOfBounds x y) m c
    | 'g' =>
      let (y, m) := m.pop
      let (x, m) := m.pop
      match m.field.point? x y with
      | some (x, y) => .done (m.push (m.field.get x y)) c
      | none => .fault (.outOfBounds x y) m c
    | '&' =>
      match Console.readLine c with
      | (some line, c) =>
        match Decimal.readInt64 (trim line) with
        | .ok value => .done (m.push value) c
        | .error _ => .fault .notANumber m c
      | (none, c) => .done (m.push (-1)) c
    | '~' =>
      match Console.readChar c with
      | (some char, c) => .done (m.push (codeOf char)) c
      | (none, c) => .done (m.push (-1)) c
    | '@' => .halt m c
    | ' ' => .done m c
    | _ => .done (m.face m.direction.opposite) c

-- The instruction that a value stands for; a number without a character is blank.
def instrOf (value : Int64) : Char :=
  (scalar? value).getD ' '

def step (s : Machine × κ) : Progress (Machine × κ) (Except Fault Unit) :=
  let (m, c) := s
  let value := m.here
  if m.quoting then
    if value = codeOf '"' then .next ({ m with quoting := false }.advance, c)
    else .next ((m.push value).advance, c)
  else
    match exec (instrOf value) value m c with
    | .done m c => .next (m.advance, c)
    | .halt m c => .stop (.ok ()) (m, c)
    | .fault fault m c => .stop (.error fault) (m, c)

def run (bound : Nat) (m : Machine) (c : κ) : Option (Except Fault Unit × Machine × κ) :=
  runFor step bound (m, c)

def entries (filter : Filter) (m : Machine) : List Entry :=
  if m.quoting then []
  else
    let char := instrOf m.here
    filter.entry .trace (fun _ =>
      s!"{m.x}x{m.y} " ++ quotedChar char ++ " " ++ Decimal.listText m.stack.reverse) ++
      if char = '@' then filter.entry .debug fun _ => s!"befunge halted at {m.x}x{m.y}" else []

def runLogged (filter : Filter) (bound : Nat) (m : Machine) (c : κ) :
    Option (Except Fault Unit × Machine × κ) :=
  runFor (fun (m, c) => step (m, Console.noteAll c (entries filter m))) bound (m, c)

end Machine

end Esoterica.Befunge
