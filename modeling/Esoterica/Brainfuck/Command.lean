
namespace Esoterica.Brainfuck

inductive Command where
  | right
  | left
  | increment
  | decrement
  | output
  | input
  | loop
  | repeat
  | stop
  | comment
  deriving DecidableEq, Repr

namespace Command

-- Every byte is a command. One without a meaning of its own is a comment, and a NUL ends the
-- program.
def ofByte (b : UInt8) : Command :=
  match Char.ofNat b.toNat with
  | '>' => right
  | '<' => left
  | '+' => increment
  | '-' => decrement
  | '.' => output
  | ',' => input
  | '[' => loop
  | ']' => .repeat
  | '\x00' => stop
  | _ => comment

end Command

end Esoterica.Brainfuck
