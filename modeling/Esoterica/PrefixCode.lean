
namespace Esoterica.PrefixCode

variable {α β : Type} [DecidableEq α]

inductive Match (β : Type) where
  -- the run is the code word of an item
  | found (item : β)
  -- the run begins a longer code word
  | unfinished
  -- no code word begins with the run
  | invalid
  deriving DecidableEq, Repr

-- Looks a run up in a table; of several equal code words the first one counts.
def lookup (table : List (List α × β)) (run : List α) : Match β :=
  match table.find? (·.1 == run) with
  | some (_, item) => .found item
  | none => if table.any (run.isPrefixOf ·.1) then .unfinished else .invalid

def isPrefixFree : List (List α × β) → Bool
  | [] => true
  | (code, _) :: rest =>
    rest.all (fun other => !code.isPrefixOf other.1 && !other.1.isPrefixOf code) &&
      isPrefixFree rest

-- What a stream of symbols reads as: its items, and the symbols of a last code word that is not
-- complete.
structure Reading (α β : Type) where
  items : List β
  pending : List α

-- `run` holds the symbols since the last complete code word, which began at `start`, and
-- `items` the items so far, the last one first.
def decodeFrom (table : List (List α × β)) (items : List β) (start : Nat) (run : List α) :
    List (Nat × α) → Except Nat (Reading α β)
  | [] => .ok ⟨items.reverse, run⟩
  | (offset, symbol) :: rest =>
    let start := if run.isEmpty then offset else start
    let run := run ++ [symbol]
    match lookup table run with
    | .found item => decodeFrom table (item :: items) start [] rest
    | .unfinished => decodeFrom table items start run rest
    | .invalid => .error start

def decode (table : List (List α × β)) (stream : List (Nat × α)) : Except Nat (Reading α β) :=
  decodeFrom table [] 0 [] stream

end Esoterica.PrefixCode
