
namespace Esoterica

-- Levels of a journal entry, the gravest first.
inductive Level where
  | error
  | warn
  | info
  | debug
  | trace
  deriving DecidableEq, Repr

namespace Level

def rank : Level → Nat
  | .error => 1
  | .warn => 2
  | .info => 3
  | .debug => 4
  | .trace => 5

def tag : Level → String
  | .error => "E"
  | .warn => "W"
  | .info => "I"
  | .debug => "D"
  | .trace => "T"

end Level

structure Entry where
  level : Level
  text : String
  deriving DecidableEq, Repr

def Entry.line (e : Entry) : String :=
  "[" ++ e.level.tag ++ "] " ++ e.text

-- Which entries are kept: those at a level or a graver one, or none at all.
inductive Filter where
  | off
  | upTo (level : Level)
  deriving DecidableEq, Repr

namespace Filter

def admits : Filter → Level → Bool
  | .off, _ => false
  | .upTo least, level => level.rank ≤ least.rank

def ofName? (name : String) : Option Filter :=
  match name.toLower with
  | "off" => some .off
  | "error" => some (.upTo .error)
  | "warn" => some (.upTo .warn)
  | "info" => some (.upTo .info)
  | "debug" => some (.upTo .debug)
  | "trace" => some (.upTo .trace)
  | _ => none

-- An entry whose text is made only if the filter keeps it.
def entry (filter : Filter) (level : Level) (text : Unit → String) : List Entry :=
  if filter.admits level then [⟨level, text ()⟩] else []

end Filter

end Esoterica
