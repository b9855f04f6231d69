import Esoterica.Befunge.Machine
import Esoterica.Brainfuck.Machine
import Esoterica.Brainfuck.Ook
import Esoterica.Brainfuck.Spoon
import Esoterica.Byter
import Esoterica.Whitespace.Machine

namespace Esoterica

inductive Language where
  | brainfuck
  | ook
  | spoon
  | byter
  | whitespace
  | befunge
  deriving DecidableEq, Repr

inductive RunFault where
  | whitespace (fault : Whitespace.Fault)
  | brainfuck (fault : Brainfuck.Fault)
  | spoon (fault : Brainfuck.Spoon.Fault)
  | byter (fault : Byter.Fault)
  | befunge (fault : Befunge.Fault)
  deriving DecidableEq, Repr

def RunFault.message : RunFault → String
  | .whitespace fault => fault.message
  | .brainfuck fault => fault.message
  | .spoon fault => fault.message
  | .byter fault => fault.message
  | .befunge fault => fault.message

inductive Running where
  | whitespace (program : Whitespace.Program) (machine : Whitespace.Machine)
  | brainfuck (program : Brainfuck.Program) (machine : Brainfuck.Machine)
  | byter (walk : Byter.Walk)
  | befunge (machine : Befunge.Machine)

namespace Running

variable {κ : Type} [Console κ]

def step (s : Running × κ) : Progress (Running × κ) (Except RunFault Unit) :=
  match s with
  | (.whitespace p m, c) =>
    (Whitespace.Machine.step p 0 (m, c)).map (fun (m, c) => (.whitespace p m, c)) fun
      | .ok _ => .ok ()
      | .error fault => .error (.whitespace fault)
  | (.brainfuck p m, c) =>
    (Brainfuck.Machine.step p (m, c)).map (fun (m, c) => (.brainfuck p m, c))
      (·.mapError .brainfuck)
  | (.byter w, c) =>
    (Byter.Walk.step (w, c)).map (fun (w, c) => (.byter w, c)) (·.mapError .byter)
  | (.befunge m, c) =>
    (Befunge.Machine.step (m, c)).map (fun (m, c) => (.befunge m, c)) (·.mapError .befunge)

def entries (filter : Filter) : Running → List Entry
  | .whitespace p m => m.entries filter p
  | .brainfuck p m => m.entries filter p
  | .byter w => w.entries filter
  | .befunge m => m.entries filter

def stepLogged (filter : Filter) (s : Running × κ) :
    Progress (Running × κ) (Except RunFault Unit) :=
  step (s.1, Console.noteAll s.2 (entries filter s.1))

def run (bound : Nat) (r : Running) (c : κ) : Option (Except RunFault Unit × Running × κ) :=
  runFor step bound (r, c)

def runLogged (filter : Filter) (bound : Nat) (r : Running) (c : κ) :
    Option (Except RunFault Unit × Running × κ) :=
  runFor (stepLogged filter) bound (r, c)

end Running

namespace Language

def all : List Language :=
  [brainfuck, ook, spoon, byter, whitespace, befunge]

def code : Language → String
  | brainfuck => "bf"
  | ook => "ook"
  | spoon => "sp"
  | byter => "bt"
  | whitespace => "ws"
  | befunge => "b93"

def title : Language → String
  | brainfuck => "Brainfuck"
  | ook => "Ook!"
  | spoon => "Spoon"
  | byter => "Byter"
  | whitespace => "Whitespace"
  | befunge => "Befunge-93"

def ofCode? (code : String) : Option Language :=
  all.find? (·.code == code)

-- What is said of a code that no language has.
def unsupportedMessage (code : String) : String :=
  code ++ " is not supported"

def hasListing (lang : Language) : Bool :=
  lang == whitespace

def startBrainfuck (text : List Char) : Except RunFault Running :=
  match Brainfuck.Program.ofText text with
  | .ok p => .ok (.brainfuck p {})
  | .error fault => .error (.brainfuck fault)

-- Makes a text ready to run. The seed decides the random turns of Befunge-93.
def start (lang : Language) (text : List Char) (seed : UInt64) : Except RunFault Running :=
  match lang with
  | .brainfuck => startBrainfuck text
  | .ook => startBrainfuck (Brainfuck.Ook.decode text)
  | .spoon =>
    match Brainfuck.Spoon.decode text with
    | .ok text => startBrainfuck text
    | .error fault => .error (.spoon fault)
  | .byter =>
    match Byter.Grid.ofText text with
    | .ok grid => .ok (.byter { grid })
    | .error fault => .error (.byter fault)
  | .whitespace =>
    match Whitespace.Program.ofSource (Text.Utf8.encode text).toArray with
    | .ok p => .ok (.whitespace p {})
    | .error fault => .error (.whitespace (.malformed fault.offset))
  | .befunge => .ok (.befunge { field := .ofText text, random := ⟨seed⟩ })

def startEntries (filter : Filter) (lang : Language) (text : List Char) : List Entry :=
  filter.entry .debug (fun _ =>
    let size := (Text.Utf8.encode text).length
    "running " ++ lang.title ++ s!" program of {size} bytes") ++
  match lang with
  | .spoon => Brainfuck.Spoon.entries filter text
  | .whitespace =>
    Whitespace.JumpTable.entries filter (Whitespace.scan (Text.Utf8.encode text).toArray 0)
  | _ => []

variable {κ : Type} [Console κ]

def run (lang : Language) (text : List Char) (seed : UInt64) (bound : Nat) (c : κ) :
    Option (Except RunFault Unit × κ) :=
  match lang.start text seed with
  | .error fault => some (.error fault, c)
  | .ok r => (r.run bound c).map fun (result, _, c) => (result, c)

def runLogged (filter : Filter) (lang : Language) (text : List Char) (seed : UInt64) (bound : Nat)
    (c : κ) : Option (Except RunFault Unit × κ) :=
  let c := Console.noteAll c (lang.startEntries filter text)
  match lang.start text seed with
  | .error fault => some (.error fault, c)
  | .ok r => (r.runLogged filter bound c).map fun (result, _, c) => (result, c)

end Language

end Esoterica
