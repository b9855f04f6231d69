import Esoterica.Session

namespace Esoterica.CommandLine

open Text

structure Options where
  -- print the listing of the program and do not run it
  listing : Bool := false
  seed : Option UInt64 := none
  filter : Option Filter := none
  arguments : List String := []

inductive Refusal where
  -- help was asked for
  | help
  -- help was asked for, and an option follows
  | optionAfterHelp
  | unrecognized (argument : String)
  | missingValue (option : String)
  | badValue (option value reason : String)

namespace Refusal

-- What is wrong with the arguments. An empty line follows all complaints but one.
def complaint : Refusal → String
  | .help => ""
  | .optionAfterHelp => "Trailing arguments are not allowed after `help`.\n"
  | .unrecognized argument => "Unrecognized argument: " ++ argument ++ "\n\n"
  | .missingValue option => "No value provided for option '" ++ option ++ "'.\n\n"
  | .badValue option value reason =>
    "Error parsing option '" ++ option ++ "' with value '" ++ value ++ "': " ++ reason ++ "\n\n"

end Refusal

def helpText : String :=
  "Usage: esoxrt [-d] [--seed <seed>] [--log <log>] [--] [<args...>]\n" ++
  "\n" ++
  "Run or disassemble esoteric programs, without a file an interactive prompt is started\n" ++
  "\n" ++
  "Positional Arguments:\n" ++
  "  args              language code (bf, ook, sp, bt, ws or b93) followed by the\n" ++
  "                    program source\n" ++
  "\n" ++
  "Options:\n" ++
  "  -d, --disasm      print the listing instead of running the program\n" ++
  "  --seed            seed for Befunge-93's random direction\n" ++
  "  --log             log filter: off, error, warn, info, debug or trace\n" ++
  "  --help, help      display usage information\n" ++
  "\n"

def advice : String :=
  "Run esoxrt --help for more information.\n"

def duplicateReason : String :=
  "duplicate values provided"

def levelReason : String :=
  "attempted to convert a string that doesn't match an existing log level"

def Options.withSeed (o : Options) (value : String) : Except Refusal Options :=
  if o.seed.isSome then .error (.badValue "--seed" value duplicateReason)
  else
    match Decimal.readNat (UInt64.size - 1) value.toList with
    | .ok seed => .ok { o with seed := some seed.toUInt64 }
    | .error fault => .error (.badValue "--seed" value fault.message)

def Options.withFilter (o : Options) (value : String) : Except Refusal Options :=
  if o.filter.isSome then .error (.badValue "--log" value duplicateReason)
  else
    match Filter.ofName? value with
    | some filter => .ok { o with filter := some filter }
    | none => .error (.badValue "--log" value levelReason)

def Options.withArguments (o : Options) (arguments : List String) : Options :=
  { o with arguments := o.arguments ++ arguments }

def isOption (argument : String) : Bool :=
  argument.toList.head? = some '-'

-- What comes of a request for help that is followed by more arguments. Only options are refused,
-- and there are none after `--`.
def parseAfterHelp : List String → Refusal
  | [] => .help
  | "--" :: _ => .help
  | "--help" :: rest => parseAfterHelp rest
  | argument :: rest => if isOption argument then .optionAfterHelp else parseAfterHelp rest

-- The first argument that asks for help or cannot be used decides.
def parseOnto (o : Options) : List String → Except Refusal Options
  | [] => .ok o
  | "--help" :: rest => .error (parseAfterHelp rest)
  | "help" :: rest => .error (parseAfterHelp rest)
  | "--" :: rest => .ok (o.withArguments rest)
  | "-d" :: rest => parseOnto { o with listing := true } rest
  | "--disasm" :: rest => parseOnto { o with listing := true } rest
  | ["--seed"] => .error (.missingValue "--seed")
  | "--seed" :: value :: rest =>
    match o.withSeed value with
    | .error refusal => .error refusal
    | .ok o => parseOnto o rest
  | ["--log"] => .error (.missingValue "--log")
  | "--log" :: value :: rest =>
    match o.withFilter value with
    | .error refusal => .error refusal
    | .ok o => parseOnto o rest
  | argument :: rest =>
    if isOption argument then .error (.unrecognized argument)
    else parseOnto (o.withArguments [argument]) rest

def parse (arguments : List String) : Except Refusal Options :=
  parseOnto {} arguments

namespace Options

-- The journal keeps warnings and errors if nothing else is asked for.
def filterOrDefault (o : Options) : Filter :=
  o.filter.getD (.upTo .warn)

def seedOrDefault (o : Options) : UInt64 :=
  o.seed.getD 0

end Options

inductive Task where
  | session
  | run (lang : Language) (file : String)
  | list (lang : Language) (file : String)

inductive Fault where
  | badTarget
  | unsupported (code : String)
  | task (fault : Session.Fault)

def Fault.message : Fault → String
  | .badTarget => "expected both <lang> and <file>, or neither"
  | .unsupported code => Language.unsupportedMessage code
  | .task fault => fault.message

-- A language and a file make a task, and without them there is a session.
def Options.task (o : Options) : Except Fault Task :=
  match o.arguments with
  | [] => .ok .session
  | [code, file] =>
    match Language.ofCode? code with
    | none => .error (.unsupported code)
    | some lang => .ok (if o.listing then .list lang file else .run lang file)
  | _ => .error .badTarget

structure Ending where
  fault : Option Fault := none
  terminal : Terminal

-- Runs the program in a file. The last line of its output is ended unless the program fails.
def runFile (filter : Filter) (setting : Session.Setting) (bound : Nat) (lang : Language)
    (file : String) (t : Terminal) : Option Ending :=
  let t := Console.noteAll t (setting.files.entries filter file)
  match setting.files.readText file with
  | .error fault => some { fault := some (.task (.load fault)), terminal := t }
  | .ok text =>
    match lang.runLogged filter text setting.seed bound t with
    | none => none
    | some (.ok (), t) => some { terminal := t.finishLine }
    | some (.error fault, t) => some { fault := some (.task (.run fault)), terminal := t }

def printListing (filter : Filter) (setting : Session.Setting) (lang : Language) (file : String)
    (t : Terminal) : Ending :=
  let t := Console.noteAll t (Session.listEntries filter setting.files lang file)
  match Session.listFile setting.files lang file with
  | .error fault => { fault := some (.task fault), terminal := t }
  | .ok listing => { terminal := (t.put (Utf8.encode listing)).2 }

def Task.perform (filter : Filter) (setting : Session.Setting) (bound : Nat) (task : Task)
    (t : Terminal) : Option Ending :=
  match task with
  | .session => (Session.runLogged filter setting bound t).map fun t => { terminal := t }
  | .run lang file => runFile filter setting bound lang file t
  | .list lang file => some (printListing filter setting lang file t)

structure Result where
  exitCode : Nat
  output : String
  -- the journal, or a complaint about the arguments
  errors : String := ""
  report : Option String := none

def journalText (filter : Filter) (journal : List Entry) : String :=
  String.join ((journal.filter fun e => filter.admits e.level).map fun e => e.line ++ "\n")

def execute (arguments : List String) (files : Files) (input : List UInt8) (bound : Nat) :
    Option Result :=
  match parse arguments with
  | .error .help => some { exitCode := 0, output := helpText }
  | .error refusal => some { exitCode := 1, output := "", errors := refusal.complaint ++ advice }
  | .ok o =>
    let filter := o.filterOrDefault
    match o.task with
    | .error fault => some { exitCode := 1, output := "", report := some fault.message }
    | .ok task =>
      (task.perform filter ⟨o.seedOrDefault, files⟩ bound { unread := input }).map fun ending =>
        { exitCode := if ending.fault.isSome then 1 else 0
          output := ending.terminal.output
          errors := journalText filter ending.terminal.journal.toList
          report := ending.fault.map (·.message) }

end Esoterica.CommandLine
