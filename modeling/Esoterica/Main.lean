import Esoterica.CommandLine

namespace Esoterica.Main

open CommandLine

structure Driven (σ ρ : Type) where
  step : σ → Progress σ ρ
  terminal : σ → Terminal
  withTerminal : σ → Terminal → σ
  -- the file that the next step reads
  file? : σ → Option String

-- Passes on what a terminal has written and noted, and forgets it.
def drain (filter : Filter) (t : Terminal) : IO Terminal := do
  if t.written.isEmpty && t.journal.isEmpty then
    return t
  let out ← IO.getStdout
  out.write ⟨t.written⟩
  out.flush
  let err ← IO.getStderr
  err.putStr (journalText filter t.journal.toList)
  return { t with written := #[], journal := #[] }

-- Whether a code stands for the system's error of a number, which some calls negate.
def hasNumber (number code : UInt32) : Bool :=
  code = number || code = 0 - number

def readFile (name : String) : IO (Except LoadFault (List UInt8)) := do
  try
    let bytes ← IO.FS.readBinFile name
    return .ok bytes.toList
  catch e =>
    match e with
    | .noFileOrDirectory .. => return .error .notFound
    | .inappropriateType _ code _ =>
      return .error (if hasNumber 21 code then .directory else .notDirectory)
    | .invalidArgument _ code _ =>
      return .error (if hasNumber 36 code then .nameTooLong else .refused (toString e))
    | e => return .error (.refused (toString e))

-- The next line of standard input, with its line feed; at the end of the input what is left,
-- and then nothing. `line` holds the bytes that have been read of it, the last one first.
partial def nextLine (stdin : IO.FS.Stream) (line : List UInt8) : IO (List UInt8) := do
  let bytes ← stdin.read 1
  match bytes.toList with
  | [10] => return (10 :: line).reverse
  | [b] => nextLine stdin (b :: line)
  | _ => return line.reverse

-- Standard input is asked for a line when a step has met the end of what is there, and the step is
-- then taken again. An empty answer is the real end.
partial def drive {σ ρ : Type} (filter : Filter) (machine : Files → Driven σ ρ) (closed : Bool)
    (s : σ) : IO (ρ × Terminal) := do
  let files : Files ←
    match (machine Files.empty).file? s with
    | some name => do
      let content ← readFile name
      pure fun _ => content
    | none => pure Files.empty
  let driven := machine files
  let (result, after) :=
    match driven.step s with
    | .next after => (none, after)
    | .stop r after => (some r, after)
  if (driven.terminal after).ended && !closed then
    let line ← nextLine (← IO.getStdin) []
    let t := driven.terminal s
    drive filter machine line.isEmpty (driven.withTerminal s { t with unread := line })
  else
    let t ← drain filter (driven.terminal after)
    match result with
    | some r => return (r, t)
    | none => drive filter machine closed (driven.withTerminal after t)

def session (filter : Filter) (seed : UInt64) (files : Files) : Driven Session Unit where
  step := Session.stepLogged filter ⟨seed, files⟩
  terminal s := s.terminal
  withTerminal s t := { s with terminal := t }
  file? s := s.file?

def program (filter : Filter) (_ : Files) : Driven (Running × Terminal) (Except RunFault Unit) where
  step := Running.stepLogged filter
  terminal s := s.2
  withTerminal s t := (s.1, t)
  file? _ := none

def fail (fault : Fault) : IO UInt32 := do
  IO.eprintln s!"Error: {fault.message}"
  return 1

def perform (o : Options) (task : Task) : IO UInt32 := do
  let filter := o.filterOrDefault
  let seed := o.seedOrDefault
  match task with
  | .session =>
    let _ ← drive filter (session filter seed) false (Session.begin { unread := [] })
    return 0
  | .list lang file =>
    let content ← readFile file
    let ending := printListing filter ⟨seed, fun _ => content⟩ lang file { unread := [] }
    let _ ← drain filter ending.terminal
    match ending.fault with
    | some fault => fail fault
    | none => return 0
  | .run lang file =>
    let content ← readFile file
    let files : Files := fun _ => content
    let t ← drain filter (Console.noteAll { unread := [] : Terminal } (files.entries filter file))
    match files.readText file with
    | .error fault => fail (.task (.load fault))
    | .ok text =>
      let t ← drain filter (Console.noteAll t (lang.startEntries filter text))
      match lang.start text seed with
      | .error fault => fail (.task (.run fault))
      | .ok r =>
        match ← drive filter (program filter) false (r, t) with
        | (.ok (), t) =>
          let _ ← drain filter t.finishLine
          return 0
        | (.error fault, _) => fail (.task (.run fault))

end Esoterica.Main

open Esoterica Esoterica.CommandLine in
def main (arguments : List String) : IO UInt32 := do
  match parse arguments with
  | .error .help =>
    IO.print helpText
    return 0
  | .error refusal =>
    IO.eprint (refusal.complaint ++ advice)
    return 1
  | .ok o =>
    match o.task with
    | .error fault => Main.fail fault
    | .ok task => Main.perform o task
