import Esoterica.Console.Terminal
import Esoterica.Files
import Esoterica.Language
import Esoterica.Whitespace.Listing

namespace Esoterica

open Text

namespace Session

inductive Fault where
  | missingLanguage
  | unsupported (code : String)
  | missingFile (command : String)
  | noListing (lang : Language)
  | load (fault : LoadFault)
  | scan (fault : Whitespace.ScanFault)
  | run (fault : RunFault)

def Fault.message : Fault → String
  | .missingLanguage => "missing language, see `help`"
  | .unsupported code => Language.unsupportedMessage code
  | .missingFile command => s!"usage: {command} <lang> <file>"
  | .noListing lang => lang.title ++ " has no disassembler"
  | .load fault => fault.message
  | .scan fault => fault.message
  | .run fault => fault.message

inductive Command where
  | nothing
  | exit
  | load (lang : Language) (file : String)
  | disasm (lang : Language) (file : String)
  | start (lang : Language)
  | help
  | clear
  | unknown

namespace Command

def readLanguage : List String → Except Fault Language
  | [] => .error .missingLanguage
  | code :: _ =>
    match Language.ofCode? code with
    | some lang => .ok lang
    | none => .error (.unsupported code)

-- The language and the file that the words after `command` begin with.
def readTarget (command : String) (words : List String) : Except Fault (Language × String) :=
  match readLanguage words with
  | .error fault => .error fault
  | .ok lang =>
    match words with
    | _ :: file :: _ => .ok (lang, file)
    | _ => .error (.missingFile command)

def ofLine (line : List Char) : Except Fault Command :=
  match (words line).map String.ofList with
  | [] => .ok .nothing
  | command :: rest =>
    match command with
    | "exit" => .ok .exit
    | "load" => (readTarget command rest).map fun (lang, file) => .load lang file
    | "disasm" => (readTarget command rest).map fun (lang, file) => .disasm lang file
    | "start" => (readLanguage rest).map .start
    | "help" => .ok .help
    | "clear" => .ok .clear
    | _ => .ok .unknown

end Command

inductive Phase where
  | prompt
  | listen
  | obey (line : List Char)
  -- takes a program line by line; the lines so far, the last one first
  | collect (lang : Language) (lines : List (List Char))
  | launch (lang : Language) (text : List Char)
  | work (program : Running)

structure Setting where
  seed : UInt64
  files : Files

def banner : String :=
  "Interactive esoteric code interpreter v0.1.0"

def helpText : String :=
  "To interpret code enter `start <lang>` and write the program, finish it with a line `end`.\n" ++
  "To load a file enter `load <lang> <file>`. To exit enter `exit`, `clear` wipes the screen.\n" ++
  "Languages with an interpreter:\n" ++
  "\n" ++
  "  Brainfuck  -> bf\n" ++
  "  Ook!       -> ook\n" ++
  "  Spoon      -> sp\n" ++
  "  Byter      -> bt\n" ++
  "  Whitespace -> ws\n" ++
  "  Befunge-93 -> b93\n" ++
  "\n" ++
  "To turn a program into an assembly-like listing enter `disasm <lang> <file>`.\n" ++
  "Languages with a disassembler:\n" ++
  "\n" ++
  "  Whitespace -> ws"

def unknownCommand : String :=
  "Unknown command. See `help` for usage information."

-- Wipes a screen and puts the cursor into its first corner.
def clearSequence : String :=
  "\x1b[2J\x1b[H"

def listFile (files : Files) (lang : Language) (file : String) : Except Fault (List Char) :=
  if lang.hasListing then
    match files.readText file with
    | .error fault => .error (.load fault)
    | .ok text => (Whitespace.disassemble (Utf8.encode text).toArray).mapError .scan
  else .error (.noListing lang)

def listEntries (filter : Filter) (files : Files) (lang : Language) (file : String) :
    List Entry :=
  if lang.hasListing then
    files.entries filter file ++
      match files.readText file with
      | .error _ => []
      | .ok text => Whitespace.listingEntries filter (Utf8.encode text).toArray
  else []

end Session

open Session

structure Session where
  phase : Phase
  terminal : Terminal

namespace Session

def begin (terminal : Terminal) : Session :=
  ⟨.prompt, terminal.emitLine banner.toList⟩

def proceed (terminal : Terminal) : Progress Session Unit :=
  .next ⟨.prompt, terminal⟩

-- Says what is wrong and prompts again.
def complain (fault : Fault) (terminal : Terminal) : Progress Session Unit :=
  proceed (terminal.finishLine.emitLine ("Error: " ++ fault.message).toList)

def enter (phase : Phase) (terminal : Terminal) : Progress Session Unit :=
  .next ⟨phase, terminal⟩

def leave (terminal : Terminal) : Progress Session Unit :=
  .stop () ⟨.prompt, terminal.flush⟩

def obey (setting : Setting) (line : List Char) (t : Terminal) : Progress Session Unit :=
  match Command.ofLine line with
  | .error fault => complain fault t
  | .ok .nothing => proceed t
  | .ok .exit => leave t
  | .ok (.load lang file) =>
    match setting.files.readText file with
    | .error fault => complain (.load fault) t
    | .ok text => enter (.launch lang text) t
  | .ok (.disasm lang file) =>
    match listFile setting.files lang file with
    | .error fault => complain fault t
    | .ok listing => proceed (t.emitLine (trimEnd listing))
  | .ok (.start lang) => enter (.collect lang []) t
  | .ok .help => proceed (t.emitLine helpText.toList)
  | .ok .clear => proceed (t.putText clearSequence.toList "clearing screen failed")
  | .ok .unknown => proceed (t.emitLine unknownCommand.toList)

-- The text of the lines that were collected, each with a line feed.
def textOf (lines : List (List Char)) : List Char :=
  lines.reverse.flatMap (· ++ ['\n'])

def step (setting : Setting) (s : Session) : Progress Session Unit :=
  let ⟨phase, t⟩ := s
  match phase with
  | .prompt => enter .listen (t.putText "> ".toList "writing prompt failed").flush
  | .listen =>
    match t.readLine with
    | (some line, t) => enter (.obey line) t
    | (none, t) => leave t
  | .obey line => obey setting line t
  | .collect lang lines =>
    match t.readLine with
    | (some line, t) =>
      if line = "end".toList then enter (.launch lang (textOf lines)) t
      else enter (.collect lang (line :: lines)) t
    | (none, t) => enter (.launch lang (textOf lines)) t
  | .launch lang text =>
    match lang.start text setting.seed with
    | .ok program => enter (.work program) t
    | .error fault => complain (.run fault) t
  | .work program =>
    match Running.step (program, t) with
    | .next (program, t) => enter (.work program) t
    | .stop (.ok ()) (_, t) => proceed t.finishLine
    | .stop (.error fault) (_, t) => complain (.run fault) t

def entries (filter : Filter) (setting : Setting) (s : Session) : List Entry :=
  match s.phase with
  | .obey line =>
    match Command.ofLine line with
    | .ok (.load _ file) => setting.files.entries filter file
    | .ok (.disasm lang file) => listEntries filter setting.files lang file
    | _ => []
  | .launch lang text => lang.startEntries filter text
  | .work program => program.entries filter
  | _ => []

-- The file that the next step reads.
def file? (s : Session) : Option String :=
  match s.phase with
  | .obey line =>
    match Command.ofLine line with
    | .ok (.load _ file) => some file
    | .ok (.disasm lang file) => if lang.hasListing then some file else none
    | _ => none
  | _ => none

def noteAll (s : Session) (entries : List Entry) : Session :=
  { s with terminal := Console.noteAll s.terminal entries }

def stepLogged (filter : Filter) (setting : Setting) (s : Session) : Progress Session Unit :=
  step setting (s.noteAll (s.entries filter setting))

def run (setting : Setting) (bound : Nat) (terminal : Terminal) : Option Terminal :=
  (runFor (step setting) bound (begin terminal)).map fun (_, s) => s.terminal

def runLogged (filter : Filter) (setting : Setting) (bound : Nat) (terminal : Terminal) :
    Option Terminal :=
  (runFor (stepLogged filter setting) bound (begin terminal)).map fun (_, s) => s.terminal

end Session

end Esoterica
