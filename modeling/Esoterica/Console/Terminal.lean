import Esoterica.Console.Basic
import Esoterica.Text.Blank
import Esoterica.Text.Utf8

namespace Esoterica

open Text

-- Input is taken a line at a time, and a line that is no UTF-8 text is lost. The writer may have
-- room for a limited number of bytes only; output that does not fit is lost too.
structure Terminal where
  -- the bytes not yet taken from the reader
  unread : List UInt8
  -- what is left of the line taken last
  line : List Char := []
  -- how many bytes the writer still takes, if that is limited
  room : Option Nat := none
  -- the bytes that the writer has taken
  written : Array UInt8 := #[]
  -- whether the next character stands at the start of a line, as far as this console was asked
  -- to write
  atLineStart : Bool := true
  -- whether a read has met the end of the input
  ended : Bool := false
  journal : Array Entry := #[]

namespace Terminal

def note (t : Terminal) (e : Entry) : Terminal :=
  { t with journal := t.journal.push e }

def warn (t : Terminal) (text : String) : Terminal :=
  t.note ⟨.warn, text⟩

def output (t : Terminal) : String :=
  String.ofList (Utf8.decodeLossy t.written.toList)

-- Hands bytes to the writer, which takes as many as fit. Says whether all did.
def put (t : Terminal) (bytes : List UInt8) : Bool × Terminal :=
  match t.room with
  | none => (true, { t with written := t.written ++ bytes })
  | some room =>
    (bytes.length ≤ room,
      { t with room := some (room - bytes.length), written := t.written ++ bytes.take room })

-- Hands a text to the writer behind the console's back: where lines start is not followed.
def putText (t : Terminal) (text : List Char) (failure : String) : Terminal :=
  let (fits, t) := t.put (Utf8.encode text)
  if fits then t else t.warn (failure ++ ": full")

def write (t : Terminal) (text : List Char) : Terminal :=
  let t := t.putText text "writing host output failed"
  match text.getLast? with
  | some c => { t with atLineStart := c = '\n' }
  | none => t

def emit (t : Terminal) (c : Char) : Terminal :=
  t.write [c]

def emitLine (t : Terminal) (line : List Char) : Terminal :=
  (t.write line).write ['\n']

-- Asks the writer to pass on what it holds, which fails once it has no room.
def flush (t : Terminal) : Terminal :=
  if t.room = some 0 then t.warn "flushing host output failed: full" else t

def finishLine (t : Terminal) : Terminal :=
  (if t.atLineStart then t else t.emit '\n').flush

def takeLine (bytes : List UInt8) : List UInt8 × List UInt8 :=
  let line := bytes.takeWhile (· != 10)
  match bytes.dropWhile (· != 10) with
  | [] => (line, [])
  | feed :: rest => (line ++ [feed], rest)

-- Takes another line if nothing is left of the last one. Says whether there is something to read.
def fill (t : Terminal) : Bool × Terminal :=
  if !t.line.isEmpty then (true, t)
  else
    let t := t.flush
    if t.unread.isEmpty then (false, { t with ended := true })
    else
      let (line, rest) := takeLine t.unread
      let t := { t with unread := rest }
      match Utf8.decode line with
      | .ok line => (true, { t with line })
      | .error _ => (false, t.warn "reading host input failed: stream did not contain valid UTF-8")

def readChar (t : Terminal) : Option Char × Terminal :=
  match t.fill with
  | (false, t) => (none, t)
  | (true, t) =>
    match t.line with
    | [] => (none, t)
    | c :: rest => (some c, { t with line := rest })

-- Reads the rest of a line, without the line feed and carriage returns at its end.
def readLine (t : Terminal) : Option (List Char) × Terminal :=
  match t.fill with
  | (false, t) => (none, t)
  | (true, t) =>
    (some (dropEndWhile (fun c => c = '\n' || c = '\r') t.line), { t with line := [] })

instance : Console Terminal where
  emit := emit
  readChar := readChar
  readLine := readLine
  note := note

end Terminal

end Esoterica
