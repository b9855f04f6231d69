import Esoterica.Journal
import Esoterica.Text.Utf8

namespace Esoterica

open Text

inductive LoadFault where
  | notFound
  | nulInName
  | nameTooLong
  -- a path goes on behind a file
  | notDirectory
  | directory
  -- the system refuses for a reason of its own
  | refused (reason : String)
  | notText (fault : Utf8.Fault)

def LoadFault.message : LoadFault → String
  | .notFound => "No such file or directory (os error 2)"
  | .nulInName => "file name contained an unexpected NUL byte"
  | .nameTooLong => "File name too long (os error 36)"
  | .notDirectory => "Not a directory (os error 20)"
  | .directory => "No such device (os error 19)"
  | .refused reason => reason
  | .notText fault => fault.message

abbrev Files := String → Except LoadFault (List UInt8)

namespace Files

def empty : Files := fun _ => .error .notFound

-- The bytes of a file. A name with a NUL is refused before any file is looked for.
def read (files : Files) (name : String) : Except LoadFault (List UInt8) :=
  if name.toList.contains '\x00' then .error .nulInName else files name

def readText (files : Files) (name : String) : Except LoadFault (List Char) :=
  match files.read name with
  | .error fault => .error fault
  | .ok bytes => (Utf8.decode bytes).mapError .notText

def entries (filter : Filter) (files : Files) (name : String) : List Entry :=
  match files.read name with
  | .error _ => []
  | .ok [] => []
  | .ok bytes => filter.entry .debug fun _ => s!"mapped {bytes.length} bytes of {name}"

end Files

end Esoterica
