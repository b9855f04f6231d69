import Esoterica.Files

namespace Esoterica

open Text

namespace Path

def steps : List Char → List (List Char)
  | [] => [[]]
  | c :: rest =>
    if c = '/' then [] :: steps rest
    else
      match steps rest with
      | [] => [[c]]
      | step :: others => (c :: step) :: others

def stays (step : List Char) : Bool :=
  step = [] || step = ['.']

-- The most bytes in a path, and in one step of it.
def limit : Nat := 4095

def stepLimit : Nat := 255

end Path

-- A directory that a path comes to: in the working directory, after the names that lead to it, or
-- somewhere else.
inductive Place where
  | inside (names : List (List Char))
  | outside

def Place.above : Place → Place
  | .inside [] => .outside
  | .inside names => .inside names.dropLast
  | .outside => .outside

structure Directory where
  files : List (List (List Char) × List UInt8)

namespace Directory

def ofFiles (files : List (String × List UInt8)) : Directory :=
  ⟨files.map fun (path, bytes) => ((Path.steps path.toList).filter (!Path.stays ·), bytes)⟩

-- Whether the names lead to a file, or to a directory with one below it.
def holdsBelow (d : Directory) (names : List (List Char)) : Bool :=
  d.files.any fun (path, _) => names.isPrefixOf path

-- A path may leave the working directory, but no name is known out there.
def follow (d : Directory) (place : Place) : List (List Char) → Except LoadFault (List UInt8)
  | [] => .error .directory
  | step :: rest =>
    if Path.stays step then d.follow place rest
    else if step = ['.', '.'] then d.follow place.above rest
    else if Path.stepLimit < (Utf8.encode step).length then .error .nameTooLong
    else
      match place with
      | .outside => .error .notFound
      | .inside names =>
        match d.files.lookup (names ++ [step]) with
        | some bytes => if rest = [] then .ok bytes else .error .notDirectory
        | none =>
          if d.holdsBelow (names ++ [step]) then d.follow (.inside (names ++ [step])) rest
          else .error .notFound

-- What is found under each path. The empty path leads nowhere, and one that begins with a slash
-- does not start in the directory.
def toFiles (d : Directory) : Files := fun path =>
  if Path.limit < path.utf8ByteSize then .error .nameTooLong
  else
    match path.toList with
    | [] => .error .notFound
    | '/' :: rest => d.follow .outside (Path.steps rest)
    | cs => d.follow (.inside []) (Path.steps cs)

end Directory

end Esoterica
