import Esoterica.Journal

namespace Esoterica

-- A console of type `κ`. Reading gives `none` when there is no more input.
class Console (κ : Type) where
  emit : κ → Char → κ
  readChar : κ → Option Char × κ
  -- One line without its end.
  readLine : κ → Option (List Char) × κ
  -- Adds an entry to the journal.
  note : κ → Entry → κ

namespace Console

variable {κ : Type} [Console κ]

def emitAll (console : κ) (text : List Char) : κ :=
  text.foldl emit console

def noteAll (console : κ) (entries : List Entry) : κ :=
  entries.foldl note console

end Console

end Esoterica
