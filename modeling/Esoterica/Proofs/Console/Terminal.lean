import Esoterica.Proofs.Console.Agreement
import Esoterica.Proofs.Console.Move

namespace Esoterica

open Console Text

namespace Terminal

section Ended

variable (t : Terminal) (text : List Char) (failure : String)

@[simp]
theorem ended_putText : (t.putText text failure).ended = t.ended := by
  unfold putText put
  cases t.room with
  | none => rfl
  | some room =>
    dsimp only
    split <;> rfl

@[simp]
theorem ended_write : (t.write text).ended = t.ended := by
  unfold write
  dsimp only
  split <;> simp

@[simp]
theorem ended_flush : t.flush.ended = t.ended := by
  unfold flush
  split <;> rfl

@[simp]
theorem ended_emitLine : (t.emitLine text).ended = t.ended := by
  simp [emitLine]

@[simp]
theorem ended_finishLine : t.finishLine.ended = t.ended := by
  unfold finishLine
  split <;> simp [emit]

end Ended

section Read

variable (t : Terminal)

theorem readChar_eq :
    t.readChar = if t.fill.1 then
        (t.fill.2.line.head?, { t.fill.2 with line := t.fill.2.line.tail })
      else (none, t.fill.2) := by
  unfold readChar
  obtain ⟨filled, t'⟩ := t.fill
  cases filled with
  | false => rfl
  | true =>
    obtain ⟨unread, line, room, written, start, ended, journal⟩ := t'
    cases line <;> rfl

theorem readLine_eq :
    t.readLine = if t.fill.1 then
        (some (dropEndWhile (fun c => c = '\n' || c = '\r') t.fill.2.line),
          { t.fill.2 with line := [] })
      else (none, t.fill.2) := by
  unfold readLine
  obtain ⟨filled, t'⟩ := t.fill
  cases filled <;> rfl

@[simp]
theorem ended_readChar : t.readChar.2.ended = t.fill.2.ended := by
  rw [readChar_eq]
  split <;> rfl

@[simp]
theorem ended_readLine : t.readLine.2.ended = t.fill.2.ended := by
  rw [readLine_eq]
  split <;> rfl

end Read

section Unlimited

variable {t : Terminal}

theorem putText_of_unlimited (h : t.room = none) (text : List Char) (failure : String) :
    t.putText text failure = { t with written := t.written ++ Utf8.encode text } := by
  simp [putText, put, h]

theorem emitLine_of_unlimited (h : t.room = none) (line : List Char) :
    t.emitLine line =
      { t with written := t.written ++ Utf8.encode (line ++ ['\n']), atLineStart := true } := by
  unfold emitLine write
  rw [putText_of_unlimited h]
  cases line.getLast? <;> simp [putText, put, h, Utf8.encode_append, ← Array.toList_inj]

theorem flush_of_unlimited (h : t.room = none) : t.flush = t := by
  simp [flush, h]

theorem fill_of_end (hroom : t.room = none) (hline : t.line = []) (hunread : t.unread = []) :
    t.fill = (false, { t with ended := true }) := by
  simp [fill, flush_of_unlimited hroom, hline, hunread]

theorem fill_of_feed {line rest : List UInt8} (hroom : t.room = none) (hline : t.line = [])
    (hfeed : 10 ∉ line) (hunread : t.unread = line ++ 10 :: rest) :
    t.fill = match Utf8.decode (line ++ [10]) with
      | .ok text => (true, { t with unread := rest, line := text })
      | .error _ => (false, { t with unread := rest }.warn
          "reading host input failed: stream did not contain valid UTF-8") := by
  cases hdecode : Utf8.decode (line ++ [10]) <;>
    simp [fill, flush_of_unlimited hroom, hline, hunread, takeLine_feed hfeed, hdecode]

end Unlimited

-- `R` is kept by all that a terminal can be asked for. The next line has to be taken alike only
-- while `g` holds of whether the end of the input has been met.
structure Kept (g : Bool → Prop) (R : Terminal → Terminal → Prop) : Prop where
  line_eq {s t : Terminal} (h : R s t) : t.line = s.line
  start_eq {s t : Terminal} (h : R s t) : t.atLineStart = s.atLineStart
  putText {s t : Terminal} (text : List Char) (failure : String) (h : R s t) :
    R (s.putText text failure) (t.putText text failure)
  flush {s t : Terminal} (h : R s t) : R s.flush t.flush
  fill {s t : Terminal} (h : R s t) (hg : g s.fill.2.ended) :
    t.fill.1 = s.fill.1 ∧ R s.fill.2 t.fill.2
  withLine {s t : Terminal} (line : List Char) (h : R s t) : R { s with line } { t with line }
  withStart {s t : Terminal} (start : Bool) (h : R s t) :
    R { s with atLineStart := start } { t with atLineStart := start }

namespace Kept

variable {g : Bool → Prop} {R : Terminal → Terminal → Prop} {s t : Terminal}

theorem write (h : Kept g R) (text : List Char) (hst : R s t) :
    R (s.write text) (t.write text) := by
  have hput := h.putText text "writing host output failed" hst
  unfold Terminal.write
  dsimp only
  split
  · exact h.withStart _ hput
  · exact hput

theorem emitLine (h : Kept g R) (line : List Char) (hst : R s t) :
    R (s.emitLine line) (t.emitLine line) :=
  h.write ['\n'] (h.write line hst)

theorem finishLine (h : Kept g R) (hst : R s t) : R s.finishLine t.finishLine := by
  unfold Terminal.finishLine
  rw [h.start_eq hst]
  split
  · exact h.flush hst
  · exact h.flush (h.write ['\n'] hst)

theorem emitAll (h : Kept g R) (text : List Char) (hst : R s t) :
    R (Console.emitAll s text) (Console.emitAll t text) := by
  induction text generalizing s t with
  | nil => exact hst
  | cons c text ih => exact ih (h.write [c] hst)

theorem readChar (h : Kept g R) (hst : R s t) (hg : g s.readChar.2.ended) :
    t.readChar.1 = s.readChar.1 ∧ R s.readChar.2 t.readChar.2 := by
  rw [ended_readChar] at hg
  obtain ⟨hfill, hR⟩ := h.fill hst hg
  have hline := h.line_eq hR
  rw [Terminal.readChar_eq, Terminal.readChar_eq, hfill]
  split
  · rw [hline]
    exact ⟨rfl, h.withLine _ hR⟩
  · exact ⟨rfl, hR⟩

theorem readLine (h : Kept g R) (hst : R s t) (hg : g s.readLine.2.ended) :
    t.readLine.1 = s.readLine.1 ∧ R s.readLine.2 t.readLine.2 := by
  rw [ended_readLine] at hg
  obtain ⟨hfill, hR⟩ := h.fill hst hg
  have hline := h.line_eq hR
  rw [Terminal.readLine_eq, Terminal.readLine_eq, hfill]
  split
  · rw [hline]
    exact ⟨rfl, h.withLine _ hR⟩
  · exact ⟨rfl, hR⟩

theorem perform {α : Type} (h : Kept g R) (move : Move α) (hst : R s t)
    (hg : g (move.perform s).2.ended) :
    (move.perform t).1 = (move.perform s).1 ∧ R (move.perform s).2 (move.perform t).2 := by
  cases move with
  | tell text next => exact ⟨rfl, h.emitAll text hst⟩
  | askChar next =>
    obtain ⟨hanswer, hR⟩ := h.readChar hst hg
    exact ⟨congrArg next hanswer, hR⟩
  | askLine next =>
    obtain ⟨hanswer, hR⟩ := h.readLine hst hg
    exact ⟨congrArg next hanswer, hR⟩

end Kept

end Terminal

-- What a terminal's writer has taken and how much it still takes.
structure Writer where
  room : Option Nat
  written : Array UInt8

namespace Writer

def put (w : Writer) (bytes : List UInt8) : Writer :=
  match w.room with
  | none => { w with written := w.written ++ bytes }
  | some room => ⟨some (room - bytes.length), w.written ++ bytes.take room⟩

theorem put_of_unlimited {w : Writer} (h : w.room = none) (bytes : List UInt8) :
    w.put bytes = ⟨none, w.written ++ bytes⟩ := by
  simp only [put, h]

theorem put_of_limited {w : Writer} {room : Nat} (h : w.room = some room) (bytes : List UInt8) :
    w.put bytes = ⟨some (room - bytes.length), w.written ++ bytes.take room⟩ := by
  simp only [put, h]

end Writer

namespace Terminal

def writer (t : Terminal) : Writer :=
  ⟨t.room, t.written⟩

-- The two terminals have the same to read and stand at the same place of a line, and `W` relates
-- their writers.
structure Twins (W : Writer → Writer → Prop) (s t : Terminal) : Prop where
  unread : t.unread = s.unread
  line : t.line = s.line
  start : t.atLineStart = s.atLineStart
  ended : t.ended = s.ended
  writers : W s.writer t.writer

section Twins

variable {W : Writer → Writer → Prop} {s t : Terminal}

-- All that writing behind the console's back changes, apart from the journal.
theorem putText_fields (t : Terminal) (text : List Char) (failure : String) :
    (t.putText text failure).unread = t.unread ∧ (t.putText text failure).line = t.line ∧
      (t.putText text failure).atLineStart = t.atLineStart ∧
      (t.putText text failure).writer = t.writer.put (Utf8.encode text) := by
  unfold putText put Writer.put writer
  cases t.room with
  | none => exact ⟨rfl, rfl, rfl, rfl⟩
  | some room =>
    dsimp only
    split <;> exact ⟨rfl, rfl, rfl, rfl⟩

theorem flush_fields (t : Terminal) :
    t.flush.unread = t.unread ∧ t.flush.line = t.line ∧ t.flush.atLineStart = t.atLineStart ∧
      t.flush.writer = t.writer := by
  unfold flush
  split <;> exact ⟨rfl, rfl, rfl, rfl⟩

theorem Twins.flush (h : Twins W s t) : Twins W s.flush t.flush := by
  obtain ⟨hunread, hline, hstart, hwriter⟩ := flush_fields s
  obtain ⟨hunread', hline', hstart', hwriter'⟩ := flush_fields t
  refine ⟨?_, ?_, ?_, ?_, ?_⟩
  · rw [hunread, hunread', h.unread]
  · rw [hline, hline', h.line]
  · rw [hstart, hstart', h.start]
  · rw [ended_flush, ended_flush, h.ended]
  · rw [hwriter, hwriter']
    exact h.writers

theorem Twins.fill (h : Twins W s t) : t.fill.1 = s.fill.1 ∧ Twins W s.fill.2 t.fill.2 := by
  have hflush := h.flush
  unfold Terminal.fill
  rw [h.line]
  split
  · exact ⟨rfl, h⟩
  dsimp only
  rw [hflush.unread]
  split
  · exact ⟨rfl, rfl, hflush.line, hflush.start, rfl, hflush.writers⟩
  split
  · exact ⟨rfl, rfl, rfl, hflush.start, hflush.ended, hflush.writers⟩
  · exact ⟨rfl, rfl, hflush.line, hflush.start, hflush.ended, hflush.writers⟩

-- What two writers hold has no say in what is read.
theorem kept_twins (hput : ∀ v w bytes, W v w → W (v.put bytes) (w.put bytes)) :
    Kept (fun _ => True) (Twins W) where
  line_eq h := h.line
  start_eq h := h.start
  putText {s t} text failure h := by
    obtain ⟨hunread, hline, hstart, hwriter⟩ := putText_fields s text failure
    obtain ⟨hunread', hline', hstart', hwriter'⟩ := putText_fields t text failure
    refine ⟨?_, ?_, ?_, ?_, ?_⟩
    · rw [hunread, hunread', h.unread]
    · rw [hline, hline', h.line]
    · rw [hstart, hstart', h.start]
    · rw [ended_putText, ended_putText, h.ended]
    · rw [hwriter, hwriter']
      exact hput _ _ _ h.writers
  flush h := h.flush
  fill h _ := h.fill
  withLine line h := ⟨h.unread, rfl, h.start, h.ended, h.writers⟩
  withStart start h := ⟨h.unread, h.line, rfl, h.ended, h.writers⟩

end Twins

section Start

variable (t : Terminal) (text : List Char) (failure : String)

@[simp]
theorem atLineStart_putText : (t.putText text failure).atLineStart = t.atLineStart :=
  (t.putText_fields text failure).2.2.1

@[simp]
theorem atLineStart_flush : t.flush.atLineStart = t.atLineStart :=
  t.flush_fields.2.2.1

@[simp]
theorem atLineStart_emitLine : (t.emitLine text).atLineStart = true :=
  rfl

@[simp]
theorem atLineStart_finishLine : t.finishLine.atLineStart = true := by
  rw [finishLine, atLineStart_flush]
  split
  · assumption
  · rfl

@[simp]
theorem atLineStart_readLine : t.readLine.2.atLineStart = t.atLineStart := by
  have hfill : t.fill.2.atLineStart = t.atLineStart := by
    unfold fill
    split
    · rfl
    dsimp only
    split
    · simp
    split <;> simp [warn, note]
  rw [readLine_eq]
  split <;> exact hfill

end Start

end Terminal

end Esoterica
