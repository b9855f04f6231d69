import Esoterica.Language
import Esoterica.Proofs.Brainfuck.TrailingComment
import Esoterica.Proofs.Text.Words

namespace Esoterica

open Text

namespace Language

variable {κ : Type} [Console κ] {lang : Language} {seed : UInt64} {c c' : κ}
  {r : Except RunFault Unit}

-- The program comes to an end, if its bound is large enough, with the result `r` and `c'` for its
-- console.
def Finishes (lang : Language) (text : List Char) (seed : UInt64) (c : κ)
    (r : Except RunFault Unit) (c' : κ) : Prop :=
  ∃ bound, lang.run text seed bound c = some (r, c')

theorem finishes_of_error {text : List Char} {fault : RunFault}
    (h : lang.start text seed = .error fault) :
    lang.Finishes text seed c r c' ↔ r = .error fault ∧ c' = c := by
  simp [Finishes, run, h, eq_comm]

theorem finishes_of_ok {text : List Char} {program : Running}
    (h : lang.start text seed = .ok program) :
    lang.Finishes text seed c r c' ↔
      ∃ program', Halts Running.step (program, c) (r, program', c') := by
  simp only [Finishes, run, h, Running.run, Halts, Option.map_eq_some_iff, Prod.exists,
    Prod.mk.injEq]
  constructor
  · rintro ⟨bound, _, program', _, hrun, rfl, rfl⟩
    exact ⟨program', bound, hrun⟩
  · rintro ⟨program', bound, hrun⟩
    exact ⟨bound, r, program', c', hrun, rfl, rfl⟩

theorem finishes_congr {text text' : List Char} (h : lang.start text seed = lang.start text' seed) :
    lang.Finishes text seed c r c' ↔ lang.Finishes text' seed c r c' := by
  simp only [Finishes, run, h]

end Language

section Start

variable (text : List Char)

theorem Brainfuck.Ook.decode_append_feed :
    Brainfuck.Ook.decode (text ++ ['\n']) = Brainfuck.Ook.decode text := by
  have hmark : Brainfuck.Ook.isMark '\n' = false := rfl
  simp [Brainfuck.Ook.decode, hmark]

theorem Brainfuck.Spoon.decode_append_feed :
    Brainfuck.Spoon.decode (text ++ ['\n']) = Brainfuck.Spoon.decode text := by
  have hdigit : Brainfuck.Spoon.digit? 10 = none := rfl
  simp [Brainfuck.Spoon.decode, Brainfuck.Spoon.read, Brainfuck.Spoon.digitsFrom,
    Utf8.encode_append, List.zipIdx_append, hdigit]

theorem Byter.Grid.ofText_append_feed :
    Byter.Grid.ofText (text ++ ['\n']) = Byter.Grid.ofText text := by
  have hfilter : (text ++ ['\n']).filter (Byter.commands.contains ·) =
      text.filter (Byter.commands.contains ·) := by
    rw [List.filter_append]
    exact List.append_nil _
  simp only [Byter.Grid.ofText, hfilter]

theorem Befunge.Field.ofText_endLine {text : List Char} (hreturn : '\r' ∉ text) :
    Befunge.Field.ofText (endLine text) = Befunge.Field.ofText text := by
  simp only [Befunge.Field.ofText, Befunge.Field.rowsOf, lines_endLine hreturn]

end Start

namespace Language

variable {κ : Type} [Console κ] {seed : UInt64} {c c' : κ} {r : Except RunFault Unit}

theorem halts_brainfuck_iff {p : Brainfuck.Program} {m : Brainfuck.Machine} :
    (∃ program, Halts Running.step (.brainfuck p m, c) (r, program, c')) ↔
      ∃ r', (∃ m', Halts (Brainfuck.Machine.step p) (m, c) (r', m', c')) ∧
        r = r'.mapError .brainfuck := by
  have hstep : ∀ x : Brainfuck.Machine × κ, Running.step (.brainfuck p x.1, x.2) =
      (Brainfuck.Machine.step p x).map (fun x => (.brainfuck p x.1, x.2)) (·.mapError .brainfuck) :=
    fun _ => rfl
  constructor
  · rintro ⟨program, h⟩
    obtain ⟨r', ⟨m', _⟩, h', heq⟩ := (halts_map_iff hstep (s := (m, c))).mp h
    cases heq
    exact ⟨r', ⟨m', h'⟩, rfl⟩
  · rintro ⟨r', ⟨m', h⟩, rfl⟩
    exact ⟨_, (halts_map_iff hstep (s := (m, c))).mpr ⟨r', _, h, rfl⟩⟩

theorem finishes_append_feed_brainfuck (text : List Char) :
    brainfuck.Finishes (text ++ ['\n']) seed c r c' ↔ brainfuck.Finishes text seed c r c' := by
  have hread := Brainfuck.ofText_append_feed text
  cases hp : Brainfuck.Program.ofText text with
  | error fault =>
    rw [hp] at hread
    refine finishes_congr ?_
    simp only [start, startBrainfuck, hp, hread]
    rfl
  | ok p =>
    rw [hp] at hread
    have hstart : brainfuck.start text seed = .ok (.brainfuck p {}) := by
      simp only [start, startBrainfuck, hp]
    have hstart' : brainfuck.start (text ++ ['\n']) seed = .ok (.brainfuck p.remarked {}) := by
      simp only [start, startBrainfuck, hread]
      rfl
    have hpointer : ({} : Brainfuck.Machine).pointer.toNat < Brainfuck.tapeLength := by decide
    rw [finishes_of_ok hstart, finishes_of_ok hstart', halts_brainfuck_iff, halts_brainfuck_iff]
    simp only [Brainfuck.halts_remarked_iff hpointer]

theorem finishes_endLine_of_append_feed {lang : Language} {text : List Char}
    (h : lang.Finishes (text ++ ['\n']) seed c r c' ↔ lang.Finishes text seed c r c') :
    lang.Finishes (endLine text) seed c r c' ↔ lang.Finishes text seed c r c' := by
  obtain heq | heq := endLine_eq_or text
  · rw [heq]
  · rw [heq]
    exact h

-- Only Whitespace minds whether the last line has been ended.
theorem finishes_endLine_iff {lang : Language} (hlang : lang ≠ .whitespace) {text : List Char}
    (hreturn : '\r' ∉ text) :
    lang.Finishes (endLine text) seed c r c' ↔ lang.Finishes text seed c r c' := by
  cases lang with
  | whitespace => exact absurd rfl hlang
  | brainfuck => exact finishes_endLine_of_append_feed (finishes_append_feed_brainfuck text)
  | ook =>
    have hstart : ook.start (text ++ ['\n']) seed = ook.start text seed := by
      simp only [start, Brainfuck.Ook.decode_append_feed]
    exact finishes_endLine_of_append_feed (finishes_congr hstart)
  | spoon =>
    have hstart : spoon.start (text ++ ['\n']) seed = spoon.start text seed := by
      simp only [start, Brainfuck.Spoon.decode_append_feed]
    exact finishes_endLine_of_append_feed (finishes_congr hstart)
  | byter =>
    have hstart : byter.start (text ++ ['\n']) seed = byter.start text seed := by
      simp only [start, Byter.Grid.ofText_append_feed]
    exact finishes_endLine_of_append_feed (finishes_congr hstart)
  | befunge => exact finishes_congr (by simp only [start, Befunge.Field.ofText_endLine hreturn])

end Language

end Esoterica
