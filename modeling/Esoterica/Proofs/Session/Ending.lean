import Esoterica.Proofs.Session.Composition

namespace Esoterica

open Text

namespace Terminal

section TakeLine

theorem exists_takeLine_encode (text : List Char) :
    ∃ first rest, takeLine (Utf8.encode text) = (Utf8.encode first, Utf8.encode rest) := by
  obtain ⟨line, rest, hfeed, rfl, -⟩ | ⟨hfeed, -⟩ := splitLine_cases text
  · exact ⟨line ++ ['\n'], rest, takeLine_encode_feed hfeed rest⟩
  · exact ⟨text, [], takeLine_encode hfeed⟩

-- The bytes that are left of the input follow whole lines, unless none are left.
def Rests (input rest : List UInt8) : Prop :=
  ∃ before, input = before ++ rest ∧ (Closed before ∨ rest = [])

theorem Rests.takeLine {input rest : List UInt8} (h : Rests input rest) :
    Rests input (takeLine rest).2 := by
  obtain ⟨before, rfl, -⟩ := h
  obtain hlast | ⟨line, rest, -, rfl, hline⟩ := takeLine_cases rest
  · rw [hlast]
    exact ⟨before ++ rest, by simp, .inr rfl⟩
  · rw [hline]
    exact ⟨before ++ line ++ [10], by simp, .inl (.inr (by simp))⟩

end TakeLine

-- What holds of the bytes that are left to read lasts if taking a line keeps it.
theorem kept_of_takeLine {P : List UInt8 → Prop} (h : ∀ bytes, P bytes → P (takeLine bytes).2) :
    Kept (fun _ => True) (fun s t => t = s ∧ P s.unread) where
  line_eq h := by rw [h.1]
  start_eq h := by rw [h.1]
  putText {s _} text failure hst := by
    refine ⟨by rw [hst.1], ?_⟩
    rw [(s.putText_fields text failure).1]
    exact hst.2
  flush hst := ⟨by rw [hst.1], by simpa using hst.2⟩
  fill {s t} hst _ := by
    obtain ⟨rfl, ht⟩ := hst
    refine ⟨rfl, rfl, ?_⟩
    by_cases hline : t.line = []
    · rw [unread_fill hline]
      exact h _ ht
    · rwa [fill_of_line hline]
  withLine line hst := ⟨by rw [hst.1], hst.2⟩
  withStart start hst := ⟨by rw [hst.1], hst.2⟩

end Terminal

namespace Session

variable {setting : Setting}

-- The line that a session is about to obey.
def Phase.line? : Phase → Option (List Char)
  | .obey line => some line
  | _ => none

-- The session comes from `start` to `s`, and `commands` are the lines that it has read as commands
-- on the way, the last one first.
inductive Course (setting : Setting) (start : Session) : List (List Char) → Session → Prop
  | start : Course setting start [] start
  | next {commands : List (List Char)} {s t : Session} (h : Course setting start commands s)
      (hnext : step setting s = .next t) : Course setting start (t.phase.line?.toList ++ commands) t

def Exited (commands : List (List Char)) : Prop :=
  ∃ line, commands.head? = some line ∧ (words line).head? = some "exit".toList

section Command

theorem map_ne_exit {α : Type} {f : α → Command} (hf : ∀ a, f a ≠ .exit) (x : Except Fault α) :
    x.map f ≠ .ok .exit := by
  cases x with
  | error fault => simp [Except.map]
  | ok a => exact fun h => hf a (Except.ok.inj h)

theorem ofLine_eq_exit_iff (line : List Char) :
    Command.ofLine line = .ok .exit ↔ (words line).head? = some "exit".toList := by
  unfold Command.ofLine
  cases words line with
  | nil => simp
  | cons word rest =>
    have hword : word = "exit".toList ↔ String.ofList word = "exit" := by
      rw [← String.toList_inj]
      simp
    rw [List.map_cons, List.head?_cons, Option.some.injEq, hword]
    generalize String.ofList word = command
    dsimp only
    split
    case h_1 => simp
    -- `load`, `disasm` and `start` make a command of what follows, or fail
    case h_2 | h_3 | h_4 =>
      refine iff_of_false (map_ne_exit ?_ _) (by decide)
      intro _ h
      cases h
    case h_5 | h_6 => simp
    case h_7 hexit _ _ _ _ _ => simpa using hexit

end Command

section Stop

theorem step_obey_exit {line : List Char} (h : Command.ofLine line = .ok .exit) (t : Terminal) :
    step setting ⟨.obey line, t⟩ = leave t := by
  simp only [step, obey, h]

theorem step_listen_of_fill {t : Terminal} (h : t.fill.1 = false) :
    step setting ⟨.listen, t⟩ = leave t.fill.2 := by
  simp [step, Terminal.readLine_eq, h]

-- A session ends when it obeys `exit`, or when it listens and there is nothing to read.
theorem stop_cases {s t : Session} {r : Unit} (h : step setting s = .stop r t) :
    (∃ line, s.phase = .obey line ∧ Command.ofLine line = .ok .exit) ∨
      s.phase = .listen ∧ s.terminal.fill.1 = false ∧
        t.terminal.unread = s.terminal.fill.2.unread := by
  obtain ⟨phase, terminal⟩ := s
  cases phase with
  | prompt => cases h
  | listen =>
    right
    cases hfill : terminal.fill.1 with
    | true => simp [step, Terminal.readLine_eq, hfill, enter] at h
    | false =>
      rw [step_listen_of_fill hfill] at h
      cases h
      exact ⟨rfl, rfl, Terminal.flush_unread _⟩
  | obey line =>
    left
    refine ⟨line, rfl, ?_⟩
    simp only [step, obey] at h
    split at h
    case h_3 hexit => exact hexit
    case h_4 => split at h <;> cases h
    case h_5 => split at h <;> cases h
    all_goals cases h
  | collect lang lines =>
    simp only [step] at h
    split at h
    · split at h <;> cases h
    · cases h
  | launch lang text =>
    simp only [step] at h
    split at h <;> cases h
  | work program =>
    rw [step_work] at h
    generalize Running.step (program, terminal) = x at h
    obtain ⟨program, t⟩ | ⟨⟨_⟩ | fault, program, t⟩ := x <;> cases h

end Stop

section Course

variable {start s : Session} {commands : List (List Char)}

-- A session that is about to obey a line has read it as its last command.
theorem Course.head?_eq {line : List Char} (h : Course setting start commands s)
    (hstart : start.phase = .prompt) (hobey : s.phase = .obey line) :
    commands.head? = some line := by
  cases h with
  | start => simp [hstart] at hobey
  | next _ _ => simp [hobey, Phase.line?]

-- No step follows after `exit` has been read.
theorem Course.obeys_exit {line : List Char} (h : Course setting start commands s)
    (hhead : commands.head? = some line) (hexit : Command.ofLine line = .ok .exit) :
    s.phase = .obey line := by
  induction h with
  | start => cases hhead
  | @next commands s t hcourse hnext ih =>
    obtain ⟨phase, terminal⟩ := t
    cases phase with
    | obey read => simpa [Phase.line?] using hhead
    | _ =>
      have hs := ih (by simpa [Phase.line?] using hhead)
      obtain ⟨phase, terminal⟩ := s
      obtain rfl : phase = .obey line := hs
      rw [step_obey_exit hexit] at hnext
      cases hnext

-- What holds of all the input and is kept when a line is taken holds of the input that is left.
theorem Course.kept {P : List UInt8 → Prop}
    (hline : ∀ bytes, P bytes → P (Terminal.takeLine bytes).2) {u : Terminal}
    (h : Course setting (begin u) commands s) (hu : P u.unread) : P s.terminal.unread := by
  have hkept := Terminal.kept_of_takeLine hline
  induction h with
  | start => exact (hkept.emitLine banner.toList ⟨rfl, hu⟩).2
  | next _ hnext ih => exact kept_step hkept hnext ih

theorem Course.exists_of_runFor {bound : Nat} {t : Session} (h : Course setting start commands s)
    (hrun : runFor (step setting) bound s = some ((), t)) :
    ∃ commands s, Course setting start commands s ∧ step setting s = .stop () t := by
  induction bound generalizing s commands with
  | zero => cases hrun
  | succ bound ih =>
    rw [runFor] at hrun
    cases hstep : step setting s with
    | next u =>
      rw [hstep] at hrun
      exact ih (h.next hstep) hrun
    | stop _ u =>
      rw [hstep] at hrun
      cases hrun
      exact ⟨commands, s, h, hstep⟩

end Course

section Ending

-- The session listens at a prompt, but the next line is no text, and there is more after it.
def StopsShort (input : List UInt8) (s : Session) (rest : List UInt8) : Prop :=
  s.phase = .listen ∧ s.terminal.line = [] ∧ rest ≠ [] ∧
    ∃ before line fault, input = before ++ s.terminal.unread ∧ Closed before ∧
      s.terminal.unread = line ++ 10 :: rest ∧ 10 ∉ line ∧
      Utf8.decode (line ++ [10]) = .error fault

variable {s t : Session} {input : List UInt8} {commands : List (List Char)}

theorem stopsShort_of_fill {rest : List UInt8} (hphase : s.phase = .listen)
    (hfill : s.terminal.fill.1 = false) (hrest : rest = s.terminal.fill.2.unread) (hne : rest ≠ [])
    (hrests : Terminal.Rests input s.terminal.unread) : StopsShort input s rest := by
  obtain ⟨hline, hdecode⟩ := Terminal.fill_eq_false_iff.mp hfill
  rw [Terminal.unread_fill hline] at hrest
  obtain ⟨before, hinput, hbefore⟩ := hrests
  obtain hlast | ⟨line, more, hfeed, hbytes, htake⟩ := Terminal.takeLine_cases s.terminal.unread
  · rw [hlast] at hrest
    exact absurd hrest hne
  · rw [htake] at hrest hdecode
    obtain rfl : rest = more := hrest
    obtain ⟨fault, hfault⟩ := hdecode.resolve_left (by simp [hbytes])
    exact ⟨hphase, hline, hne, before, line, fault, hinput,
      hbefore.resolve_right (by simp [hbytes]), hbytes, hfeed, hfault⟩

-- A session cannot be cut short while what is left to read is a text.
theorem not_stopsShort_of_encode {rest : List UInt8} {text : List Char}
    (htext : s.terminal.unread = Utf8.encode text) : ¬ StopsShort input s rest := by
  rintro ⟨-, -, -, before, line, fault, -, -, hbytes, hfeed, hfault⟩
  obtain ⟨first, more, htake⟩ := Terminal.exists_takeLine_encode text
  rw [← htext, hbytes, Terminal.takeLine_feed hfeed] at htake
  obtain ⟨hline, -⟩ := Prod.mk.inj htake
  rw [hline, Utf8.decode_encode] at hfault
  cases hfault

theorem exited_or_read_iff {u : Terminal} (hcourse : Course setting (begin u) commands s)
    (hstop : step setting s = .stop () t) :
    Exited commands ∨ t.terminal.unread = [] ↔ ¬ StopsShort u.unread s t.terminal.unread := by
  obtain ⟨line, hobey, hexit⟩ | ⟨hlisten, hfill, hunread⟩ := stop_cases hstop
  · have hexited : Exited commands :=
      ⟨line, hcourse.head?_eq rfl hobey, (ofLine_eq_exit_iff line).mp hexit⟩
    have hshort : ¬ StopsShort u.unread s t.terminal.unread := by
      rintro ⟨hlisten, -⟩
      rw [hobey] at hlisten
      cases hlisten
    exact iff_of_true (.inl hexited) hshort
  · have hexited : ¬ Exited commands := by
      rintro ⟨line, hhead, hword⟩
      have hobey := hcourse.obeys_exit hhead ((ofLine_eq_exit_iff line).mpr hword)
      rw [hlisten] at hobey
      cases hobey
    have hrests : Terminal.Rests u.unread s.terminal.unread :=
      hcourse.kept (fun _ h => h.takeLine) ⟨[], rfl, .inl (.inl rfl)⟩
    constructor
    · rintro (h | hempty) ⟨-, -, hne, -⟩
      · exact hexited h
      · exact hne hempty
    · intro hshort
      by_contra hread
      exact hshort (stopsShort_of_fill hlisten hfill hunread (fun h => hread (.inr h)) hrests)

-- A session that comes to its end has read `exit` or all of its input, unless a line that is no
-- text has cut it short at a prompt. No line of a text does.
theorem ends_at_exit_or_end_iff (setting : Setting) (input : List UInt8) (room : Option Nat)
    {bound : Nat} {t : Terminal} (hrun : run setting bound { unread := input, room } = some t) :
    ∃ commands s e, Course setting (begin { unread := input, room }) commands s ∧
      step setting s = .stop () e ∧ e.terminal = t ∧
      (Exited commands ∨ t.unread = [] ↔ ¬ StopsShort input s t.unread) ∧
      ∀ text, input = Utf8.encode text → Exited commands ∨ t.unread = [] := by
  obtain ⟨⟨_, e⟩, hend, rfl⟩ := Option.map_eq_some_iff.mp hrun
  obtain ⟨commands, s, hcourse, hstop⟩ := Course.start.exists_of_runFor hend
  have hiff := exited_or_read_iff hcourse hstop
  refine ⟨commands, s, e, hcourse, hstop, rfl, hiff, fun text htext => hiff.mpr ?_⟩
  obtain ⟨left, hleft⟩ : ∃ left, s.terminal.unread = Utf8.encode left := by
    refine hcourse.kept (P := fun bytes => ∃ left, bytes = Utf8.encode left) ?_ ⟨text, htext⟩
    rintro _ ⟨left, rfl⟩
    obtain ⟨first, rest, htake⟩ := Terminal.exists_takeLine_encode left
    exact ⟨rest, by rw [htake]⟩
  exact not_stopsShort_of_encode hleft

-- A line that is no text ends a program that is typed, and nothing else. At a prompt, another one
-- ends the session.
def garbled : List UInt8 :=
  Utf8.encode "start bf\n".toList ++ [0xFF, 10] ++ Utf8.encode "clear\n".toList ++ [0xC3, 10] ++
    Utf8.encode "exit\n".toList

theorem ends_at_exit_or_end_iff_garbled :
    ∃ t, run ⟨0, Files.empty⟩ 16 { unread := garbled } = some t ∧
      ∃ commands s e, Course ⟨0, Files.empty⟩ (begin { unread := garbled }) commands s ∧
        step ⟨0, Files.empty⟩ s = .stop () e ∧ e.terminal = t ∧
        (Exited commands ∨ t.unread = [] ↔ ¬ StopsShort garbled s t.unread) ∧
        ∀ text, garbled = Utf8.encode text → Exited commands ∨ t.unread = [] := by
  have hends : (run ⟨0, Files.empty⟩ 16 { unread := garbled }).isSome = true := by decide +kernel
  obtain ⟨t, hrun⟩ := Option.isSome_iff_exists.mp hends
  exact ⟨t, hrun, ends_at_exit_or_end_iff ⟨0, Files.empty⟩ garbled none hrun⟩

-- A session that stops at its first line, with a line to come.
def cutShort : List UInt8 :=
  [0xFF, 10, 10]

theorem ends_before_exit_and_end :
    ∃ t commands s e, run ⟨0, Files.empty⟩ 2 { unread := cutShort } = some t ∧
      Course ⟨0, Files.empty⟩ (begin { unread := cutShort }) commands s ∧
      step ⟨0, Files.empty⟩ s = .stop () e ∧ e.terminal = t ∧
      ¬ (Exited commands ∨ t.unread = []) := by
  have hnext := step_begin ⟨0, Files.empty⟩ cutShort
  have hdecode : Utf8.decode [0xFF, 10] = .error (.invalid 0 1) := by
    decide +kernel
  have hfill : (opened cutShort).terminal.fill.1 = false :=
    Terminal.fill_eq_false_iff.mpr ⟨rfl, .inr ⟨_, hdecode⟩⟩
  have hstop : step ⟨0, Files.empty⟩ (opened cutShort) =
      .stop () ⟨.prompt, (opened cutShort).terminal.fill.2.flush⟩ := step_listen_of_fill hfill
  refine ⟨_, _, _, _, ?_, Course.start.next hnext, hstop, rfl, ?_⟩
  · rw [run, runFor_of_next hnext, runFor_of_stop hstop]
    rfl
  · have hunread : (opened cutShort).terminal.fill.2.flush.unread = [10] := by
      rw [Terminal.flush_unread, Terminal.unread_fill rfl]
      rfl
    rw [hunread]
    simp [Exited, opened, Phase.line?]

end Ending

end Session

end Esoterica
