import Esoterica.Proofs.Console.Reading
import Esoterica.Proofs.Whitespace.Synchrony

namespace Esoterica.Whitespace

open Text

-- What `t` leaves of the data of a machine when it fails.
structure Machine.Spared (m : Machine) (t : Token) (fault : Fault) (m' : Machine) : Prop where
  heap : m'.heap = m.heap
  ticks : m'.ticks = m.ticks
  stack : ∃ taken, taken.length ≤ 2 ∧ m.stack = taken ++ m'.stack
  calls : m'.calls = if t.instr.opcode = .call then t.stop :: m.calls else m.calls
  -- a call fails only if its label is not defined
  called : ∀ label, t.instr = ⟨.call, label⟩ → fault = .undefinedLabel label

variable {κ : Type}

-- What a failing instruction has asked of the console. Before it fails for any other reason than
-- the input, it asks for nothing.
def Heard [Console κ] (i : Instr) (c : κ) (fault : Fault) (c' : κ) : Prop :=
  match fault with
  | .endOfInput =>
    i.opcode = .readchar ∧ Console.readChar c = (none, c') ∨
      i.opcode = .readnum ∧ Console.readLine c = (none, c')
  | .notANumber =>
    i.opcode = .readnum ∧ ∃ line, Console.readLine c = (some line, c') ∧
      ∀ value, Decimal.readInt64 (trim line) ≠ .ok value
  | _ => c' = c

-- An instruction that comes to this has not failed, or it has spared the data, reading goes on
-- where it would have gone on, and the console has been asked for no more than that.
def Outcome.Spares [Console κ] (t : Token) (m : Machine) (c : κ) : Outcome κ → Prop
  | .fault reason m' c' =>
    m.Spared t reason m' ∧ m'.cursor = m.cursor ∧ Heard t.instr c reason c'
  | _ => True

section Jumps

variable {p : Program} {tokens : List Token} (hp : p.Loaded tokens)

include hp

theorem seek_of_mem_boundaries {target : Nat} (h : target ∈ p.jumps.boundaries) (m : Machine)
    (c : κ) : Machine.seek p target m c = .done { m with cursor := target + 1 } c := by
  rw [← Array.mem_toList_iff, hp.jumps_eq, JumpTable.boundaries_ofTokens] at h
  obtain ⟨t, ht, rfl⟩ := List.mem_map.mp h
  obtain ⟨k, hk⟩ := List.mem_iff_getElem?.mp ht
  rw [Machine.seek, if_pos (hp.isBoundary ⟨t, hk, rfl⟩)]

theorem jump_cases (label : Label) (m : Machine) (c : κ) :
    (∃ m', Machine.jump p label m c = .done m' c) ∨
      Machine.jump p label m c = .fault (.undefinedLabel label) m c := by
  cases htarget : p.jumps.target? label with
  | none =>
    right
    simp only [Machine.jump, htarget]
  | some target =>
    left
    simp only [Machine.jump, htarget]
    exact ⟨_, seek_of_mem_boundaries hp (hp.target?_mem_boundaries htarget) m c⟩

end Jumps

section Instructions

variable [Console κ] {p : Program} {tokens : List Token} {t : Token} {fault : Fault}
  {m : Machine} {c c' : κ}

-- All but a call fail in this way: some operands are gone, and nothing else has changed.
theorem spares_taken (hop : t.instr.opcode ≠ .call) (taken : List Int64) {rest : List Int64}
    (hstack : m.stack = taken ++ rest) (htaken : taken.length ≤ 2)
    (hheard : Heard t.instr c fault c') :
    (Outcome.fault fault { m with stack := rest } c').Spares t m c := by
  refine ⟨⟨rfl, rfl, ⟨taken, htaken, hstack⟩, (if_neg hop).symm, ?_⟩, rfl, hheard⟩
  intro label hcall
  exact absurd (congrArg Instr.opcode hcall) hop

theorem spares_untaken (hop : t.instr.opcode ≠ .call) (hheard : Heard t.instr c fault c') :
    (Outcome.fault fault m c').Spares t m c :=
  spares_taken hop [] rfl (Nat.zero_le 2) hheard

theorem spares_unary (hop : t.instr.opcode ≠ .call) {f : Int64 → Machine → Outcome κ}
    (hf : ∀ value rest, m.stack = [value] ++ rest →
      (f value { m with stack := rest }).Spares t m c) :
    (Machine.unary f m c).Spares t m c := by
  unfold Machine.unary
  split
  next value rest hstack => exact hf value rest hstack
  next => exact spares_untaken hop rfl

theorem spares_binary (hop : t.instr.opcode ≠ .call) {f : Int64 → Int64 → Except Fault Int64}
    (hf : ∀ left right fault, f left right = .error fault → fault = .divisionByZero) :
    (Machine.binary f m c).Spares t m c := by
  obtain ⟨stack, calls, heap, cursor, ticks⟩ := m
  obtain _ | ⟨right, _ | ⟨left, rest⟩⟩ := stack
  · exact spares_untaken hop rfl
  · exact spares_taken hop [right] rfl (by simp) rfl
  · simp only [Machine.binary]
    cases hvalue : f left right with
    | ok value => trivial
    | error fault =>
      obtain rfl := hf left right fault hvalue
      exact spares_taken hop [right, left] rfl (by simp) rfl

variable (hp : p.Loaded tokens)

include hp

theorem spares_branch (hop : t.instr.opcode ≠ .call) (label : Label) (test : Int64 → Prop)
    [DecidablePred test] :
    (Machine.unary (fun value m => if test value then Machine.jump p label m c else .done m c)
      m c).Spares t m c := by
  refine spares_unary hop fun value rest hstack => ?_
  split
  · obtain ⟨m', hdone⟩ | hfault := jump_cases hp label { m with stack := rest } c
    · rw [hdone]
      trivial
    · rw [hfault]
      exact spares_taken hop _ hstack (by simp) rfl
  · trivial

theorem call_spares (label : Label) (stop : Nat) :
    (Machine.exec p stop ⟨.call, label⟩ m c).Spares ⟨⟨.call, label⟩, stop⟩ m c := by
  simp only [Machine.exec]
  obtain ⟨m', hdone⟩ | hfault := jump_cases hp label { m with calls := stop :: m.calls } c
  · rw [hdone]
    trivial
  · rw [hfault]
    refine ⟨⟨rfl, rfl, ⟨[], Nat.zero_le 2, rfl⟩, rfl, ?_⟩, rfl, rfl⟩
    rintro _ ⟨⟩
    rfl

-- One case for each opcode. The returns lead to ends of instructions, so no place is ever missed.
theorem exec_spares (hcalls : ∀ offset ∈ m.calls, offset ∈ p.jumps.boundaries) :
    (Machine.exec p t.stop t.instr m c).Spares t m c := by
  by_cases hop : t.instr.opcode = .call
  · obtain ⟨⟨op, operand⟩, stop⟩ := t
    cases hop
    exact call_spares hp operand stop
  obtain ⟨⟨op, operand⟩, stop⟩ := t
  cases op
  all_goals simp only [Machine.exec]
  case push | label | exit => trivial
  case call => exact absurd rfl hop
  case pop | outnum => exact spares_unary hop fun _ _ _ => trivial
  case add | sub | mul =>
    refine spares_binary hop fun left right fault hf => ?_
    cases hf
  case div | mod =>
    refine spares_binary hop fun left right fault hf => ?_
    simp only [Machine.quotient, Machine.remainder] at hf
    split at hf <;> cases hf
    rfl
  case jz => exact spares_branch hp hop operand (· = 0)
  case jn => exact spares_branch hp hop operand (· < 0)
  case dup | copy | swap =>
    split
    · trivial
    · exact spares_untaken hop rfl
  case slide | retr | outchar =>
    refine spares_unary hop fun value rest hstack => ?_
    split
    · trivial
    · exact spares_taken hop _ hstack (by simp) rfl
  case store =>
    refine spares_unary hop fun value rest hstack => ?_
    cases rest with
    | nil => exact spares_taken hop _ hstack (by simp) rfl
    | cons address rest => trivial
  case jmp =>
    obtain ⟨m', hdone⟩ | hfault := jump_cases hp operand m c
    · rw [hdone]
      trivial
    · rw [hfault]
      exact spares_untaken hop rfl
  case ret =>
    split
    next target rest hreturn =>
      have htarget := hcalls target (by rw [hreturn]; exact List.mem_cons_self)
      rw [seek_of_mem_boundaries hp htarget]
      trivial
    next => exact spares_untaken hop rfl
  case readchar =>
    refine spares_unary hop fun address rest hstack => ?_
    split
    next => trivial
    next c' hread => exact spares_taken hop _ hstack (by simp) (.inl ⟨rfl, hread⟩)
  case readnum =>
    refine spares_unary hop fun address rest hstack => ?_
    split
    next line c' hread =>
      split
      next => trivial
      next hvalue =>
        refine spares_taken hop _ hstack (by simp) ⟨rfl, line, hread, fun value hok => ?_⟩
        cases hvalue.symm.trans hok
    next c' hread => exact spares_taken hop _ hstack (by simp) (.inr ⟨rfl, hread⟩)

end Instructions

section Consoles

variable {i : Instr} {fault : Fault}

theorem Heard.script {c c' : Script} (h : Heard i c fault c') :
    c'.written = c.written ∧ (fault ≠ .notANumber → c'.unread = c.unread) ∧
      (fault = .notANumber → i.opcode = .readnum ∧ c.LineRead c') := by
  cases fault with
  | endOfInput =>
    obtain rfl : c' = c := by
      obtain ⟨-, hread⟩ | ⟨-, hread⟩ := h
      · exact Script.eq_of_readChar_none hread
      · exact Script.eq_of_readLine_none hread
    exact ⟨rfl, fun _ => rfl, nofun⟩
  | notANumber =>
    obtain ⟨hop, line, hread, -⟩ := h
    obtain ⟨hwritten, hline⟩ := Script.lineRead_of_readLine hread
    exact ⟨hwritten, fun hne => absurd rfl hne, fun _ => ⟨hop, hline⟩⟩
  | _ =>
    obtain rfl : c' = c := h
    exact ⟨rfl, fun _ => rfl, nofun⟩

-- A line that is no text is taken for the end of the input, and it is lost.
theorem Heard.terminal {c c' : Terminal} (h : Heard i c fault c') :
    c'.written = c.written ∧
      (fault ≠ .notANumber → (c.SameInput c' ↔ ¬ (fault = .endOfInput ∧ c.unread ≠ []))) ∧
      (fault = .endOfInput → c.unread ≠ [] → c.LineLost c') ∧
      (fault = .notANumber → i.opcode = .readnum ∧ c.LineRead c') := by
  cases fault with
  | endOfInput =>
    have hfill : c.fill = (false, c') := by
      obtain ⟨-, hread⟩ | ⟨-, hread⟩ := h
      · exact Terminal.fill_of_readChar_none hread
      · exact Terminal.fill_of_readLine_none hread
    obtain ⟨hwritten, ⟨hunread, hsame⟩ | ⟨hunread, hlost⟩⟩ := Terminal.of_fill_false hfill
    · refine ⟨hwritten, fun _ => ?_, fun _ hne => absurd hunread hne, nofun⟩
      exact iff_of_true hsame fun hgiven => hgiven.2 hunread
    · refine ⟨hwritten, fun _ => ?_, fun _ _ => hlost, nofun⟩
      exact iff_of_false hlost.not_sameInput (not_not_intro ⟨rfl, hunread⟩)
  | notANumber =>
    obtain ⟨hop, line, hread, -⟩ := h
    obtain ⟨hwritten, hline⟩ := Terminal.lineRead_of_readLine hread
    exact ⟨hwritten, fun hne => absurd rfl hne, nofun, fun _ => ⟨hop, hline⟩⟩
  | _ =>
    obtain rfl : c' = c := h
    exact ⟨rfl, fun _ => iff_of_true ⟨rfl, rfl⟩ nofun, nofun, nofun⟩

end Consoles

section Runs

variable [Console κ] {p : Program} {tokens : List Token} {period : UInt64} {fault : Fault}
  {s x y : Machine × κ} {t : Token}

-- The run that begins in `s` fails with `fault` at `t`, which it reads in `x`, and is left in `y`.
structure FailsAt (p : Program) (period : UInt64) (s x : Machine × κ) (t : Token) (fault : Fault)
    (y : Machine × κ) : Prop where
  reached : Leads (Machine.step p period) s x
  token : nextToken? p.source x.1.cursor = .ok (some t)
  stopped : Machine.step p period x = .stop (.error fault) y

theorem FailsAt.exec_eq (h : FailsAt p period s x t fault y) :
    Machine.exec p t.stop t.instr { x.1 with cursor := t.next } x.2 = .fault fault y.1 y.2 := by
  have hstopped := h.stopped
  simp only [Machine.step, h.token] at hstopped
  split at hstopped
  · unfold Machine.tick at hstopped
    split at hstopped
    · cases hstopped
    · dsimp only at hstopped
      split at hstopped <;> cases hstopped
  · cases hstopped
  next hexec =>
    cases hstopped
    exact hexec

variable (hp : p.Loaded tokens)

include hp

theorem exists_failsAt_of_run {m : Machine} {c : κ} {bound : Nat} (hm : m.InPlace p tokens)
    (h : m.run p period bound c = some (.error fault, y)) :
    ∃ x t, FailsAt p period (m, c) x t fault y := by
  obtain ⟨x, hleads, hstop⟩ := exists_leads_of_runFor h
  obtain ⟨s, hs⟩ := hm.leads hp hleads
  have hnext := hp.nextToken? hs.cursor
  cases ht : tokens[s.pc]? with
  | none =>
    rw [ht] at hnext
    simp only [Machine.step, hnext] at hstop
    cases hstop
  | some t => exact ⟨x, t, hleads, hnext.trans (by rw [ht]), hstop⟩

theorem FailsAt.spares (hs : s.1.InPlace p tokens) (h : FailsAt p period s x t fault y) :
    x.1.Spared t fault y.1 ∧ y.1.cursor = t.next ∧ Heard t.instr x.2 fault y.2 := by
  have hcalls := (hs.leads hp h.reached).calls_mem_boundaries hp
  have hspares := exec_spares (t := t) (m := { x.1 with cursor := t.next }) (c := x.2) hp hcalls
  rw [h.exec_eq] at hspares
  obtain ⟨⟨hheap, hticks, hstack, hends, hcalled⟩, hcursor, hheard⟩ := hspares
  exact ⟨⟨hheap, hticks, hstack, hends, hcalled⟩, hcursor, hheard⟩

theorem FailsAt.exists_following (hs : s.1.InPlace p tokens)
    (h : FailsAt p period s x t fault y) :
    ∃ k, tokens[k]? = some t ∧ nextToken? p.source y.1.cursor = .ok tokens[k + 1]? := by
  obtain ⟨u, hu⟩ := hs.leads hp h.reached
  have ht : tokens[u.pc]? = some t :=
    Except.ok.inj ((hp.nextToken? hu.cursor).symm.trans h.token)
  refine ⟨u.pc, ht, ?_⟩
  rw [(h.spares hp hs).2.1]
  exact hp.nextToken? (.behind ht)

end Runs

-- What a run leaves behind that fails at `t`, against the state in which it read `t`. The input
-- is the only thing that can be lost beyond the operands, and only where a terminal takes a line
-- that is no text for the end of it.
theorem failing_runs_spare_data {source : Source} {p : Program}
    (h : Program.ofSource source = .ok p) (period : UInt64) :
    (∀ (κ : Type) [Console κ] (m : Machine) (c : κ), Between p period m c →
      (∀ bound fault y, m.run p period bound c = some (.error fault, y) →
        ∃ x t, FailsAt p period (m, c) x t fault y) ∧
      ∀ x t fault y, FailsAt p period (m, c) x t fault y →
        x.1.Spared t fault y.1 ∧ Heard t.instr x.2 fault y.2 ∧
          ∃ tokens k, tokens? source = .ok tokens ∧ tokens[k]? = some t ∧
            nextToken? source y.1.cursor = .ok tokens[k + 1]?) ∧
    (∀ (m : Machine) (c : Script), Between p period m c →
      ∀ x t fault y, FailsAt p period (m, c) x t fault y →
        y.2.written = x.2.written ∧ (fault ≠ .notANumber → y.2.unread = x.2.unread) ∧
          (fault = .notANumber → t.instr.opcode = .readnum ∧ x.2.LineRead y.2)) ∧
    ∀ (m : Machine) (c : Terminal), Between p period m c →
      ∀ x t fault y, FailsAt p period (m, c) x t fault y →
        y.2.written = x.2.written ∧
          (fault ≠ .notANumber →
            (x.2.SameInput y.2 ↔ ¬ (fault = .endOfInput ∧ x.2.unread ≠ []))) ∧
          (fault = .endOfInput → x.2.unread ≠ [] → x.2.LineLost y.2) ∧
          (fault = .notANumber → t.instr.opcode = .readnum ∧ x.2.LineRead y.2) := by
  obtain ⟨tokens, htokens, rfl⟩ := Program.ofSource_eq_ok.mp h
  have hp := Program.loaded_of_tokens? htokens
  refine ⟨fun κ _ m c hm => ⟨?_, ?_⟩, ?_, ?_⟩
  · exact fun bound fault y => exists_failsAt_of_run hp (hm.inPlace hp)
  · intro x t fault y hfails
    obtain ⟨hspared, -, hheard⟩ := hfails.spares hp (hm.inPlace hp)
    obtain ⟨k, hk, hnext⟩ := hfails.exists_following hp (hm.inPlace hp)
    exact ⟨hspared, hheard, tokens, k, htokens, hk, hnext⟩
  · intro m c hm x t fault y hfails
    exact (hfails.spares hp (hm.inPlace hp)).2.2.script
  · intro m c hm x t fault y hfails
    exact (hfails.spares hp (hm.inPlace hp)).2.2.terminal

-- Pushes 0 and reads a character to that address.
def hearing : Source :=
  Source.ofText "   \n\t\n\t "

def hearingTokens : List Token :=
  [⟨⟨.push, (0 : Int64)⟩, 3⟩, ⟨⟨.readchar, ()⟩, 7⟩]

theorem tokens?_hearing : tokens? hearing = .ok hearingTokens := by
  with_unfolding_all rfl

-- A line that is no text, and an empty one.
def garbledInput : Terminal :=
  { unread := [0xFF, 10, 10] }

def hearingProgram : Program :=
  ⟨hearing, .ofTokens hearingTokens⟩

theorem ofSource_hearing : Program.ofSource hearing = .ok hearingProgram :=
  Program.ofSource_eq_ok.mpr ⟨_, tokens?_hearing, rfl⟩

theorem step_hearing :
    Machine.step hearingProgram 0 ({}, garbledInput) =
      .next ({ stack := [0], cursor := 4 }, garbledInput) := by
  have hnext : nextToken? hearing 0 = .ok hearingTokens[0]? :=
    (Program.loaded_of_tokens? tokens?_hearing).nextToken? .start
  simp only [Machine.step, hearingProgram, hnext]
  rfl

theorem failsAt_hearing :
    FailsAt hearingProgram 0 ({}, garbledInput) ({ stack := [0], cursor := 4 }, garbledInput)
      ⟨⟨.readchar, ()⟩, 7⟩ .endOfInput ({ cursor := 8 }, garbledInput.fill.2) := by
  have hnext : nextToken? hearing 4 = .ok (some ⟨⟨.readchar, ()⟩, 7⟩) :=
    (Program.loaded_of_tokens? tokens?_hearing).nextToken?
      (.behind (k := 0) (t := ⟨⟨.push, (0 : Int64)⟩, 3⟩) rfl)
  have hdecode : Utf8.decode [0xFF, 10] = .error (.invalid 0 1) := by decide +kernel
  have hfill : garbledInput.fill.1 = false :=
    Terminal.fill_eq_false_iff.mpr ⟨rfl, .inr ⟨_, hdecode⟩⟩
  have hread : Console.readChar garbledInput = (none, garbledInput.fill.2) := by
    refine (Terminal.readChar_eq garbledInput).trans (if_neg ?_)
    rw [hfill]
    exact Bool.false_ne_true
  refine ⟨.single step_hearing, hnext, ?_⟩
  simp only [Machine.step, hearingProgram, hnext, Machine.exec, Machine.unary, hread]
  rfl

theorem run_hearing :
    Machine.run hearingProgram 0 2 {} garbledInput =
      some (.error .endOfInput, { cursor := 8 }, garbledInput.fill.2) := by
  rw [Machine.run, runFor_of_next step_hearing, runFor_of_stop failsAt_hearing.stopped]

theorem failing_runs_spare_data_garbled :
    Program.ofSource hearing = .ok hearingProgram ∧
      ∃ x t y, Machine.run hearingProgram 0 2 {} garbledInput = some (.error .endOfInput, y) ∧
        FailsAt hearingProgram 0 ({}, garbledInput) x t .endOfInput y ∧ x.2.unread ≠ [] ∧
        x.1.Spared t .endOfInput y.1 ∧ y.2.written = x.2.written ∧ x.2.LineLost y.2 := by
  have hfresh : Between hearingProgram 0 {} garbledInput := .fresh _
  obtain ⟨hdata, -, hinput⟩ := failing_runs_spare_data ofSource_hearing 0
  obtain ⟨hspared, -, -⟩ := (hdata Terminal _ _ hfresh).2 _ _ _ _ failsAt_hearing
  obtain ⟨hwritten, -, hlost, -⟩ := hinput _ _ hfresh _ _ _ _ failsAt_hearing
  have hunread : garbledInput.unread ≠ [] := by decide
  refine ⟨ofSource_hearing, _, _, _, run_hearing, failsAt_hearing, hunread, ?_⟩
  exact ⟨hspared, hwritten, hlost rfl hunread⟩

-- The input is not what it was, although no number has been read.
theorem failing_read_loses_line :
    ∃ x t fault y, Program.ofSource hearing = .ok hearingProgram ∧
      Between hearingProgram 0 {} garbledInput ∧
      Machine.run hearingProgram 0 2 {} garbledInput = some (.error fault, y) ∧
      FailsAt hearingProgram 0 ({}, garbledInput) x t fault y ∧ fault ≠ .notANumber ∧
      ¬ x.2.SameInput y.2 := by
  have hunread : garbledInput.fill.2.unread = [10] := Terminal.unread_fill rfl
  refine ⟨_, _, _, _, ofSource_hearing, .fresh _, run_hearing, failsAt_hearing, by decide, ?_⟩
  rintro ⟨-, hsame⟩
  cases hunread.symm.trans hsame

end Esoterica.Whitespace
