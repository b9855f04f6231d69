import Esoterica.Proofs.Befunge.Playfield
import Esoterica.Proofs.Console.Reading
import Esoterica.Proofs.Halting

namespace Esoterica.Befunge

open Text

def Field.Outside (f : Field) (x y : Int64) : Prop :=
  x < 0 ∨ f.width ≤ x.toInt ∨ y < 0 ∨ f.height ≤ y.toInt

theorem Field.point?_eq_none_iff {f : Field} {x y : Int64} :
    f.point? x y = none ↔ f.Outside x y := by
  have hx : x < 0 ↔ x.toInt < 0 := Int64.lt_iff_toInt_lt
  have hy : y < 0 ↔ y.toInt < 0 := Int64.lt_iff_toInt_lt
  rw [Outside, hx, hy, point?]
  split
  case isTrue hinside =>
    simp only [reduceCtorEq, false_iff]
    omega
  case isFalse houtside =>
    simp only [true_iff]
    omega

-- How many numbers an instruction has taken when it fails.
def operandCount : Char → Nat
  | '/' | '%' | 'g' => 2
  | 'p' => 3
  | _ => 0

namespace Machine

-- The machine without the operands of the instruction `char`.
def without (m : Machine) (char : Char) : Machine :=
  { m with stack := m.stack.drop (operandCount char) }

variable {κ : Type}

def Outcome.progress : Outcome κ → Progress (Machine × κ) (Except Fault Unit)
  | done m c => .next (m.advance, c)
  | halt m c => .stop (.ok ()) (m, c)
  | fault reason m c => .stop (.error reason) (m, c)

theorem Outcome.progress_eq_error_iff {out : Outcome κ} {fault : Fault} {n : Machine} {c : κ} :
    out.progress = .stop (.error fault) (n, c) ↔ out = .fault fault n c := by
  cases out <;> simp [progress]

variable [Console κ]

-- Why the instruction `char` fails, and what it has made of the console by then.
inductive Cause (m : Machine) (c : κ) : Char → Fault → κ → Prop
  | division {char : Char} (hchar : char = '/' ∨ char = '%') (h : m.stack.getD 0 0 = 0) :
      Cause m c char (.divisionByZero m.x m.y) c
  | access {char : Char} (hchar : char = 'p' ∨ char = 'g')
      (h : m.field.Outside (m.stack.getD 1 0) (m.stack.getD 0 0)) :
      Cause m c char (.outOfBounds (m.stack.getD 1 0) (m.stack.getD 0 0)) c
  | number {line : List Char} {c' : κ} (hread : Console.readLine c = (some line, c'))
      (h : ∀ value, Decimal.readInt64 (trim line) ≠ .ok value) : Cause m c '&' .notANumber c'

section Instructions

variable {m n : Machine} {c c' : κ} {char : Char} {value : Int64} {fault : Fault}

theorem exec_division (hchar : char = '/' ∨ char = '%') (value : Int64) (m : Machine) (c : κ) :
    m.stack.getD 0 0 = 0 ∧
        exec char value m c = .fault (.divisionByZero m.x m.y) (m.without char) c ∨
      m.stack.getD 0 0 ≠ 0 ∧ ∃ n, exec char value m c = .done n c := by
  have hdivide (f : Int64 → Int64 → Int64) :
      m.stack.getD 0 0 = 0 ∧
          divide f m c =
            .fault (.divisionByZero m.x m.y) { m with stack := m.stack.drop 2 } c ∨
        m.stack.getD 0 0 ≠ 0 ∧ ∃ n, divide f m c = .done n c := by
    simp only [divide, pop_eq_drop m, pop_drop]
    by_cases hzero : m.stack.getD 0 0 = 0
    · exact .inl ⟨hzero, if_pos hzero⟩
    · exact .inr ⟨hzero, _, if_neg hzero⟩
  rcases hchar with rfl | rfl
  · exact hdivide (· / ·)
  · exact hdivide (· % ·)

theorem exec_access (hchar : char = 'p' ∨ char = 'g') (value : Int64) (m : Machine) (c : κ) :
    m.field.Outside (m.stack.getD 1 0) (m.stack.getD 0 0) ∧
        exec char value m c =
          .fault (.outOfBounds (m.stack.getD 1 0) (m.stack.getD 0 0)) (m.without char) c ∨
      ¬ m.field.Outside (m.stack.getD 1 0) (m.stack.getD 0 0) ∧
        ∃ n, exec char value m c = .done n c := by
  rw [← Field.point?_eq_none_iff]
  cases hpoint : m.field.point? (m.stack.getD 1 0) (m.stack.getD 0 0) with
  | none =>
    refine .inl ⟨rfl, ?_⟩
    rcases hchar with rfl | rfl
    · exact exec_put_of_outside hpoint value c
    · simp only [exec, pop_eq_drop m, pop_drop, hpoint]
      rfl
  | some point =>
    refine .inr ⟨Option.some_ne_none point, ?_⟩
    rcases hchar with rfl | rfl
    · exact ⟨_, exec_put hpoint value c⟩
    · exact ⟨_, exec_look hpoint value c⟩

theorem exec_ask (value : Int64) (m : Machine) (c : κ) :
    (∃ line c', Console.readLine c = (some line, c') ∧
        (∀ value, Decimal.readInt64 (trim line) ≠ .ok value) ∧
        exec '&' value m c = .fault .notANumber (m.without '&') c') ∨
      ((∀ line c', Console.readLine c = (some line, c') →
        ∃ value, Decimal.readInt64 (trim line) = .ok value) ∧
        ∃ n c', exec '&' value m c = .done n c') := by
  rcases hread : Console.readLine c with ⟨line?, c'⟩
  cases line? with
  | none =>
    refine .inr ⟨nofun, m.push (-1), c', ?_⟩
    simp only [exec, hread]
    rfl
  | some line =>
    cases hvalue : Decimal.readInt64 (trim line) with
    | ok number =>
      refine .inr ⟨?_, m.push number, c', ?_⟩
      · rintro _ _ ⟨⟩
        exact ⟨number, hvalue⟩
      · simp only [exec, hread, hvalue]
        rfl
    | error reason =>
      refine .inl ⟨line, c', rfl, fun value hok => ?_, ?_⟩
      · cases hvalue.symm.trans hok
      · simp only [exec, hread, hvalue]
        rfl

-- The other instructions do not fail.
theorem exec_ne_fault (h : char ∉ ['/', '%', 'p', 'g', '&']) (value : Int64) :
    exec char value m c ≠ .fault fault n c' := by
  intro hfault
  unfold exec at hfault
  split at hfault
  · cases hfault
  -- the cases stand in the order of the instructions in `exec`
  split at hfault
  case h_5 | h_6 | h_22 | h_23 | h_24 => simp at h
  -- splitting keeps the generator from being computed
  case h_12 | h_25 => split at hfault <;> cases hfault
  all_goals cases hfault

theorem exec_eq_fault_iff :
    exec char value m c = .fault fault n c' ↔ Cause m c char fault c' ∧ n = m.without char := by
  constructor
  · intro h
    by_cases hdivision : char = '/' ∨ char = '%'
    · obtain ⟨hzero, hexec⟩ | ⟨-, _, hexec⟩ := exec_division hdivision value m c
      all_goals cases hexec.symm.trans h
      exact ⟨.division hdivision hzero, rfl⟩
    by_cases haccess : char = 'p' ∨ char = 'g'
    · obtain ⟨houtside, hexec⟩ | ⟨-, _, hexec⟩ := exec_access haccess value m c
      all_goals cases hexec.symm.trans h
      exact ⟨.access haccess houtside, rfl⟩
    by_cases hask : char = '&'
    · subst hask
      obtain ⟨line, _, hread, hvalue, hexec⟩ | ⟨-, _, _, hexec⟩ := exec_ask value m c
      all_goals cases hexec.symm.trans h
      exact ⟨.number hread hvalue, rfl⟩
    · refine absurd h (exec_ne_fault ?_ value)
      simp only [List.mem_cons, List.not_mem_nil]
      tauto
  · rintro ⟨hcause, rfl⟩
    cases hcause with
    | division hchar hzero =>
      obtain ⟨-, hexec⟩ | ⟨hne, -⟩ := exec_division hchar value m c
      · exact hexec
      · exact absurd hzero hne
    | access hchar houtside =>
      obtain ⟨-, hexec⟩ | ⟨hne, -⟩ := exec_access hchar value m c
      · exact hexec
      · exact absurd houtside hne
    | @number line _ hread hvalue =>
      obtain ⟨_, _, hread', -, hexec⟩ | ⟨hok, -⟩ := exec_ask value m c
      · cases hread.symm.trans hread'
        exact hexec
      · obtain ⟨number, hnumber⟩ := hok _ _ hread
        exact absurd hnumber (hvalue number)

end Instructions

theorem step_eq_progress {m : Machine} (h : m.quoting = false) (c : κ) :
    step (m, c) = (exec (instrOf m.here) m.here m c).progress := by
  simp only [step, h, Bool.false_eq_true, if_false]
  cases exec (instrOf m.here) m.here m c <;> rfl

-- The step from `x` fails with `fault` and leaves `y` behind: its operands are gone, and nothing
-- else has changed in the machine.
structure Failure (x : Machine × κ) (fault : Fault) (y : Machine × κ) : Prop where
  executing : x.1.quoting = false
  cause : Cause x.1 x.2 (instrOf x.1.here) fault y.2
  machine : y.1 = x.1.without (instrOf x.1.here)

theorem step_eq_error_iff {x y : Machine × κ} {fault : Fault} :
    step x = .stop (.error fault) y ↔ Failure x fault y := by
  obtain ⟨m, c⟩ := x
  obtain ⟨n, c'⟩ := y
  cases hquoting : m.quoting with
  | true =>
    refine iff_of_false (fun h => ?_) fun h => ?_
    · simp only [step, hquoting, if_true] at h
      split at h <;> cases h
    · cases hquoting.symm.trans h.executing
  | false =>
    rw [step_eq_progress hquoting, Outcome.progress_eq_error_iff, exec_eq_fault_iff]
    constructor
    · rintro ⟨hcause, hmachine⟩
      exact ⟨hquoting, hcause, hmachine⟩
    · intro h
      exact ⟨h.cause, h.machine⟩

-- The next run begins with the same cell, on what is left of the stack.
theorem Failure.again {x y : Machine × κ} {fault : Fault} (h : Failure x fault y) (c : κ) :
    step (y.1, c) = (exec (instrOf x.1.here) x.1.here y.1 c).progress := by
  have hquoting : (x.1.without (instrOf x.1.here)).quoting = false := h.executing
  rw [h.machine]
  exact step_eq_progress hquoting c

-- The field is a full rectangle, and the machine stands inside of it.
structure Placed (m : Machine) : Prop where
  full : m.field.Full
  inside : m.Inside

theorem Placed.keep {m n : Machine} (hm : m.Placed) (h : m.Keeps n) : n.Placed := by
  refine ⟨?_, h.inside hm.inside⟩
  rw [h.field]
  exact hm.full

theorem Placed.next {x y : Machine × κ} (hx : x.1.Placed) (h : step x = .next y) : y.1.Placed := by
  obtain ⟨m, c⟩ := x
  by_cases hputs : ∃ put, m.Puts put
  · obtain ⟨put, hput⟩ := hputs
    rw [step_of_puts hput] at h
    cases h
    have hset : ({ m with
        stack := m.stack.drop 3, field := m.field.set put.x put.y put.value } : Machine).Placed :=
      ⟨hx.full.set put.x put.y put.value, hx.inside.x_lt, hx.inside.y_lt⟩
    exact hset.keep (Keeps.advance ⟨rfl, id⟩)
  · have hkeeps := keeps_step (not_exists.mp hputs) c
    rw [h] at hkeeps
    exact hx.keep hkeeps

theorem Placed.leads {x y : Machine × κ} (hx : x.1.Placed) (h : Leads step x y) : y.1.Placed := by
  induction h with
  | refl => exact hx
  | tail _ hnext ih => exact ih.next hnext

end Machine

section Runs

variable {κ : Type} [Console κ] {s x y : Machine × κ} {fault : Fault}

-- The run that begins in `s` fails with `fault` at the cell where it has come to in `x`, and is
-- left in `y`.
structure FailsAt (s x : Machine × κ) (fault : Fault) (y : Machine × κ) : Prop where
  reached : Leads Machine.step s x
  stopped : Machine.step x = .stop (.error fault) y

theorem FailsAt.failure (h : FailsAt s x fault y) : Machine.Failure x fault y :=
  Machine.step_eq_error_iff.mp h.stopped

theorem FailsAt.placed (hs : s.1.Placed) (h : FailsAt s x fault y) : y.1.Placed := by
  have hx := hs.leads h.reached
  rw [h.failure.machine]
  exact ⟨hx.full, hx.inside.x_lt, hx.inside.y_lt⟩

theorem exists_run_iff_failsAt {m : Machine} {c : κ} :
    (∃ bound, m.run bound c = some (.error fault, y)) ↔ ∃ x, FailsAt (m, c) x fault y := by
  constructor
  · rintro ⟨bound, hrun⟩
    obtain ⟨x, hreached, hstopped⟩ := exists_leads_of_runFor hrun
    exact ⟨x, hreached, hstopped⟩
  · rintro ⟨x, hreached, hstopped⟩
    exact (halts_iff_of_leads hreached).mpr (halts_of_stop hstopped)

end Runs

section Consoles

variable {m : Machine} {char : Char} {fault : Fault}

-- Only `&` asks the console for something before it fails.
theorem Machine.Cause.console {κ : Type} [Console κ] {c c' : κ} (h : m.Cause c char fault c') :
    char ≠ '&' ∧ c' = c ∨ char = '&' ∧ ∃ line, Console.readLine c = (some line, c') := by
  cases h with
  | division hchar => exact .inl ⟨by rcases hchar with rfl | rfl <;> decide, rfl⟩
  | access hchar => exact .inl ⟨by rcases hchar with rfl | rfl <;> decide, rfl⟩
  | number hread => exact .inr ⟨rfl, _, hread⟩

theorem Machine.Cause.script {c c' : Script} (h : m.Cause c char fault c') :
    c'.written = c.written ∧ (char ≠ '&' → c'.unread = c.unread) ∧
      (char = '&' → c.LineRead c') := by
  obtain ⟨hchar, rfl⟩ | ⟨hchar, line, hread⟩ := h.console
  · exact ⟨rfl, fun _ => rfl, fun hask => absurd hask hchar⟩
  · obtain ⟨hwritten, hline⟩ := Script.lineRead_of_readLine hread
    exact ⟨hwritten, fun hother => absurd hchar hother, fun _ => hline⟩

theorem Machine.Cause.terminal {c c' : Terminal} (h : m.Cause c char fault c') :
    c'.written = c.written ∧ (char ≠ '&' → c.SameInput c') ∧ (char = '&' → c.LineRead c') := by
  obtain ⟨hchar, rfl⟩ | ⟨hchar, line, hread⟩ := h.console
  · exact ⟨rfl, fun _ => ⟨rfl, rfl⟩, fun hask => absurd hask hchar⟩
  · obtain ⟨hwritten, hline⟩ := Terminal.lineRead_of_readLine hread
    exact ⟨hwritten, fun hother => absurd hchar hother, fun _ => hline⟩

end Consoles

-- What a run leaves behind that fails, against the state in which it came to the failing cell.
theorem failing_runs_keep_place {m : Machine} (hm : m.Placed) :
    (∀ (κ : Type) [Console κ] (c : κ) (fault : Fault) (y : Machine × κ),
      (∃ bound, m.run bound c = some (.error fault, y)) ↔ ∃ x, FailsAt (m, c) x fault y) ∧
    (∀ (κ : Type) [Console κ] (c : κ) (x : Machine × κ), Leads Machine.step (m, c) x →
      x.1.Placed ∧ x.1.field.cells[x.1.field.index x.1.x x.1.y]? = some x.1.here ∧
      ∀ fault y, FailsAt (m, c) x fault y ↔ Machine.Failure x fault y) ∧
    (∀ (κ : Type) [Console κ] (c : κ) (x : Machine × κ) (fault : Fault) (y : Machine × κ),
      FailsAt (m, c) x fault y → y.1.Placed ∧ ∀ again : κ,
        Machine.step (y.1, again) =
          (Machine.exec (Machine.instrOf x.1.here) x.1.here y.1 again).progress) ∧
    (∀ (c : Script) x fault y, FailsAt (m, c) x fault y →
      y.2.written = x.2.written ∧
        (Machine.instrOf x.1.here ≠ '&' → y.2.unread = x.2.unread) ∧
        (Machine.instrOf x.1.here = '&' → x.2.LineRead y.2)) ∧
    ∀ (c : Terminal) x fault y, FailsAt (m, c) x fault y →
      y.2.written = x.2.written ∧
        (Machine.instrOf x.1.here ≠ '&' → x.2.SameInput y.2) ∧
        (Machine.instrOf x.1.here = '&' → x.2.LineRead y.2) := by
  refine ⟨?_, ?_, ?_, ?_, ?_⟩
  · intro κ _ c fault y
    exact exists_run_iff_failsAt
  · intro κ _ c x hreached
    have hx : x.1.Placed := Machine.Placed.leads hm hreached
    refine ⟨hx, hx.full.getElem?_index hx.inside.x_lt hx.inside.y_lt, fun fault y => ?_⟩
    exact ⟨FailsAt.failure, fun h => ⟨hreached, Machine.step_eq_error_iff.mpr h⟩⟩
  · intro κ _ c x fault y h
    exact ⟨h.placed hm, h.failure.again⟩
  · intro c x fault y h
    exact h.failure.cause.script
  · intro c x fault y h
    exact h.failure.cause.terminal

-- Pushes a number and asks for another one.
def asking : Machine :=
  { field := .ofText "1&@".toList, random := ⟨0⟩ }

theorem asking_placed : asking.Placed :=
  ⟨Field.full_ofText _, ⟨(Field.full_ofText _).width_pos, (Field.full_ofText _).height_pos⟩⟩

theorem failsAt_asking :
    FailsAt (asking, Script.ofInput "four\n5")
      ({ asking with stack := [1], x := 1 }, .ofInput "four\n5") .notANumber
      ({ asking with stack := [1], x := 1 }, .ofInput "5") where
  reached := .single (by with_unfolding_all rfl)
  stopped := by with_unfolding_all rfl

theorem failing_runs_keep_place_asking :
    asking.Placed ∧ ∃ x y : Machine × Script,
      FailsAt (asking, .ofInput "four\n5") x .notANumber y ∧
      Machine.instrOf x.1.here = '&' ∧ y.1.stack = [1] ∧ y.1.x = 1 ∧
      x.2.LineRead y.2 ∧ y.2.remaining = "5" ∧
      Machine.step y = (Machine.exec '&' x.1.here y.1 y.2).progress := by
  obtain ⟨-, -, hagain, hscript, -⟩ := failing_runs_keep_place asking_placed
  have hinstr : Machine.instrOf ({ asking with stack := [1], x := 1 } : Machine).here = '&' := by
    with_unfolding_all rfl
  obtain ⟨-, -, hline⟩ := hscript _ _ _ _ failsAt_asking
  obtain ⟨-, hstep⟩ := hagain Script _ _ _ _ failsAt_asking
  refine ⟨asking_placed, _, _, failsAt_asking, hinstr, rfl, rfl, hline hinstr, rfl, ?_⟩
  rw [← hinstr]
  exact hstep _

end Esoterica.Befunge
