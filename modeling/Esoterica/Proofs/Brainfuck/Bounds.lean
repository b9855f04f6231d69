import Esoterica.Console.Script
import Esoterica.Proofs.Brainfuck.TrailingComment

namespace Esoterica.Brainfuck

section Table

theorem size_of_matchBrackets {commands : List Command} {i : Nat} {opened : List Nat}
    {partners table : Array Nat} (h : matchBrackets i opened partners commands = .ok table) :
    table.size = partners.size := by
  fun_induction matchBrackets i opened partners commands with
  | case1 => rw [Except.ok.inj h]
  | case2 => cases h
  | case3 i opened partners rest ih => exact ih h
  | case4 => cases h
  | case5 i partners rest start opened ih => simpa using ih h
  | case6 i opened partners command rest _ _ ih => exact ih h

theorem Program.size_partners {text : List Char} {p : Program} (h : Program.ofText text = .ok p) :
    p.partners.size = p.code.size := by
  unfold Program.ofText Program.ofCommands at h
  generalize (Text.Utf8.encode text).map Command.ofByte = commands at h
  cases htable : matchBrackets 0 [] (Array.replicate commands.length 0) commands with
  | error fault => simp [htable, Except.map] at h
  | ok table =>
    simp only [htable, Except.map, Except.ok.injEq] at h
    subst h
    simpa using size_of_matchBrackets htable

end Table

namespace Machine

-- The machine goes off the tape at the move at hand, on the left of the first cell or on the right
-- of the last one, and nothing else becomes of it.
structure Overruns (p : Program) (m m' : Machine) : Prop where
  move : p.code[m.offset]? = some .left ∧ m.pointer.toNat = 0 ∧ m'.pointer.toNat = UInt64.size - 1 ∨
    p.code[m.offset]? = some .right ∧ m.pointer.toNat = 32766 ∧ m'.pointer.toNat = 32767
  cells : m'.cells = m.cells
  offset : m'.offset = m.offset

-- The machine is where a program ends.
def Rests (p : Program) (m : Machine) : Prop :=
  p.code[m.offset]? = none ∨ p.code[m.offset]? = some .stop

-- There is a command to be executed, and no cell for it.
def Stranded (p : Program) (m : Machine) : Prop :=
  tapeLength ≤ m.pointer.toNat ∧ ∃ command, p.code[m.offset]? = some command

variable {κ : Type} {p : Program} {m m' : Machine} {c c' : κ} {r : Except Fault Unit}

theorem overruns_of_move {pointer : UInt64} (h : move pointer m c = .stop r (m', c')) :
    r = .error (.pointerOffTape m.offset) ∧ m' = { m with pointer } ∧ c' = c ∧
      tapeLength ≤ pointer.toNat := by
  unfold move at h
  dsimp only at h
  split at h
  · cases h
  · rename_i hoff
    cases h
    exact ⟨rfl, rfl, rfl, by omega⟩

theorem toNat_pred_of_off {pointer : UInt64} (hon : pointer.toNat < tapeLength)
    (hoff : tapeLength ≤ (pointer - 1).toNat) :
    pointer.toNat = 0 ∧ (pointer - 1).toNat = UInt64.size - 1 := by
  simp only [tapeLength] at hon hoff
  rw [UInt64.toNat_sub] at hoff ⊢
  have hone : (1 : UInt64).toNat = 1 := rfl
  rw [hone] at hoff ⊢
  rw [UInt64.size]
  omega

theorem toNat_succ_of_off {pointer : UInt64} (hon : pointer.toNat < tapeLength)
    (hoff : tapeLength ≤ (pointer + 1).toNat) :
    pointer.toNat = 32766 ∧ (pointer + 1).toNat = 32767 := by
  simp only [tapeLength] at hon hoff
  rw [UInt64.toNat_add] at hoff ⊢
  have hone : (1 : UInt64).toNat = 1 := rfl
  rw [hone] at hoff ⊢
  omega

variable [Console κ]

theorem step_stop_cases (h : step p (m, c) = .stop r (m', c')) :
    (r = .ok () ∧ m' = m ∧ c' = c ∧ Rests p m) ∨
    (r = .error (.pointerOffTape m.offset) ∧ c' = c ∧ m.pointer.toNat < tapeLength ∧
      Overruns p m m' ∧ Stranded p m') ∨
    r = .error (.noCell m.pointer) ∧ m' = m ∧ c' = c ∧ Stranded p m := by
  unfold step at h
  dsimp only at h
  cases hcode : p.code[m.offset]? with
  | none =>
    simp only [hcode] at h
    cases h
    exact .inl ⟨rfl, rfl, rfl, .inl hcode⟩
  | some command =>
    simp only [hcode] at h
    by_cases hon : m.pointer.toNat < tapeLength
    · rw [dif_pos hon] at h
      cases command <;> simp only [exec, put, leap, advance] at h
      case left =>
        obtain ⟨rfl, rfl, rfl, hoff⟩ := overruns_of_move h
        obtain ⟨hfirst, hwrapped⟩ := toNat_pred_of_off hon hoff
        exact .inr (.inl ⟨rfl, rfl, hon, ⟨.inl ⟨hcode, hfirst, hwrapped⟩, rfl, rfl⟩,
          hoff, _, hcode⟩)
      case right =>
        obtain ⟨rfl, rfl, rfl, hoff⟩ := overruns_of_move h
        obtain ⟨hlast, hnext⟩ := toNat_succ_of_off hon hoff
        exact .inr (.inl ⟨rfl, rfl, hon, ⟨.inr ⟨hcode, hlast, hnext⟩, rfl, rfl⟩,
          hoff, _, hcode⟩)
      case stop =>
        cases h
        exact .inl ⟨rfl, rfl, rfl, .inr hcode⟩
      case input | loop | «repeat» => split at h <;> cases h
      all_goals cases h
    · rw [dif_neg hon] at h
      cases h
      exact .inr (.inr ⟨rfl, rfl, rfl, by omega, _, hcode⟩)

theorem step_of_rests (h : Rests p m) (hon : m.pointer.toNat < tapeLength) :
    step p (m, c) = .stop (.ok ()) (m, c) := by
  rcases h with hend | hstop
  · simp only [step, hend]
  · simp only [step, hstop, dif_pos hon]
    rfl

theorem step_of_stranded (h : Stranded p m) :
    step p (m, c) = .stop (.error (.noCell m.pointer)) (m, c) := by
  obtain ⟨hoff, command, hcode⟩ := h
  simp only [step, hcode, dif_neg (Nat.not_lt.mpr hoff)]

-- No command leaves the tape and goes on.
theorem pointer_lt_of_leads {x : Machine × κ} (h : Leads (step p) (m, c) x)
    (hon : m.pointer.toNat < tapeLength) : x.1.pointer.toNat < tapeLength := by
  induction h with
  | refl => exact hon
  | tail _ hnext _ => exact pointer_lt_of_next hnext

-- A machine without a cell makes no step.
theorem eq_of_leads_of_stranded {x : Machine × κ} (h : Leads (step p) (m, c) x)
    (hm : Stranded p m) : x = (m, c) := by
  cases Relation.ReflTransGen.cases_head h with
  | inl heq => exact heq.symm
  | inr hstep =>
    obtain ⟨y, hnext, -⟩ := hstep
    rw [step_of_stranded hm] at hnext
    cases hnext

end Machine

-- A machine after a series of runs, each at a console of its own, and what the runs came to, the
-- last one first. The series is over when a run has no cell to work on.
inductive Served (p : Program) : List (Except Fault Unit) → Machine → Prop
  | fresh : Served p [] {}
  | run {results : List (Except Fault Unit)} {m m' : Machine} {κ : Type} [Console κ] {c c' : κ}
      {bound : Nat} {r : Except Fault Unit} (h : Served p results m)
      (hrun : m.run p bound c = some (r, m', c'))
      (hcell : ∀ pointer, r ≠ .error (.noCell pointer)) : Served p (r :: results) m'

section Series

variable {p : Program} {results : List (Except Fault Unit)} {m : Machine}

-- Between the runs the pointer is on the tape, unless the last run has moved it off.
theorem Served.cases (h : Served p results m) :
    ((∀ r ∈ results, r = .ok ()) ∧ m.pointer.toNat < tapeLength ∧
      (results ≠ [] → m.Rests p)) ∨
    ∃ offset, results.head? = some (.error (.pointerOffTape offset)) ∧ m.Stranded p := by
  induction h with
  | fresh => exact .inl ⟨by simp, by decide, by simp⟩
  | @run results m m' κ _ c c' bound r _ hrun hcell ih =>
    obtain ⟨⟨u, d⟩, hleads, hstop⟩ := exists_leads_of_runFor hrun
    rcases ih with ⟨hok, hon, -⟩ | ⟨offset, -, hstranded⟩
    · have hu := Machine.pointer_lt_of_leads hleads hon
      rcases Machine.step_stop_cases hstop with ⟨rfl, rfl, -, hrests⟩ | ⟨rfl, -, -, -, hoff⟩ |
        ⟨rfl, -, -, hoff, -⟩
      · exact .inl ⟨List.forall_mem_cons.mpr ⟨rfl, hok⟩, hu, fun _ => hrests⟩
      · exact .inr ⟨_, rfl, hoff⟩
      · exact absurd rfl (hcell _)
    · obtain ⟨rfl, rfl⟩ := Prod.mk.inj (Machine.eq_of_leads_of_stranded hleads hstranded)
      rw [Machine.step_of_stranded hstranded] at hstop
      cases hstop
      exact absurd rfl (hcell _)

end Series

-- As long as all runs have come to their ends, no index is out of its bounds, and another run
-- changes nothing. A run fails by a move off the tape, and otherwise only if the run before it has
-- failed in this way, and then it always does.
theorem cell_missing_iff_overrun {text : List Char} {p : Program}
    (h : Program.ofText text = .ok p) {results : List (Except Fault Unit)} {m : Machine}
    (hm : Served p results m) {κ : Type} [Console κ] (c : κ) :
    ((∀ r ∈ results, r = .ok ()) → ∀ x, Leads (Machine.step p) (m, c) x →
      x.1.cells.size = 32767 ∧ x.1.pointer.toNat < 32767 ∧
      (p.code[x.1.offset]? ≠ none → x.1.offset < p.partners.size)) ∧
    (results.head? = some (.ok ()) → ∀ bound, m.run p (bound + 1) c = some (.ok (), m, c)) ∧
    (∀ bound fault m' c', m.run p bound c = some (.error fault, m', c') →
      (∃ x, Leads (Machine.step p) (m, c) x ∧ fault = .pointerOffTape x.1.offset ∧
        x.1.Overruns p m' ∧ c' = x.2) ∨
      fault = .noCell m.pointer ∧
        ∃ offset, results.head? = some (.error (.pointerOffTape offset))) ∧
    ((∃ offset, results.head? = some (.error (.pointerOffTape offset))) →
      ∀ bound, m.run p (bound + 1) c = some (.error (.noCell m.pointer), m, c)) := by
  refine ⟨fun hok x hx => ⟨rfl, ?_, fun hcode => ?_⟩, fun hlast bound => ?_,
    fun bound fault m' c' hrun => ?_, ?_⟩
  · rcases hm.cases with ⟨-, hon, -⟩ | ⟨offset, hlast, -⟩
    · exact Machine.pointer_lt_of_leads hx hon
    · cases hok _ (List.mem_of_head? hlast)
  · rw [Program.size_partners h]
    by_contra hge
    exact hcode (Array.getElem?_eq_none (Nat.le_of_not_lt hge))
  · rcases hm.cases with ⟨-, hon, hrests⟩ | ⟨offset, hlast', -⟩
    · have hne : results ≠ [] := by
        rintro rfl
        cases hlast
      exact runFor_of_stop (Machine.step_of_rests (hrests hne) hon) bound
    · rw [hlast] at hlast'
      cases hlast'
  · obtain ⟨⟨u, d⟩, hleads, hstop⟩ := exists_leads_of_runFor hrun
    obtain ⟨hr, -⟩ | ⟨hr, rfl, -, hover, -⟩ | ⟨hr, rfl, rfl, hoff⟩ :=
      Machine.step_stop_cases hstop
    · cases hr
    · cases hr
      exact .inl ⟨(u, c'), hleads, rfl, hover, rfl⟩
    · cases hr
      rcases hm.cases with ⟨-, hon, -⟩ | ⟨offset, hlast, hstranded⟩
      · have hu := Machine.pointer_lt_of_leads hleads hon
        exact absurd hoff.1 (Nat.not_le.mpr hu)
      · obtain ⟨rfl, -⟩ := Prod.mk.inj (Machine.eq_of_leads_of_stranded hleads hstranded)
        exact .inr ⟨rfl, offset, hlast⟩
  · rintro ⟨offset, hlast⟩ bound
    rcases hm.cases with ⟨hok, -⟩ | ⟨-, -, hstranded⟩
    · cases hok _ (List.mem_of_head? hlast)
    · exact runFor_of_stop (Machine.step_of_stranded hstranded) bound

-- A move to the right that succeeds, and a move to the left of the first cell, each with another
-- run behind it.
theorem cell_missing_iff_overrun_twice :
    (∃ p m, Program.ofText ['>'] = .ok p ∧ Served p [.ok ()] m ∧ m.pointer = 1 ∧
      m.run p 1 (Script.ofInput "x") = some (.ok (), m, .ofInput "x")) ∧
    ∃ p m, Program.ofText ['<'] = .ok p ∧ Served p [.error (.pointerOffTape 0)] m ∧
      m.pointer.toNat = UInt64.size - 1 ∧
      m.run p 1 (Script.ofInput "x") = some (.error (.noCell m.pointer), m, .ofInput "x") := by
  constructor
  · have h : Program.ofText ['>'] = .ok ⟨#[.right], #[0]⟩ := by rfl
    have hrun : Machine.run ⟨#[.right], #[0]⟩ 2 {} (Script.ofInput "") =
        some (.ok (), { pointer := 1, offset := 1 }, .ofInput "") := by rfl
    have hserved := Served.fresh.run hrun (by simp)
    obtain ⟨-, hagain, -, -⟩ := cell_missing_iff_overrun h hserved (Script.ofInput "x")
    exact ⟨_, _, h, hserved, rfl, hagain rfl 0⟩
  · have h : Program.ofText ['<'] = .ok ⟨#[.left], #[0]⟩ := by rfl
    have hrun : Machine.run ⟨#[.left], #[0]⟩ 1 {} (Script.ofInput "") =
        some (.error (.pointerOffTape 0), { pointer := -1 }, .ofInput "") := by rfl
    have hserved := Served.fresh.run hrun (by simp)
    obtain ⟨-, -, -, hmissing⟩ := cell_missing_iff_overrun h hserved (Script.ofInput "x")
    exact ⟨_, _, h, hserved, rfl, hmissing ⟨0, rfl⟩ 0⟩

end Esoterica.Brainfuck
