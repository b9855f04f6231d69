import Esoterica.Console.Script
import Esoterica.Proofs.Brainfuck.Brackets
import Esoterica.Proofs.Halting

namespace Esoterica.Brainfuck

namespace Tape

def machine (t : Tape) (offset : Nat) : Machine :=
  ⟨t.cells, .ofNat t.pointer, offset⟩

theorem toNat_pointer (t : Tape) : (UInt64.ofNat t.pointer).toNat = t.pointer := by
  have := t.pointer.isLt
  simp only [tapeLength] at this
  exact UInt64.toNat_ofNat_of_lt' (by simp only [UInt64.size]; omega)

theorem pointer_lt (t : Tape) (offset : Nat) : (t.machine offset).pointer.toNat < tapeLength := by
  rw [machine, toNat_pointer]
  exact t.pointer.isLt

theorem cell_machine (t : Tape) (offset : Nat)
    (h : (t.machine offset).pointer.toNat < tapeLength) :
    (t.machine offset).cells[(t.machine offset).pointer.toNat] = t.cell := by
  simp only [machine, cell, toNat_pointer]
  rfl

theorem charOf_cell (t : Tape) : Machine.charOf t.cell = t.char := by
  have hsize := t.cell.toNat_lt
  by_cases hvalid : t.cell.toNat.isValidChar
  · have hrange : t.cell.toNat < 0xD800 ∨ 0xDFFF < t.cell.toNat := hvalid.imp_right And.left
    rw [Machine.charOf, dif_pos hvalid, char, if_pos hrange, Char.ofNat, dif_pos hvalid]
  · have hrange : ¬(t.cell.toNat < 0xD800 ∨ 0xDFFF < t.cell.toNat) := by
      intro hrange
      exact hvalid (hrange.imp_right fun h => ⟨h, by omega⟩)
    rw [Machine.charOf, dif_neg hvalid, char, if_neg hrange]

theorem put_machine (t : Tape) (offset : Nat) (value : UInt16)
    (h : (t.machine offset).pointer.toNat < tapeLength) :
    { t.machine offset with cells := (t.machine offset).cells.set _ value h } =
      (t.put value).machine offset := by
  simp only [machine, put, toNat_pointer]

end Tape

section Steps

variable {κ : Type} {p : Program} {t : Tape} {c : κ} {i : Nat}

-- Where an action leads that stands at offset `i`.
def Ending.progress (i : Nat) : Ending κ → Progress (Machine × κ) (Except Fault Unit)
  | finished t c => .next (t.machine (i + 1), c)
  | stopped r cells pointer c => .stop r (⟨cells, pointer, i⟩, c)

theorem step_put (value : UInt16) (h : (t.machine i).pointer.toNat < tapeLength) :
    Machine.put value (t.machine i) h c = (Ending.finished (t.put value) c).progress i := by
  have hput := congrArg (fun m => Machine.advance m c) (t.put_machine i value h)
  exact hput

variable [Console κ]

theorem step_of_code {command : Command} (h : p.code[i]? = some command) :
    Machine.step p (t.machine i, c) =
      Machine.exec p command (t.machine i) (t.pointer_lt i) c := by
  have hcode : p.code[(t.machine i).offset]? = some command := h
  simp only [Machine.step, hcode, dif_pos (t.pointer_lt i)]

theorem step_of_end (h : p.code[i]? = none) :
    Machine.step p (t.machine i, c) = .stop (.ok ()) (t.machine i, c) := by
  have hcode : p.code[(t.machine i).offset]? = none := h
  simp only [Machine.step, hcode]

theorem step_comment (h : p.code[i]? = some .comment) :
    Machine.step p (t.machine i, c) = .next (t.machine (i + 1), c) := by
  rw [step_of_code h]
  rfl

theorem step_loop (h : p.code[i]? = some .loop) :
    Machine.step p (t.machine i, c) =
      .next (t.machine (if t.cell = 0 then p.partner i + 1 else i + 1), c) := by
  rw [step_of_code h]
  simp only [Machine.exec, Tape.cell_machine]
  split <;> rfl

theorem step_repeat (h : p.code[i]? = some .repeat) :
    Machine.step p (t.machine i, c) =
      .next (t.machine (if t.cell = 0 then i + 1 else p.partner i + 1), c) := by
  rw [step_of_code h]
  simp only [Machine.exec, Tape.cell_machine]
  split <;> rfl

theorem step_right (t : Tape) :
    Machine.move ((t.machine i).pointer + 1) (t.machine i) c =
      (Action.right.perform i t c).progress i := by
  have hlt := t.pointer.isLt
  have hnext : (t.machine i).pointer + 1 = UInt64.ofNat (t.pointer + 1) := by
    rw [Tape.machine, UInt64.ofNat_add]
    rfl
  have htoNat : (UInt64.ofNat (t.pointer + 1)).toNat = t.pointer + 1 := by
    simp only [tapeLength] at hlt
    exact UInt64.toNat_ofNat_of_lt' (by simp only [UInt64.size]; omega)
  simp only [Machine.move, Action.perform, hnext, htoNat]
  split
  · rfl
  · have hend : t.pointer + 1 = tapeLength := by omega
    rw [hend]
    rfl

theorem step_left (t : Tape) :
    Machine.move ((t.machine i).pointer - 1) (t.machine i) c =
      (Action.left.perform i t c).progress i := by
  have hlt := t.pointer.isLt
  by_cases hpos : 0 < t.pointer.val
  · have hnext : (t.machine i).pointer - 1 = UInt64.ofNat (t.pointer - 1) := by
      rw [Tape.machine, UInt64.ofNat_sub hpos]
      rfl
    have htoNat : (UInt64.ofNat (t.pointer - 1)).toNat = t.pointer - 1 := by
      simp only [tapeLength] at hlt
      exact UInt64.toNat_ofNat_of_lt' (by simp only [UInt64.size]; omega)
    have hon : t.pointer - 1 < tapeLength := by omega
    simp only [Machine.move, Action.perform, hnext, htoNat, hon, hpos, if_true]
    rfl
  · have hfirst : (t.machine i).pointer = 0 := by
      rw [Tape.machine, Nat.eq_zero_of_not_pos hpos]
      rfl
    have hoff : ¬(0 - 1 : UInt64).toNat < tapeLength := by decide
    simp only [Machine.move, Action.perform, hfirst, hoff, hpos, if_false]
    rfl

theorem step_action {command : Command} {a : Action} (h : p.code[i]? = some command)
    (ha : command.action? = some a) :
    Machine.step p (t.machine i, c) = (a.perform i t c).progress i := by
  rw [step_of_code h]
  cases command <;> simp only [Command.action?, Option.some.injEq, reduceCtorEq] at ha
  all_goals subst ha
  case right => exact step_right t
  case left => exact step_left t
  case increment | decrement =>
    simp only [Machine.exec, Tape.cell_machine]
    exact step_put _ _
  case output =>
    simp only [Machine.exec, Tape.cell_machine, Tape.charOf_cell]
    rfl
  case input =>
    simp only [Machine.exec, Action.perform]
    generalize Console.readChar c = answer
    obtain ⟨char?, c'⟩ := answer
    cases char? with
    | none => rfl
    | some char => exact step_put _ _
  case stop => rfl

end Steps

section Simulation

variable {κ : Type} [Console κ] {p : Program} {i j : Nat}

theorem leads_blank (hblank : Blank p i j) (t : Tape) (c : κ) :
    Leads (Machine.step p) (t.machine i, c) (t.machine j, c) := by
  induction hblank with
  | here => exact .refl
  | comment hcomment _ ih => exact .head (step_comment hcomment) ih

-- At the end of its body a loop goes on as at its beginning, except that the test is made there.
theorem step_loop_eq_repeat {o k : Nat} (hopen : p.code[o]? = some .loop)
    (hclose : p.code[k]? = some .repeat) (hpartner : p.partner o = k ∧ p.partner k = o) (t : Tape)
    (c : κ) : Machine.step p (t.machine k, c) = Machine.step p (t.machine o, c) := by
  rw [step_loop hopen, step_repeat hclose, hpartner.1, hpartner.2]

-- What the machine makes of a block that ends like this and stands up to offset `j`.
def Ending.Reaches (p : Program) (j : Nat) (x : Machine × κ) : Ending κ → Prop
  | finished t c =>
    ∀ out, Halts (Machine.step p) (t.machine j, c) out → Halts (Machine.step p) x out
  | stopped r cells pointer c =>
    ∃ offset, Halts (Machine.step p) x (r, ⟨cells, pointer, offset⟩, c)

theorem Ending.Reaches.of_halts {x y : Machine × κ} {e : Ending κ} (h : e.Reaches p j y)
    (hxy : ∀ out, Halts (Machine.step p) y out → Halts (Machine.step p) x out) :
    e.Reaches p j x := by
  cases e with
  | finished t c => exact fun out hout => hxy out (h out hout)
  | stopped r cells pointer c =>
    obtain ⟨offset, hhalts⟩ := h
    exact ⟨offset, hxy _ hhalts⟩

theorem reaches_of_exec {b : Block} {t : Tape} {c : κ} {e : Ending κ} (h : b.Exec t c e)
    (hstands : b.Stands p i j) : e.Reaches p j (t.machine i, c) := by
  induction h generalizing i j with
  | done =>
    cases hstands with
    | done blank => exact fun out => (halts_iff_of_leads (leads_blank blank _ _)).mpr
  | @next o a rest t t' c c' e h _ ih =>
    cases hstands with
    | action blank hcode ha more =>
      have hstep : Machine.step p (t.machine o, c) = .next (t'.machine (o + 1), c') := by
        rw [step_action hcode ha, h]
        rfl
      have hleads := (leads_blank blank t c).tail hstep
      exact (ih more).of_halts fun out => (halts_iff_of_leads hleads).mpr
  | @stop o a rest t c c' r cells pointer h =>
    cases hstands with
    | action blank hcode ha more =>
      have hstep : Machine.step p (t.machine o, c) = .stop r (⟨cells, pointer, o⟩, c') := by
        rw [step_action hcode ha, h]
        rfl
      exact ⟨o, (halts_iff_of_leads (leads_blank blank t c)).mpr (halts_of_stop hstep)⟩
  | @skip body rest t c e h _ ih =>
    cases hstands with
    | @loop _ _ o k _ _ blank hopen inner hclose hpartner more =>
      have hstep : Machine.step p (t.machine o, c) = .next (t.machine (k + 1), c) := by
        rw [step_loop hopen, if_pos h, hpartner.1]
      have hleads := (leads_blank blank t c).tail hstep
      exact (ih more).of_halts fun out => (halts_iff_of_leads hleads).mpr
  | @again body rest t t' c c' e h _ _ ih ih' =>
    cases hstands with
    | @loop _ _ o k _ _ blank hopen inner hclose hpartner more =>
      have hstep : Machine.step p (t.machine o, c) = .next (t.machine (o + 1), c) := by
        rw [step_loop hopen, if_neg h]
      have hleads := (leads_blank blank t c).tail hstep
      have hagain := ih' (.loop .here hopen inner hclose hpartner more)
      -- the run goes on from the end of the body as it would from the beginning of the loop
      have hback : ∀ out, Halts (Machine.step p) (t'.machine o, c') out →
          Halts (Machine.step p) (t.machine i, c) out := by
        rintro out ⟨bound, hbound⟩
        have hsame := step_loop_eq_repeat hopen hclose hpartner t' c'
        have hclosed := ih inner out ⟨bound, (runFor_congr hsame bound).trans hbound⟩
        exact (halts_iff_of_leads hleads).mpr hclosed
      exact hagain.of_halts hback
  | @leave body rest t c c' r cells pointer h _ ih =>
    cases hstands with
    | @loop _ _ o k _ _ blank hopen inner hclose hpartner more =>
      have hstep : Machine.step p (t.machine o, c) = .next (t.machine (o + 1), c) := by
        rw [step_loop hopen, if_neg h]
      obtain ⟨offset, hhalts⟩ := ih inner
      exact ⟨offset, (halts_iff_of_leads ((leads_blank blank t c).tail hstep)).mpr hhalts⟩

-- How a run that comes to `out` within `bound` steps goes on behind a block that ends like this
-- and stands up to offset `j`.
def Ending.Leaves (p : Program) (j bound : Nat) (out : Except Fault Unit × Machine × κ) :
    Ending κ → Prop
  | finished t c => ∃ less ≤ bound, runFor (Machine.step p) less (t.machine j, c) = some out
  | stopped r cells pointer c => ∃ offset, out = (r, ⟨cells, pointer, offset⟩, c)

theorem Ending.Leaves.mono {bound more : Nat} {out : Except Fault Unit × Machine × κ} {e : Ending κ}
    (h : e.Leaves p j bound out) (hle : bound ≤ more) : e.Leaves p j more out := by
  cases e with
  | finished t c =>
    obtain ⟨less, hless, hrun⟩ := h
    exact ⟨less, by omega, hrun⟩
  | stopped r cells pointer c => exact h

-- Every bracket and every action costs a step, so that each part of a block is left with a
-- smaller bound than the block was begun with.
theorem exec_of_runFor {b : Block} {t : Tape} {c : κ} {bound : Nat}
    {out : Except Fault Unit × Machine × κ} (hstands : b.Stands p i j)
    (h : runFor (Machine.step p) bound (t.machine i, c) = some out) :
    ∃ e, b.Exec t c e ∧ e.Leaves p j bound out := by
  induction bound using Nat.strongRecOn generalizing b t c i j with
  | ind bound ih =>
    cases hstands with
    | done blank => exact ⟨_, .done, exists_runFor_of_leads (leads_blank blank t c) h⟩
    | @action _ _ o command a rest blank hcode ha more =>
      obtain ⟨_ | less, hless, hrun⟩ := exists_runFor_of_leads (leads_blank blank t c) h
      · cases hrun
      · have hstep := step_action (t := t) (c := c) hcode ha
        cases hperform : a.perform o t c with
        | finished t' c' =>
          rw [hperform] at hstep
          rw [runFor_of_next hstep] at hrun
          obtain ⟨e, hexec, hleaves⟩ := ih less (by omega) more hrun
          exact ⟨e, .next hperform hexec, hleaves.mono (by omega)⟩
        | stopped r cells pointer c' =>
          rw [hperform] at hstep
          rw [runFor_of_stop hstep, Option.some.injEq] at hrun
          exact ⟨_, .stop hperform, o, hrun.symm⟩
    | @loop _ _ o k body rest blank hopen inner hclose hpartner more =>
      obtain ⟨_ | less, hless, hrun⟩ := exists_runFor_of_leads (leads_blank blank t c) h
      · cases hrun
      · rw [runFor_of_next (step_loop hopen)] at hrun
        by_cases hcell : t.cell = 0
        · rw [if_pos hcell, hpartner.1] at hrun
          obtain ⟨e, hexec, hleaves⟩ := ih less (by omega) more hrun
          exact ⟨e, .skip hcell hexec, hleaves.mono (by omega)⟩
        · rw [if_neg hcell] at hrun
          obtain ⟨e, hexec, hleaves⟩ := ih less (by omega) inner hrun
          cases e with
          | stopped r cells pointer c' => exact ⟨_, .leave hcell hexec, hleaves⟩
          | finished t' c' =>
            obtain ⟨rest, hrest, hrun'⟩ := hleaves
            rw [runFor_congr (step_loop_eq_repeat hopen hclose hpartner t' c')] at hrun'
            have hloop := Block.Stands.loop .here hopen inner hclose hpartner more
            obtain ⟨e, hagain, hleaves⟩ := ih rest (by omega) hloop hrun'
            exact ⟨e, .again hcell hexec hagain, hleaves.mono (by omega)⟩

end Simulation

-- A run of an accepted text ends exactly if its tree comes to an end, and then both have the same
-- result, cells, pointer and console.
theorem run_iff_exec {κ : Type} [Console κ] {text : List Char} {p : Program}
    (h : Program.ofText text = .ok p) :
    ∃ block, Block.ofText text = some block ∧
      ∀ (c : κ) (r : Except Fault Unit) (cells : Vector UInt16 tapeLength) (pointer : UInt64)
        (c' : κ),
        (∃ bound offset, Machine.run p bound {} c = some (r, ⟨cells, pointer, offset⟩, c')) ↔
          ∃ e, block.Exec {} c e ∧ e.outcome = (r, cells, pointer, c') := by
  obtain ⟨block, hblock, hstands⟩ := exists_stands h
  have hend : p.code[p.code.size]? = none := by simp
  refine ⟨block, hblock, fun c r cells pointer c' => ⟨?_, ?_⟩⟩
  · rintro ⟨bound, offset, hrun⟩
    obtain ⟨e, hexec, hleaves⟩ := exec_of_runFor hstands hrun (t := {})
    refine ⟨e, hexec, ?_⟩
    cases e with
    | stopped r' cells' pointer' c'' =>
      obtain ⟨offset', hout⟩ := hleaves
      cases hout
      rfl
    | finished t c'' =>
      obtain ⟨_ | less, -, hrest⟩ := hleaves
      · cases hrest
      · rw [runFor_of_stop (step_of_end hend), Option.some.injEq] at hrest
        cases hrest
        rfl
  · rintro ⟨e, hexec, houtcome⟩
    have hreaches := reaches_of_exec hexec hstands
    cases e with
    | stopped r' cells' pointer' c'' =>
      cases houtcome
      obtain ⟨offset, bound, hrun⟩ := hreaches
      exact ⟨bound, offset, hrun⟩
    | finished t c'' =>
      cases houtcome
      obtain ⟨bound, hrun⟩ := hreaches _ (halts_of_stop (step_of_end hend))
      exact ⟨bound, _, hrun⟩

-- A loop that is left from its first round, by a move off the tape.
def runaway : List Char :=
  ['+', 'x', '[', '<', ']']

theorem run_iff_exec_runaway :
    ∃ p bound offset, Program.ofText runaway = .ok p ∧
      Machine.run p bound {} (Script.ofInput "") =
        some (.error (.pointerOffTape 3), ⟨(Vector.replicate tapeLength 0).set 0 1 (by decide), -1,
          offset⟩, .ofInput "") := by
  have h : Program.ofText runaway =
      .ok ⟨#[.increment, .comment, .loop, .left, .repeat], #[0, 0, 4, 0, 2]⟩ := by rfl
  obtain ⟨block, hblock, hrun⟩ := run_iff_exec (κ := Script) h
  obtain rfl : block = .action 0 .increment (.loop (.action 3 .left .done) .done) :=
    Option.some.inj (hblock.symm.trans rfl)
  have hcell : (({} : Tape).put 1).cell ≠ 0 := by simp [Tape.put, Tape.cell]
  have hplus : Action.increment.perform 0 {} (Script.ofInput "") =
      .finished (({} : Tape).put 1) (.ofInput "") := by simp [Action.perform, Tape.cell]
  have hleft : (Block.action 3 .left .done).Exec (({} : Tape).put 1) (Script.ofInput "")
      (.stopped (.error (.pointerOffTape 3)) (({} : Tape).put 1).cells (-1) (.ofInput "")) :=
    .stop rfl
  have hexec : (Block.action 0 .increment (.loop (.action 3 .left .done) .done)).Exec {}
      (Script.ofInput "") _ := .next hplus (.leave hcell hleft)
  obtain ⟨bound, offset, hrun⟩ := (hrun _ _ _ _ _).mpr ⟨_, hexec, rfl⟩
  exact ⟨_, bound, offset, h, hrun⟩

end Esoterica.Brainfuck
