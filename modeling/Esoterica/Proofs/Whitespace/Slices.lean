import Esoterica.Console.Script
import Esoterica.Proofs.Halting
import Esoterica.Whitespace.Machine
import Mathlib.Data.Nat.Basic

namespace Esoterica.Whitespace

variable {κ : Type}

def Machine.withTicks (ticks : UInt64) (m : Machine) : Machine :=
  { m with ticks }

def Outcome.withTicks (ticks : UInt64) : Outcome κ → Outcome κ
  | done m c => .done (m.withTicks ticks) c
  | exit m c => .exit (m.withTicks ticks) c
  | fault f m c => .fault f (m.withTicks ticks) c

section Ticks

variable {p : Program} {ticks : UInt64} {m : Machine} {c : κ}

theorem seek_withTicks (target : Nat) :
    Machine.seek p target (m.withTicks ticks) c = (Machine.seek p target m c).withTicks ticks := by
  unfold Machine.seek
  split <;> rfl

theorem jump_withTicks (label : Label) :
    Machine.jump p label (m.withTicks ticks) c = (Machine.jump p label m c).withTicks ticks := by
  unfold Machine.jump
  split
  · exact seek_withTicks _
  · rfl

theorem unary_withTicks {f : Int64 → Machine → Outcome κ}
    (hf : ∀ value m, f value (Machine.withTicks ticks m) = (f value m).withTicks ticks) :
    Machine.unary f (m.withTicks ticks) c = (Machine.unary f m c).withTicks ticks := by
  obtain ⟨stack, calls, heap, cursor, old⟩ := m
  cases stack with
  | nil => rfl
  | cons value rest => exact hf value ⟨rest, calls, heap, cursor, old⟩

theorem binary_withTicks (f : Int64 → Int64 → Except Fault Int64) :
    Machine.binary f (m.withTicks ticks) c = (Machine.binary f m c).withTicks ticks := by
  obtain ⟨stack, calls, heap, cursor, old⟩ := m
  simp only [Machine.binary, Machine.withTicks]
  split
  · split <;> rfl
  · rfl

-- No instruction looks at the count or changes it.
theorem exec_withTicks [Console κ] (ticks : UInt64) (m : Machine) (c : κ) (stop : Nat) (i : Instr) :
    Machine.exec p stop i (m.withTicks ticks) c = (Machine.exec p stop i m c).withTicks ticks := by
  obtain ⟨op, operand⟩ := i
  cases op with
  | push | label | exit => rfl
  | dup | copy | swap =>
    obtain ⟨stack, calls, heap, cursor, old⟩ := m
    simp only [Machine.exec, Machine.withTicks]
    split <;> rfl
  | add | sub | mul | div | mod =>
    simp only [Machine.exec]
    exact binary_withTicks _
  | pop | outnum =>
    simp only [Machine.exec]
    exact unary_withTicks fun _ _ => rfl
  | slide =>
    simp only [Machine.exec]
    refine unary_withTicks fun value m => ?_
    by_cases hlen : operand.toInt.toNat ≤ m.stack.length
    · simp only [Machine.withTicks, hlen, if_true]
      rfl
    · simp only [Machine.withTicks, hlen, if_false]
      rfl
  | store =>
    simp only [Machine.exec]
    exact unary_withTicks fun _ _ => unary_withTicks fun _ _ => rfl
  | retr =>
    simp only [Machine.exec]
    refine unary_withTicks fun address m => ?_
    simp only [Machine.withTicks]
    split <;> rfl
  | call =>
    simp only [Machine.exec]
    exact jump_withTicks (m := { m with calls := stop :: m.calls }) operand
  | jmp =>
    simp only [Machine.exec]
    exact jump_withTicks operand
  | jz | jn =>
    simp only [Machine.exec]
    refine unary_withTicks fun value m => ?_
    split
    · exact jump_withTicks operand
    · rfl
  | ret =>
    obtain ⟨stack, calls, heap, cursor, old⟩ := m
    cases calls with
    | nil => rfl
    | cons target rest => exact seek_withTicks (m := ⟨stack, rest, heap, cursor, old⟩) target
  | outchar =>
    simp only [Machine.exec]
    refine unary_withTicks fun value m => ?_
    split <;> rfl
  | readchar =>
    simp only [Machine.exec]
    refine unary_withTicks fun address m => ?_
    split <;> rfl
  | readnum =>
    simp only [Machine.exec]
    refine unary_withTicks fun address m => ?_
    split
    · split <;> rfl
    · rfl

end Ticks

section Steps

variable [Console κ] {p : Program} {period ticks : UInt64} {m : Machine} {c : κ}

-- A period has no say in what an instruction does, only in what comes after it.
theorem step_cases (p : Program) (hperiod : period ≠ 0) (ticks : UInt64) (m : Machine) (c : κ) :
    (∃ r m' c', r ≠ .ok .interrupted ∧ Machine.step p 0 (m, c) = .stop r (m', c') ∧
      Machine.step p period (m.withTicks ticks, c) = .stop r (m'.withTicks ticks, c')) ∨
    ∃ m' c', Machine.step p 0 (m, c) = .next (m', c') ∧
      Machine.step p period (m.withTicks ticks, c) =
        if (ticks + 1) % period = 0 then
          .stop (.ok .interrupted) (m'.withTicks (ticks + 1), c')
        else .next (m'.withTicks (ticks + 1), c') := by
  have hcursor : (m.withTicks ticks).cursor = m.cursor := rfl
  simp only [Machine.step, hcursor]
  cases hnext : nextToken? p.source m.cursor with
  | error fault => exact .inl ⟨_, _, _, by simp, rfl, rfl⟩
  | ok found =>
    cases found with
    | none => exact .inl ⟨_, _, _, by simp, rfl, rfl⟩
    | some t =>
      have hexec : Machine.exec p t.stop t.instr { m.withTicks ticks with cursor := t.next } c =
          (Machine.exec p t.stop t.instr { m with cursor := t.next } c).withTicks ticks :=
        exec_withTicks ticks { m with cursor := t.next } c t.stop t.instr
      simp only [hexec]
      cases Machine.exec p t.stop t.instr { m with cursor := t.next } c with
      | done m' c' =>
        refine .inr ⟨m', c', rfl, ?_⟩
        simp only [Outcome.withTicks, Machine.tick, if_neg hperiod]
        rfl
      | exit m' c' => exact .inl ⟨_, _, _, by simp, rfl, rfl⟩
      | fault f m' c' => exact .inl ⟨_, _, _, by simp, rfl, rfl⟩

end Steps

-- All of a machine except for its count of instructions.
def Machine.untimed (m : Machine) : Machine :=
  m.withTicks 0

variable [Console κ] {p : Program} {period : UInt64}

-- Runs slice after slice, each with its own bound, until one ends otherwise than by an
-- interruption.
def Machine.drive (p : Program) (period : UInt64) :
    List Nat → Machine → κ → Option (Except Fault Stop × Machine × κ)
  | [], _, _ => none
  | bound :: bounds, m, c =>
    match m.run p period bound c with
    | none => none
    | some (.ok .interrupted, m, c) => drive p period bounds m c
    | some (r, m, c) => some (r, m, c)

section Driver

variable {bound : Nat} {bounds : List Nat} {m m' : Machine} {c c' : κ} {r : Except Fault Stop}

theorem drive_of_interrupted (h : m.run p period bound c = some (.ok .interrupted, m', c')) :
    m.drive p period (bound :: bounds) c = m'.drive p period bounds c' := by
  rw [Machine.drive, h]

theorem drive_of_ended (h : m.run p period bound c = some (r, m', c'))
    (hr : r ≠ .ok .interrupted) : m.drive p period (bound :: bounds) c = some (r, m', c') := by
  rw [Machine.drive, h]
  split <;> simp_all

theorem drive_of_next (h : Machine.step p period (m, c) = .next (m', c'))
    {out : Except Fault Stop × Machine × κ} (hout : m'.drive p period bounds c' = some out) :
    ∃ bounds, m.drive p period bounds c = some out := by
  cases bounds with
  | nil => cases hout
  | cons bound bounds =>
    refine ⟨(bound + 1) :: bounds, ?_⟩
    have hrun : m.run p period (bound + 1) c = m'.run p period bound c' := runFor_of_next h bound
    rw [← hout, Machine.drive, Machine.drive, hrun]

-- A run in one piece can be made in slices.
theorem drive_of_run (hperiod : period ≠ 0)
    (h : m.run p 0 bound c = some (r, m', c')) (ticks : UInt64) :
    ∃ bounds ticks', (m.withTicks ticks).drive p period bounds c =
      some (r, m'.withTicks ticks', c') := by
  induction bound generalizing m c ticks with
  | zero => cases h
  | succ bound ih =>
    obtain ⟨r₁, m₁, c₁, hr, hwhole, hslice⟩ | ⟨m₁, c₁, hwhole, hslice⟩ :=
      step_cases p hperiod ticks m c
    · rw [Machine.run, runFor_of_stop hwhole] at h
      cases h
      exact ⟨[1], ticks, drive_of_ended (runFor_of_stop hslice 0) hr⟩
    · rw [Machine.run, runFor_of_next hwhole] at h
      obtain ⟨bounds, ticks', hdrive⟩ := ih h (ticks + 1)
      by_cases htick : (ticks + 1) % period = 0
      · rw [if_pos htick] at hslice
        refine ⟨1 :: bounds, ticks', ?_⟩
        rw [drive_of_interrupted (runFor_of_stop hslice 0), hdrive]
      · rw [if_neg htick] at hslice
        obtain ⟨bounds, hdrive⟩ := drive_of_next hslice hdrive
        exact ⟨bounds, ticks', hdrive⟩

-- A slice is a part of the run in one piece, or the whole of it.
theorem whole_of_slice (hperiod : period ≠ 0) (ticks : UInt64)
    (h : (m.withTicks ticks).run p period bound c = some (r, m', c')) :
    ∃ m₁ ticks', m' = m₁.withTicks ticks' ∧
      ((r = .ok .interrupted ∧ ∀ less out, m₁.run p 0 less c' = some out →
        ∃ more, m.run p 0 more c = some out) ∨
      (r ≠ .ok .interrupted ∧ ∃ more, m.run p 0 more c = some (r, m₁, c'))) := by
  induction bound generalizing m c ticks with
  | zero => cases h
  | succ bound ih =>
    obtain ⟨r₁, m₁, c₁, hr, hwhole, hslice⟩ | ⟨m₁, c₁, hwhole, hslice⟩ :=
      step_cases p hperiod ticks m c
    · rw [Machine.run, runFor_of_stop hslice] at h
      cases h
      exact ⟨m₁, ticks, rfl, .inr ⟨hr, 1, runFor_of_stop hwhole 0⟩⟩
    · have hmore {out : Except Fault Stop × Machine × κ} {less : Nat}
          (hless : m₁.run p 0 less c₁ = some out) : ∃ more, m.run p 0 more c = some out :=
        ⟨less + 1, (runFor_of_next hwhole less).trans hless⟩
      by_cases htick : (ticks + 1) % period = 0
      · rw [if_pos htick] at hslice
        rw [Machine.run, runFor_of_stop hslice] at h
        cases h
        exact ⟨m₁, ticks + 1, rfl, .inl ⟨rfl, fun _ _ => hmore⟩⟩
      · rw [if_neg htick] at hslice
        rw [Machine.run, runFor_of_next hslice] at h
        obtain ⟨m₂, ticks', hm₂, ⟨hr, hrest⟩ | ⟨hr, less, hrest⟩⟩ := ih _ h
        · refine ⟨m₂, ticks', hm₂, .inl ⟨hr, fun less out hout => ?_⟩⟩
          obtain ⟨more, hout⟩ := hrest less out hout
          exact hmore hout
        · exact ⟨m₂, ticks', hm₂, .inr ⟨hr, hmore hrest⟩⟩

theorem run_of_drive (hperiod : period ≠ 0) (ticks : UInt64)
    (h : (m.withTicks ticks).drive p period bounds c = some (r, m', c')) :
    ∃ bound m₁ ticks', m.run p 0 bound c = some (r, m₁, c') ∧ m' = m₁.withTicks ticks' := by
  induction bounds generalizing m c ticks with
  | nil => cases h
  | cons bound bounds ih =>
    cases hrun : (m.withTicks ticks).run p period bound c with
    | none => simp [Machine.drive, hrun] at h
    | some out =>
      obtain ⟨r₁, m₁, c₁⟩ := out
      obtain ⟨m₂, ticks', rfl, ⟨rfl, hrest⟩ | ⟨hr, more, hwhole⟩⟩ :=
        whole_of_slice hperiod ticks hrun
      · rw [drive_of_interrupted hrun] at h
        obtain ⟨less, m₃, ticks', hless, hm₃⟩ := ih _ h
        obtain ⟨more, hmore⟩ := hrest less _ hless
        exact ⟨more, m₃, ticks', hmore, hm₃⟩
      · rw [drive_of_ended hrun hr] at h
        cases h
        exact ⟨more, m₂, ticks', hwhole, rfl⟩

end Driver

section Counting

-- Whether the instruction that the machine reads next is completed: it does not fail, and it is
-- no exit.
def Machine.completes (p : Program) (x : Machine × κ) : Bool :=
  match nextToken? p.source x.1.cursor with
  | .ok (some t) =>
    match exec p t.stop t.instr { x.1 with cursor := t.next } x.2 with
    | .done _ _ => true
    | _ => false
  | _ => false

def Machine.completed (p : Program) (period : UInt64) : Nat → Machine × κ → Nat
  | 0, _ => 0
  | bound + 1, x =>
    (completes p x).toNat +
      match step p period x with
      | .next y => completed p period bound y
      | .stop _ _ => 0

-- A machine that was fresh once. It has completed `n` instructions and been interrupted `k` times
-- since, in runs between which its data and the console could be changed.
inductive Machine.Counted (p : Program) (period : UInt64) : Nat → Nat → Machine → κ → Prop
  | fresh (c : κ) : Counted p period 0 0 {} c
  | interrupted {n k bound : Nat} {m m' : Machine} {c c' : κ} (h : Counted p period n k m c)
      (hrun : m.run p period bound c = some (.ok .interrupted, m', c')) :
      Counted p period (n + completed p period bound (m, c)) (k + 1) m' c'
  | ended {n k bound : Nat} {m m' : Machine} {c c' : κ} {r : Except Fault Stop}
      (h : Counted p period n k m c) (hrun : m.run p period bound c = some (r, m', c'))
      (hr : r ≠ .ok .interrupted) :
      Counted p period (n + completed p period bound (m, c)) k m' c'
  | change {n k : Nat} {m : Machine} {c : κ} (h : Counted p period n k m c) (stack : List Int64)
      (calls : List Nat) (heap : Heap) (c' : κ) :
      Counted p period n k { m with stack, calls, heap } c'

theorem completes_eq (x : Machine × κ) :
    Machine.completes p x =
      match Machine.step p 0 x with
      | .next _ => true
      | .stop _ _ => false := by
  obtain ⟨m, c⟩ := x
  simp only [Machine.completes, Machine.step]
  cases nextToken? p.source m.cursor with
  | error fault => rfl
  | ok found =>
    cases found with
    | none => rfl
    | some t =>
      simp only
      cases Machine.exec p t.stop t.instr { m with cursor := t.next } c <;> rfl

theorem toNat_pos {period : UInt64} (h : period ≠ 0) : 0 < period.toNat :=
  Nat.pos_of_ne_zero fun hzero => h (UInt64.toNat_inj.mp hzero)

-- Another instruction completes a period exactly if an interruption comes behind it.
theorem succ_div_period {ticks : UInt64} (period : UInt64) (h : ticks.toNat + 1 < UInt64.size) :
    (ticks + 1).toNat = ticks.toNat + 1 ∧
      ((ticks + 1) % period = 0 ↔ period.toNat ∣ ticks.toNat + 1) := by
  have hsucc : (ticks + 1).toNat = ticks.toNat + 1 := by
    rw [UInt64.toNat_add]
    exact Nat.mod_eq_of_lt h
  refine ⟨hsucc, ?_⟩
  rw [← UInt64.toNat_inj, UInt64.toNat_mod, hsucc]
  exact (Nat.dvd_iff_mod_eq_zero).symm

-- A count that begins anew at zero completes a period as well.
theorem succ_lt_size {ticks period : UInt64} (h : (ticks + 1) % period ≠ 0) :
    ticks.toNat + 1 < UInt64.size := by
  refine lt_of_le_of_ne ticks.toNat_lt_size fun hfull => h ?_
  rw [← UInt64.toNat_inj, UInt64.toNat_mod, UInt64.toNat_add]
  change (ticks.toNat + 1) % UInt64.size % _ = 0
  rw [hfull, Nat.mod_self, Nat.zero_mod]

-- How many instructions the machine can complete before the one that completes the period.
def Machine.left (period : UInt64) (m : Machine) : Nat :=
  period.toNat - 1 - m.ticks.toNat % period.toNat

theorem left_next_lt (hperiod : period ≠ 0) {m m' : Machine} {c c' : κ}
    (h : Machine.step p period (m, c) = .next (m', c')) : m'.left period < m.left period := by
  obtain ⟨_, _, _, -, -, hslice⟩ | ⟨m₁, c₁, -, hslice⟩ := step_cases p hperiod m.ticks m c
  · cases hslice.symm.trans h
  · change Machine.step p period (m, c) = _ at hslice
    rw [h] at hslice
    split at hslice
    case isTrue => cases hslice
    case isFalse htick =>
      cases hslice
      obtain ⟨hsucc, hdvd⟩ := succ_div_period period (succ_lt_size htick)
      have hmod := Nat.div_add_mod (m.ticks.toNat + 1) period.toNat
      rw [Nat.succ_div_of_not_dvd (mt hdvd.mpr htick)] at hmod
      have hmod' := Nat.div_add_mod m.ticks.toNat period.toNat
      have hless := Nat.mod_lt (m.ticks.toNat + 1) (toNat_pos hperiod)
      simp only [Machine.left, Machine.withTicks, hsucc]
      omega

-- Every slice ends, by an interruption if by nothing else.
theorem exists_run_left (hperiod : period ≠ 0) (m : Machine) (c : κ) :
    ∃ out, m.run p period (m.left period + 1) c = some out := by
  have hstep (x y : Machine × κ) (_ : True) (hnext : Machine.step p period x = .next y) :
      True ∧ y.1.left period < x.1.left period :=
    ⟨trivial, left_next_lt hperiod hnext⟩
  exact exists_runFor_of_measure_lt hstep trivial (Nat.lt_succ_self _)

-- The count goes on through a run, and the run is over when the count completes a period.
theorem count_of_run (hperiod : period ≠ 0) {bound n k : Nat} {m m' : Machine} {c c' : κ}
    {r : Except Fault Stop} (hticks : m.ticks.toNat = n) (hk : n / period.toNat = k)
    (hrun : m.run p period bound c = some (r, m', c'))
    (hsmall : n + Machine.completed p period bound (m, c) < UInt64.size) :
    m'.ticks.toNat = n + Machine.completed p period bound (m, c) ∧
      ((r = .ok .interrupted ∧
        n + Machine.completed p period bound (m, c) = (k + 1) * period.toNat) ∨
      (r ≠ .ok .interrupted ∧
        (n + Machine.completed p period bound (m, c)) / period.toNat = k)) := by
  induction bound generalizing m c n with
  | zero => cases hrun
  | succ bound ih =>
    simp only [Machine.completed, completes_eq] at hsmall ⊢
    obtain ⟨r₁, m₁, c₁, hr, hwhole, hslice⟩ | ⟨m₁, c₁, hwhole, hslice⟩ :=
      step_cases p hperiod m.ticks m c
    · change Machine.step p period (m, c) = _ at hslice
      rw [Machine.run, runFor_of_stop hslice] at hrun
      cases hrun
      simp only [hwhole, hslice]
      exact ⟨hticks, .inr ⟨hr, hk⟩⟩
    · change Machine.step p period (m, c) = _ at hslice
      simp only [hwhole, Bool.toNat_true] at hsmall ⊢
      have hnext : m.ticks.toNat + 1 < UInt64.size := by omega
      obtain ⟨hsucc, htick⟩ := succ_div_period period hnext
      have hdiv := Nat.succ_div (a := n) (b := period.toNat)
      by_cases hend : (m.ticks + 1) % period = 0
      · rw [if_pos hend] at hslice
        rw [Machine.run, runFor_of_stop hslice] at hrun
        cases hrun
        simp only [hslice]
        have hdvd : period.toNat ∣ n + 1 := hticks ▸ htick.mp hend
        rw [if_pos hdvd, hk] at hdiv
        refine ⟨by simp [Machine.withTicks, hsucc, hticks], .inl ⟨trivial, ?_⟩⟩
        rw [Nat.add_zero, ← hdiv, Nat.div_mul_cancel hdvd]
      · rw [if_neg hend] at hslice
        rw [Machine.run, runFor_of_next hslice] at hrun
        simp only [hslice] at hsmall ⊢
        have hdvd : ¬period.toNat ∣ n + 1 := fun h => hend (htick.mpr (hticks ▸ h))
        rw [if_neg hdvd, hk, Nat.add_zero] at hdiv
        rw [← Nat.add_assoc] at hsmall ⊢
        exact ih (by simp [Machine.withTicks, hsucc, hticks]) hdiv hrun hsmall

theorem Machine.Counted.ticks_eq (hperiod : period ≠ 0) {n k : Nat} {m : Machine} {c : κ}
    (h : Machine.Counted p period n k m c) (hn : n < UInt64.size) :
    m.ticks.toNat = n ∧ n / period.toNat = k := by
  induction h with
  | fresh c => exact ⟨rfl, Nat.zero_div _⟩
  | @interrupted n k bound m m' c c' _ hrun ih =>
    obtain ⟨hticks, hk⟩ := ih (by omega)
    obtain ⟨hticks', ⟨-, hcount⟩ | ⟨hr, -⟩⟩ := count_of_run hperiod hticks hk hrun hn
    · have hpos := toNat_pos hperiod
      exact ⟨hticks', by rw [hcount, Nat.mul_div_cancel _ hpos]⟩
    · exact absurd rfl hr
  | @ended n k bound m m' c c' r _ hrun hr ih =>
    obtain ⟨hticks, hk⟩ := ih (by omega)
    obtain ⟨hticks', ⟨hr', -⟩ | ⟨-, hcount⟩⟩ := count_of_run hperiod hticks hk hrun hn
    · exact absurd hr' hr
    · exact ⟨hticks', hcount⟩
  | change _ _ _ _ _ ih => exact ih hn

end Counting

-- Slicing changes nothing but the count, and the interruptions are where they should be: with `k`
-- interruptions so far, the next one comes when the period has been completed once more. No run
-- goes on for longer than that, and one that ends in another way ends before.
theorem slices_are_transparent {κ : Type} [Console κ] (p : Program) {period : UInt64}
    (hperiod : period ≠ 0) :
    (∀ (m : Machine) (c : κ) (r : Except Fault Stop) (data : Machine) (c' : κ),
      (∃ bound m', m.run p 0 bound c = some (r, m', c') ∧ m'.untimed = data) ↔
        ∃ bounds m', m.drive p period bounds c = some (r, m', c') ∧ m'.untimed = data) ∧
    ∀ (n k : Nat) (m : Machine) (c : κ), Machine.Counted p period n k m c → n < UInt64.size →
      n / period.toNat = k ∧
        (∃ out, m.run p period ((k + 1) * period.toNat - n) c = some out) ∧
        ∀ (bound : Nat) (r : Except Fault Stop) (m' : Machine) (c' : κ),
          m.run p period bound c = some (r, m', c') →
          n + Machine.completed p period bound (m, c) < UInt64.size →
          (r = .ok .interrupted ∧
            n + Machine.completed p period bound (m, c) = (k + 1) * period.toNat) ∨
          (r ≠ .ok .interrupted ∧
            n + Machine.completed p period bound (m, c) < (k + 1) * period.toNat) := by
  refine ⟨fun m c r data c' => ⟨?_, ?_⟩, ?_⟩
  · rintro ⟨bound, m', hrun, rfl⟩
    obtain ⟨bounds, ticks, hdrive⟩ := drive_of_run hperiod hrun m.ticks
    exact ⟨bounds, _, hdrive, rfl⟩
  · rintro ⟨bounds, m', hdrive, rfl⟩
    obtain ⟨bound, m₁, ticks, hrun, rfl⟩ := run_of_drive hperiod m.ticks hdrive
    exact ⟨bound, m₁, hrun, rfl⟩
  · intro n k m c hcounted hn
    obtain ⟨hticks, hk⟩ := hcounted.ticks_eq hperiod hn
    have hleft : m.left period + 1 = (k + 1) * period.toNat - n := by
      have hmod := Nat.div_add_mod n period.toNat
      have hless := Nat.mod_lt n (toNat_pos hperiod)
      rw [hk, Nat.mul_comm] at hmod
      rw [Machine.left, hticks, Nat.succ_mul]
      omega
    refine ⟨hk, hleft ▸ exists_run_left hperiod m c, fun bound r m' c' hrun hsmall => ?_⟩
    obtain ⟨-, hinterrupted | ⟨hr, hcount⟩⟩ := count_of_run hperiod hticks hk hrun hsmall
    · exact .inl hinterrupted
    · refine .inr ⟨hr, ?_⟩
      rw [← Nat.div_lt_iff_lt_mul (toNat_pos hperiod), hcount]
      omega

-- Three labels and a duplication that fails.
def faltering : Source :=
  Source.ofText "\n  \n\n  \n\n  \n \n "

def falteringTokens : List Token :=
  [⟨⟨.label, ⟨[]⟩⟩, 3⟩, ⟨⟨.label, ⟨[]⟩⟩, 7⟩, ⟨⟨.label, ⟨[]⟩⟩, 11⟩, ⟨⟨.dup, ()⟩, 14⟩]

theorem tokens?_faltering : tokens? faltering = .ok falteringTokens := by
  with_unfolding_all rfl

theorem slices_are_transparent_faltering :
    ∃ p m, Program.ofSource faltering = .ok p ∧
      (∃ bounds m', Machine.drive p 2 bounds {} (Script.ofInput "") =
        some (.error .stackUnderflow, m', .ofInput "") ∧
        m'.untimed = { cursor := 15 }) ∧
      Machine.Counted p 2 2 1 m (Script.ofInput "") ∧
      (∃ out, m.run p 2 2 (Script.ofInput "") = some out) ∧
      ∃ m', m.run p 2 5 (Script.ofInput "") = some (.error .stackUnderflow, m', .ofInput "") ∧
        2 + Machine.completed p 2 5 (m, Script.ofInput "") < 2 * 2 := by
  let p : Program := ⟨faltering, .ofTokens falteringTokens⟩
  have hp : Program.ofSource faltering = .ok p := by
    rw [Program.ofSource, tokens?_faltering]
    rfl
  have htwo : (2 : UInt64) ≠ 0 := by decide
  obtain ⟨hdrive, hcount⟩ := slices_are_transparent (κ := Script) p htwo
  have hwhole : Machine.run p 0 5 {} (Script.ofInput "") =
      some (.error .stackUnderflow, { cursor := 15 }, .ofInput "") := by with_unfolding_all rfl
  have hfirst : Machine.run p 2 5 {} (Script.ofInput "") =
      some (.ok .interrupted, { cursor := 8, ticks := 2 }, .ofInput "") := by
    with_unfolding_all rfl
  have hsecond : Machine.run p 2 5 { cursor := 8, ticks := 2 } (Script.ofInput "") =
      some (.error .stackUnderflow, { cursor := 15, ticks := 3 }, .ofInput "") := by
    with_unfolding_all rfl
  have hcompleted : Machine.completed p 2 5 ({}, Script.ofInput "") = 2 := by
    with_unfolding_all rfl
  have hone : Machine.completed p 2 5 ({ cursor := 8, ticks := 2 }, Script.ofInput "") = 1 := by
    with_unfolding_all rfl
  have hfresh : Machine.Counted p 2 0 0 {} (Script.ofInput "") := .fresh _
  have hcounted := hfresh.interrupted hfirst
  rw [hcompleted] at hcounted
  obtain ⟨-, hreturns, hnext⟩ := hcount _ _ _ _ hcounted (by decide)
  refine ⟨p, _, hp, (hdrive _ _ _ _ _).mp ⟨5, _, hwhole, rfl⟩, hcounted, hreturns, _, hsecond, ?_⟩
  rcases hnext _ _ _ _ hsecond (by rw [hone]; decide) with ⟨hr, -⟩ | ⟨-, hless⟩
  · cases hr
  · exact hless

end Esoterica.Whitespace
