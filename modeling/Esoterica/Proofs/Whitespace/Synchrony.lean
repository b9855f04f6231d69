import Std.Tactic.Do
import Esoterica.Proofs.Halting
import Esoterica.Proofs.Whitespace.Refinement

namespace Esoterica.Whitespace

def Fault.isMalformed : Fault → Bool
  | .malformed _ => true
  | _ => false

namespace Indexed

open Std.Do

set_option mvcgen.warning false

variable {κ : Type}

theorem eq_interrupted_of_tick {period : UInt64} {s : State} {c : κ} {r : Except Fault Stop}
    {y : State × κ} (h : tick period s c = .stop r y) : r = .ok .interrupted := by
  unfold tick at h
  split at h
  · cases h
  · split at h <;> cases h
    rfl

variable [Console κ]

theorem perform_spec (code : List Instr) (i : Instr) :
    ⦃⌜True⌝⦄ (perform code i : Action κ Flow)
      ⦃post⟨fun _ => ⌜True⌝, fun fault => ⌜fault.isMalformed = false⌝⟩⦄ := by
  obtain ⟨op, operand⟩ := i
  cases op
  all_goals mvcgen [perform, pop, push, store, enter, jump, combine]
  -- what a division reports depends on the divisor
  all_goals
    rename_i hfault
    split at hfault <;> cases hfault
    rfl

theorem isMalformed_of_perform {code : List Instr} {i : Instr} {x y : State × κ} {fault : Fault}
    (h : (perform code i).run x = (.error fault, y)) : fault.isMalformed = false := by
  have hspec := perform_spec (κ := κ) code i x trivial
  have hrun : (StateT.run (perform code i).run x).run = (.error fault, y) := h
  simpa [wp, hrun] using hspec

-- Where control is an index, no instruction is ever out of place.
theorem isMalformed_of_step {code : List Instr} {period : UInt64} {x y : State × κ} {fault : Fault}
    (h : step code period x = .stop (.error fault) y) : fault.isMalformed = false := by
  unfold step at h
  cases hi : code[x.1.pc]? with
  | none => simp [hi] at h
  | some i =>
    simp only [hi] at h
    split at h
    · cases eq_interrupted_of_tick h
    · cases eq_interrupted_of_tick h
    · cases h
    · rename_i hperform
      cases h
      exact isMalformed_of_perform hperform

end Indexed

open Indexed

section Invariant

variable {κ : Type} {p : Program} {tokens : List Token} {m m' : Machine} {c c' : κ}

-- The machine stands for a machine over the instructions.
def Machine.InPlace (p : Program) (tokens : List Token) (m : Machine) : Prop :=
  ∃ s, Represents p tokens m s

theorem inPlace_fresh : Machine.InPlace p tokens {} :=
  ⟨{}, represents_fresh p tokens⟩

theorem Machine.InPlace.change (h : m.InPlace p tokens) (stack : List Int64) (heap : Heap) :
    Machine.InPlace p tokens { m with stack, heap } := by
  obtain ⟨s, hs⟩ := h
  exact ⟨{ s with stack, heap }, { hs with stack := rfl, heap := rfl }⟩

variable (hp : p.Loaded tokens)

include hp

theorem Program.Loaded.mem_boundaries {k offset : Nat} (h : EndsAt tokens k offset) :
    offset ∈ p.jumps.boundaries := by
  obtain ⟨t, ht, rfl⟩ := h
  rw [← Array.mem_toList_iff, hp.jumps_eq, JumpTable.boundaries_ofTokens]
  exact List.mem_map_of_mem (List.mem_of_getElem? ht)

theorem Program.Loaded.target?_mem_boundaries {label : Label} {target : Nat}
    (h : p.jumps.target? label = some target) : target ∈ p.jumps.boundaries := by
  rw [hp.target?] at h
  obtain ⟨k, -, hk⟩ := Option.bind_eq_some_iff.mp h
  obtain ⟨t, ht, hstop⟩ := Option.map_eq_some_iff.mp hk
  exact hp.mem_boundaries ⟨t, ht, hstop⟩

theorem Machine.InPlace.calls_mem_boundaries (h : m.InPlace p tokens) :
    ∀ offset ∈ m.calls, offset ∈ p.jumps.boundaries := by
  obtain ⟨s, hs⟩ := h
  have hcalls := hs.calls
  generalize s.calls = indices at hcalls
  generalize m.calls = ends at hcalls ⊢
  induction hcalls with
  | nil => simp
  | cons hk _ ih => exact List.forall_mem_cons.mpr ⟨hp.mem_boundaries hk, ih⟩

-- Reading goes on at the beginning, behind an instruction or behind the text.
theorem Machine.InPlace.cursor_cases (h : m.InPlace p tokens) :
    m.cursor = 0 ∨ (∃ offset ∈ p.jumps.boundaries, m.cursor = offset + 1) ∨
      p.source.size ≤ m.cursor := by
  obtain ⟨s, hs⟩ := h
  have hcursor := hs.cursor
  generalize s.pc = k at hcursor
  generalize m.cursor = pos at hcursor ⊢
  cases hcursor with
  | start => exact .inl rfl
  | behind ht => exact .inr (.inl ⟨_, hp.mem_boundaries ⟨_, ht, rfl⟩, rfl⟩)
  | ended hend => exact .inr (.inr hend)

variable [Console κ] {period : UInt64}

theorem Machine.InPlace.step (h : m.InPlace p tokens)
    (hstep : Machine.step p period (m, c) = .next (m', c')) : m'.InPlace p tokens := by
  obtain ⟨s, hs⟩ := h
  have hmatch := step_matches hp period (x := (m, c)) (y := (s, c)) ⟨hs, rfl⟩
  rw [hstep] at hmatch
  generalize Indexed.step (tokens.map Token.instr) period (s, c) = done at hmatch
  cases hmatch with
  | @next _ y h => exact ⟨y.1, h.1⟩

theorem Machine.InPlace.run (h : m.InPlace p tokens) {bound : Nat} {r : Except Fault Stop}
    (hrun : m.run p period bound c = some (r, m', c')) :
    m'.InPlace p tokens ∧ ∀ offset, r ≠ .error (.malformed offset) := by
  obtain ⟨s, hs⟩ := h
  have hmatch := run_lockstep hp period bound (x := (m, c)) (y := (s, c)) ⟨hs, rfl⟩
  simp only [hrun] at hmatch
  generalize hdone : Indexed.run (tokens.map Token.instr) period bound s c = done at hmatch
  cases hmatch with
  | @some _ y h =>
    obtain ⟨r', y⟩ := y
    obtain ⟨rfl, hy, -⟩ := h
    refine ⟨⟨y.1, hy⟩, ?_⟩
    rintro offset rfl
    obtain ⟨u, hu⟩ := exists_stop_of_runFor hdone
    cases isMalformed_of_step hu

end Invariant

section Histories

variable {κ : Type} [Console κ]

-- The states of a machine between its runs. The data and the console can be changed there.
inductive Between (p : Program) (period : UInt64) : Machine → κ → Prop
  | fresh (c : κ) : Between p period {} c
  | run {m m' : Machine} {c c' : κ} {bound : Nat} {r : Except Fault Stop} (h : Between p period m c)
      (hrun : m.run p period bound c = some (r, m', c')) : Between p period m' c'
  | change {m : Machine} {c : κ} (h : Between p period m c) (stack : List Int64) (heap : Heap)
      (c' : κ) : Between p period { m with stack, heap } c'

variable {p : Program} {tokens : List Token} {period : UInt64} (hp : p.Loaded tokens)

include hp

theorem Between.inPlace {m : Machine} {c : κ} (h : Between p period m c) : m.InPlace p tokens := by
  induction h with
  | fresh => exact inPlace_fresh
  | run _ hrun ih => exact (ih.run hp hrun).1
  | change _ stack heap _ ih => exact ih.change stack heap

theorem Machine.InPlace.leads {x y : Machine × κ} (hx : x.1.InPlace p tokens)
    (h : Leads (Machine.step p period) x y) : y.1.InPlace p tokens := by
  induction h with
  | refl => exact hx
  | tail _ hstep ih => exact ih.step hp hstep

end Histories

-- Every end of a call and every target of a jump is the end of an instruction, every instruction
-- is read from the beginning or from behind another one, and no run meets anything malformed.
theorem runs_stay_in_place {κ : Type} [Console κ] {source : Source} {p : Program}
    (h : Program.ofSource source = .ok p) :
    (∃ tokens, tokens? source = .ok tokens ∧
      p.jumps.boundaries.toList = tokens.map Token.stop) ∧
    (∀ label target, p.jumps.target? label = some target → target ∈ p.jumps.boundaries) ∧
    ∀ (period : UInt64) (m : Machine) (c : κ), Between p period m c →
      (∀ x, Leads (Machine.step p period) (m, c) x →
        (∀ offset ∈ x.1.calls, offset ∈ p.jumps.boundaries) ∧
        (x.1.cursor = 0 ∨ (∃ offset ∈ p.jumps.boundaries, x.1.cursor = offset + 1) ∨
          source.size ≤ x.1.cursor)) ∧
      ∀ bound r m' c', m.run p period bound c = some (r, m', c') →
        ∀ offset, r ≠ .error (.malformed offset) := by
  obtain ⟨tokens, htokens, rfl⟩ := Program.ofSource_eq_ok.mp h
  have hp := Program.loaded_of_tokens? htokens
  refine ⟨⟨tokens, htokens, ?_⟩, fun label target => hp.target?_mem_boundaries, ?_⟩
  · rw [hp.jumps_eq, JumpTable.boundaries_ofTokens]
  · intro period m c hm
    refine ⟨fun x hx => ?_, fun bound r m' c' hrun => ((hm.inPlace hp).run hp hrun).2⟩
    have hplace := (hm.inPlace hp).leads hp hx
    exact ⟨hplace.calls_mem_boundaries hp, hplace.cursor_cases hp⟩

-- A run is interrupted inside of a call, and then the data is changed.
theorem runs_stay_in_place_redefined :
    ∃ p m, Program.ofSource redefined = .ok p ∧ Between p 1 m (Script.ofInput "7") ∧
      m.stack = [7] ∧ m.calls = [4] ∧ 4 ∈ p.jumps.boundaries ∧
      ∀ bound r m' c', m.run p 1 bound (Script.ofInput "7") = some (r, m', c') →
        ∀ offset, r ≠ .error (.malformed offset) := by
  have h := Program.ofSource_eq_ok.mpr ⟨_, tokens?_redefined, rfl⟩
  have hmatch := run_lockstep (Program.loaded_of_tokens? tokens?_redefined) 1 1
    (x := ({}, Script.ofInput "")) (y := ({}, Script.ofInput "")) ⟨represents_fresh _ _, rfl⟩
  have hindexed : Indexed.run (redefinedTokens.map Token.instr) 1 1 {} (Script.ofInput "") =
      some (.ok .interrupted, { pc := 4, calls := [0], ticks := 1 }, .ofInput "") := rfl
  simp only [hindexed] at hmatch
  generalize hrun : Machine.run _ 1 1 {} (Script.ofInput "") = done at hmatch
  cases hmatch with
  | @some x _ hend =>
    obtain ⟨r, m, c⟩ := x
    obtain ⟨-, hm, -⟩ := hend
    obtain ⟨offset, ends, ⟨t, ht, rfl⟩, hnil, hcalls⟩ := List.forall₂_cons_left_iff.mp hm.calls
    cases ht
    cases hnil
    have hbetween := ((Between.fresh _).run hrun).change [7] m.heap (.ofInput "7")
    obtain ⟨-, -, hplace⟩ := runs_stay_in_place (κ := Script) h
    obtain ⟨hleads, hruns⟩ := hplace 1 _ _ hbetween
    refine ⟨_, _, h, hbetween, rfl, hcalls, ?_, hruns⟩
    exact (hleads _ .refl).1 4 (hcalls ▸ List.mem_cons_self)

end Esoterica.Whitespace
