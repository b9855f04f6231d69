import Esoterica.Befunge.Machine
import Esoterica.Proofs.Lockstep

namespace Esoterica.Befunge

open Text

-- Stacks that `S` relates give the same number, and are related without it and under another one.
structure StacksAgree (S : List Int64 → List Int64 → Prop) : Prop where
  top {s t : List Int64} (h : S s t) : t.head?.getD 0 = s.head?.getD 0
  tail {s t : List Int64} (h : S s t) : S s.tail t.tail
  cons {s t : List Int64} (value : Int64) (h : S s t) : S (value :: s) (value :: t)

namespace Machine

-- The machines differ in nothing but their stacks, which `S` relates, and their generators, which
-- `G` relates.
structure Alike (S : List Int64 → List Int64 → Prop) (G : SplitMix → SplitMix → Prop)
    (m n : Machine) : Prop where
  field : n.field = m.field
  x : n.x = m.x
  y : n.y = m.y
  direction : n.direction = m.direction
  quoting : n.quoting = m.quoting
  stack : S m.stack n.stack
  random : G m.random n.random

theorem pop_eq (m : Machine) :
    m.pop = (m.stack.head?.getD 0, { m with stack := m.stack.tail }) := by
  obtain ⟨field, stack, x, y, direction, quoting, random⟩ := m
  cases stack <;> rfl

variable {S : List Int64 → List Int64 → Prop} {G : SplitMix → SplitMix → Prop} {m n : Machine}

namespace Alike

theorem here (h : Alike S G m n) : n.here = m.here := by
  rw [Machine.here, Machine.here, h.field, h.x, h.y]

theorem advance (h : Alike S G m n) : Alike S G m.advance n.advance := by
  obtain ⟨field, stack, x, y, direction, quoting, random⟩ := m
  obtain ⟨hfield, hx, hy, hdirection, hquoting, hstack, hrandom⟩ := h
  unfold Machine.advance
  rw [hdirection, hfield, hx, hy]
  cases direction <;> exact ⟨rfl, rfl, rfl, rfl, hquoting, hstack, hrandom⟩

theorem face (h : Alike S G m n) (direction : Direction) :
    Alike S G (m.face direction) (n.face direction) :=
  { h with direction := rfl }

variable (hS : StacksAgree S)

include hS

theorem pop (h : Alike S G m n) : n.pop.1 = m.pop.1 ∧ Alike S G m.pop.2 n.pop.2 := by
  rw [pop_eq, pop_eq]
  exact ⟨hS.top h.stack, { h with stack := hS.tail h.stack }⟩

theorem push (h : Alike S G m n) (value : Int64) : Alike S G (m.push value) (n.push value) :=
  { h with stack := hS.cons value h.stack }

theorem binary (h : Alike S G m n) (f : Int64 → Int64 → Int64) :
    Alike S G (m.binary f) (n.binary f) := by
  obtain ⟨hright, h₁⟩ := h.pop hS
  obtain ⟨hleft, h₂⟩ := h₁.pop hS
  have hpush := h₂.push hS (f m.pop.2.pop.1 m.pop.1)
  unfold Machine.binary
  simp only [hright, hleft]
  exact hpush

end Alike

variable {κ : Type} {c : κ}

-- The same comes of an instruction on both sides, with the same console, for machines that `R`
-- relates.
inductive Outcome.Matches (R : Machine → Machine → Prop) : Outcome κ → Outcome κ → Prop
  | done {m n : Machine} {c : κ} (h : R m n) : Matches R (.done m c) (.done n c)
  | halt {m n : Machine} {c : κ} (h : R m n) : Matches R (.halt m c) (.halt n c)
  | fault {f : Fault} {m n : Machine} {c : κ} (h : R m n) : Matches R (.fault f m c) (.fault f n c)

theorem divide_matches (hS : StacksAgree S) (h : Alike S G m n) (f : Int64 → Int64 → Int64) :
    (divide f m c).Matches (Alike S G) (divide f n c) := by
  obtain ⟨hright, h₁⟩ := h.pop hS
  obtain ⟨hleft, h₂⟩ := h₁.pop hS
  unfold divide
  simp only [hright, hleft, h₂.x, h₂.y]
  split
  · exact .fault h₂
  · exact .done (h₂.push hS _)

variable [Console κ]

-- What an instruction does depends on the stack and the generator only through the numbers that
-- it takes and the turn that it makes.
theorem exec_matches (hS : StacksAgree S) {char : Char}
    (hturn : char = '?' → Direction.ofWord n.random.next32.1 = .ofWord m.random.next32.1 ∧
      G m.random.next32.2 n.random.next32.2)
    (value : Int64) (h : Alike S G m n) (c : κ) :
    (exec char value m c).Matches (Alike S G) (exec char value n c) := by
  obtain ⟨hfirst, h₁⟩ := h.pop hS
  obtain ⟨hsecond, h₂⟩ := h₁.pop hS
  unfold exec
  split
  · exact .done (h.push hS _)
  -- the cases stand in the order of the instructions in `exec`
  split
  case h_1 | h_2 | h_3 | h_4 => exact .done (h.binary hS _)
  case h_5 | h_6 => exact divide_matches hS h _
  case h_7 =>
    simp only [hfirst]
    exact .done (h₁.push hS _)
  case h_8 | h_9 | h_10 | h_11 => exact .done (h.face _)
  -- the random turn: all that the generators have a say in
  case h_12 =>
    obtain ⟨hdirection, hrandom⟩ := hturn rfl
    exact .done { h with direction := hdirection, random := hrandom }
  case h_13 | h_14 =>
    simp only [hfirst]
    exact .done (h₁.face _)
  case h_15 => exact .done { h with quoting := rfl }
  -- a number is doubled without being taken
  case h_16 =>
    rw [hS.top h.stack]
    exact .done (h.push hS _)
  case h_17 =>
    simp only [hfirst, hsecond]
    exact .done ((h₂.push hS _).push hS _)
  case h_18 => exact .done h₁
  case h_19 | h_20 =>
    simp only [hfirst]
    exact .done h₁
  case h_21 => exact .done h.advance
  -- the cell that `p` and `g` name is on the stack
  case h_22 =>
    obtain ⟨hthird, h₃⟩ := h₂.pop hS
    simp only [hfirst, hsecond, hthird, h₃.field]
    split
    · exact .done { h₃ with field := rfl }
    · exact .fault h₃
  case h_23 =>
    simp only [hfirst, hsecond, h₂.field]
    split
    · exact .done (h₂.push hS _)
    · exact .fault h₂
  -- reading asks the console, which is the same on both sides
  case h_24 =>
    split
    · split
      · exact .done (h.push hS _)
      · exact .fault h
    · exact .done (h.push hS _)
  case h_25 =>
    split
    · exact .done (h.push hS _)
    · exact .done (h.push hS _)
  case h_26 => exact .halt h
  case h_27 => exact .done h
  case h_28 =>
    rw [h.direction]
    exact .done (h.face _)

theorem step_matches (hS : StacksAgree S)
    (hturn : m.quoting = false → instrOf m.here = '?' →
      Direction.ofWord n.random.next32.1 = .ofWord m.random.next32.1 ∧
        G m.random.next32.2 n.random.next32.2)
    (h : Alike S G m n) (c : κ) :
    (step (m, c)).Matches (fun x y => Alike S G x.1 y.1 ∧ y.2 = x.2) (step (n, c)) := by
  simp only [step, h.quoting, h.here]
  cases hquoting : m.quoting with
  | true =>
    simp only [if_true]
    split
    · exact .next ⟨Alike.advance { h with quoting := rfl }, rfl⟩
    · exact .next ⟨(h.push hS _).advance, rfl⟩
  | false =>
    have hexec := exec_matches hS (hturn hquoting) m.here h c
    simp only [Bool.false_eq_true, if_false]
    generalize exec (instrOf m.here) m.here m c = x at hexec ⊢
    generalize exec (instrOf m.here) m.here n c = y at hexec ⊢
    cases hexec with
    | done h' => exact .next ⟨h'.advance, rfl⟩
    | halt h' => exact .stop ⟨h', rfl⟩
    | fault h' => exact .stop ⟨h', rfl⟩

end Machine

end Esoterica.Befunge
