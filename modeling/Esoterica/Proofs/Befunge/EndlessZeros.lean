import Esoterica.Console.Script
import Esoterica.Proofs.Befunge.Lockstep
import Esoterica.Proofs.Halting
import Mathlib.Data.List.DropRight

namespace Esoterica.Befunge

def withoutZeros (stack : List Int64) : List Int64 :=
  stack.rdropWhile (· = 0)

theorem withoutZeros_cons (value : Int64) (stack : List Int64) :
    withoutZeros (value :: stack) =
      if withoutZeros stack = [] ∧ value = 0 then [] else value :: withoutZeros stack := by
  unfold withoutZeros List.rdropWhile
  rw [List.reverse_cons, List.dropWhile_append]
  by_cases hstack : stack.reverse.dropWhile (· = 0) = []
  · by_cases hvalue : value = 0 <;> simp [hstack, hvalue]
  · simp [hstack]

theorem head?_withoutZeros (stack : List Int64) :
    (withoutZeros stack).head?.getD 0 = stack.head?.getD 0 := by
  cases stack with
  | nil => rfl
  | cons value rest =>
    rw [withoutZeros_cons]
    split
    case isTrue h => simp [h.2]
    case isFalse => rfl

theorem tail_withoutZeros (stack : List Int64) :
    (withoutZeros stack).tail = withoutZeros stack.tail := by
  cases stack with
  | nil => rfl
  | cons value rest =>
    rw [withoutZeros_cons]
    split
    case isTrue h => exact h.1.symm
    case isFalse => rfl

-- The stacks are the same but for zeros at their bottoms.
def SameButZeros (s t : List Int64) : Prop :=
  withoutZeros s = withoutZeros t

instance (s t : List Int64) : Decidable (SameButZeros s t) :=
  inferInstanceAs (Decidable (withoutZeros s = withoutZeros t))

theorem stacksAgree_sameButZeros : StacksAgree SameButZeros where
  top {s t} h := by rw [← head?_withoutZeros s, ← head?_withoutZeros t, h]
  tail {s t} h := by rw [SameButZeros, ← tail_withoutZeros, ← tail_withoutZeros, h]
  cons value h := by rw [SameButZeros, withoutZeros_cons, withoutZeros_cons, h]

variable {κ : Type}

-- The machines differ in nothing but zeros at the bottoms of their stacks, and not at all in what
-- their consoles have given and taken.
def UpToZeros (x y : Machine × κ) : Prop :=
  x.1.Alike SameButZeros (· = ·) y.1 ∧ y.2 = x.2

variable [Console κ]

-- No number of steps tells zeros at the bottom of a stack from none.
theorem zeros_below_do_not_matter {m n : Machine} (h : m.Alike SameButZeros (· = ·) n) (c : κ)
    (count : Nat) :
    Option.Rel UpToZeros (advance Machine.step count (m, c)) (advance Machine.step count (n, c)) ∧
      Option.Rel (SameEnd UpToZeros) (m.run count c) (n.run count c) := by
  have hstep : ∀ x y : Machine × κ, UpToZeros x y →
      (Machine.step x).Matches UpToZeros (Machine.step y) := by
    rintro ⟨m, c⟩ ⟨n, c'⟩ ⟨hmn, rfl⟩
    refine Machine.step_matches stacksAgree_sameButZeros (fun _ _ => ?_) hmn c'
    rw [hmn.random]
    exact ⟨rfl, rfl⟩
  have hstart : UpToZeros (m, c) (n, c) := ⟨h, rfl⟩
  exact ⟨advance_lockstep hstep count hstart, runFor_lockstep hstep count hstart⟩

-- Swaps two numbers, doubles the top one and divides.
def swapping (stack : List Int64) : Machine :=
  { field := ⟨4, 1, ("\\:/@".toList.map Text.codeOf).toArray⟩, stack, random := ⟨0⟩ }

-- The second number is there on the one side and missing on the other.
theorem zeros_below_do_not_matter_swapping :
    (swapping [3]).Alike SameButZeros (· = ·) (swapping [3, 0, 0]) ∧ ∃ m n : Machine,
      (swapping [3]).run 3 (Script.ofInput "") =
        some (.error (.divisionByZero 2 0), m, .ofInput "") ∧
      (swapping [3, 0, 0]).run 3 (Script.ofInput "") =
        some (.error (.divisionByZero 2 0), n, .ofInput "") ∧
      m.stack = [3] ∧ SameButZeros m.stack n.stack := by
  have halike : (swapping [3]).Alike SameButZeros (· = ·) (swapping [3, 0, 0]) :=
    ⟨rfl, rfl, rfl, rfl, rfl, by decide, rfl⟩
  have hrun : (swapping [3]).run 3 (Script.ofInput "") =
      some (.error (.divisionByZero 2 0), { swapping [3] with x := 2 }, .ofInput "") := by
    with_unfolding_all rfl
  obtain ⟨-, hmatch⟩ := zeros_below_do_not_matter halike (Script.ofInput "") 3
  rw [hrun] at hmatch
  generalize (swapping [3, 0, 0]).run 3 (Script.ofInput "") = out at hmatch ⊢
  cases hmatch with
  | @some _ y hend =>
    obtain ⟨r, n, c⟩ := y
    obtain ⟨rfl, hn, rfl⟩ := hend
    exact ⟨halike, _, n, hrun, rfl, rfl, hn.stack⟩

end Esoterica.Befunge
