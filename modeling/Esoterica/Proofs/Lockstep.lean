import Esoterica.Progress
import Mathlib.Data.List.Forall2

namespace Esoterica

variable {σ τ υ ρ : Type}

-- Runs one after the other, each from the state in which the one before it stopped, and each with
-- its own bound. Gives the result of every run and the state in which it stopped.
def runEach (run : Nat → σ → Option (ρ × σ)) : List Nat → σ → Option (List (ρ × σ))
  | [], _ => some []
  | bound :: bounds, s =>
    match run bound s with
    | none => none
    | some (r, t) => (runEach run bounds t).map ((r, t) :: ·)

def Progress.state : Progress σ ρ → σ
  | .next s => s
  | .stop _ s => s

-- Both steps go on, or both stop with the same result, and the states they lead to are related.
inductive Progress.Matches (R : σ → τ → Prop) : Progress σ ρ → Progress τ ρ → Prop
  | next {s : σ} {t : τ} (h : R s t) : Matches R (.next s) (.next t)
  | stop {r : ρ} {s : σ} {t : τ} (h : R s t) : Matches R (.stop r s) (.stop r t)

def SameEnd (R : σ → τ → Prop) (x : ρ × σ) (y : ρ × τ) : Prop :=
  x.1 = y.1 ∧ R x.2 y.2

-- Two machines that match a third one match each other.
theorem Progress.Matches.join {R : σ → τ → Prop} {S : υ → τ → Prop} {x : Progress σ ρ}
    {y : Progress υ ρ} {z : Progress τ ρ} (hx : x.Matches R z) (hy : y.Matches S z) :
    x.Matches (fun s u => ∃ t, R s t ∧ S u t) y := by
  cases hx with
  | next h =>
    cases hy with
    | next h' => exact .next ⟨_, h, h'⟩
  | stop h =>
    cases hy with
    | stop h' => exact .stop ⟨_, h, h'⟩

variable {R : σ → τ → Prop}

theorem runFor_lockstep {f : σ → Progress σ ρ} {g : τ → Progress τ ρ}
    (hstep : ∀ s t, R s t → (f s).Matches R (g t)) (bound : Nat) {s : σ} {t : τ} (h : R s t) :
    Option.Rel (SameEnd R) (runFor f bound s) (runFor g bound t) := by
  induction bound generalizing s t with
  | zero => exact .none
  | succ bound ih =>
    have hmatch := hstep s t h
    rw [runFor, runFor]
    generalize f s = x at hmatch ⊢
    generalize g t = y at hmatch ⊢
    cases hmatch with
    | next h' => exact ih h'
    | stop h' => exact .some ⟨rfl, h'⟩

theorem runEach_lockstep {f : Nat → σ → Option (ρ × σ)} {g : Nat → τ → Option (ρ × τ)}
    (hrun : ∀ bound s t, R s t → Option.Rel (SameEnd R) (f bound s) (g bound t))
    (bounds : List Nat) {s : σ} {t : τ} (h : R s t) :
    Option.Rel (List.Forall₂ (SameEnd R)) (runEach f bounds s) (runEach g bounds t) := by
  induction bounds generalizing s t with
  | nil => exact .some .nil
  | cons bound bounds ih =>
    have hfirst := hrun bound s t h
    rw [runEach, runEach]
    generalize f bound s = x at hfirst ⊢
    generalize g bound t = y at hfirst ⊢
    cases hfirst with
    | none => exact .none
    | @some x y hend =>
      obtain ⟨r, s'⟩ := x
      obtain ⟨r', t'⟩ := y
      have hrest := ih hend.2
      simp only
      generalize runEach f bounds s' = xs at hrest ⊢
      generalize runEach g bounds t' = ys at hrest ⊢
      cases hrest with
      | none => exact .none
      | some hall => exact .some (.cons hend hall)

theorem runs_mono {S : σ → τ → Prop} (hRS : ∀ s t, R s t → S s t) {xs : Option (List (ρ × σ))}
    {ys : Option (List (ρ × τ))} (h : Option.Rel (List.Forall₂ (SameEnd R)) xs ys) :
    Option.Rel (List.Forall₂ (SameEnd S)) xs ys := by
  cases h with
  | none => exact .none
  | some hall => exact .some (hall.imp fun _ _ hend => ⟨hend.1, hRS _ _ hend.2⟩)

end Esoterica
