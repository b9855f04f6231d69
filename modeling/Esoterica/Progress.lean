
namespace Esoterica

inductive Progress (σ ρ : Type) where
  | next (state : σ)
  | stop (result : ρ) (state : σ)

variable {σ ρ τ υ : Type}

def Progress.map (f : σ → τ) (g : ρ → υ) : Progress σ ρ → Progress τ υ
  | .next s => .next (f s)
  | .stop r s => .stop (g r) (f s)

-- Repeats `step` until it stops, at most `bound` times.
@[specialize]
def runFor (step : σ → Progress σ ρ) : Nat → σ → Option (ρ × σ)
  | 0, _ => none
  | bound + 1, s =>
    match step s with
    | .next s => runFor step bound s
    | .stop r s => some (r, s)

theorem runFor_of_next {step : σ → Progress σ ρ} {s t : σ} (h : step s = .next t) (bound : Nat) :
    runFor step (bound + 1) s = runFor step bound t := by
  rw [runFor, h]

theorem runFor_of_stop {step : σ → Progress σ ρ} {s t : σ} {r : ρ} (h : step s = .stop r t)
    (bound : Nat) : runFor step (bound + 1) s = some (r, t) := by
  rw [runFor, h]

-- A run depends on its first state only through the first step.
theorem runFor_congr {step : σ → Progress σ ρ} {s t : σ} (h : step s = step t) (bound : Nat) :
    runFor step bound s = runFor step bound t := by
  cases bound with
  | zero => rfl
  | succ bound => rw [runFor, runFor, h]

theorem runFor_succ_of_eq_some (step : σ → Progress σ ρ) {bound : Nat} {s : σ} {out : ρ × σ}
    (h : runFor step bound s = some out) : runFor step (bound + 1) s = some out := by
  induction bound generalizing s with
  | zero => simp [runFor] at h
  | succ bound ih =>
    rw [runFor] at h ⊢
    cases hs : step s with
    | next t =>
      simp only [hs] at h
      exact ih h
    | stop r t =>
      simp only [hs] at h
      exact h

theorem runFor_mono (step : σ → Progress σ ρ) {m n : Nat} (hmn : m ≤ n) {s : σ} {out : ρ × σ}
    (h : runFor step m s = some out) : runFor step n s = some out := by
  induction hmn with
  | refl => exact h
  | step _ ih => exact runFor_succ_of_eq_some step ih

theorem runFor_unique (step : σ → Progress σ ρ) {m n : Nat} {s : σ} {out out' : ρ × σ}
    (h : runFor step m s = some out) (h' : runFor step n s = some out') : out = out' := by
  have h₁ := runFor_mono step (Nat.le_max_left m n) h
  have h₂ := runFor_mono step (Nat.le_max_right m n) h'
  exact Option.some.inj (h₁.symm.trans h₂)

end Esoterica
