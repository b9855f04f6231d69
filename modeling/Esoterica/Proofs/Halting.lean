import Esoterica.Proofs.Lockstep
import Mathlib.Logic.Relation

namespace Esoterica

variable {σ τ ρ : Type} {step : σ → Progress σ ρ}

-- The run that begins at `s` comes to the end `out`, if its bound is large enough.
def Halts (step : σ → Progress σ ρ) (s : σ) (out : ρ × σ) : Prop :=
  ∃ bound, runFor step bound s = some out

-- The machine goes on from `s` and comes to `t`.
def Leads (step : σ → Progress σ ρ) : σ → σ → Prop :=
  Relation.ReflTransGen fun s t => step s = .next t

-- The state after `count` steps, if the machine goes on so long.
def advance (step : σ → Progress σ ρ) : Nat → σ → Option σ
  | 0, s => some s
  | count + 1, s =>
    match step s with
    | .next t => advance step count t
    | .stop _ _ => none

-- The states from which the machine goes on in its first `count` steps.
def passed (step : σ → Progress σ ρ) : Nat → σ → List σ
  | 0, _ => []
  | count + 1, s =>
    match step s with
    | .next t => s :: passed step count t
    | .stop _ _ => []

theorem advance_of_next {s t : σ} (h : step s = .next t) (count : Nat) :
    advance step (count + 1) s = advance step count t := by
  rw [advance, h]

theorem passed_of_next {s t : σ} (h : step s = .next t) (count : Nat) :
    passed step (count + 1) s = s :: passed step count t := by
  rw [passed, h]

theorem exists_next_of_mem_passed {count : Nat} {s t : σ} (h : t ∈ passed step count s) :
    ∃ u, step t = .next u := by
  fun_induction passed step count s with
  | case1 => cases h
  | case2 s count u hnext ih =>
    rcases List.mem_cons.mp h with rfl | h
    · exact ⟨u, hnext⟩
    · exact ih h
  | case3 => cases h

theorem leads_of_advance {count : Nat} {s t : σ} (h : advance step count s = some t) :
    Leads step s t := by
  fun_induction advance step count s with
  | case1 s =>
    obtain rfl := Option.some.inj h
    exact .refl
  | case2 s count u hnext ih => exact .head hnext (ih h)
  | case3 => cases h

theorem exists_advance_of_leads {s t : σ} (h : Leads step s t) :
    ∃ count, advance step count s = some t := by
  induction h using Relation.ReflTransGen.head_induction_on with
  | refl => exact ⟨0, rfl⟩
  | head hnext _ ih =>
    obtain ⟨count, hcount⟩ := ih
    exact ⟨count + 1, (advance_of_next hnext count).trans hcount⟩

theorem advance_lockstep {R : σ → τ → Prop} {f : σ → Progress σ ρ} {g : τ → Progress τ ρ}
    (hstep : ∀ s t, R s t → (f s).Matches R (g t)) (count : Nat) {s : σ} {t : τ} (h : R s t) :
    Option.Rel R (advance f count s) (advance g count t) := by
  induction count generalizing s t with
  | zero => exact .some h
  | succ count ih =>
    have hmatch := hstep s t h
    rw [advance, advance]
    generalize f s = x at hmatch ⊢
    generalize g t = y at hmatch ⊢
    cases hmatch with
    | next h' => exact ih h'
    | stop _ => exact .none

-- A run that is over has gone on to a state in which it stopped.
theorem exists_leads_of_runFor {bound : Nat} {s t : σ} {r : ρ}
    (h : runFor step bound s = some (r, t)) : ∃ u, Leads step s u ∧ step u = .stop r t := by
  induction bound generalizing s with
  | zero => cases h
  | succ bound ih =>
    cases hstep : step s with
    | next v =>
      rw [runFor_of_next hstep] at h
      obtain ⟨u, hleads, hstop⟩ := ih h
      exact ⟨u, .head hstep hleads, hstop⟩
    | stop r' v =>
      rw [runFor_of_stop hstep, Option.some.injEq, Prod.mk.injEq] at h
      obtain ⟨rfl, rfl⟩ := h
      exact ⟨s, .refl, hstep⟩

theorem exists_stop_of_runFor {bound : Nat} {s t : σ} {r : ρ}
    (h : runFor step bound s = some (r, t)) : ∃ u, step u = .stop r t := by
  obtain ⟨u, -, hstop⟩ := exists_leads_of_runFor h
  exact ⟨u, hstop⟩

theorem halts_of_stop {s t : σ} {r : ρ} (h : step s = .stop r t) : Halts step s (r, t) :=
  ⟨1, runFor_of_stop h 0⟩

theorem halts_iff_of_next {s t : σ} {out : ρ × σ} (h : step s = .next t) :
    Halts step s out ↔ Halts step t out := by
  constructor
  · rintro ⟨bound, hbound⟩
    cases bound with
    | zero => cases hbound
    | succ bound => exact ⟨bound, (runFor_of_next h bound).symm.trans hbound⟩
  · rintro ⟨bound, hbound⟩
    exact ⟨bound + 1, (runFor_of_next h bound).trans hbound⟩

theorem halts_iff_of_leads {s t : σ} {out : ρ × σ} (h : Leads step s t) :
    Halts step s out ↔ Halts step t out := by
  induction h with
  | refl => exact Iff.rfl
  | tail _ hnext ih => exact ih.trans (halts_iff_of_next hnext)

-- Behind the way to `t` there is no more to run than before.
theorem exists_runFor_of_leads {bound : Nat} {s t : σ} {out : ρ × σ} (h : Leads step s t)
    (hrun : runFor step bound s = some out) : ∃ less ≤ bound, runFor step less t = some out := by
  induction h with
  | refl => exact ⟨bound, Nat.le_refl _, hrun⟩
  | tail _ hnext ih =>
    obtain ⟨less, hless, hrun⟩ := ih
    cases less with
    | zero => cases hrun
    | succ less =>
      rw [runFor_of_next hnext] at hrun
      exact ⟨less, by omega, hrun⟩

-- A measure that every step lowers bounds the length of the run.
theorem exists_runFor_of_measure_lt {P : σ → Prop} {measure : σ → Nat}
    (hstep : ∀ s t, P s → step s = .next t → P t ∧ measure t < measure s) {bound : Nat} {s : σ}
    (hs : P s) (hbound : measure s < bound) : ∃ out, runFor step bound s = some out := by
  induction bound generalizing s with
  | zero => omega
  | succ bound ih =>
    cases hnext : step s with
    | stop r t => exact ⟨(r, t), runFor_of_stop hnext bound⟩
    | next t =>
      obtain ⟨ht, hless⟩ := hstep s t hs hnext
      obtain ⟨out, hout⟩ := ih ht (by omega)
      exact ⟨out, (runFor_of_next hnext bound).trans hout⟩

theorem Halts.unique {s : σ} {out out' : ρ × σ} (h : Halts step s out) (h' : Halts step s out') :
    out = out' := by
  obtain ⟨bound, hbound⟩ := h
  obtain ⟨bound', hbound'⟩ := h'
  exact runFor_unique step hbound hbound'

theorem halts_map_iff {υ : Type} {f : σ → Progress σ ρ} {g : τ → Progress τ υ} {e : σ → τ}
    {k : ρ → υ} (h : ∀ s, g (e s) = (f s).map e k) {s : σ} {out : υ × τ} :
    Halts g (e s) out ↔ ∃ r s', Halts f s (r, s') ∧ out = (k r, e s') := by
  have hrun : ∀ bound s, runFor g bound (e s) =
      (runFor f bound s).map fun (r, s) => (k r, e s) := by
    intro bound
    induction bound with
    | zero => exact fun s => rfl
    | succ bound ih =>
      intro s
      rw [runFor, runFor, h]
      cases f s with
      | next t => exact ih t
      | stop r t => rfl
  simp only [Halts, hrun, Option.map_eq_some_iff, Prod.exists]
  constructor
  · rintro ⟨bound, r, s', hf, rfl⟩
    exact ⟨r, s', ⟨bound, hf⟩, rfl⟩
  · rintro ⟨r, s', ⟨bound, hf⟩, rfl⟩
    exact ⟨bound, r, s', hf, rfl⟩

-- One machine keeps up with another while both go on to related states or are bound for related
-- ends.
theorem Halts.follow {R : σ → τ → Prop} {E : ρ × σ → ρ × τ → Prop} {f : σ → Progress σ ρ}
    {g : τ → Progress τ ρ}
    (hstep : ∀ s t, R s t → (∃ s' t', f s = .next s' ∧ g t = .next t' ∧ R s' t') ∨
      ∃ x y, Halts f s x ∧ Halts g t y ∧ E x y)
    {s : σ} {t : τ} {x : ρ × σ} (hst : R s t) (h : Halts f s x) : ∃ y, Halts g t y ∧ E x y := by
  obtain ⟨bound, hbound⟩ := h
  induction bound generalizing s t with
  | zero => cases hbound
  | succ bound ih =>
    obtain ⟨s', t', hs, ht, hst'⟩ | ⟨x', y, hx, hy, hE⟩ := hstep s t hst
    · rw [runFor_of_next hs] at hbound
      obtain ⟨y, hy, hE⟩ := ih hst' hbound
      exact ⟨y, (halts_iff_of_next ht).mpr hy, hE⟩
    · obtain rfl := hx.unique ⟨_, hbound⟩
      exact ⟨y, hy, hE⟩

theorem Halts.both {R : σ → τ → Prop} {E : ρ × σ → ρ × τ → Prop} {f : σ → Progress σ ρ}
    {g : τ → Progress τ ρ}
    (hstep : ∀ s t, R s t → (∃ s' t', f s = .next s' ∧ g t = .next t' ∧ R s' t') ∨
      ∃ x y, Halts f s x ∧ Halts g t y ∧ E x y)
    {s : σ} {t : τ} (hst : R s t) :
    (∀ x, Halts f s x → ∃ y, Halts g t y ∧ E x y) ∧
      ∀ y, Halts g t y → ∃ x, Halts f s x ∧ E x y := by
  refine ⟨fun x hx => Halts.follow hstep hst hx, fun y hy => ?_⟩
  refine Halts.follow (R := flip R) (E := flip E) (fun t s h => ?_) hst hy
  obtain ⟨s', t', hs, ht, hst'⟩ | ⟨x, y, hx, hy, hE⟩ := hstep s t h
  · exact .inl ⟨t', s', ht, hs, hst'⟩
  · exact .inr ⟨y, x, hy, hx, hE⟩

-- Machines in lockstep come to the same ends, in related states.
theorem Halts.lockstep {R : σ → τ → Prop} {f : σ → Progress σ ρ} {g : τ → Progress τ ρ}
    (hstep : ∀ s t, R s t → (f s).Matches R (g t)) {s : σ} {t : τ} (hst : R s t) :
    (∀ x, Halts f s x → ∃ y, Halts g t y ∧ SameEnd R x y) ∧
      ∀ y, Halts g t y → ∃ x, Halts f s x ∧ SameEnd R x y := by
  refine Halts.both (fun s t h => ?_) hst
  have hmatch := hstep s t h
  generalize hs : f s = x at hmatch
  generalize ht : g t = y at hmatch
  cases hmatch with
  | next h' => exact .inl ⟨_, _, rfl, rfl, h'⟩
  | stop h' => exact .inr ⟨_, _, halts_of_stop hs, halts_of_stop ht, rfl, h'⟩

section Executes

variable {ι : Type}

-- The machine goes from one state to another, and `fetch` gives these instructions in the states
-- that it passes, in order.
inductive Executes (fetch : σ → Option ι) (step : σ → Progress σ ρ) : σ → List ι → σ → Prop
  | nil {s : σ} : Executes fetch step s [] s
  | cons {s t u : σ} {i : ι} {more : List ι} (hfetch : fetch s = some i) (hstep : step s = .next t)
      (h : Executes fetch step t more u) : Executes fetch step s (i :: more) u

variable {fetch : σ → Option ι} {s t u : σ} {instrs more : List ι}

theorem Executes.append (h : Executes fetch step s instrs t) (h' : Executes fetch step t more u) :
    Executes fetch step s (instrs ++ more) u := by
  induction h with
  | nil => exact h'
  | cons hfetch hstep _ ih => exact .cons hfetch hstep (ih h')

theorem Executes.leads (h : Executes fetch step s instrs t) : Leads step s t := by
  induction h with
  | nil => exact .refl
  | cons _ hstep _ ih => exact .head hstep ih

-- Machines in lockstep execute the same instructions if they fetch alike.
theorem Executes.lockstep {R : σ → τ → Prop} {fetch' : τ → Option ι} {step' : τ → Progress τ ρ}
    (hstep : ∀ s t, R s t → (step s).Matches R (step' t))
    (hfetch : ∀ s t, R s t → fetch s = fetch' t) {x y : τ}
    (h : Executes fetch' step' x instrs y) (hsx : R s x) :
    ∃ t, Executes fetch step s instrs t ∧ R t y := by
  induction h generalizing s with
  | nil => exact ⟨s, .nil, hsx⟩
  | cons hfetch' hstep' _ ih =>
    have hmatch := hstep s _ hsx
    rw [hstep'] at hmatch
    generalize hnext : step s = next at hmatch
    cases hmatch with
    | next hst =>
      obtain ⟨t, ht, hR⟩ := ih hst
      exact ⟨t, .cons ((hfetch s _ hsx).trans hfetch') hnext ht, hR⟩

end Executes

end Esoterica
