import Esoterica.Console.Script
import Esoterica.Proofs.Befunge.Lockstep
import Esoterica.Proofs.Halting
import Esoterica.Proofs.SplitMix
import Mathlib.Data.Nat.Count

namespace Esoterica.Befunge

-- The remainder of the `n`th word, by which a `?` chooses its direction.
def draw (g : SplitMix) (n : Nat) : Nat :=
  (g.later n).next32.1.toNat % 4

-- The direction that the `n`th `?` chooses.
def turn (g : SplitMix) (n : Nat) : Direction :=
  .ofWord (g.later n).next32.1

def Direction.number : Direction → Nat
  | up => 0
  | down => 1
  | right => 2
  | left => 3

theorem Direction.number_lt (d : Direction) : d.number < 4 := by
  cases d <;> decide

theorem Direction.ofWord_eq_iff {word : UInt32} {d : Direction} :
    ofWord word = d ↔ word.toNat % 4 = d.number := by
  have hcases : word.toNat % 4 = 0 ∨ word.toNat % 4 = 1 ∨ word.toNat % 4 = 2 ∨
      word.toNat % 4 = 3 := by omega
  unfold ofWord
  rcases hcases with h | h | h | h
  all_goals
    rw [h]
    cases d <;> decide

theorem turn_eq_iff {g h : SplitMix} {n : Nat} : turn g n = turn h n ↔ draw g n = draw h n := by
  have hnumber : draw h n = (turn h n).number := Direction.ofWord_eq_iff.mp rfl
  rw [hnumber]
  exact Direction.ofWord_eq_iff

theorem turn_later (g : SplitMix) (m n : Nat) : turn (g.later m) n = turn g (m + n) := by
  rw [turn, turn, SplitMix.later_later]

namespace Machine

-- The machine is about to execute a `?`.
def asks (m : Machine) : Bool :=
  !m.quoting && instrOf m.here == '?'

theorem asks_iff {m : Machine} : m.asks = true ↔ m.quoting = false ∧ instrOf m.here = '?' := by
  simp [asks]

variable {κ : Type} [Console κ]

theorem direction_advance (m : Machine) : m.advance.direction = m.direction := by
  unfold advance
  split <;> rfl

theorem random_advance (m : Machine) : m.advance.random = m.random := by
  unfold advance
  split <;> rfl

theorem exec_turn (value : Int64) (m : Machine) (c : κ) :
    exec '?' value m c =
      .done { m with direction := turn m.random 0, random := m.random.later 1 } c :=
  rfl

theorem step_of_asks {m : Machine} (h : m.asks = true) (c : κ) :
    step (m, c) =
      .next ({ m with direction := turn m.random 0, random := m.random.later 1 }.advance, c) := by
  obtain ⟨hquoting, hinstr⟩ := asks_iff.mp h
  rw [step, if_neg (by simp [hquoting]), hinstr, exec_turn]

theorem stacksAgree_eq : StacksAgree (· = ·) where
  top h := h ▸ rfl
  tail h := h ▸ rfl
  cons _ h := h ▸ rfl

-- Anything else leaves the generator alone.
theorem random_step_of_not_asks {m : Machine} (h : m.asks = false) (c : κ) :
    (step (m, c)).state.1.random = m.random := by
  -- the machine beside itself, with generators that are both the one it has now
  have halike : m.Alike (· = ·) (fun g _ => g = m.random) m :=
    ⟨rfl, rfl, rfl, rfl, rfl, rfl, rfl⟩
  have hmatch := step_matches stacksAgree_eq
    (fun hquoting hinstr => absurd (asks_iff.mpr ⟨hquoting, hinstr⟩) (by simp [h])) halike c
  generalize step (m, c) = x at hmatch ⊢
  cases hmatch with
  | next h' => exact h'.1.random
  | stop h' => exact h'.1.random

theorem random_of_next {m m' : Machine} {c c' : κ} (h : step (m, c) = .next (m', c')) :
    m'.random = m.random.later (if m.asks then 1 else 0) := by
  cases hasks : m.asks with
  | true =>
    rw [step_of_asks hasks] at h
    cases h
    exact random_advance _
  | false =>
    have hrandom := random_step_of_not_asks hasks c
    rwa [h] at hrandom

theorem asks_of_stop {m : Machine} {c : κ} {r : Except Fault Unit} {t : Machine × κ}
    (h : step (m, c) = .stop r t) : m.asks = false := by
  by_contra hasks
  rw [step_of_asks (eq_true_of_ne_false hasks)] at h
  cases h

-- How many `?` the machine executes in its first `count` steps.
def asked (count : Nat) (s : Machine × κ) : Nat :=
  (passed step count s).countP (·.1.asks)

-- The directions that it chooses there, in order.
def chosen (count : Nat) (s : Machine × κ) : List Direction :=
  ((passed step count s).filter (·.1.asks)).map fun s => (step s).state.1.direction

theorem asked_of_next {s t : Machine × κ} (h : step s = .next t) (count : Nat) :
    asked (count + 1) s = asked count t + if s.1.asks then 1 else 0 := by
  rw [asked, passed_of_next h, List.countP_cons, asked]

theorem asked_of_stop {s t : Machine × κ} {r : Except Fault Unit} (h : step s = .stop r t)
    (count : Nat) : asked (count + 1) s = 0 := by
  rw [asked, passed, h]
  rfl

-- Each `?` takes one word from the generator, and nothing else takes any.
theorem random_run {bound : Nat} {s t : Machine × κ} {r : Except Fault Unit}
    (h : runFor step bound s = some (r, t)) : t.1.random = s.1.random.later (asked bound s) := by
  induction bound generalizing s with
  | zero => cases h
  | succ bound ih =>
    obtain ⟨m, c⟩ := s
    cases hstep : step (m, c) with
    | next u =>
      rw [runFor_of_next hstep] at h
      rw [ih h, random_of_next hstep, SplitMix.later_later, asked_of_next hstep, Nat.add_comm]
    | stop r' u =>
      rw [runFor_of_stop hstep] at h
      cases h
      have hrandom := random_step_of_not_asks (asks_of_stop hstep) c
      rw [hstep] at hrandom
      rw [asked_of_stop hstep]
      exact hrandom

theorem chosen_eq (count : Nat) (s : Machine × κ) :
    chosen count s = (List.range (asked count s)).map (turn s.1.random) := by
  induction count generalizing s with
  | zero => rfl
  | succ count ih =>
    obtain ⟨m, c⟩ := s
    cases hstep : step (m, c) with
    | stop r t =>
      rw [asked_of_stop hstep, chosen, passed, hstep]
      rfl
    | next t =>
      have hrest := ih t
      rw [random_of_next hstep] at hrest
      rw [asked_of_next hstep]
      cases hasks : m.asks with
      | true =>
        have hfirst : t.1.direction = turn m.random 0 := by
          rw [step_of_asks hasks] at hstep
          cases hstep
          exact direction_advance _
        have hchosen : chosen (count + 1) (m, c) = t.1.direction :: chosen count t := by
          simp [chosen, passed_of_next hstep, hasks, hstep, Progress.state]
        simp only [hasks, if_true] at hrest
        rw [if_pos rfl, hchosen, hrest, hfirst, List.range_succ_eq_map]
        simp [turn_later, Function.comp_def, Nat.add_comm]
      | false =>
        have hchosen : chosen (count + 1) (m, c) = chosen count t := by
          simp [chosen, passed_of_next hstep, hasks]
        simp only [hasks] at hrest
        rw [hchosen, hrest]
        rfl

end Machine

-- The first `count` turns of both generators are the same.
def TurnsAgree (count : Nat) (g h : SplitMix) : Prop :=
  ∀ i < count, turn h i = turn g i

theorem TurnsAgree.later {count used : Nat} {g h : SplitMix} (hturns : TurnsAgree count g h) :
    TurnsAgree (count - used) (g.later used) (h.later used) := by
  intro i hi
  rw [turn_later, turn_later]
  exact hturns _ (by omega)

theorem TurnsAgree.mono {m n : Nat} {g h : SplitMix} (hmn : m ≤ n) (hturns : TurnsAgree n g h) :
    TurnsAgree m g h :=
  fun i hi => hturns i (by omega)

section Runs

variable {κ : Type}

open Machine

-- The machines differ in nothing but their generators.
def UpToSeed (x y : Machine × κ) : Prop :=
  x.1.Alike (· = ·) (fun _ _ => True) y.1 ∧ y.2 = x.2

theorem UpToSeed.eq {x y : Machine × κ} (h : UpToSeed x y) :
    y = ({ x.1 with random := y.1.random }, x.2) := by
  obtain ⟨m, c⟩ := x
  obtain ⟨⟨field, stack, x, y, direction, quoting, random⟩, c'⟩ := y
  obtain ⟨halike, hc⟩ := h
  obtain ⟨hfield, hx, hy, hdirection, hquoting, hstack, -⟩ := halike
  dsimp only at hfield hx hy hdirection hquoting hstack hc
  rw [hfield, hx, hy, hdirection, hquoting, ← hstack, hc]

variable [Console κ]

theorem step_upToSeed {k : Nat} {m n : Machine} (h : m.Alike (· = ·) (TurnsAgree k) n)
    (hk : m.asks = true → 0 < k) (c : κ) :
    (step (m, c)).Matches
      (fun x y => x.1.Alike (· = ·) (TurnsAgree (k - if m.asks then 1 else 0)) y.1 ∧ y.2 = x.2)
      (step (n, c)) := by
  refine step_matches stacksAgree_eq (fun hquoting hinstr => ?_)
    { h with random := h.random.mono (Nat.sub_le _ _) } c
  have hasks : m.asks = true := asks_iff.mpr ⟨hquoting, hinstr⟩
  rw [if_pos hasks]
  exact ⟨h.random 0 (hk hasks), h.random.later⟩

-- Machines whose turns agree as far as the one of them makes any run alike.
theorem run_upToSeed {k bound : Nat} {m n : Machine} {c : κ}
    (h : m.Alike (· = ·) (TurnsAgree k) n) (hk : asked bound (m, c) ≤ k) :
    Option.Rel (SameEnd UpToSeed) (m.run bound c) (n.run bound c) ∧
      asked bound (n, c) = asked bound (m, c) := by
  induction bound generalizing k m n c with
  | zero => exact ⟨.none, rfl⟩
  | succ bound ih =>
    have hasks : n.asks = m.asks := by rw [asks, asks, h.here, h.quoting]
    cases hm : step (m, c) with
    | next s =>
      rw [asked_of_next hm] at hk
      have hmatch := step_upToSeed h (fun hasks => by rw [if_pos hasks] at hk; omega) c
      rw [hm] at hmatch
      generalize hn : step (n, c) = y at hmatch
      cases hmatch with
      | @next _ t hst =>
        obtain ⟨m', c'⟩ := s
        obtain ⟨n', c''⟩ := t
        obtain ⟨halike, hc⟩ := hst
        obtain rfl : c'' = c' := hc
        obtain ⟨hrest, hasked⟩ := ih halike (Nat.le_sub_of_add_le hk)
        rw [run, run, runFor_of_next hm, runFor_of_next hn, asked_of_next hm, asked_of_next hn,
          hasked, hasks]
        exact ⟨hrest, rfl⟩
    | stop r s =>
      have hquiet := asks_of_stop hm
      have hmatch := step_upToSeed h (by simp [hquiet]) c
      rw [hm] at hmatch
      generalize hn : step (n, c) = y at hmatch
      cases hmatch with
      | stop hst =>
        rw [run, run, runFor_of_stop hm, runFor_of_stop hn, asked_of_stop hm, asked_of_stop hn]
        exact ⟨.some ⟨rfl, { hst.1 with random := trivial }, hst.2⟩, rfl⟩

-- A run knows of its seed what its turns tell. A machine with another generator, whose turns are
-- the same up to the last `?`, comes to the same end.
theorem runs_depend_on_turns {m m' : Machine} {c c' : κ} {bound k : Nat} {r : Except Fault Unit}
    (hrun : m.run bound c = some (r, m', c')) (hk : asked bound (m, c) = k) :
    m'.random = m.random.later k ∧
    (∀ g : SplitMix, (∀ i < k, draw g i = draw m.random i) →
      ({ m with random := g } : Machine).run bound c =
        some (r, { m' with random := g.later k }, c') ∧
      asked bound ({ m with random := g }, c) = k) ∧
    (k = 0 → ∀ g : SplitMix,
      ({ m with random := g } : Machine).run bound c = some (r, { m' with random := g }, c')) := by
  have hother (g : SplitMix) (hg : ∀ i < k, draw g i = draw m.random i) :
      ({ m with random := g } : Machine).run bound c =
        some (r, { m' with random := g.later k }, c') ∧
      asked bound ({ m with random := g }, c) = k := by
    have halike : m.Alike (· = ·) (TurnsAgree k) { m with random := g } :=
      ⟨rfl, rfl, rfl, rfl, rfl, rfl, fun i hi => turn_eq_iff.mpr (hg i hi)⟩
    obtain ⟨hend, hasked⟩ := run_upToSeed halike (Nat.le_of_eq hk)
    rw [hrun] at hend
    generalize hrun' : ({ m with random := g } : Machine).run bound c = out at hend
    cases hend with
    | @some _ y hy =>
      obtain ⟨r', y⟩ := y
      obtain ⟨hr, hseed⟩ := hy
      have hrandom := random_run hrun'
      rw [hasked, hk] at hrandom
      obtain rfl : r = r' := hr
      have hy : y = ({ m' with random := y.1.random }, c') := UpToSeed.eq hseed
      rw [hrandom] at hy
      exact ⟨by rw [hy], hasked.trans hk⟩
  refine ⟨?_, hother, ?_⟩
  · rw [← hk]
    exact random_run hrun
  · rintro rfl g
    exact (hother g (by simp)).1

-- Pushes a `?` as a letter and then executes one until it turns left or right.
def wavering (seed : UInt64) : Machine :=
  { field := ⟨5, 1, ("\"?\"?@".toList.map Text.codeOf).toArray⟩, random := ⟨seed⟩ }

theorem run_wavering : ∃ m : Machine, (wavering 0).run 6 (Script.ofInput "") =
    some (.ok (), m, Script.ofInput "") ∧ m.stack = [63] ∧ m.x = 4 :=
  ⟨_, by with_unfolding_all rfl, rfl, rfl⟩

theorem runs_depend_on_turns_wavering :
    asked 6 (wavering 0, Script.ofInput "") = 2 ∧ (∀ i < 2, draw ⟨6⟩ i = draw ⟨0⟩ i) ∧
    draw ⟨6⟩ 2 ≠ draw ⟨0⟩ 2 ∧ ∃ m : Machine,
      (wavering 6).run 6 (Script.ofInput "") = some (.ok (), m, Script.ofInput "") ∧
      m.stack = [63] ∧ m.random = SplitMix.later ⟨6⟩ 2 ∧
      asked 6 (wavering 6, Script.ofInput "") = 2 := by
  obtain ⟨m, hrun, hstack, -⟩ := run_wavering
  have hasked : asked 6 (wavering 0, Script.ofInput "") = 2 := by decide +kernel
  have hdraws : ∀ i < 2, draw ⟨6⟩ i = draw ⟨0⟩ i := by decide +kernel
  obtain ⟨-, hother, -⟩ := runs_depend_on_turns hrun hasked
  obtain ⟨hrun', hasked'⟩ := hother ⟨6⟩ hdraws
  exact ⟨hasked, hdraws, by decide +kernel, _, hrun', hstack, rfl, hasked'⟩

end Runs

section Counts

-- Blocks of `b` numbers that take turns by fours.
theorem card_every_fourth_block (a : Nat) {b remainder : Nat} (hb : 0 < b)
    (hremainder : remainder < 4) :
    ((Finset.range (a * 4 * b)).filter fun n => n / b % 4 = remainder).card = a * b := by
  have hcard : (Finset.range a ×ˢ Finset.range b).card = a * b := by
    rw [Finset.card_product, Finset.card_range, Finset.card_range]
  have hblock (q : Nat) {r : Nat} (hr : r < b) : (q * b + r) / b = q := by
    rw [Nat.mul_comm, Nat.mul_add_div hb, Nat.div_eq_of_lt hr, Nat.add_zero]
  rw [← hcard]
  refine Finset.card_bij' (fun n _ => (n / b / 4, n % b))
    (fun p _ => (p.1 * 4 + remainder) * b + p.2) ?_ ?_ ?_ ?_
  · intro n hn
    rw [Finset.mem_filter, Finset.mem_range] at hn
    rw [Finset.mem_product, Finset.mem_range, Finset.mem_range]
    have hquotient : n / b < a * 4 := (Nat.div_lt_iff_lt_mul hb).mpr hn.1
    exact ⟨by omega, Nat.mod_lt n hb⟩
  · intro p hp
    rw [Finset.mem_product, Finset.mem_range, Finset.mem_range] at hp
    rw [Finset.mem_filter, Finset.mem_range, ← Nat.div_lt_iff_lt_mul hb, hblock _ hp.2]
    omega
  · intro n hn
    have hquotient : n / b / 4 * 4 + remainder = n / b := by
      have := (Finset.mem_filter.mp hn).2
      omega
    rw [hquotient, Nat.mul_comm]
    exact Nat.div_add_mod n b
  · intro p hp
    rw [Finset.mem_product, Finset.mem_range, Finset.mem_range] at hp
    refine Prod.ext ?_ ?_
    · rw [hblock _ hp.2]
      omega
    · exact Nat.mul_add_mod_of_lt hp.2

theorem turn_eq_iff_word {g : SplitMix} {n : Nat} {d : Direction} :
    turn g n = d ↔ (g.later n).next64.1.toNat / 2 ^ 32 % 4 = d.number := by
  have hword : (g.later n).next32.1.toNat % 4 = (g.later n).next64.1.toNat / 2 ^ 32 % 4 := by
    have hnext : (g.later n).next32.1 = ((g.later n).next64.1 >>> 32).toUInt32 := rfl
    rw [hnext, UInt64.toNat_toUInt32, UInt64.toNat_shiftRight]
    have hlt := (g.later n).next64.1.toNat_lt
    have hshift : (32 : UInt64).toNat % 64 = 32 := by decide
    rw [hshift, Nat.shiftRight_eq_div_pow]
    omega
  rw [turn, Direction.ofWord_eq_iff, hword]

theorem count_map_range (f : Nat → Direction) (d : Direction) (count : Nat) :
    ((List.range count).map f).count d = ((Finset.range count).filter fun n => f n = d).card := by
  rw [Finset.card_def, Finset.filter_val, Finset.range_val, ← Multiset.countP_eq_card_filter]
  simp only [Multiset.range, Multiset.coe_countP, List.count, List.countP_map]
  rfl

theorem count_turns (g : SplitMix) (start : Nat) (d : Direction) :
    ((List.range (2 ^ 64)).map fun n => turn g (start + n)).count d = 2 ^ 62 := by
  have hquarter := card_every_fourth_block (2 ^ 30) (Nat.two_pow_pos 32) d.number_lt
  have hwords : 2 ^ 30 * 4 * 2 ^ 32 = 2 ^ 64 := by decide
  have hturns : 2 ^ 30 * 2 ^ 32 = 2 ^ 62 := by decide
  rw [hwords, hturns] at hquarter
  rw [count_map_range]
  simp only [turn_eq_iff_word]
  rw [SplitMix.card_words g start fun number => number / 2 ^ 32 % 4 = d.number, hquarter]

theorem eq_turns_of_infix {g : SplitMix} {count : Nat} {draws : List Direction}
    (h : draws <:+: (List.range count).map (turn g)) :
    ∃ start, draws = (List.range draws.length).map fun n => turn g (start + n) := by
  obtain ⟨before, after, hparts⟩ := h
  have hlength : before.length + draws.length + after.length = count := by
    simpa [Nat.add_assoc] using congrArg List.length hparts
  refine ⟨before.length, List.ext_getElem (by simp) fun n hn _ => ?_⟩
  have hget : (before ++ draws ++ after)[before.length + n]? =
      ((List.range count).map (turn g))[before.length + n]? := by rw [hparts]
  rw [List.append_assoc, List.getElem?_append_right (Nat.le_add_right _ _),
    Nat.add_sub_cancel_left, List.getElem?_append_left hn, List.getElem?_eq_getElem hn,
    List.getElem?_map, List.getElem?_range (by omega)] at hget
  simpa using hget

-- The words of a generator go through all words before one comes up again, and so its turns, and
-- the `?` that a machine executes one after the other, choose every direction equally often.
theorem generator_has_full_period (g : SplitMix) :
    (∀ n, (g.later n).state = g.state + UInt64.ofNat n * SplitMix.gamma) ∧
    Function.Bijective SplitMix.mix ∧
    (∀ start word, ∃! n, n < 2 ^ 64 ∧ (g.later (start + n)).next64.1 = word) ∧
    (∀ start d, ((List.range (2 ^ 64)).map fun n => turn g (start + n)).count d = 2 ^ 62) ∧
    ∀ (κ : Type) [Console κ] (m : Machine) (c : κ) (count : Nat) (draws : List Direction),
      draws <:+: Machine.chosen count (m, c) → draws.length = 2 ^ 64 →
      ∀ d, draws.count d = 2 ^ 62 := by
  refine ⟨fun n => ?_, SplitMix.mix_bijective, SplitMix.existsUnique_word g, count_turns g, ?_⟩
  · rw [SplitMix.later_eq]
  · intro κ _ m c count draws hinfix hlength d
    rw [Machine.chosen_eq] at hinfix
    obtain ⟨start, hdraws⟩ := eq_turns_of_infix hinfix
    rw [hdraws, hlength]
    exact count_turns _ start d

-- One cell that holds a `?`, and nowhere else to go.
def spinning (direction : Direction) (random : SplitMix) : Machine :=
  { field := ⟨1, 1, #[Text.codeOf '?']⟩, direction, random }

theorem advance_spinning (direction : Direction) (random : SplitMix) :
    (spinning direction random).advance = spinning direction random := by
  cases direction <;> simp [Machine.advance, spinning]

theorem asked_spinning {κ : Type} [Console κ] (count : Nat) (direction : Direction)
    (random : SplitMix) (c : κ) : Machine.asked count (spinning direction random, c) = count := by
  induction count generalizing direction random with
  | zero => rfl
  | succ count ih =>
    have hasks : (spinning direction random).asks = true := rfl
    have hstep : Machine.step (spinning direction random, c) =
        .next ((spinning (turn random 0) (random.later 1)).advance, c) :=
      Machine.step_of_asks hasks c
    rw [advance_spinning] at hstep
    rw [Machine.asked_of_next hstep, ih, if_pos hasks]

theorem generator_has_full_period_spinning :
    ∃ draws : List Direction,
      draws <:+: Machine.chosen (2 ^ 64) (spinning .right ⟨0⟩, Script.ofInput "") ∧
      draws.length = 2 ^ 64 ∧ ∀ d, draws.count d = 2 ^ 62 := by
  have hlength : (Machine.chosen (2 ^ 64)
      (spinning .right ⟨0⟩, Script.ofInput "")).length = 2 ^ 64 := by
    rw [Machine.chosen_eq, List.length_map, List.length_range, asked_spinning]
  obtain ⟨-, -, -, -, hturns⟩ := generator_has_full_period ⟨0⟩
  exact ⟨_, List.infix_rfl, hlength, hturns Script _ _ _ _ List.infix_rfl hlength⟩

end Counts

end Esoterica.Befunge
