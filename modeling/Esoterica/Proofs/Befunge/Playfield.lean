import Esoterica.Console.Script
import Esoterica.Proofs.Befunge.Field
import Esoterica.Proofs.Befunge.Lockstep

namespace Esoterica.Befunge

open Text

structure Put where
  x : Nat
  y : Nat
  value : Int64

namespace Machine

-- The cell at hand holds the code of this character, and it is going to be executed.
structure Meets (m : Machine) (char : Char) : Prop where
  executing : m.quoting = false
  code_eq : m.here.toInt = char.toNat

-- The number on top of the stack is the row and the one below it the column of this cell.
structure Addresses (m : Machine) (x y : Nat) : Prop where
  x_eq : (m.stack.getD 1 0).toInt = x
  y_eq : (m.stack.getD 0 0).toInt = y
  x_lt : x < m.field.width
  y_lt : y < m.field.height

-- The next step puts this number into this cell.
structure Puts (m : Machine) (put : Put) : Prop where
  meets : m.Meets 'p'
  cell : m.Addresses put.x put.y
  value_eq : m.stack.getD 2 0 = put.value

-- The next step gets the number of this cell.
structure Gets (m : Machine) (x y : Nat) : Prop where
  meets : m.Meets 'g'
  cell : m.Addresses x y

theorem scalar?_eq_some_iff {value : Int64} {char : Char} :
    scalar? value = some char ↔ value.toInt = char.toNat := by
  have hvalid : char.toNat.isValidChar := char.valid
  by_cases hscalar : 0 ≤ value.toInt ∧ value.toInt.toNat.isValidChar
  · have hsome : scalar? value = some (Char.ofNatAux value.toInt.toNat hscalar.2) :=
      dif_pos hscalar
    have hcode : (Char.ofNatAux value.toInt.toNat hscalar.2).toNat = value.toInt.toNat := rfl
    rw [hsome, Option.some.injEq, ← Char.toNat_inj, hcode]
    omega
  · have hnone : scalar? value = none := dif_neg hscalar
    rw [hnone]
    refine iff_of_false (Option.some_ne_none char).symm fun hcode => hscalar ?_
    rw [hcode, Int.toNat_natCast]
    exact ⟨Int.natCast_nonneg _, hvalid⟩

theorem instrOf_eq_iff {value : Int64} {char : Char} (h : char ≠ ' ') :
    instrOf value = char ↔ value.toInt = char.toNat := by
  rw [← scalar?_eq_some_iff, instrOf]
  cases scalar? value with
  | none => simp [Ne.symm h]
  | some other => simp

theorem addresses_iff {m : Machine} {x y : Nat} :
    m.Addresses x y ↔ m.field.point? (m.stack.getD 1 0) (m.stack.getD 0 0) = some (x, y) := by
  rw [Field.point?_eq_some_iff]
  constructor
  · rintro ⟨hx, hy, hx', hy'⟩
    exact ⟨hx, hy, hx', hy'⟩
  · rintro ⟨hx, hy, hx', hy'⟩
    exact ⟨hx, hy, hx', hy'⟩

structure Inside (m : Machine) : Prop where
  x_lt : m.x < m.field.width
  y_lt : m.y < m.field.height

-- From `m` to `n` the machine has not moved, and the field is the same.
structure Stays (m n : Machine) : Prop where
  field : n.field = m.field
  x : n.x = m.x
  y : n.y = m.y

theorem Stays.inside {m n : Machine} (h : m.Stays n) (hm : m.Inside) : n.Inside := by
  obtain ⟨hx, hy⟩ := hm
  rw [← h.x, ← h.field] at hx
  rw [← h.y, ← h.field] at hy
  exact ⟨hx, hy⟩

theorem field_advance (m : Machine) : m.advance.field = m.field := by
  unfold advance
  split <;> rfl

theorem stack_advance (m : Machine) : m.advance.stack = m.stack := by
  unfold advance
  split <;> rfl

theorem Inside.advance {m : Machine} (h : m.Inside) : m.advance.Inside := by
  obtain ⟨hx, hy⟩ := h
  have hwidth : 0 < m.field.width := by omega
  have hheight : 0 < m.field.height := by omega
  unfold Machine.advance
  split
  · refine ⟨hx, ?_⟩
    dsimp only
    split <;> omega
  · exact ⟨hx, Nat.mod_lt _ hheight⟩
  · exact ⟨Nat.mod_lt _ hwidth, hy⟩
  · refine ⟨?_, hy⟩
    dsimp only
    split <;> omega

variable {κ : Type}

def Outcome.machine : Outcome κ → Machine
  | done m _ => m
  | halt m _ => m
  | fault _ m _ => m

theorem divide_stays (f : Int64 → Int64 → Int64) (m : Machine) (c : κ) :
    m.Stays (divide f m c).machine := by
  simp only [divide, pop_eq]
  split <;> exact ⟨rfl, rfl, rfl⟩

variable [Console κ]

-- Only two instructions move the machine or change the field.
theorem exec_stays {char : Char} (hskip : char ≠ '#') (hput : char ≠ 'p') (value : Int64)
    (m : Machine) (c : κ) : m.Stays (exec char value m c).machine := by
  unfold exec
  split
  · exact ⟨rfl, rfl, rfl⟩
  split
  case h_1 | h_2 | h_3 | h_4 =>
    simp only [binary, pop_eq]
    exact ⟨rfl, rfl, rfl⟩
  case h_5 | h_6 => exact divide_stays _ m c
  case h_7 | h_13 | h_14 | h_17 | h_18 | h_19 | h_20 =>
    simp only [pop_eq]
    exact ⟨rfl, rfl, rfl⟩
  -- splitting keeps the generator from being computed
  case h_12 | h_25 => split <;> exact ⟨rfl, rfl, rfl⟩
  case h_21 => exact absurd rfl hskip
  case h_22 => exact absurd rfl hput
  case h_23 =>
    simp only [pop_eq]
    split <;> exact ⟨rfl, rfl, rfl⟩
  case h_24 =>
    split
    · split <;> exact ⟨rfl, rfl, rfl⟩
    · exact ⟨rfl, rfl, rfl⟩
  all_goals exact ⟨rfl, rfl, rfl⟩

theorem pop_drop (m : Machine) (count : Nat) :
    ({ m with stack := m.stack.drop count } : Machine).pop =
      (m.stack.getD count 0, { m with stack := m.stack.drop (count + 1) }) := by
  rw [pop_eq]
  simp [List.head?_drop, List.tail_drop]

theorem pop_eq_drop (m : Machine) :
    m.pop = (m.stack.getD 0 0, { m with stack := m.stack.drop 1 }) :=
  pop_drop m 0

section Access

variable {m : Machine} {x y : Nat}

theorem exec_put (h : m.field.point? (m.stack.getD 1 0) (m.stack.getD 0 0) = some (x, y))
    (value : Int64) (c : κ) : exec 'p' value m c =
      .done { m with
        stack := m.stack.drop 3, field := m.field.set x y (m.stack.getD 2 0) } c := by
  simp only [exec, pop_eq_drop m, pop_drop, h]
  rfl

theorem exec_put_of_outside (h : m.field.point? (m.stack.getD 1 0) (m.stack.getD 0 0) = none)
    (value : Int64) (c : κ) : exec 'p' value m c =
      .fault (.outOfBounds (m.stack.getD 1 0) (m.stack.getD 0 0))
        { m with stack := m.stack.drop 3 } c := by
  simp only [exec, pop_eq_drop m, pop_drop, h]
  rfl

theorem exec_look (h : m.field.point? (m.stack.getD 1 0) (m.stack.getD 0 0) = some (x, y))
    (value : Int64) (c : κ) : exec 'g' value m c =
      .done { m with stack := m.field.get x y :: m.stack.drop 2 } c := by
  simp only [exec, pop_eq_drop m, pop_drop, h]
  rfl

theorem step_of_done {n : Machine} {c c' : κ} (hquoting : m.quoting = false)
    (h : exec (instrOf m.here) m.here m c = .done n c') :
    step (m, c) = .next (n.advance, c') := by
  simp only [step, hquoting, h, Bool.false_eq_true, if_false]

theorem step_of_puts {put : Put} (h : m.Puts put) (c : κ) :
    step (m, c) = .next
      ({ m with
        stack := m.stack.drop 3, field := m.field.set put.x put.y put.value }.advance, c) := by
  apply step_of_done h.meets.executing
  rw [(instrOf_eq_iff (by decide)).mpr h.meets.code_eq, ← h.value_eq]
  exact exec_put (addresses_iff.mp h.cell) _ c

theorem step_of_gets (h : m.Gets x y) (c : κ) :
    step (m, c) = .next ({ m with stack := m.field.get x y :: m.stack.drop 2 }.advance, c) := by
  apply step_of_done h.meets.executing
  rw [(instrOf_eq_iff (by decide)).mpr h.meets.code_eq]
  exact exec_look (addresses_iff.mp h.cell) _ c

end Access

section Keeping

-- From `m` to `n` the field is the same, and the machine has not left it.
structure Keeps (m n : Machine) : Prop where
  field : n.field = m.field
  inside (h : m.Inside) : n.Inside

theorem Stays.keeps {m n : Machine} (h : m.Stays n) : m.Keeps n :=
  ⟨h.field, h.inside⟩

theorem Keeps.advance {m n : Machine} (h : m.Keeps n) : m.Keeps n.advance :=
  ⟨(field_advance n).trans h.field, fun hm => (h.inside hm).advance⟩

theorem keeps_exec {char : Char} {m : Machine}
    (hput : char = 'p' → m.field.point? (m.stack.getD 1 0) (m.stack.getD 0 0) = none)
    (value : Int64) (c : κ) : m.Keeps (exec char value m c).machine := by
  by_cases hp : char = 'p'
  · subst hp
    rw [exec_put_of_outside (hput rfl)]
    exact ⟨rfl, fun h => ⟨h.x_lt, h.y_lt⟩⟩
  by_cases hskip : char = '#'
  · subst hskip
    exact Keeps.advance ⟨rfl, id⟩
  · exact (exec_stays hskip hp value m c).keeps

theorem keeps_step {m : Machine} (h : ∀ put, ¬ m.Puts put) (c : κ) :
    m.Keeps (step (m, c)).state.1 := by
  simp only [step]
  cases hquoting : m.quoting with
  | true =>
    have hstays : ∀ stack quoting, m.Keeps { m with stack, quoting } :=
      fun _ _ => ⟨rfl, fun h => ⟨h.x_lt, h.y_lt⟩⟩
    simp only [if_true]
    split
    · exact (hstays m.stack false).advance
    · exact (hstays (m.here :: m.stack) m.quoting).advance
  | false =>
    have hput : instrOf m.here = 'p' →
        m.field.point? (m.stack.getD 1 0) (m.stack.getD 0 0) = none := by
      intro hp
      apply Option.eq_none_iff_forall_ne_some.mpr
      rintro ⟨x, y⟩ hpoint
      have hcode := (instrOf_eq_iff (by decide)).mp hp
      exact h ⟨x, y, _⟩ ⟨⟨hquoting, hcode⟩, addresses_iff.mpr hpoint, rfl⟩
    have hexec := keeps_exec hput m.here c
    simp only [Bool.false_eq_true, if_false]
    generalize exec (instrOf m.here) m.here m c = out at hexec ⊢
    cases out with
    | done n c' => exact hexec.advance
    | halt n c' => exact hexec
    | fault f n c' => exact hexec

end Keeping

end Machine

section Histories

variable {κ : Type} [Console κ]

-- The states in which an instruction is fetched, in the runs of a text one after the other, and
-- what has been put into the field by then, the last first. Every run has a console of its own.
inductive Fetched (text : List Char) (seed : UInt64) : List Put → Machine → κ → Prop
  | start (c : κ) : Fetched text seed [] { field := .ofText text, random := ⟨seed⟩ } c
  | next {puts : List Put} {m m' : Machine} {c c' : κ} (h : Fetched text seed puts m c)
      (hputs : ∀ put, ¬ m.Puts put) (hstep : Machine.step (m, c) = .next (m', c')) :
      Fetched text seed puts m' c'
  | put {puts : List Put} {put : Put} {m m' : Machine} {c c' : κ}
      (h : Fetched text seed puts m c) (hput : m.Puts put)
      (hstep : Machine.step (m, c) = .next (m', c')) : Fetched text seed (put :: puts) m' c'
  | again {puts : List Put} {m m' : Machine} {c c' : κ} {r : Except Fault Unit}
      (h : Fetched text seed puts m c) (hstep : Machine.step (m, c) = .stop r (m', c'))
      (console : κ) : Fetched text seed puts m' console

-- What a cell holds: the number put there last, or else the letter of the text.
def valueAt (text : List Char) (puts : List Put) (x y : Nat) : Int64 :=
  ((puts.find? fun put => put.x = x ∧ put.y = y).map Put.value).getD (Field.letterAt text x y)

-- The field has the shape of the text, the machine stands inside of it, and the cells hold what
-- they should.
structure Machine.Tracks (text : List Char) (puts : List Put) (m : Machine) : Prop where
  width : m.field.width = (Field.ofText text).width
  height : m.field.height = (Field.ofText text).height
  size : m.field.cells.size = m.field.width * m.field.height
  x_lt : m.x < m.field.width
  y_lt : m.y < m.field.height
  cells (x y : Nat) (hx : x < m.field.width) (hy : y < m.field.height) :
    m.field.cells[y * m.field.width + x]? = some (valueAt text puts x y)

variable {text : List Char} {puts : List Put} {m n : Machine}

theorem valueAt_cons (put : Put) (x y : Nat) :
    valueAt text (put :: puts) x y =
      if put.x = x ∧ put.y = y then put.value else valueAt text puts x y := by
  by_cases h : put.x = x ∧ put.y = y <;> simp [valueAt, h]

namespace Machine.Tracks

theorem full (h : m.Tracks text puts) : m.field.Full :=
  ⟨Nat.zero_lt_of_lt h.x_lt, Nat.zero_lt_of_lt h.y_lt, h.size⟩

theorem inside (h : m.Tracks text puts) : m.Inside :=
  ⟨h.x_lt, h.y_lt⟩

theorem get_eq (h : m.Tracks text puts) {x y : Nat} (hx : x < m.field.width)
    (hy : y < m.field.height) : m.field.get x y = valueAt text puts x y :=
  Option.some.inj ((h.full.getElem?_index hx hy).symm.trans (h.cells x y hx hy))

theorem start (text : List Char) (random : SplitMix) :
    Tracks text [] { field := .ofText text, random } where
  width := rfl
  height := rfl
  size := (Field.full_ofText text).size_eq
  x_lt := (Field.full_ofText text).width_pos
  y_lt := (Field.full_ofText text).height_pos
  cells _ _ hx hy := Field.getElem?_ofText text hx hy

theorem keep (h : m.Tracks text puts) (hn : m.Keeps n) : n.Tracks text puts := by
  obtain ⟨hx, hy⟩ := hn.inside h.inside
  exact {
    width := by rw [hn.field, h.width]
    height := by rw [hn.field, h.height]
    size := by rw [hn.field, h.size]
    x_lt := hx
    y_lt := hy
    cells := by
      rw [hn.field]
      exact h.cells }

-- A number that is put into a cell hides what was there, and nothing else.
theorem put (h : m.Tracks text puts) {put : Put} (hput : m.Puts put)
    (stack : List Int64) :
    Tracks text (put :: puts)
      { m with stack, field := m.field.set put.x put.y put.value } where
  width := h.width
  height := h.height
  size := (h.full.set put.x put.y put.value).size_eq
  x_lt := h.x_lt
  y_lt := h.y_lt
  cells x y hx hy := by
    have hpx := hput.cell.x_lt
    have hcells : m.field.cells[m.field.index x y]? = _ := h.cells x y hx hy
    show (m.field.set put.x put.y put.value).cells[m.field.index x y]? = _
    rw [h.full.getElem?_set hpx hput.cell.y_lt, valueAt_cons]
    by_cases hsame : put.x = x ∧ put.y = y
    · obtain ⟨rfl, rfl⟩ := hsame
      simp
    · have hindex : m.field.index x y ≠ m.field.index put.x put.y := by
        intro heq
        obtain ⟨rfl, rfl⟩ := Field.index_inj hx hpx heq
        exact hsame ⟨rfl, rfl⟩
      rw [if_neg hindex, if_neg hsame, hcells]

end Machine.Tracks

theorem Fetched.tracks {seed : UInt64} {c : κ} (h : Fetched text seed puts m c) :
    m.Tracks text puts := by
  induction h with
  | start => exact .start text _
  | @next puts m m' c c' _ hputs hstep ih =>
    have hkeeps := Machine.keeps_step hputs c
    rw [hstep] at hkeeps
    exact ih.keep hkeeps
  | @put puts put m m' c c' _ hput hstep ih =>
    rw [Machine.step_of_puts hput] at hstep
    cases hstep
    exact (ih.put hput _).keep (Machine.Keeps.advance ⟨rfl, id⟩)
  | @again puts m m' c c' r _ hstep _ ih =>
    -- where a step stops, it has put nothing
    have hputs : ∀ put, ¬ m.Puts put := by
      intro put hput
      rw [Machine.step_of_puts hput] at hstep
      cases hstep
    have hkeeps := Machine.keeps_step hputs c
    rw [hstep] at hkeeps
    exact ih.keep hkeeps

-- A text is laid out in its field letter by letter. In every run the machine finds a cell where it
-- stands, only a number that is put into the field changes it, in one cell, and what it gets from
-- a cell is the number put there last or the letter laid out there.
theorem playfield_holds_what_was_put (text : List Char) :
    ((Field.ofText text).Full ∧
      (∀ x y, x < (Field.ofText text).width → y < (Field.ofText text).height →
        (Field.ofText text).cells[y * (Field.ofText text).width + x]? =
          some (Field.letterAt text x y)) ∧
      ∀ x y char, (lines text)[y]?.bind (·[x]?) = some char →
        x < (Field.ofText text).width ∧ y < (Field.ofText text).height) ∧
    ∀ (seed : UInt64) (puts : List Put) (m : Machine) (c : κ), Fetched text seed puts m c →
      m.Tracks text puts ∧
      m.field.cells[m.y * m.field.width + m.x]? = some m.here ∧
      ((∀ put, ¬ m.Puts put) → (Machine.step (m, c)).state.1.field = m.field) ∧
      (∀ put, m.Puts put → ∃ m', Machine.step (m, c) = .next (m', c) ∧
        ∀ i, m'.field.cells[i]? =
          if i = put.y * m.field.width + put.x then some put.value else m.field.cells[i]?) ∧
      ∀ x y, m.Gets x y → ∃ m', Machine.step (m, c) = .next (m', c) ∧
        m'.stack = valueAt text puts x y :: m.stack.drop 2 := by
  refine ⟨⟨Field.full_ofText text, fun x y => Field.getElem?_ofText text,
    fun x y char => Field.lt_of_letter text⟩, ?_⟩
  intro seed puts m c h
  have htracks := h.tracks
  refine ⟨htracks, htracks.full.getElem?_index htracks.x_lt htracks.y_lt,
    fun hputs => (Machine.keeps_step hputs c).field, ?_, ?_⟩
  · intro put hput
    refine ⟨_, Machine.step_of_puts hput c, fun i => ?_⟩
    rw [Machine.field_advance]
    exact htracks.full.getElem?_set hput.cell.x_lt hput.cell.y_lt put.value i
  · intro x y hget
    refine ⟨_, Machine.step_of_gets hget c, ?_⟩
    rw [Machine.stack_advance, ← htracks.get_eq hget.cell.x_lt hget.cell.y_lt]

-- Puts 9 into the fourth cell of the second row and gets it back from there.
def putAndGet : List Char :=
  "931p31g@\n********".toList

-- On the way to the cell at place `x` of the first row.
def underway (field : Field) (x : Nat) (stack : List Int64) : Machine :=
  { field, stack, x, random := ⟨0⟩ }

theorem not_puts_of_code {m : Machine} (h : m.here.toInt ≠ 112) (put : Put) : ¬ m.Puts put :=
  fun hput => h hput.meets.code_eq

theorem fetched_putAndGet :
    Fetched putAndGet 0 [⟨3, 1, 9⟩] (underway ((Field.ofText putAndGet).set 3 1 9) 6 [1, 3])
      (Script.ofInput "") := by
  let field := Field.ofText putAndGet
  let field' := field.set 3 1 9
  have hput : (underway field 3 [1, 3, 9]).Puts ⟨3, 1, 9⟩ :=
    ⟨⟨rfl, by decide +kernel⟩, ⟨rfl, rfl, by decide +kernel, by decide +kernel⟩, rfl⟩
  have h₀ : Fetched putAndGet 0 [] (underway field 0 []) (Script.ofInput "") := .start _
  have h₁ : Fetched putAndGet 0 [] (underway field 1 [9]) (Script.ofInput "") :=
    h₀.next (not_puts_of_code (by decide +kernel)) (by with_unfolding_all rfl)
  have h₂ : Fetched putAndGet 0 [] (underway field 2 [3, 9]) (Script.ofInput "") :=
    h₁.next (not_puts_of_code (by decide +kernel)) (by with_unfolding_all rfl)
  have h₃ : Fetched putAndGet 0 [] (underway field 3 [1, 3, 9]) (Script.ofInput "") :=
    h₂.next (not_puts_of_code (by decide +kernel)) (by with_unfolding_all rfl)
  have h₄ : Fetched putAndGet 0 [⟨3, 1, 9⟩] (underway field' 4 []) (Script.ofInput "") :=
    h₃.put hput (by with_unfolding_all rfl)
  have h₅ : Fetched putAndGet 0 [⟨3, 1, 9⟩] (underway field' 5 [3]) (Script.ofInput "") :=
    h₄.next (not_puts_of_code (by decide +kernel)) (by with_unfolding_all rfl)
  exact h₅.next (not_puts_of_code (by decide +kernel)) (by with_unfolding_all rfl)

theorem playfield_holds_what_was_put_putAndGet :
    ∃ m : Machine, Fetched putAndGet 0 [⟨3, 1, 9⟩] m (Script.ofInput "") ∧ m.Gets 3 1 ∧
      Field.letterAt putAndGet 3 1 = 42 ∧
      ∃ m', Machine.step (m, Script.ofInput "") = .next (m', .ofInput "") ∧ m'.stack = [9] := by
  have hget : (underway ((Field.ofText putAndGet).set 3 1 9) 6 [1, 3]).Gets 3 1 :=
    ⟨⟨rfl, by decide +kernel⟩, rfl, rfl, by decide +kernel, by decide +kernel⟩
  obtain ⟨-, hruns⟩ := playfield_holds_what_was_put (κ := Script) putAndGet
  obtain ⟨-, -, -, -, hgot⟩ := hruns _ _ _ _ fetched_putAndGet
  exact ⟨_, fetched_putAndGet, hget, by decide +kernel, hgot 3 1 hget⟩

end Histories

end Esoterica.Befunge
