import Esoterica.Proofs.Console.Reading
import Esoterica.Proofs.Halting
import Esoterica.Proofs.Whitespace.Decoration
import Esoterica.Proofs.Whitespace.Refinement

namespace Esoterica

open Text

namespace Whitespace

section Indented

-- A line with nothing but an instruction, behind blanks.
def indented (i : Instr) : List Char :=
  List.replicate 7 ' ' ++ spaced i.shownWords

theorem hasWords_indented (i : Instr) : HasWords (indented i) i.shownWords := by
  have hwords := i.isWord_of_mem_shownWords
  refine ⟨List.replicate 7 ' ', [], spaced i.shownWords, [], by simp [indented], ?_, .inl rfl,
    spread_spaced hwords, fun hmem => (mem_spaced hwords hmem).2 rfl, .inl rfl⟩
  intro c hc
  rw [List.eq_of_mem_replicate hc]
  rfl

theorem isControl_of_mem_indented {i : Instr} {c : Char} (h : c ∈ indented i) :
    isControl c = false := by
  rcases List.mem_append.mp h with h | h
  · rw [List.eq_of_mem_replicate h]
    rfl
  · exact (mem_spaced i.isWord_of_mem_shownWords h).1

theorem readLine_indented {i : Instr} (hplain : i.Plain) (hcut : i.isCut = false) :
    readLine (indented i) = .ok (some i) := by
  have hfirst : ∀ word ∈ i.shownWords.head?, word.head? ≠ some '[' := by
    rintro word ⟨⟩
    exact i.opcode.head?_mnemonic_ne
  rw [readLine_of_hasWords (hasWords_indented i) hfirst, Instr.readInstr_shownWords hplain, hcut]
  rfl

theorem readLines_indented {instrs : List Instr} (hplain : ∀ i ∈ instrs, i.Plain)
    (hcut : ∀ i ∈ instrs, i.isCut = false) {last : List Char} (hlast : readLine last = .ok none)
    (number : Nat) : readLines number (instrs.map indented ++ [last]) = .ok instrs := by
  induction instrs generalizing number with
  | nil => simp [readLines, hlast]
  | cons i instrs ih =>
    obtain ⟨hi, hplain⟩ := List.forall_mem_cons.mp hplain
    obtain ⟨hi', hcut⟩ := List.forall_mem_cons.mp hcut
    simp [readLines, readLine_indented hi hi', ih hplain hcut, Except.map]

end Indented

section Program

-- Where every round begins.
def again : Label :=
  ⟨[Symbol.space]⟩

-- Where the program goes on behind the loop.
def behind : Label :=
  ⟨[Symbol.tab]⟩

-- What the loop does each time: it writes the number, takes one off it and leaves if nothing is
-- left.
def round : List Instr :=
  [⟨.dup, ()⟩, ⟨.outnum, ()⟩, ⟨.push, (1 : Int64)⟩, ⟨.sub, ()⟩, ⟨.dup, ()⟩, ⟨.jz, behind⟩]

def countdownCode (n : Nat) : List Instr :=
  [⟨.push, Int64.ofNat n⟩, ⟨.label, again⟩] ++ round ++
    [⟨.jmp, again⟩, ⟨.label, behind⟩, ⟨.exit, ()⟩]

-- The program as it is written down. The first line is empty and the last one blank.
def countdownLines (n : Nat) : List String :=
  ["",
    "        push " ++ String.ofList (Decimal.ofNat n),
    "        label 0",
    "        dup",
    "        outnum",
    "        push 1",
    "        sub",
    "        dup",
    "        jz 1",
    "        jmp 0",
    "        label 1",
    "        exit",
    "    "]

def countdownListing (n : Nat) : List Char :=
  ['\n'].intercalate ((countdownLines n).map String.toList)

-- The numbers from `n` down to 1, one after the other.
def countdown : Nat → List Char
  | 0 => []
  | n + 1 => Decimal.ofNat (n + 1) ++ countdown n

variable {n : Nat}

theorem toInt_ofNat_of_le (h : (n : Int) ≤ Int64.maxValue.toInt) : (Int64.ofNat n).toInt = n := by
  rw [Int64.toInt_maxValue] at h
  exact Int64.toInt_ofNat_of_lt (by omega)

theorem indented_push (h : (n : Int) ≤ Int64.maxValue.toInt) :
    indented ⟨.push, Int64.ofNat n⟩ = "        push ".toList ++ Decimal.ofNat n := by
  have hwords : Instr.shownWords ⟨.push, Int64.ofNat n⟩ = ["push".toList, Decimal.ofNat n] := by
    show ["push".toList, Decimal.ofInt (Int64.ofNat n).toInt] = _
    rw [toInt_ofNat_of_le h]
    rfl
  rw [indented, hwords]
  simp [spaced]

theorem countdownLines_eq (h : (n : Int) ≤ Int64.maxValue.toInt) :
    (countdownLines n).map String.toList =
      [] :: ((countdownCode n).map indented ++ ["    ".toList]) := by
  have hcode : countdownCode n = ⟨.push, Int64.ofNat n⟩ :: (countdownCode 0).drop 1 := rfl
  have htail : ((countdownLines 0).drop 2).map String.toList =
      ((countdownCode 0).drop 1).map indented ++ ["    ".toList] := by decide +kernel
  rw [hcode, List.map_cons, List.cons_append, ← htail, indented_push h]
  simp [countdownLines]

theorem labels_countdownCode {i : Instr} (hi : i ∈ countdownCode n) {l : Label}
    (hl : i.label? = some l) : l = again ∨ l = behind := by
  have hlabels : (countdownCode n).filterMap Instr.label? = [again, behind, again, behind] := rfl
  have hmem : l ∈ (countdownCode n).filterMap Instr.label? := List.mem_filterMap.mpr ⟨i, hi, hl⟩
  rw [hlabels] at hmem
  simp only [List.mem_cons, List.not_mem_nil, or_false] at hmem
  grind

theorem plain_countdownCode : ∀ i ∈ countdownCode n, i.Plain := by
  intro i hi l hl
  rcases labels_countdownCode hi hl with rfl | rfl
  · simp [again]
  · simp [behind]

theorem isCut_countdownCode : ∀ i ∈ countdownCode n, i.isCut = false := by
  intro i hi
  apply Instr.isCut_eq_false.mpr
  intro l hl
  rcases labels_countdownCode hi hl with rfl | rfl
  · decide
  · decide

theorem assemble_countdownListing (h : (n : Int) ≤ Int64.maxValue.toInt) :
    assemble (countdownListing n) = .ok (canonical (countdownCode n)) := by
  have hfeed : ∀ line ∈ [] :: ((countdownCode n).map indented ++ ["    ".toList]), '\n' ∉ line := by
    intro line hline hmem
    simp only [List.mem_cons, List.mem_append, List.mem_map, List.not_mem_nil, or_false] at hline
    rcases hline with rfl | ⟨i, -, rfl⟩ | rfl
    · cases hmem
    · exact absurd (isControl_of_mem_indented hmem) (by decide)
    · exact absurd hmem (by decide)
  have hlast : readLine "    ".toList = .ok none := by with_unfolding_all rfl
  have hread := readLines_indented plain_countdownCode (isCut_countdownCode (n := n)) hlast 2
  rw [assemble_eq, countdownListing, countdownLines_eq h,
    List.splitOn_intercalate '\n' hfeed (by simp), readLines, readLine_nil]
  simp only [hread]
  rfl

end Program

section Rounds

open Indexed

variable {κ : Type} [Console κ] {n k : Nat} (c : κ)

def instrAt? (code : List Instr) (x : State × κ) : Option Instr :=
  code[x.1.pc]?

-- At the beginning of a round, with `k` left.
def atRound (k : Nat) : State :=
  { pc := 2, stack := [Int64.ofNat k] }

-- The jump at the end of a round leaves the loop if nothing is left.
theorem step_leave (hk : (k : Int) ≤ Int64.maxValue.toInt) :
    step (countdownCode n) 0 ({ pc := 7, stack := [Int64.ofNat k, Int64.ofNat k] }, c) =
      .next ({ pc := if k = 0 then 10 else 8, stack := [Int64.ofNat k] }, c) := by
  by_cases hzero : k = 0
  · subst hzero
    rfl
  · have hcode : (countdownCode n)[7]? = some ⟨.jz, behind⟩ := rfl
    have hne : Int64.ofNat k ≠ 0 := by
      intro heq
      have hvalue := toInt_ofNat_of_le hk
      rw [heq, Int64.toInt_zero] at hvalue
      omega
    simp only [step, hcode, perform, run_pop_bind, if_neg hne, if_neg hzero]
    rfl

-- A round writes its number and leaves the next one. It ends behind the loop if that is 0, and else
-- at the jump back.
theorem executes_round (hk : ((k + 1 : Nat) : Int) ≤ Int64.maxValue.toInt) :
    Executes (instrAt? (countdownCode n)) (step (countdownCode n) 0) (atRound (k + 1), c) round
      ({ pc := if k = 0 then 10 else 8, stack := [Int64.ofNat k] },
        Console.emitAll c (Decimal.ofNat (k + 1))) := by
  have hwritten : Decimal.ofNat (k + 1) = Decimal.ofInt (Int64.ofNat (k + 1)).toInt := by
    rw [toInt_ofNat_of_le hk]
    rfl
  have hleave := step_leave (n := n) (Console.emitAll c (Decimal.ofNat (k + 1))) (k := k) (by omega)
  have hlast : Int64.ofNat k = Int64.ofNat (k + 1) - 1 := Int64.ofNat_sub (k + 1) 1 (by omega)
  rw [hlast, hwritten] at hleave ⊢
  rw [atRound]
  -- the number itself has no say in the steps up to the jump
  generalize Int64.ofNat (k + 1) = v at hleave ⊢
  refine .cons (t := ({ pc := 3, stack := [v, v] }, c)) rfl rfl ?_
  refine .cons (t := ({ pc := 4, stack := [v] }, Console.emitAll c _)) rfl rfl ?_
  refine .cons (t := ({ pc := 5, stack := [1, v] }, Console.emitAll c _)) rfl rfl ?_
  refine .cons (t := ({ pc := 6, stack := [v - 1] }, Console.emitAll c _)) rfl rfl ?_
  refine .cons (t := ({ pc := 7, stack := [v - 1, v - 1] }, Console.emitAll c _)) rfl rfl ?_
  exact .cons rfl hleave .nil

-- All rounds, with the jump back between any two of them.
def rounds (k : Nat) : List Instr :=
  [⟨.jmp, again⟩].intercalate (List.replicate k round)

theorem rounds_succ (k : Nat) : rounds (k + 2) = round ++ (⟨.jmp, again⟩ :: rounds (k + 1)) := by
  simp [rounds, List.intercalate, List.replicate_succ]

-- The number of rounds left is what stands on the stack.
theorem executes_rounds (hk : ((k + 1 : Nat) : Int) ≤ Int64.maxValue.toInt) :
    Executes (instrAt? (countdownCode n)) (step (countdownCode n) 0) (atRound (k + 1), c)
      (rounds (k + 1)) ({ pc := 10, stack := [0] }, Console.emitAll c (countdown (k + 1))) := by
  induction k generalizing c with
  | zero => exact executes_round c hk
  | succ k ih =>
    have hround := executes_round (n := n) c hk
    rw [if_neg (Nat.succ_ne_zero k)] at hround
    have hrest := ih (Console.emitAll c (Decimal.ofNat (k + 2))) (by omega)
    rw [← Console.emitAll_append] at hrest
    rw [rounds_succ]
    exact hround.append (.cons rfl rfl hrest)

theorem executes_countdown (hpos : 1 ≤ n) (hmax : (n : Int) ≤ Int64.maxValue.toInt) :
    Executes (instrAt? (countdownCode n)) (step (countdownCode n) 0) ({}, c)
      (⟨.push, Int64.ofNat n⟩ :: ⟨.label, again⟩ :: rounds n)
      ({ pc := 10, stack := [0] }, Console.emitAll c (countdown n)) := by
  obtain ⟨k, rfl⟩ : ∃ k, n = k + 1 := ⟨n - 1, by omega⟩
  exact .cons rfl rfl (.cons rfl rfl (executes_rounds c hmax))

end Rounds

section Runs

variable {κ : Type}

def Machine.nextInstr? (p : Program) (x : Machine × κ) : Option Instr :=
  match nextToken? p.source x.1.cursor with
  | .error _ => none
  | .ok t => t.map Token.instr

variable {p : Program} {tokens : List Token} (hp : p.Loaded tokens)

include hp

theorem nextInstr?_eq {x : Machine × κ} {y : Indexed.State × κ} (h : Corresponds p tokens x y) :
    Machine.nextInstr? p x = instrAt? (tokens.map Token.instr) y := by
  rw [Machine.nextInstr?, hp.nextToken? h.1.cursor, instrAt?, List.getElem?_map]

-- What a list of instructions executes before it stops is executed from a text that holds them.
theorem exists_executes [Console κ] {c : κ} {instrs : List Instr} {y z : Indexed.State × κ}
    {r : Except Fault Stop}
    (h : Executes (instrAt? (tokens.map Token.instr)) (Indexed.step (tokens.map Token.instr) 0)
      ({}, c) instrs y)
    (hstop : Indexed.step (tokens.map Token.instr) 0 y = .stop r z) :
    ∃ x w, Executes (Machine.nextInstr? p) (Machine.step p 0) ({}, c) instrs x ∧
      Machine.step p 0 x = .stop r w ∧ Corresponds p tokens w z := by
  have hfresh : Corresponds p tokens ({}, c) ({}, c) := ⟨represents_fresh p tokens, rfl⟩
  obtain ⟨x, hx, hxy⟩ := h.lockstep (R := Corresponds p tokens) (fun _ _ => step_matches hp 0)
    (fun _ _ => nextInstr?_eq hp) hfresh
  have hmatch := step_matches hp 0 hxy
  rw [hstop] at hmatch
  generalize hend : Machine.step p 0 x = done at hmatch
  cases hmatch with
  | @stop _ w _ hwz => exact ⟨x, w, hx, hend, hwz⟩

end Runs

-- Whatever number it begins with, the program goes round so many times and exits. It has then
-- written every number from the first one down to 1, and has asked for no input.
theorem countdown_runs_every_round (n : Nat) (hpos : 1 ≤ n)
    (hmax : (n : Int) ≤ Int64.maxValue.toInt) :
    ∃ source p, assemble (countdownListing n) = .ok source ∧
      Program.ofSource source = .ok p ∧
      (∀ (κ : Type) [Console κ] (c : κ), ∃ (x : Machine × κ) (m : Machine) (bound : Nat),
        Executes (Machine.nextInstr? p) (Machine.step p 0) ({}, c)
          (⟨.push, Int64.ofNat n⟩ :: ⟨.label, again⟩ :: rounds n) x ∧
        Machine.step p 0 x = .stop (.ok .exited) (m, Console.emitAll c (countdown n)) ∧
        Machine.run p 0 bound {} c = some (.ok .exited, m, Console.emitAll c (countdown n)) ∧
        m.stack = [0] ∧ m.heap = ∅ ∧ m.calls = []) ∧
      ∀ input : String,
        (Console.emitAll (Script.ofInput input) (countdown n)).output =
            String.ofList (countdown n) ∧
          (Console.emitAll (Script.ofInput input) (countdown n)).remaining = input := by
  obtain ⟨tokens, htokens, hinstrs⟩ := tokens?_canonical (plain_countdownCode (n := n))
  have hp := Program.loaded_of_tokens? htokens
  refine ⟨_, _, assemble_countdownListing hmax, Program.ofSource_eq_ok.mpr ⟨tokens, htokens, rfl⟩,
    ?_, ?_⟩
  · intro κ _ c
    have hexecutes := executes_countdown c hpos hmax
    have hexit : Indexed.step (countdownCode n) 0
        ({ pc := 10, stack := [0] }, Console.emitAll c (countdown n)) =
          .stop (.ok .exited) ({ pc := 11, stack := [0] }, Console.emitAll c (countdown n)) := rfl
    rw [← hinstrs] at hexecutes hexit
    obtain ⟨x, ⟨m, c'⟩, hx, hstop, hm, rfl⟩ := exists_executes hp hexecutes hexit
    obtain ⟨bound, hrun⟩ := (halts_iff_of_leads hx.leads).mpr (halts_of_stop hstop)
    have hcalls : m.calls = [] := by simpa using hm.calls
    exact ⟨x, m, bound, hx, hstop, hrun, hm.stack, hm.heap, hcalls⟩
  · intro input
    constructor
    · rw [Script.output_emitAll]
      simp [Script.ofInput, Script.output]
    · rw [Script.emitAll_eq]
      simp [Script.ofInput, Script.remaining]

theorem countdown_runs_every_round_twelve :
    ∃ source p m bound, assemble (countdownListing 12) = .ok source ∧
      Program.ofSource source = .ok p ∧
      Machine.run p 0 bound {} (Script.ofInput "left") =
        some (.ok .exited, m, Console.emitAll (Script.ofInput "left") (countdown 12)) ∧
      m.stack = [0] ∧
      (Console.emitAll (Script.ofInput "left") (countdown 12)).output = "121110987654321" ∧
      (Console.emitAll (Script.ofInput "left") (countdown 12)).remaining = "left" := by
  obtain ⟨source, p, hassemble, hp, hruns, hscript⟩ :=
    countdown_runs_every_round 12 (by decide) (by decide)
  obtain ⟨-, m, bound, -, -, hrun, hstack, -⟩ := hruns Script (.ofInput "left")
  obtain ⟨houtput, hremaining⟩ := hscript "left"
  have hwritten : String.ofList (countdown 12) = "121110987654321" := by decide +kernel
  exact ⟨source, p, m, bound, hassemble, hp, hrun, hstack, houtput.trans hwritten, hremaining⟩

end Whitespace

end Esoterica
