import Esoterica.Console.Script
import Esoterica.Language
import Esoterica.Proofs.PrefixCode.Language
import Esoterica.Proofs.Text.Utf8
import Mathlib.Data.List.Basic

namespace Esoterica.Brainfuck

open Text

def commands : List Char :=
  ['>', '<', '+', '-', '.', ',', '[', ']']

-- `text` is `code` with characters inserted anywhere that have no meaning there.
inductive Commented (isCode : Char → Bool) : List Char → List Char → Prop
  | nil : Commented isCode [] []
  | code {c : Char} {code text : List Char} (h : Commented isCode code text) :
      Commented isCode (c :: code) (c :: text)
  | comment {c : Char} {code text : List Char} (hc : isCode c = false)
      (h : Commented isCode code text) : Commented isCode code (c :: text)

section Commented

variable {isCode : Char → Bool} {code text : List Char}

theorem Commented.filter_eq (h : Commented isCode code text) (hcode : ∀ c ∈ code, isCode c = true) :
    text.filter isCode = code := by
  induction h with
  | nil => rfl
  | @code c code text _ ih =>
    obtain ⟨hc, hrest⟩ := List.forall_mem_cons.mp hcode
    rw [List.filter_cons_of_pos hc, ih hrest]
  | comment hc _ ih => rw [List.filter_cons_of_neg (by simp [hc]), ih hcode]

theorem Commented.of_filter_eq (h : text.filter isCode = code) : Commented isCode code text := by
  induction text generalizing code with
  | nil =>
    subst h
    exact .nil
  | cons c text ih =>
    subst h
    cases hc : isCode c with
    | true =>
      rw [List.filter_cons_of_pos hc]
      exact .code (ih rfl)
    | false =>
      rw [List.filter_cons_of_neg (by simp [hc])]
      exact .comment hc (ih rfl)

end Commented

namespace Ook

def marks : Char → List Char
  | '>' => ['.', '?']
  | '<' => ['?', '.']
  | '+' => ['.', '.']
  | '-' => ['!', '!']
  | '.' => ['!', '.']
  | ',' => ['.', '!']
  | '[' => ['!', '?']
  | ']' => ['?', '!']
  | _ => []

def encode (program : List Char) : List Char :=
  program.flatMap marks

theorem exists_marks {c : Char} (h : c ∈ commands) :
    ∃ first second, marks c = [first, second] ∧ command? (first, second) = some c ∧
      isMark first = true ∧ isMark second = true := by
  simp only [commands, List.mem_cons, List.not_mem_nil, or_false] at h
  rcases h with rfl | rfl | rfl | rfl | rfl | rfl | rfl | rfl
  all_goals exact ⟨_, _, rfl, rfl, rfl, rfl⟩

theorem isMark_of_mem_encode {program : List Char} (h : ∀ c ∈ program, c ∈ commands) :
    ∀ mark ∈ encode program, isMark mark = true := by
  intro mark hmark
  obtain ⟨c, hc, hmem⟩ := List.mem_flatMap.mp hmark
  obtain ⟨first, second, hmarks, -, hfirst, hsecond⟩ := exists_marks (h c hc)
  rw [hmarks] at hmem
  rcases List.mem_pair.mp hmem with rfl | rfl
  · exact hfirst
  · exact hsecond

theorem filterMap_pairs_encode {program : List Char} (h : ∀ c ∈ program, c ∈ commands) :
    (pairs (encode program)).filterMap command? = program := by
  induction program with
  | nil => rfl
  | cons c program ih =>
    obtain ⟨hc, hrest⟩ := List.forall_mem_cons.mp h
    obtain ⟨first, second, hmarks, hcommand, -, -⟩ := exists_marks hc
    have hencode : encode (c :: program) = first :: second :: encode program := by
      rw [encode, List.flatMap_cons, hmarks]
      rfl
    rw [hencode, pairs, List.filterMap_cons, hcommand]
    simp only [ih hrest]

theorem decode_of_commented {program text : List Char} (h : ∀ c ∈ program, c ∈ commands)
    (htext : Commented isMark (encode program) text) : decode text = program := by
  rw [decode, htext.filter_eq (isMark_of_mem_encode h), filterMap_pairs_encode h]

end Ook

namespace Spoon

-- The code of a command, or of the NUL that ends a program.
def codeOf (c : Char) : List Bool :=
  match table.find? (·.2 == c) with
  | some (code, _) => code
  | none => []

def digitChar (bit : Bool) : Char :=
  if bit then '1' else '0'

def isDigit (c : Char) : Bool :=
  c == '0' || c == '1'

def encode (program : List Char) : List Char :=
  (program.flatMap codeOf).map digitChar

theorem isPrefixFree_table : PrefixCode.isPrefixFree table = true := by decide

theorem begins_table_nil : PrefixCode.Begins table [] := by
  refine ⟨([true], '+'), ?_, List.nil_prefix, ?_⟩
  · decide
  · decide

theorem mem_table_of_command {c : Char} (h : c ∈ '\x00' :: commands) :
    (codeOf c, c) ∈ table := by
  simp only [commands, List.mem_cons, List.not_mem_nil, or_false] at h
  rcases h with rfl | rfl | rfl | rfl | rfl | rfl | rfl | rfl | rfl
  all_goals decide

def digitOf? (c : Char) : Option Bool :=
  if c = '0' then some false else if c = '1' then some true else none

theorem digitOf?_digitChar (bit : Bool) : digitOf? (digitChar bit) = some bit := by
  cases bit <;> rfl

theorem digitOf?_eq_none {c : Char} (h : isDigit c = false) : digitOf? c = none := by
  have hne : c ≠ '0' ∧ c ≠ '1' := by simpa [isDigit] using h
  simp [digitOf?, hne.1, hne.2]

-- Among the bytes of a character there is a digit only if the character is one.
theorem filterMap_digit?_encoded (c : Char) :
    (String.utf8EncodeChar c).filterMap digit? = (digitOf? c).toList := by
  by_cases hzero : c = '0'
  · subst hzero
    rfl
  by_cases hone : c = '1'
  · subst hone
    rfl
  have hnone : ∀ b ∈ String.utf8EncodeChar c, digit? b = none := by
    intro b hb
    have h48 : b ≠ 48 := by
      rintro rfl
      exact hzero (Utf8.eq_of_ascii_mem_encoded (by decide) hb)
    have h49 : b ≠ 49 := by
      rintro rfl
      exact hone (Utf8.eq_of_ascii_mem_encoded (by decide) hb)
    simp [digit?, h48, h49]
  rw [List.filterMap_eq_nil_iff.mpr hnone]
  simp [digitOf?, hzero, hone]

theorem map_snd_digitsFrom (i : Nat) (bytes : List UInt8) :
    (digitsFrom i bytes).map Prod.snd = bytes.filterMap digit? := by
  induction bytes generalizing i with
  | nil => rfl
  | cons b bytes ih =>
    have htail := ih (i + 1)
    simp only [digitsFrom, List.zipIdx_cons, List.filterMap_cons] at htail ⊢
    cases digit? b with
    | none => exact htail
    | some bit => simpa using htail

theorem map_snd_digitsFrom_encode (text : List Char) :
    (digitsFrom 0 (Utf8.encode text)).map Prod.snd = text.filterMap digitOf? := by
  rw [map_snd_digitsFrom]
  induction text with
  | nil => rfl
  | cons c text ih =>
    rw [Utf8.encode_cons, List.filterMap_append, filterMap_digit?_encoded, ih, List.filterMap_cons]
    cases digitOf? c <;> rfl

theorem filterMap_digitOf?_of_commented {bits : List Bool} {text : List Char}
    (h : Commented isDigit (bits.map digitChar) text) : text.filterMap digitOf? = bits := by
  generalize hcode : bits.map digitChar = code at h
  induction h generalizing bits with
  | nil => simpa using hcode.symm
  | code _ ih =>
    cases bits with
    | nil => cases hcode
    | cons bit bits =>
      obtain ⟨rfl, hrest⟩ := List.cons.inj hcode
      rw [List.filterMap_cons, digitOf?_digitChar]
      simp only [ih hrest]
  | comment hc _ ih =>
    rw [List.filterMap_cons, digitOf?_eq_none hc]
    exact ih hcode

theorem decode_of_commented {program text : List Char} (h : ∀ c ∈ program, c ∈ '\x00' :: commands)
    (htext : Commented isDigit (encode program) text) : decode text = .ok program := by
  have hstream : (digitsFrom 0 (Utf8.encode text)).map Prod.snd =
      (program.map fun c => (codeOf c, c)).flatMap Prod.fst := by
    rw [map_snd_digitsFrom_encode, filterMap_digitOf?_of_commented htext, List.flatMap_map]
  have hentries : ∀ entry ∈ program.map fun c => (codeOf c, c), entry ∈ table := by
    intro entry hentry
    obtain ⟨c, hc, rfl⟩ := List.mem_map.mp hentry
    exact mem_table_of_command (h c hc)
  have hdecode := (PrefixCode.decode_eq_ok_iff begins_table_nil isPrefixFree_table).mpr
    ⟨_, PrefixCode.spells_of_entries hentries, begins_table_nil, by rw [hstream, List.append_nil]⟩
  rw [decode, read, hdecode]
  simp [Except.map, Function.comp_def]

end Spoon

-- The seed is the same on both sides and has no part in it.
theorem encodings_run_alike :
    (∀ program text : List Char, (∀ c ∈ program, c ∈ commands) →
      Commented Ook.isMark (Ook.encode program) text →
      Ook.decode text = program ∧
        ∀ (κ : Type) [Console κ] (seed : UInt64) (bound : Nat) (console : κ),
          Language.ook.run text seed bound console =
            Language.brainfuck.run program seed bound console) ∧
    ∀ program text : List Char, (∀ c ∈ program, c ∈ '\x00' :: commands) →
      Commented Spoon.isDigit (Spoon.encode program) text →
      Spoon.decode text = .ok program ∧
        ∀ (κ : Type) [Console κ] (seed : UInt64) (bound : Nat) (console : κ),
          Language.spoon.run text seed bound console =
            Language.brainfuck.run program seed bound console := by
  constructor
  · intro program text hprogram htext
    have hdecode := Ook.decode_of_commented hprogram htext
    refine ⟨hdecode, fun κ _ seed bound console => ?_⟩
    simp only [Language.run, Language.start, hdecode]
  · intro program text hprogram htext
    have hdecode := Spoon.decode_of_commented hprogram htext
    refine ⟨hdecode, fun κ _ seed bound console => ?_⟩
    simp only [Language.run, Language.start, hdecode]

-- The comments stand inside the pairs of marks and inside the codes, and the bracket is unbalanced
-- at the same offset.
theorem encodings_run_alike_split :
    (Ook.decode "Ook. Ook! Ook! Ook. Ook? Ook!".toList = ",.]".toList ∧
      Language.ook.run "Ook. Ook! Ook! Ook. Ook? Ook!".toList 0 1 (Script.ofInput "") =
        some (.error (.brainfuck (.unbalancedBracket 2)), .ofInput "")) ∧
    Spoon.decode "1 0é0 1010 0010 1111 0011".toList = .ok "+.\x00]".toList ∧
      Language.spoon.run "1 0é0 1010 0010 1111 0011".toList 0 1 (Script.ofInput "") =
        some (.error (.brainfuck (.unbalancedBracket 3)), .ofInput "") := by
  have hook : Commented Ook.isMark (Ook.encode ",.]".toList)
      "Ook. Ook! Ook! Ook. Ook? Ook!".toList := .of_filter_eq (by decide)
  have hspoon : Commented Spoon.isDigit (Spoon.encode "+.\x00]".toList)
      "1 0é0 1010 0010 1111 0011".toList := .of_filter_eq (by decide)
  obtain ⟨hdecode, hrun⟩ := encodings_run_alike.1 ",.]".toList _ (by simp [commands]) hook
  obtain ⟨hdecode', hrun'⟩ :=
    encodings_run_alike.2 "+.\x00]".toList _ (by simp [commands]) hspoon
  exact ⟨⟨hdecode, hrun ..⟩, hdecode', hrun' ..⟩

end Esoterica.Brainfuck
