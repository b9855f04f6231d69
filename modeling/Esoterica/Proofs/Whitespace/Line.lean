import Esoterica.Proofs.Text.Words
import Esoterica.Whitespace.Assembly

namespace Esoterica.Whitespace

open Text

-- An offset in square brackets, or nothing.
def IsMark (mark : List Char) : Prop :=
  mark = [] ∨ ∃ digits, digits ≠ [] ∧ (∀ c ∈ digits, c.isDigit = true) ∧
    mark = '[' :: digits ++ [']']

-- A semicolon and what follows it, or nothing.
def IsComment (comment : List Char) : Prop :=
  comment = [] ∨ ∃ text, comment = ';' :: text

-- The line has these words between its offset and its comment.
def HasWords (line : List Char) (all : List (List Char)) : Prop :=
  ∃ indent mark code comment, line = indent ++ (mark ++ (code ++ comment)) ∧
    (∀ c ∈ indent, isBlank c = true) ∧ IsMark mark ∧ Spread all code ∧ ';' ∉ code ∧
    IsComment comment

variable {line : List Char}

theorem isComment_dropWhile (line : List Char) : IsComment (line.dropWhile (· != ';')) := by
  cases hrest : line.dropWhile (· != ';') with
  | nil => exact .inl rfl
  | cons c text =>
    obtain rfl : c = ';' := eq_of_dropWhile_bne hrest
    exact .inr ⟨text, rfl⟩

theorem dropOffset_eq_ok {text code : List Char} (h : dropOffset text = .ok code) :
    ∃ mark rest, IsMark mark ∧ text = mark ++ rest ∧ words code = words rest := by
  unfold dropOffset at h
  split at h
  · rename_i rest
    dsimp only at h
    split at h
    · cases h
    · rename_i c behind hbehind
      split at h
      · cases h
      · rename_i hoffset
        cases h
        obtain rfl : c = ']' := eq_of_dropWhile_bne hbehind
        simp only [Bool.or_eq_true, List.isEmpty_iff, Bool.not_eq_true', not_or,
          Bool.not_eq_false, List.all_eq_true] at hoffset
        refine ⟨_, behind, .inr ⟨_, hoffset.1, hoffset.2, rfl⟩, ?_, words_trimStart behind⟩
        rw [List.cons_append, List.cons_append, List.append_assoc, List.singleton_append, ← hbehind,
          List.takeWhile_append_dropWhile]
  · cases h
    exact ⟨[], _, .inl rfl, rfl, rfl⟩

theorem hasWords_of_dropOffset {code : List Char} (h : dropOffset (codePart line) = .ok code) :
    HasWords line (words code) := by
  obtain ⟨mark, rest, hmark, hcode, hwords⟩ := dropOffset_eq_ok h
  let front := line.takeWhile (· != ';')
  obtain ⟨indent, hindent, hfront⟩ := exists_blanks_append front
  obtain ⟨blanks, hblanks, hbody⟩ := exists_append_blanks (trimStart front)
  have hparts : front = indent ++ (mark ++ (rest ++ blanks)) := by
    rw [hfront, hbody, ← List.append_assoc mark, ← hcode]
    rfl
  refine ⟨indent, mark, rest ++ blanks, line.dropWhile (· != ';'), ?_, hindent, hmark, ?_, ?_,
    isComment_dropWhile line⟩
  · rw [← List.append_assoc mark, ← List.append_assoc indent, ← hparts]
    exact List.takeWhile_append_dropWhile.symm
  · rw [hwords]
    exact (spread_words rest).append_blanks hblanks
  · intro hmem
    have hfront : ';' ∈ front := by
      rw [hparts]
      exact List.mem_append_right _ (List.mem_append_right _ hmem)
    simpa using List.mem_takeWhile_imp hfront

theorem codePart_append {code comment : List Char} (hcode : ';' ∉ code)
    (hcomment : IsComment comment) : codePart (code ++ comment) = trim code := by
  have hstop : comment.takeWhile (· != ';') = [] := by
    rcases hcomment with rfl | ⟨text, rfl⟩ <;> rfl
  rw [codePart, List.takeWhile_append_of_pos (bne_of_notMem hcode), hstop, List.append_nil]

theorem notMem_digits {digits : List Char} (h : ∀ c ∈ digits, c.isDigit = true) {c : Char}
    (hc : c.isDigit = false) : c ∉ digits := by
  intro hmem
  rw [h c hmem] at hc
  cases hc

theorem notMem_mark {mark : List Char} (h : IsMark mark) : ';' ∉ mark := by
  rcases h with rfl | ⟨digits, -, hdigits, rfl⟩
  · simp
  · simp [notMem_digits hdigits (c := ';') rfl]

theorem notMem_blanks {blanks : List Char} (h : ∀ c ∈ blanks, isBlank c = true) : ';' ∉ blanks :=
  fun hmem => absurd (h ';' hmem) (by decide)

theorem dropOffset_of_head?_ne {text : List Char} (h : text.head? ≠ some '[') :
    dropOffset text = .ok text := by
  unfold dropOffset
  split
  · exact absurd rfl h
  · rfl

theorem dropOffset_mark {digits : List Char} (hne : digits ≠ [])
    (hdigits : ∀ c ∈ digits, c.isDigit = true) (code : List Char) :
    dropOffset ('[' :: digits ++ ']' :: code) = .ok (trimStart code) := by
  have hclose : ']' ∉ digits := notMem_digits hdigits rfl
  have hempty : digits.isEmpty = false := by simpa using hne
  have hall : digits.all Char.isDigit = true := List.all_eq_true.mpr hdigits
  simp only [List.cons_append, dropOffset, List.takeWhile_append_of_pos (bne_of_notMem hclose),
    List.dropWhile_append_of_pos (bne_of_notMem hclose)]
  simp [hempty, hall]

-- A word that begins with a bracket would be taken for an offset.
theorem dropOffset_of_hasWords {all : List (List Char)} (h : HasWords line all)
    (hfirst : ∀ word ∈ all.head?, word.head? ≠ some '[') :
    ∃ code, dropOffset (codePart line) = .ok code ∧ words code = all := by
  obtain ⟨indent, mark, code, comment, rfl, hindent, hmark, hspread, hcode, hcomment⟩ := h
  have hfront : ';' ∉ indent ++ (mark ++ code) := by
    simp [notMem_blanks hindent, notMem_mark hmark, hcode]
  have hpart : codePart (indent ++ (mark ++ (code ++ comment))) =
      trimEnd (trimStart (mark ++ code)) := by
    rw [← List.append_assoc mark, ← List.append_assoc indent, codePart_append hfront hcomment,
      trim, trimStart_blanks_append hindent]
  rw [hpart]
  rcases hmark with rfl | ⟨digits, hne, hdigits, rfl⟩
  · have hwords : words (trim code) = all := (words_trim code).trans hspread.words_eq
    refine ⟨trim code, dropOffset_of_head?_ne fun hbracket => ?_, hwords⟩
    obtain ⟨rest, hrest⟩ : ∃ rest, trim code = '[' :: rest := List.head?_eq_some_iff.mp hbracket
    have hstart : trimStart ('[' :: rest) = '[' :: rest := rfl
    rw [hrest, words_eq, hstart] at hwords
    subst hwords
    exact hfirst _ rfl rfl
  · have hstart : trimStart ('[' :: digits ++ [']'] ++ code) = '[' :: digits ++ ']' :: code := by
      simp [trimStart, isBlank]
    refine ⟨trimStart (trimEnd code), ?_, ?_⟩
    · rw [hstart, trimEnd_append_cons rfl]
      exact dropOffset_mark hne hdigits _
    · rw [words_trimStart, words_trimEnd, hspread.words_eq]

theorem readLine_of_hasWords {all : List (List Char)} (h : HasWords line all)
    (hfirst : ∀ word ∈ all.head?, word.head? ≠ some '[') : readLine line = readInstr all := by
  obtain ⟨code, hcode, hwords⟩ := dropOffset_of_hasWords h hfirst
  simp only [readLine, hcode, hwords]

-- A line that can be read has words, and they decide what is read.
theorem hasWords_of_readLine {i : Option Instr} (h : readLine line = .ok i) :
    ∃ all, HasWords line all ∧ readInstr all = .ok i := by
  unfold readLine at h
  split at h
  · cases h
  · rename_i code hcode
    exact ⟨words code, hasWords_of_dropOffset hcode, h⟩

theorem Opcode.head?_mnemonic_ne (op : Opcode) : op.mnemonic.toList.head? ≠ some '[' := by
  cases op <;> decide

end Esoterica.Whitespace
