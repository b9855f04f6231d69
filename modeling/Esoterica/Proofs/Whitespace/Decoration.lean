import Esoterica.Proofs.Whitespace.Line

namespace Esoterica.Whitespace

open Text

section Trim

theorem trimEnd_append_blanks (text : List Char) {blanks : List Char}
    (h : ∀ c ∈ blanks, isBlank c = true) : trimEnd (text ++ blanks) = trimEnd text := by
  have hreverse : ∀ c ∈ blanks.reverse, isBlank c = true := by simpa using h
  simp only [trimEnd, dropEndWhile, List.reverse_append, List.dropWhile_append_of_pos hreverse]

theorem trim_append_blanks (text : List Char) {blanks : List Char}
    (h : ∀ c ∈ blanks, isBlank c = true) : trim (text ++ blanks) = trim text := by
  by_cases hempty : trimStart text = []
  · have htext : ∀ c ∈ text, isBlank c = true := List.dropWhile_eq_nil_iff.mp hempty
    have hblanks : trimStart blanks = [] := List.dropWhile_eq_nil_iff.mpr h
    rw [trim, trimStart_blanks_append htext, hblanks, trim, hempty]
  · have hstart : trimStart (text ++ blanks) = trimStart text ++ blanks := by
      have hsome : ¬ (text.dropWhile isBlank).isEmpty = true := fun h =>
        hempty (List.isEmpty_iff.mp h)
      rw [trimStart, List.dropWhile_append, if_neg hsome, trimStart]
    rw [trim, hstart, trimEnd_append_blanks _ h, trim]

end Trim

-- Blanks that stay in their line.
def IsGap (gap : List Char) : Prop :=
  ∀ c ∈ gap, isBlank c = true ∧ c ≠ '\n'

theorem IsGap.isBlank {gap : List Char} (h : IsGap gap) : ∀ c ∈ gap, isBlank c = true :=
  fun c hc => (h c hc).1

theorem IsGap.feed_notMem {gap : List Char} (h : IsGap gap) : '\n' ∉ gap :=
  fun hmem => (h '\n' hmem).2 rfl

-- The second line is the first one with decoration: blanks around it, comments behind it, and an
-- offset if it has none. A carriage return that ends both stays where it is.
inductive Decorated : List Char → List Char → Prop
  | plain (line : List Char) : Decorated line line
  | indent {line dressed gap : List Char} (hgap : IsGap gap) (h : Decorated line dressed) :
      Decorated line (gap ++ dressed)
  | trail {line dressed gap : List Char} (hgap : IsGap gap) (h : Decorated line dressed) :
      Decorated line (dressed ++ gap)
  | comment {line dressed text : List Char} (htext : '\n' ∉ text) (h : Decorated line dressed) :
      Decorated line (dressed ++ ';' :: text)
  | offset {line dressed digits gap : List Char} (hne : digits ≠ [])
      (hdigits : ∀ c ∈ digits, c.isDigit = true) (hgap : IsGap gap)
      (hcode : (codePart dressed).head? ≠ some '[') (h : Decorated line dressed) :
      Decorated line ('[' :: digits ++ ']' :: (gap ++ dressed))
  | ended {line dressed : List Char} (h : Decorated line dressed) :
      Decorated (line ++ ['\r']) (dressed ++ ['\r'])

section Lines

variable {line : List Char}

theorem exists_code_append_comment (line : List Char) :
    ∃ code comment, ';' ∉ code ∧ IsComment comment ∧ line = code ++ comment := by
  refine ⟨line.takeWhile (· != ';'), line.dropWhile (· != ';'), ?_, isComment_dropWhile line,
    List.takeWhile_append_dropWhile.symm⟩
  intro hmem
  simpa using List.mem_takeWhile_imp hmem

theorem codePart_blanks_append {blanks : List Char} (h : ∀ c ∈ blanks, isBlank c = true)
    (line : List Char) : codePart (blanks ++ line) = codePart line := by
  obtain ⟨code, comment, hcode, hcomment, rfl⟩ := exists_code_append_comment line
  have hfront : ';' ∉ blanks ++ code := by simp [notMem_blanks h, hcode]
  rw [← List.append_assoc, codePart_append hfront hcomment, codePart_append hcode hcomment, trim,
    trimStart_blanks_append h, trim]

theorem codePart_append_comment (line text : List Char) :
    codePart (line ++ ';' :: text) = codePart line := by
  obtain ⟨code, comment, hcode, hcomment, rfl⟩ := exists_code_append_comment line
  have hlonger : IsComment (comment ++ ';' :: text) := by
    rcases hcomment with rfl | ⟨more, rfl⟩
    · exact .inr ⟨text, rfl⟩
    · exact .inr ⟨more ++ ';' :: text, rfl⟩
  rw [List.append_assoc, codePart_append hcode hlonger, codePart_append hcode hcomment]

theorem codePart_append_blanks (line : List Char) {blanks : List Char}
    (h : ∀ c ∈ blanks, isBlank c = true) : codePart (line ++ blanks) = codePart line := by
  obtain ⟨code, comment, hcode, hcomment, rfl⟩ := exists_code_append_comment line
  rcases hcomment with rfl | ⟨text, rfl⟩
  · have hlonger : ';' ∉ code ++ blanks := by simp [notMem_blanks h, hcode]
    have hnone : IsComment [] := .inl rfl
    rw [List.append_nil, ← List.append_nil (code ++ blanks), codePart_append hlonger hnone,
      trim_append_blanks code h, ← codePart_append hcode hnone, List.append_nil]
  · rw [List.append_assoc, List.cons_append, codePart_append_comment, codePart_append_comment]

theorem readLine_offset_append {digits gap : List Char} (hne : digits ≠ [])
    (hdigits : ∀ c ∈ digits, c.isDigit = true) (hgap : ∀ c ∈ gap, isBlank c = true)
    (hline : (codePart line).head? ≠ some '[') :
    readLine ('[' :: digits ++ ']' :: (gap ++ line)) = readLine line := by
  obtain ⟨code, comment, hcode, hcomment, rfl⟩ := exists_code_append_comment line
  have hmark : ';' ∉ '[' :: digits ++ [']'] := notMem_mark (.inr ⟨digits, hne, hdigits, rfl⟩)
  have hfront : ';' ∉ '[' :: digits ++ ']' :: (gap ++ code) := by
    simpa [notMem_blanks hgap, hcode] using hmark
  have hstart : trimStart ('[' :: digits ++ ']' :: (gap ++ code)) =
      '[' :: digits ++ ']' :: (gap ++ code) := trimStart_of_not_blank (by simp [isBlank])
  have hwords : words (trimStart (trimEnd (gap ++ code))) = words (trim code) := by
    rw [words_trimStart, words_trimEnd, words_blanks_append hgap, words_trim]
  have hpart : codePart ('[' :: digits ++ ']' :: (gap ++ (code ++ comment))) =
      '[' :: digits ++ ']' :: trimEnd (gap ++ code) := by
    have hsplit : '[' :: digits ++ ']' :: (gap ++ (code ++ comment)) =
        '[' :: digits ++ ']' :: (gap ++ code) ++ comment := by simp
    rw [hsplit, codePart_append hfront hcomment, trim, hstart, trimEnd_append_cons (by decide)]
  rw [codePart_append hcode hcomment] at hline
  simp only [readLine, hpart, dropOffset_mark hne hdigits, codePart_append hcode hcomment,
    dropOffset_of_head?_ne hline, hwords]

-- Only the part of a line before its comment and inside its blanks is read.
theorem readLine_congr {line line' : List Char} (h : codePart line' = codePart line) :
    readLine line' = readLine line := by
  rw [readLine, readLine, h]

theorem readLine_append_return (line : List Char) : readLine (line ++ ['\r']) = readLine line :=
  readLine_congr (codePart_append_blanks line (by simp [isBlank]))

theorem readLine_of_decorated {line dressed : List Char} (h : Decorated line dressed) :
    readLine dressed = readLine line := by
  induction h with
  | plain => rfl
  | indent hgap _ ih =>
    exact (readLine_congr (codePart_blanks_append hgap.isBlank _)).trans ih
  | trail hgap _ ih =>
    exact (readLine_congr (codePart_append_blanks _ hgap.isBlank)).trans ih
  | comment _ _ ih => exact (readLine_congr (codePart_append_comment _ _)).trans ih
  | offset hne hdigits hgap hcode _ ih =>
    exact (readLine_offset_append hne hdigits hgap.isBlank hcode).trans ih
  | ended _ ih => rw [readLine_append_return, readLine_append_return, ih]

theorem feed_notMem_of_decorated {line dressed : List Char} (h : Decorated line dressed)
    (hline : '\n' ∉ line) : '\n' ∉ dressed := by
  induction h with
  | plain => exact hline
  | indent hgap _ ih =>
    simp [hgap.feed_notMem, ih hline]
  | trail hgap _ ih =>
    simp [hgap.feed_notMem, ih hline]
  | comment htext _ ih => simp [htext, ih hline]
  | @offset _ _ digits _ hne hdigits hgap hcode _ ih =>
    have hfeed : '\n' ∉ digits := notMem_digits hdigits rfl
    simp [hfeed, hgap.feed_notMem, ih hline]
  | ended _ ih =>
    have hline' := fun hmem => hline (List.mem_append_left _ hmem)
    simp [ih hline']

end Lines

section Texts

theorem readLine_dropReturn (line : List Char) : readLine (dropReturn line) = readLine line := by
  unfold dropReturn
  split
  case isTrue hlast =>
    obtain ⟨front, rfl⟩ := List.getLast?_eq_some_iff.mp hlast
    rw [List.dropLast_concat, readLine_append_return]
  case isFalse => rfl

theorem readLine_nil : readLine [] = .ok none := by
  simp [readLine, codePart, trim, trimStart, trimEnd, dropEndWhile, dropOffset, readInstr]

theorem feed_notMem_of_mem_splitOn {text line : List Char} (h : line ∈ text.splitOn '\n') :
    '\n' ∉ line := by
  induction text generalizing line with
  | nil =>
    obtain rfl : line = [] := by simpa using h
    simp
  | cons c text ih =>
    rw [List.splitOn_cons_eq_if_modifyHead] at h
    split at h
    case isTrue =>
      rcases List.mem_cons.mp h with rfl | h
      · simp
      · exact ih h
    case isFalse hc =>
      obtain ⟨first, rest, hsplit⟩ := List.exists_cons_of_ne_nil (List.splitOn_ne_nil '\n' text)
      rw [hsplit, List.modifyHead_cons] at h
      rw [hsplit] at ih
      rcases List.mem_cons.mp h with rfl | h
      · have hfirst : '\n' ∉ first := ih List.mem_cons_self
        have hne : '\n' ≠ c := by
          rintro rfl
          exact hc (by simp)
        simp [hne, hfirst]
      · exact ih (List.mem_cons_of_mem _ h)

-- A carriage return at the end of a line, and an empty line at the end of the text, do not matter.
theorem readLines_lines (number : Nat) (text : List Char) :
    readLines number (lines text) = readLines number (text.splitOn '\n') := by
  fun_induction lines text generalizing number with
  | case1 text hempty =>
    obtain rfl := List.isEmpty_iff.mp hempty
    rw [List.splitOn_nil]
    simp [readLines, readLine_nil]
  | case2 text hempty line hsplit =>
    obtain ⟨_, _, -, -, hsplit'⟩ | ⟨hfeed, hsplit'⟩ := splitLine_cases text
    · rw [hsplit'] at hsplit
      cases hsplit
    · rw [hsplit'] at hsplit
      cases hsplit
      rw [List.splitOn_eq_singleton hfeed]
  | case3 text hempty line rest hsplit ih =>
    obtain ⟨_, _, hfeed, rfl, hsplit'⟩ | ⟨-, hsplit'⟩ := splitLine_cases text
    · rw [hsplit'] at hsplit
      cases hsplit
      rw [List.splitOn_append_cons_self_of_not_mem hfeed, readLines, readLines,
        readLine_dropReturn, ih]
    · rw [hsplit'] at hsplit
      cases hsplit

theorem assemble_eq (listing : List Char) :
    assemble listing = (readLines 1 (listing.splitOn '\n')).map fun instrs =>
      (instrs.flatMap Instr.encode).toArray := by
  rw [assemble, readListing, readLines_lines]

end Texts

-- How a line of another listing comes about: it is a line of the first one, perhaps decorated, or
-- one that is put in and holds decoration only, which is blanks, a comment or an offset.
inductive Edit where
  | keep (line dressed : List Char) (h : Decorated line dressed)
  | insert (line : List Char) (h : Decorated [] line)

namespace Edit

def before : Edit → Option (List Char)
  | keep line _ _ => some line
  | insert _ _ => none

def after : Edit → List Char
  | keep _ dressed _ => dressed
  | insert line _ => line

end Edit

def edited (script : List Edit) : List Char :=
  ['\n'].intercalate (script.map Edit.after)

-- How many lines are put in before the line with this number, counted from 1.
def insertedBefore : List Edit → Nat → Nat
  | [], _ => 0
  | .keep _ _ _ :: script, number => if number ≤ 1 then 0 else insertedBefore script (number - 1)
  | .insert _ _ :: script, number => insertedBefore script number + 1

-- The fault where it is found in the other listing.
def AssemblyFault.moved (script : List Edit) (f : AssemblyFault) : AssemblyFault :=
  { f with line := f.line + insertedBefore script f.line }

section Edits

theorem le_of_readLines {number : Nat} {texts : List (List Char)} {f : AssemblyFault}
    (h : readLines number texts = .error f) : number ≤ f.line := by
  induction texts generalizing number with
  | nil => cases h
  | cons text texts ih =>
    rw [readLines] at h
    split at h
    · cases h
      exact Nat.le_refl _
    · exact Nat.le_of_succ_le (ih h)
    · cases hrest : readLines (number + 1) texts with
      | error f' =>
        rw [hrest] at h
        cases h
        exact Nat.le_of_succ_le (ih hrest)
      | ok instrs =>
        rw [hrest] at h
        cases h

theorem mapError_congr {α ε ε' : Type} {x : Except ε α} {f g : ε → ε'}
    (h : ∀ e, x = .error e → f e = g e) : x.mapError f = x.mapError g := by
  cases x with
  | error e => exact congrArg Except.error (h e rfl)
  | ok a => rfl

theorem map_mapError {α β ε ε' : Type} (x : Except ε α) (f : ε → ε') (g : α → β) :
    (x.mapError f).map g = (x.map g).mapError f := by
  cases x <;> rfl

section Keep

variable {line dressed : List Char} (h : Decorated line dressed) (script : List Edit)

theorem insertedBefore_keep_first (number : Nat) :
    insertedBefore (.keep line dressed h :: script) (number + 1 - number) = 0 := by
  rw [insertedBefore, if_pos (by omega)]

theorem insertedBefore_keep_later {number later : Nat} (hlater : number < later) :
    insertedBefore (.keep line dressed h :: script) (later + 1 - number) =
      insertedBefore script (later + 1 - (number + 1)) := by
  have hnumber : later + 1 - number - 1 = later + 1 - (number + 1) := by omega
  rw [insertedBefore, if_neg (by omega), hnumber]

end Keep

-- The lines are read in step. The numbers differ by what has been put in so far, and what is put in
-- later counts only up to the line of the fault.
theorem readLines_edited (script : List Edit) (number shift : Nat) :
    readLines (number + shift) (script.map Edit.after) =
      (readLines number (script.filterMap Edit.before)).mapError fun f =>
        { f with line := f.line + shift + insertedBefore script (f.line + 1 - number) } := by
  induction script generalizing number shift with
  | nil => rfl
  | cons edit script ih =>
    cases edit with
    | insert line h =>
      have hread : readLine line = .ok none := (readLine_of_decorated h).trans readLine_nil
      have hrest := ih number (shift + 1)
      rw [← Nat.add_assoc] at hrest
      simp only [List.map_cons, Edit.after, List.filterMap_cons, Edit.before, readLines, hread]
      rw [hrest]
      apply mapError_congr
      intro f _
      have hline : f.line + (shift + 1) + insertedBefore script (f.line + 1 - number) =
          f.line + shift + (insertedBefore script (f.line + 1 - number) + 1) := by omega
      rw [hline, insertedBefore]
    | keep line dressed h =>
      have hread : readLine dressed = readLine line := readLine_of_decorated h
      have hrest : readLines (number + shift + 1) (script.map Edit.after) =
          (readLines (number + 1) (script.filterMap Edit.before)).mapError fun f =>
            { f with line := f.line + shift +
              insertedBefore (.keep line dressed h :: script) (f.line + 1 - number) } := by
        rw [Nat.add_right_comm, ih (number + 1) shift]
        apply mapError_congr
        intro f hf
        rw [insertedBefore_keep_later h script (le_of_readLines hf)]
      simp only [List.map_cons, Edit.after, List.filterMap_cons, Edit.before, readLines, hread]
      cases readLine line with
      | error fault =>
        simp only [Except.mapError, insertedBefore_keep_first, Nat.add_zero]
      | ok read =>
        cases read with
        | none => exact hrest
        | some i =>
          dsimp only
          rw [hrest, map_mapError]

theorem splitOn_edited {listing : List Char} {script : List Edit}
    (h : script.filterMap Edit.before = listing.splitOn '\n') :
    (edited script).splitOn '\n' = script.map Edit.after := by
  apply List.splitOn_intercalate
  · intro line hline
    obtain ⟨edit, hedit, rfl⟩ := List.mem_map.mp hline
    cases edit with
    | insert line hdressed => exact feed_notMem_of_decorated hdressed (by simp)
    | keep line dressed hdressed =>
      have hmem : line ∈ listing.splitOn '\n' := by
        rw [← h]
        exact List.mem_filterMap.mpr ⟨_, hedit, rfl⟩
      exact feed_notMem_of_decorated hdressed (feed_notMem_of_mem_splitOn hmem)
  · intro hempty
    have hnil : script = [] := List.map_eq_nil_iff.mp hempty
    rw [hnil] at h
    exact List.splitOn_ne_nil '\n' listing h.symm

theorem insertedBefore_eq_zero {script : List Edit} (h : ∀ edit ∈ script, edit.before ≠ none)
    (number : Nat) : insertedBefore script number = 0 := by
  induction script generalizing number with
  | nil => rfl
  | cons edit script ih =>
    have hrest : ∀ edit ∈ script, edit.before ≠ none := fun edit hedit =>
      h edit (List.mem_cons_of_mem _ hedit)
    cases edit with
    | insert line hline => exact absurd rfl (h _ List.mem_cons_self)
    | keep line dressed hdressed =>
      rw [insertedBefore, ih hrest]
      exact ite_self 0

theorem mapError_id {α ε : Type} (x : Except ε α) : x.mapError id = x := by
  cases x <;> rfl

theorem moved_eq_id {script : List Edit} (h : ∀ edit ∈ script, edit.before ≠ none) :
    AssemblyFault.moved script = id := by
  funext f
  rw [AssemblyFault.moved, insertedBefore_eq_zero h, Nat.add_zero, id]

end Edits

-- Decoration is not read. Where lines of nothing else are put in, the program stays the same, and a
-- fault moves by as many lines as stand before it; where none are, even its line stays the same.
theorem decoration_is_not_read (listing : List Char) (script : List Edit)
    (hlines : script.filterMap Edit.before = listing.splitOn '\n') :
    assemble (edited script) = (assemble listing).mapError (AssemblyFault.moved script) ∧
      ((∀ edit ∈ script, edit.before ≠ none) → assemble (edited script) = assemble listing) := by
  have hmoved : assemble (edited script) =
      (assemble listing).mapError (AssemblyFault.moved script) := by
    have hrun := readLines_edited script 1 0
    simp only [Nat.add_zero, Nat.add_sub_cancel] at hrun
    rw [assemble_eq, splitOn_edited hlines, hrun, map_mapError, hlines, ← assemble_eq]
    rfl
  refine ⟨hmoved, ?_⟩
  intro hkept
  rw [hmoved, moved_eq_id hkept, mapError_id]

theorem decorated_push : Decorated "push 5\r".toList "  [12]\tpush 5; five\r".toList := by
  have hcomment : '\n' ∉ " five".toList := by simp
  have hdigits : ∀ c ∈ "12".toList, c.isDigit = true := by simp
  have hgap : IsGap "\t".toList := by simp [IsGap, isBlank]
  have hindent : IsGap "  ".toList := by simp [IsGap, isBlank]
  have hcode : (codePart "push 5; five".toList).head? ≠ some '[' := by decide
  have hline : Decorated "push 5".toList "push 5; five".toList := .comment hcomment (.plain _)
  exact .ended (.indent hindent (.offset (by simp) hdigits hgap hcode hline))

theorem decorated_nil : Decorated [] "[7]; none".toList := by
  have hcomment : '\n' ∉ " none".toList := by simp
  have hdigits : ∀ c ∈ "7".toList, c.isDigit = true := by simp
  have hgap : IsGap [] := by simp [IsGap]
  have hcode : (codePart "; none".toList).head? ≠ some '[' := by decide
  have hline : Decorated [] "; none".toList := .comment hcomment (.plain _)
  exact .offset (by simp) hdigits hgap hcode hline

-- Two lines are put in among three, of which the last cannot be read.
def annotated : List Edit :=
  [.insert [] (.plain []), .keep _ _ decorated_push, .insert _ decorated_nil,
    .keep _ _ (.plain "pop".toList), .keep _ _ (.plain "bogus".toList)]

theorem decoration_is_not_read_annotated :
    let listing := "push 5\r\npop\nbogus".toList
    edited annotated = "\n  [12]\tpush 5; five\r\n[7]; none\npop\nbogus".toList ∧
      annotated.filterMap Edit.before = listing.splitOn '\n' ∧
      assemble listing = .error ⟨.unknownMnemonic, 3⟩ ∧
      assemble (edited annotated) = .error ⟨.unknownMnemonic, 5⟩ := by
  have hlines : annotated.filterMap Edit.before = "push 5\r\npop\nbogus".toList.splitOn '\n' := by
    decide +kernel
  have hfault : assemble "push 5\r\npop\nbogus".toList = .error ⟨.unknownMnemonic, 3⟩ := by
    decide +kernel
  refine ⟨by decide +kernel, hlines, hfault, ?_⟩
  rw [(decoration_is_not_read _ _ hlines).1, hfault]
  rfl

end Esoterica.Whitespace
