import Esoterica.Text.Blank
import Esoterica.Text.Line
import Mathlib.Data.List.DropRight

namespace Esoterica.Text

section Trim

theorem of_mem_head?_dropWhile {α : Type} {p : α → Bool} {l : List α} {a : α}
    (h : a ∈ (l.dropWhile p).head?) : p a = false := by
  have hnot := List.head?_dropWhile_not p l
  rw [Option.mem_def.mp h] at hnot
  exact hnot

theorem eq_of_dropWhile_bne {a c : Char} {l rest : List Char}
    (h : l.dropWhile (· != a) = c :: rest) : c = a := by
  have hstop : (c != a) = false := of_mem_head?_dropWhile (p := (· != a)) (l := l) (by simp [h])
  simpa using hstop

theorem trimStart_cons_of_blank {c : Char} (h : isBlank c = true) (text : List Char) :
    trimStart (c :: text) = trimStart text := by
  simp [trimStart, h]

theorem trimStart_of_not_blank {text : List Char} (h : ∀ c ∈ text.head?, isBlank c = false) :
    trimStart text = text := by
  cases text with
  | nil => rfl
  | cons c rest => simp [trimStart, h c rfl]

theorem trimStart_blanks_append {blanks : List Char} (h : ∀ c ∈ blanks, isBlank c = true)
    (text : List Char) : trimStart (blanks ++ text) = trimStart text :=
  List.dropWhile_append_of_pos h

-- Every text is blanks and then what is left when they are gone.
theorem exists_blanks_append (text : List Char) :
    ∃ blanks, (∀ c ∈ blanks, isBlank c = true) ∧ text = blanks ++ trimStart text :=
  ⟨text.takeWhile isBlank, fun _ => List.mem_takeWhile_imp, List.takeWhile_append_dropWhile.symm⟩

theorem exists_append_blanks (text : List Char) :
    ∃ blanks, (∀ c ∈ blanks, isBlank c = true) ∧ text = trimEnd text ++ blanks := by
  obtain ⟨blanks, hblanks, htext⟩ := exists_blanks_append text.reverse
  refine ⟨blanks.reverse, fun c hc => hblanks c (List.mem_reverse.mp hc), ?_⟩
  calc
    text = (blanks ++ trimStart text.reverse).reverse := by rw [← htext, List.reverse_reverse]
    _ = trimEnd text ++ blanks.reverse := List.reverse_append

-- What stands in front of a character that is no blank is kept.
theorem trimEnd_append_cons {c : Char} (h : isBlank c = false) (front rest : List Char) :
    trimEnd (front ++ c :: rest) = front ++ c :: trimEnd rest := by
  by_cases hrest : rest.reverse.dropWhile isBlank = []
  · simp [trimEnd, dropEndWhile, List.dropWhile_append, hrest, h]
  · simp [trimEnd, dropEndWhile, List.dropWhile_append, hrest]

end Trim

section Words

theorem words_eq (text : List Char) :
    words text =
      match trimStart text with
      | [] => []
      | c :: rest => (c :: rest.takeWhile (!isBlank ·)) :: words (rest.dropWhile (!isBlank ·)) := by
  rw [words]
  split
  · simp_all
  · simp_all

@[simp]
theorem words_nil : words [] = [] := by
  simp [words_eq, trimStart]

theorem words_cons_of_blank {c : Char} (h : isBlank c = true) (text : List Char) :
    words (c :: text) = words text := by
  rw [words_eq, words_eq text, trimStart_cons_of_blank h]

theorem words_trimStart (text : List Char) : words (trimStart text) = words text := by
  have hagain : trimStart (trimStart text) = trimStart text :=
    List.dropWhile_idempotent isBlank text
  rw [words_eq, words_eq text, hagain]

-- A word at the front of a text comes first, if a blank or nothing follows it.
theorem words_append {word rest : List Char} (hne : word ≠ [])
    (hword : ∀ c ∈ word, isBlank c = false) (hrest : ∀ c ∈ rest.head?, isBlank c = true) :
    words (word ++ rest) = word :: words rest := by
  cases word with
  | nil => exact absurd rfl hne
  | cons c more =>
    have hmore : ∀ d ∈ more, (!isBlank d) = true := by
      intro d hd
      simp [hword d (List.mem_cons_of_mem c hd)]
    have hstop : rest.takeWhile (!isBlank ·) = [] ∧ rest.dropWhile (!isBlank ·) = rest := by
      cases rest with
      | nil => simp
      | cons d tail => simp [hrest d rfl]
    have hstart : trimStart (c :: more ++ rest) = c :: (more ++ rest) :=
      trimStart_of_not_blank (by simpa using hword c List.mem_cons_self)
    rw [words_eq, hstart]
    simp only [List.takeWhile_append_of_pos hmore, List.dropWhile_append_of_pos hmore, hstop,
      List.append_nil]

theorem words_blanks_append {blanks : List Char} (h : ∀ c ∈ blanks, isBlank c = true)
    (text : List Char) : words (blanks ++ text) = words text := by
  rw [← words_trimStart, trimStart_blanks_append h, words_trimStart]

-- The text consists of the words, with blanks around and between them.
inductive Spread : List (List Char) → List Char → Prop
  | nil {blanks : List Char} (hblanks : ∀ c ∈ blanks, isBlank c = true) : Spread [] blanks
  | cons {blanks word rest : List Char} {more : List (List Char)}
      (hblanks : ∀ c ∈ blanks, isBlank c = true) (hne : word ≠ [])
      (hword : ∀ c ∈ word, isBlank c = false) (hrest : ∀ c ∈ rest.head?, isBlank c = true)
      (hmore : Spread more rest) : Spread (word :: more) (blanks ++ (word ++ rest))

theorem Spread.words_eq {all : List (List Char)} {text : List Char} (h : Spread all text) :
    words text = all := by
  induction h with
  | @nil blanks hblanks =>
    rw [← List.append_nil blanks, words_blanks_append hblanks, words_nil]
  | cons hblanks hne hword hrest _ ih =>
    rw [words_blanks_append hblanks, words_append hne hword hrest, ih]

theorem spread_words (text : List Char) : Spread (words text) text := by
  fun_induction words text with
  | case1 text hnil => exact .nil (List.dropWhile_eq_nil_iff.mp hnil)
  | case2 text c rest hcons ih =>
    obtain ⟨blanks, hblanks, htext⟩ := exists_blanks_append text
    have hfirst : isBlank c = false := of_mem_head?_dropWhile (by rw [← trimStart, hcons]; rfl)
    have hsplit : c :: rest =
        (c :: rest.takeWhile (!isBlank ·)) ++ rest.dropWhile (!isBlank ·) := by
      rw [List.cons_append, List.takeWhile_append_dropWhile]
    conv_rhs => rw [htext, hcons, hsplit]
    refine .cons hblanks (List.cons_ne_nil _ _) ?_ (fun d hd => ?_) ih
    · simp only [List.mem_cons, forall_eq_or_imp]
      refine ⟨hfirst, fun d hd => ?_⟩
      simpa using List.mem_takeWhile_imp hd
    · simpa using of_mem_head?_dropWhile hd

theorem Spread.append_blanks {all : List (List Char)} {text blanks : List Char}
    (h : Spread all text) (hafter : ∀ c ∈ blanks, isBlank c = true) :
    Spread all (text ++ blanks) := by
  induction h with
  | @nil before hbefore =>
    refine .nil fun c hc => ?_
    rcases List.mem_append.mp hc with hc | hc
    · exact hbefore c hc
    · exact hafter c hc
  | @cons before word rest more hbefore hne hword hrest _ ih =>
    rw [List.append_assoc, List.append_assoc]
    refine .cons hbefore hne hword (fun c hc => ?_) ih
    cases rest with
    | nil => exact hafter c (List.mem_of_mem_head? hc)
    | cons d rest => exact hrest c hc

theorem words_append_blanks (text : List Char) {blanks : List Char}
    (h : ∀ c ∈ blanks, isBlank c = true) : words (text ++ blanks) = words text :=
  ((spread_words text).append_blanks h).words_eq

theorem words_trimEnd (text : List Char) : words (trimEnd text) = words text := by
  obtain ⟨blanks, hblanks, htext⟩ := exists_append_blanks text
  conv_rhs => rw [htext]
  rw [words_append_blanks _ hblanks]

theorem words_trim (text : List Char) : words (trim text) = words text := by
  rw [trim, words_trimEnd, words_trimStart]

end Words

section Lines

theorem bne_of_notMem {α : Type} [DecidableEq α] {a : α} {l : List α} (h : a ∉ l) :
    ∀ b ∈ l, (b != a) = true := by
  intro b hb
  simp only [bne_iff_ne]
  rintro rfl
  exact h hb

theorem splitLine_append_feed {line : List Char} (hfeed : '\n' ∉ line) (rest : List Char) :
    splitLine (line ++ '\n' :: rest) = (line, some rest) := by
  have hline := bne_of_notMem hfeed
  simp only [splitLine, List.takeWhile_append_of_pos hline, List.dropWhile_append_of_pos hline]
  simp

theorem splitLine_of_notMem {line : List Char} (hfeed : '\n' ∉ line) :
    splitLine line = (line, none) := by
  have hline := bne_of_notMem hfeed
  have htake : line.takeWhile (· != '\n') = line := List.takeWhile_eq_self_iff.mpr hline
  have hdrop : line.dropWhile (· != '\n') = [] := List.dropWhile_eq_nil_iff.mpr hline
  rw [splitLine, htake, hdrop]
  rfl

-- Every text is one line, or a line, its line feed and what follows.
theorem splitLine_cases (text : List Char) :
    (∃ line rest, '\n' ∉ line ∧ text = line ++ '\n' :: rest ∧ splitLine text = (line, some rest)) ∨
      '\n' ∉ text ∧ splitLine text = (text, none) := by
  by_cases hfeed : '\n' ∈ text
  · obtain ⟨line, rest, rfl, hline⟩ := List.eq_append_cons_of_mem hfeed
    exact .inl ⟨line, rest, hline, rfl, splitLine_append_feed hline rest⟩
  · exact .inr ⟨hfeed, splitLine_of_notMem hfeed⟩

theorem notMem_splitLine (text : List Char) : '\n' ∉ (splitLine text).1 := by
  obtain ⟨line, rest, hline, -, hsplit⟩ | ⟨hfeed, hsplit⟩ := splitLine_cases text
  · rwa [hsplit]
  · rwa [hsplit]

theorem length_rest_splitLine_lt {text : List Char} (hne : text ≠ []) :
    ((splitLine text).2.getD []).length < text.length := by
  obtain ⟨line, rest, -, rfl, hsplit⟩ | ⟨-, hsplit⟩ := splitLine_cases text
  · rw [hsplit]
    simp only [Option.getD_some, List.length_append, List.length_cons]
    omega
  · rw [hsplit]
    exact List.length_pos_of_ne_nil hne

theorem lines_eq (text : List Char) :
    lines text =
      if text.isEmpty then []
      else
        match splitLine text with
        | (line, none) => [line]
        | (line, some rest) => dropReturn line :: lines rest := by
  rw [lines]
  split
  · rfl
  · split
    · simp_all
    · simp_all

theorem lines_append_feed {line : List Char} (hfeed : '\n' ∉ line)
    (hreturn : line.getLast? ≠ some '\r') (rest : List Char) :
    lines (line ++ '\n' :: rest) = line :: lines rest := by
  rw [lines_eq, splitLine_append_feed hfeed]
  simp [dropReturn, hreturn]

-- Lines that have each been ended by a line feed.
theorem lines_flatMap {all : List (List Char)}
    (h : ∀ line ∈ all, '\n' ∉ line ∧ line.getLast? ≠ some '\r') :
    lines (all.flatMap (· ++ ['\n'])) = all := by
  induction all with
  | nil => simp [lines_eq]
  | cons line all ih =>
    obtain ⟨hfeed, hreturn⟩ := h line List.mem_cons_self
    rw [List.flatMap_cons, List.append_assoc, List.singleton_append,
      lines_append_feed hfeed hreturn, ih fun line hline => h line (List.mem_cons_of_mem _ hline)]

-- The text with a line feed after its last line, if that line has none.
def endLine (text : List Char) : List Char :=
  if text = [] ∨ text.getLast? = some '\n' then text else text ++ ['\n']

theorem endLine_eq_or (text : List Char) : endLine text = text ∨ endLine text = text ++ ['\n'] := by
  unfold endLine
  split
  · exact .inl rfl
  · exact .inr rfl

theorem endLine_append_feed (line rest : List Char) :
    endLine (line ++ '\n' :: rest) = line ++ '\n' :: endLine rest := by
  cases rest with
  | nil => simp [endLine]
  | cons c rest =>
    simp only [endLine, List.getLast?_append, List.getLast?_cons_cons]
    by_cases hlast : (c :: rest).getLast? = some '\n' <;> simp [hlast]

theorem endLine_of_notMem {line : List Char} (hfeed : '\n' ∉ line) (hne : line ≠ []) :
    endLine line = line ++ ['\n'] := by
  have hlast : line.getLast? ≠ some '\n' := fun h => hfeed (List.mem_of_getLast? h)
  simp [endLine, hne, hlast]

-- A text without carriage returns is its lines, but for what its last line lacks.
theorem flatMap_lines {text : List Char} (hreturn : '\r' ∉ text) :
    (lines text).flatMap (· ++ ['\n']) = endLine text ∧
      ∀ line ∈ lines text, '\n' ∉ line ∧ '\r' ∉ line := by
  fun_induction lines text with
  | case1 text hempty =>
    obtain rfl := List.isEmpty_iff.mp hempty
    simp [endLine]
  | case2 text hempty line hsplit =>
    obtain ⟨_, _, -, -, hsplit'⟩ | ⟨hfeed, hsplit'⟩ := splitLine_cases text
    · rw [hsplit'] at hsplit
      cases hsplit
    · rw [hsplit'] at hsplit
      cases hsplit
      have hne : text ≠ [] := by simpa using hempty
      simp [endLine_of_notMem hfeed hne, hfeed, hreturn]
  | case3 text hempty line rest hsplit ih =>
    obtain ⟨_, _, hfeed, rfl, hsplit'⟩ | ⟨-, hsplit'⟩ := splitLine_cases text
    · rw [hsplit'] at hsplit
      cases hsplit
      obtain ⟨hline, hrest⟩ : '\r' ∉ line ∧ '\r' ∉ rest := by simpa using hreturn
      obtain ⟨hflat, hmem⟩ := ih hrest
      have hkept : dropReturn line = line := by
        have hlast : line.getLast? ≠ some '\r' := fun h => hline (List.mem_of_getLast? h)
        simp [dropReturn, hlast]
      rw [hkept, List.flatMap_cons, hflat, endLine_append_feed]
      exact ⟨by simp, List.forall_mem_cons.mpr ⟨⟨hfeed, hline⟩, hmem⟩⟩
    · rw [hsplit'] at hsplit
      cases hsplit

theorem lines_endLine {text : List Char} (hreturn : '\r' ∉ text) :
    lines (endLine text) = lines text := by
  obtain ⟨hflat, hmem⟩ := flatMap_lines hreturn
  rw [← hflat]
  refine lines_flatMap fun line hline => ⟨(hmem line hline).1, fun h => ?_⟩
  exact (hmem line hline).2 (List.mem_of_getLast? h)

end Lines

end Esoterica.Text
