import Esoterica.Proofs.Console.Terminal

namespace Esoterica

open Text

-- `line` is the first line of `text`, with the feed that ends it if there is one.
def FirstLine {α : Type} (feed : α) (text line rest : List α) : Prop :=
  text = line ++ rest ∧ ((∃ front, feed ∉ front ∧ line = front ++ [feed]) ∨
    line ≠ [] ∧ feed ∉ line ∧ rest = [])

theorem FirstLine.length_lt {α : Type} {feed : α} {text line rest : List α}
    (h : FirstLine feed text line rest) : rest.length < text.length := by
  obtain ⟨rfl, ⟨front, -, rfl⟩ | ⟨hne, -, -⟩⟩ := h
  · simp only [List.length_append, List.length_singleton]
    omega
  · have hpos := List.length_pos_of_ne_nil hne
    rw [List.length_append]
    omega

theorem Console.emitAll_append {κ : Type} [Console κ] (c : κ) (text more : List Char) :
    emitAll c (text ++ more) = emitAll (emitAll c text) more :=
  List.foldl_append

namespace Script

def LineRead (s s' : Script) : Prop :=
  ∃ line, FirstLine '\n' s.unread line s'.unread

variable {s s' : Script}

theorem eq_of_readChar_none (h : s.readChar = (none, s')) : s' = s := by
  obtain ⟨unread, written, journal⟩ := s
  cases unread with
  | nil => exact (congrArg Prod.snd h).symm
  | cons => cases h

theorem eq_of_readLine_none (h : s.readLine = (none, s')) : s' = s := by
  by_cases hne : s.unread = []
  · simp only [readLine, hne, List.isEmpty_nil, if_pos] at h
    exact (congrArg Prod.snd h).symm
  · rw [readLine_eq hne] at h
    cases h

theorem lineRead_of_readLine {line : List Char} (h : s.readLine = (some line, s')) :
    s'.written = s.written ∧ s.LineRead s' := by
  by_cases hne : s.unread = []
  · simp only [readLine, hne, List.isEmpty_nil, if_pos] at h
    cases h
  · rw [readLine_eq hne] at h
    cases h
    refine ⟨rfl, ?_⟩
    obtain ⟨line, rest, hfeed, htext, hsplit⟩ | ⟨hfeed, hsplit⟩ := splitLine_cases s.unread
    · rw [hsplit]
      exact ⟨line ++ ['\n'], by simp [htext], .inl ⟨line, hfeed, rfl⟩⟩
    · rw [hsplit]
      exact ⟨s.unread, by simp, .inr ⟨hne, hfeed, rfl⟩⟩

theorem emitAll_eq (s : Script) (text : List Char) :
    Console.emitAll s text = { s with written := text.reverse ++ s.written } := by
  induction text generalizing s with
  | nil => rfl
  | cons c text ih =>
    have hrest := ih (s.emit c)
    rw [List.reverse_cons, List.append_assoc]
    exact hrest

theorem output_emitAll (s : Script) (text : List Char) :
    (Console.emitAll s text).output = s.output ++ String.ofList text := by
  rw [emitAll_eq, output, output, List.reverse_append, List.reverse_reverse, String.ofList_append]

end Script

namespace Terminal

-- One line has been read, or what was left of it.
def LineRead (t t' : Terminal) : Prop :=
  t'.line = [] ∧ (t.line ≠ [] ∧ t'.unread = t.unread ∨
    t.line = [] ∧ ∃ line, FirstLine 10 t.unread line t'.unread)

-- One line has been taken that is no text.
def LineLost (t t' : Terminal) : Prop :=
  t.line = [] ∧ t'.line = [] ∧
    ∃ line fault, FirstLine 10 t.unread line t'.unread ∧ Utf8.decode line = .error fault

def SameInput (t t' : Terminal) : Prop :=
  t'.line = t.line ∧ t'.unread = t.unread

variable {t t' : Terminal}

theorem LineLost.not_sameInput (h : t.LineLost t') : ¬ t.SameInput t' := by
  obtain ⟨-, -, line, fault, hline, -⟩ := h
  rintro ⟨-, hunread⟩
  exact Nat.ne_of_lt hline.length_lt (congrArg List.length hunread)

theorem firstLine_takeLine {bytes : List UInt8} (hne : bytes ≠ []) :
    FirstLine 10 bytes (takeLine bytes).1 (takeLine bytes).2 := by
  by_cases hfeed : 10 ∈ bytes
  · obtain ⟨line, rest, rfl, hline⟩ := List.eq_append_cons_of_mem hfeed
    rw [takeLine_feed hline]
    exact ⟨by simp, .inl ⟨line, hline, rfl⟩⟩
  · obtain hlast | ⟨line, rest, -, rfl, -⟩ := takeLine_cases bytes
    · rw [hlast]
      exact ⟨by simp, .inr ⟨hne, hfeed, rfl⟩⟩
    · simp at hfeed

theorem written_fill : t.fill.2.written = t.written := by
  have hwritten : t.flush.written = t.written := congrArg Writer.written (flush_fields t).2.2.2
  unfold fill
  split
  · rfl
  dsimp only
  split
  · exact hwritten
  · split <;> exact hwritten

-- A line that has been taken and decoded is not empty.
theorem fill_eq_true_iff : t.fill.1 = true ↔ t.fill.2.line ≠ [] := by
  by_cases hline : t.line = []
  · by_cases hunread : t.unread = []
    · simp [fill, hline, hunread]
    · obtain ⟨-, hend⟩ := firstLine_takeLine hunread
      have hne : (takeLine t.unread).1 ≠ [] := by
        obtain ⟨front, -, hfront⟩ | ⟨hne, -, -⟩ := hend
        · simp [hfront]
        · exact hne
      cases hdecode : Utf8.decode (takeLine t.unread).1 with
      | error fault => simp [fill, hline, hunread, hdecode, warn, note]
      | ok line => simp [fill, hline, hunread, hdecode, Utf8.ne_nil_of_decode hne hdecode]
  · simp [fill_of_line hline, hline]

theorem fill_of_readChar_none (h : t.readChar = (none, t')) : t.fill = (false, t') := by
  rw [readChar_eq] at h
  cases hfill : t.fill.1 with
  | false =>
    rw [hfill, if_neg Bool.false_ne_true] at h
    rw [← (Prod.mk.inj h).2, ← hfill]
  | true =>
    rw [hfill] at h
    exact absurd (List.head?_eq_none_iff.mp (congrArg Prod.fst h)) (fill_eq_true_iff.mp hfill)

theorem fill_of_readLine_none (h : t.readLine = (none, t')) : t.fill = (false, t') := by
  rw [readLine_eq] at h
  cases hfill : t.fill.1 with
  | false =>
    rw [hfill, if_neg Bool.false_ne_true] at h
    rw [← (Prod.mk.inj h).2, ← hfill]
  | true =>
    rw [hfill] at h
    cases h

-- Where there is nothing to read, the input is at its end, or a line that is no text is lost.
theorem of_fill_false (h : t.fill = (false, t')) :
    t'.written = t.written ∧
      (t.unread = [] ∧ t.SameInput t' ∨ t.unread ≠ [] ∧ t.LineLost t') := by
  obtain rfl : t.fill.2 = t' := congrArg Prod.snd h
  have hfalse : t.fill.1 = false := congrArg Prod.fst h
  obtain ⟨hline, hgiven⟩ := fill_eq_false_iff.mp hfalse
  have hline' : t.fill.2.line = [] := by
    by_contra hne
    exact Bool.false_ne_true (hfalse.symm.trans (fill_eq_true_iff.mpr hne))
  refine ⟨written_fill, ?_⟩
  by_cases hunread : t.unread = []
  · refine .inl ⟨hunread, hline'.trans hline.symm, ?_⟩
    rw [unread_fill hline, hunread]
    rfl
  · obtain ⟨fault, hfault⟩ := hgiven.resolve_left hunread
    refine .inr ⟨hunread, hline, hline', (takeLine t.unread).1, fault, ?_, hfault⟩
    rw [unread_fill hline]
    exact firstLine_takeLine hunread

theorem lineRead_of_readLine {line : List Char} (h : t.readLine = (some line, t')) :
    t'.written = t.written ∧ t.LineRead t' := by
  rw [readLine_eq] at h
  cases hfill : t.fill.1 with
  | false =>
    rw [hfill] at h
    cases h
  | true =>
    rw [hfill] at h
    obtain rfl : { t.fill.2 with line := [] } = t' := congrArg Prod.snd h
    refine ⟨written_fill, rfl, ?_⟩
    by_cases hline : t.line = []
    · right
      have hunread : t.unread ≠ [] := by
        intro hnil
        simp [fill_eq_false_iff.mpr ⟨hline, .inl hnil⟩] at hfill
      refine ⟨hline, (takeLine t.unread).1, ?_⟩
      rw [unread_fill hline]
      exact firstLine_takeLine hunread
    · exact .inl ⟨hline, by rw [fill_of_line hline]⟩

end Terminal

end Esoterica
