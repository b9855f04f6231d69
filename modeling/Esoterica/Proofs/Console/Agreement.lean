import Esoterica.Console.Script
import Esoterica.Console.Terminal
import Esoterica.Proofs.Text.Utf8
import Esoterica.Proofs.Text.Words

namespace Esoterica

open Text

section LineEnd

theorem dropEndWhile_append_feed (line : List Char) :
    dropEndWhile (fun c => c = '\n' || c = '\r') (line ++ ['\n']) =
      dropEndWhile (fun c => c = '\n' || c = '\r') line :=
  List.rdropWhile_concat_pos _ _ _ rfl

theorem suffix_concat_concat {α : Type} {a b c d : α} {l : List α} :
    [a, b] <:+ l ++ [c] ++ [d] ↔ a = c ∧ b = d := by
  constructor
  · rintro ⟨front, h⟩
    have hsplit : front ++ [a] ++ [b] = l ++ [c] ++ [d] := by simpa using h
    obtain ⟨hfront, hlast⟩ := List.append_inj' hsplit rfl
    obtain ⟨-, hfirst⟩ := List.append_inj' hfront rfl
    exact ⟨by simpa using hfirst, by simpa using hlast⟩
  · rintro ⟨rfl, rfl⟩
    exact ⟨l, by simp⟩

-- Dropping one carriage return and dropping all of them differ only where there are two.
theorem dropReturn_eq_iff {line : List Char} (hfeed : '\n' ∉ line) :
    dropReturn line = dropEndWhile (fun c => c = '\n' || c = '\r') line ↔
      ¬ ['\r', '\r'] <:+ line := by
  rcases List.eq_nil_or_concat' line with rfl | ⟨init, c, rfl⟩
  · simp [dropReturn, dropEndWhile]
  have hc : c ≠ '\n' := by
    rintro rfl
    simp at hfeed
  by_cases hreturn : c = '\r'
  · subst hreturn
    have hone : dropReturn (init ++ ['\r']) = init := by simp [dropReturn]
    have hall : dropEndWhile (fun c => c = '\n' || c = '\r') (init ++ ['\r']) =
        init.rdropWhile (fun c => c = '\n' || c = '\r') :=
      List.rdropWhile_concat_pos _ _ _ rfl
    rw [hone, hall, eq_comm, List.rdropWhile_eq_self_iff]
    rcases List.eq_nil_or_concat' init with rfl | ⟨more, d, rfl⟩
    · simp [List.suffix_cons_iff]
    · have hd : d ≠ '\n' := by
        rintro rfl
        simp at hfeed
      rw [suffix_concat_concat]
      simp [hd, @eq_comm _ '\r' d]
  · have hone : dropReturn (init ++ [c]) = init ++ [c] := by simp [dropReturn, hreturn]
    have hall : dropEndWhile (fun c => c = '\n' || c = '\r') (init ++ [c]) = init ++ [c] :=
      List.rdropWhile_concat_neg _ _ _ (by simp [hc, hreturn])
    rw [hone, hall]
    simp only [true_iff]
    rintro ⟨front, h⟩
    have hsplit : (front ++ ['\r']) ++ ['\r'] = init ++ [c] := by simpa using h
    obtain ⟨-, hlast⟩ := List.append_inj' hsplit rfl
    exact hreturn (by simpa using hlast.symm)

-- No line of the text ends with more than one carriage return.
def SingleReturns (text : List Char) : Prop :=
  ∀ line ∈ text.splitOn '\n', ¬ ['\r', '\r'] <:+ line

theorem singleReturns_nil : SingleReturns [] := by
  simp [SingleReturns]

theorem singleReturns_iff (text : List Char) :
    SingleReturns text ↔
      ¬ ['\r', '\r'] <:+ (splitLine text).1 ∧ SingleReturns ((splitLine text).2.getD []) := by
  obtain ⟨line, rest, hline, rfl, hsplit⟩ | ⟨hfeed, hsplit⟩ := splitLine_cases text
  · rw [hsplit, SingleReturns, List.splitOn_append_cons_self_of_not_mem hline]
    simp [SingleReturns]
  · rw [hsplit, SingleReturns, List.splitOn_eq_singleton hfeed]
    simp [singleReturns_nil]

theorem SingleReturns.tail {text : List Char} (h : SingleReturns text) :
    SingleReturns text.tail := by
  cases text with
  | nil => exact singleReturns_nil
  | cons c rest =>
    obtain ⟨first, others, hrest⟩ := List.exists_cons_of_ne_nil (List.splitOn_ne_nil '\n' rest)
    rw [SingleReturns, List.splitOn_cons_eq_if_modifyHead, hrest] at h
    rw [List.tail_cons, SingleReturns, hrest]
    intro line hline hsuffix
    by_cases hc : c = '\n'
    · exact h line (by simp only [hc, beq_self_eq_true, if_true]; exact .tail _ hline) hsuffix
    · simp only [beq_iff_eq, hc, if_false, List.modifyHead_cons] at h
      rcases List.mem_cons.mp hline with rfl | hline
      · exact h _ List.mem_cons_self (hsuffix.trans (List.suffix_cons c _))
      · exact h _ (List.mem_cons_of_mem _ hline) hsuffix

end LineEnd

namespace Console

inductive Request where
  | char
  | line
  deriving DecidableEq, Repr

inductive Reply where
  | char (c : Option Char)
  | line (line : Option (List Char))
  deriving DecidableEq, Repr

variable {κ : Type} [Console κ]

def reply (console : κ) : Request → Reply × κ
  | .char =>
    let (c, console) := readChar console
    (.char c, console)
  | .line =>
    let (line, console) := readLine console
    (.line line, console)

theorem reply_char {console next : κ} {c : Option Char} (h : readChar console = (c, next)) :
    reply console .char = (.char c, next) := by
  rw [reply, h]

theorem reply_line {console next : κ} {line : Option (List Char)}
    (h : readLine console = (line, next)) : reply console .line = (.line line, next) := by
  rw [reply, h]

-- The replies to one request after the other. A console that has nothing left is asked further.
def replies (console : κ) : List Request → List Reply
  | [] => []
  | request :: requests =>
    let (answer, console) := reply console request
    answer :: replies console requests

theorem replies_cons {console next : κ} {request : Request} {answer : Reply}
    (h : reply console request = (answer, next)) (requests : List Request) :
    replies console (request :: requests) = answer :: replies next requests := by
  rw [replies, h]

end Console

namespace Terminal

@[simp]
theorem flush_unread (t : Terminal) : t.flush.unread = t.unread := by
  unfold flush
  split <;> rfl

@[simp]
theorem flush_line (t : Terminal) : t.flush.line = t.line := by
  unfold flush
  split <;> rfl

section TakeLine

theorem takeLine_feed {line : List UInt8} (hfeed : 10 ∉ line) (rest : List UInt8) :
    takeLine (line ++ 10 :: rest) = (line ++ [10], rest) := by
  have hline := bne_of_notMem hfeed
  rw [takeLine, List.takeWhile_append_of_pos hline, List.dropWhile_append_of_pos hline]
  simp

theorem takeLine_cases (bytes : List UInt8) :
    takeLine bytes = (bytes, []) ∨
      ∃ line rest, 10 ∉ line ∧ bytes = line ++ 10 :: rest ∧
        takeLine bytes = (line ++ [10], rest) := by
  by_cases hfeed : 10 ∈ bytes
  · obtain ⟨line, rest, rfl, hline⟩ := List.eq_append_cons_of_mem hfeed
    exact .inr ⟨line, rest, hline, rfl, takeLine_feed hline rest⟩
  · left
    have hbytes := bne_of_notMem hfeed
    rw [takeLine, List.takeWhile_eq_self_iff.mpr hbytes, List.dropWhile_eq_nil_iff.mpr hbytes]

theorem takeLine_encode_feed {line : List Char} (hfeed : '\n' ∉ line) (rest : List Char) :
    takeLine (Utf8.encode (line ++ '\n' :: rest)) =
      (Utf8.encode (line ++ ['\n']), Utf8.encode rest) := by
  have hbytes : Utf8.encode (line ++ '\n' :: rest) =
      Utf8.encode line ++ 10 :: Utf8.encode rest := by
    rw [Utf8.encode_append, Utf8.encode_cons]
    rfl
  rw [hbytes, takeLine_feed (Utf8.feed_notMem_encode hfeed), Utf8.encode_append]
  rfl

theorem takeLine_encode {line : List Char} (hfeed : '\n' ∉ line) :
    takeLine (Utf8.encode line) = (Utf8.encode line, []) := by
  have hline := bne_of_notMem (Utf8.feed_notMem_encode hfeed)
  rw [takeLine, List.takeWhile_eq_self_iff.mpr hline, List.dropWhile_eq_nil_iff.mpr hline]

end TakeLine

-- `text` is left to read, and the terminal has taken the first line of it, as far as its line
-- feed or the end of the input.
inductive Taken (t : Terminal) : List Char → Prop where
  | ended {line rest : List Char} (hfeed : '\n' ∉ line) (hline : t.line = line ++ ['\n'])
      (hunread : t.unread = Utf8.encode rest) : Taken t (line ++ '\n' :: rest)
  | last {line : List Char} (hfeed : '\n' ∉ line) (hne : line ≠ []) (hline : t.line = line)
      (hunread : t.unread = []) : Taken t line

def Holds (t : Terminal) (text : List Char) : Prop :=
  t.line = [] ∧ t.unread = Utf8.encode text ∨ t.Taken text

variable {t : Terminal} {text : List Char}

theorem Taken.line_ne_nil (h : t.Taken text) : t.line ≠ [] := by
  cases h with
  | ended hfeed hline hunread => simp [hline]
  | last hfeed hne hline hunread => simpa [hline] using hne

theorem not_taken_nil : ¬ t.Taken [] := by
  intro h
  generalize htext : ([] : List Char) = text at h
  cases h with
  | ended => simp at htext
  | last hfeed hne => exact hne htext.symm

theorem fill_of_line (h : t.line ≠ []) : t.fill = (true, t) := by
  simp [fill, h]

theorem fill_of_taken (h : t.Taken text) : t.fill = (true, t) :=
  fill_of_line h.line_ne_nil

theorem fill_of_decode {line : List Char} (hline : t.line = []) (hunread : t.unread ≠ [])
    (hdecode : Utf8.decode (takeLine t.unread).1 = .ok line) :
    t.fill = (true, { t.flush with unread := (takeLine t.unread).2, line }) := by
  simp [fill, hline, hunread, hdecode]

theorem unread_fill (h : t.line = []) : t.fill.2.unread = (takeLine t.unread).2 := by
  by_cases hunread : t.unread = []
  · simp [fill, h, hunread, takeLine]
  · cases hdecode : Utf8.decode (takeLine t.unread).1 <;>
      simp [fill, h, hunread, hdecode, warn, note]

-- There is nothing to read at the end of the input, and in the place of a line that is no text.
theorem fill_eq_false_iff : t.fill.1 = false ↔
    t.line = [] ∧ (t.unread = [] ∨ ∃ fault, Utf8.decode (takeLine t.unread).1 = .error fault) := by
  by_cases hline : t.line = []
  · by_cases hunread : t.unread = []
    · simp [fill, hline, hunread]
    · cases hdecode : Utf8.decode (takeLine t.unread).1 <;>
        simp [fill, hline, hunread, hdecode]
  · simp [fill_of_line hline, hline]

theorem exists_fill (h : t.Holds text) (hne : text ≠ []) :
    ∃ t', t.fill = (true, t') ∧ t'.Taken text := by
  obtain ⟨hline, hunread⟩ | htaken := h
  · have hbytes : t.unread ≠ [] := by
      rw [hunread]
      exact fun h => hne (Utf8.encode_eq_nil.mp h)
    obtain ⟨line, rest, hfeed, rfl, -⟩ | ⟨hfeed, -⟩ := splitLine_cases text
    · have htake := takeLine_encode_feed hfeed rest
      rw [← hunread] at htake
      refine ⟨_, fill_of_decode hline hbytes (by rw [htake, Utf8.decode_encode]), ?_⟩
      exact .ended hfeed rfl (by rw [htake])
    · have htake := takeLine_encode hfeed
      rw [← hunread] at htake
      refine ⟨_, fill_of_decode hline hbytes (by rw [htake, hunread, Utf8.decode_encode]), ?_⟩
      exact .last hfeed hne rfl (by rw [htake])
  · exact ⟨t, fill_of_taken htaken, htaken⟩

theorem exists_fill_nil (h : t.Holds []) : ∃ t', t.fill = (false, t') ∧ t'.Holds [] := by
  obtain ⟨hline, hunread⟩ | htaken := h
  · refine ⟨{ t.flush with ended := true }, ?_, .inl ⟨?_, ?_⟩⟩
    · simp [fill, hline, hunread]
    · simp [hline]
    · simp [hunread]
  · exact absurd htaken not_taken_nil

-- Without its first character, a line that has been taken is still the first one of the rest,
-- unless it is used up.
theorem Taken.tail {c : Char} {rest : List Char} (h : t.Taken (c :: rest)) :
    ∃ more, t.line = c :: more ∧ ({ t with line := more } : Terminal).Holds rest := by
  generalize htext : c :: rest = text at h
  cases h with
  | @ended line after hfeed hline hunread =>
    cases line with
    | nil =>
      obtain ⟨rfl, rfl⟩ := List.cons.inj htext
      exact ⟨[], hline, .inl ⟨rfl, hunread⟩⟩
    | cons d more =>
      obtain ⟨rfl, rfl⟩ := List.cons.inj htext
      have hmore : '\n' ∉ more := fun hmem => hfeed (.tail _ hmem)
      exact ⟨more ++ ['\n'], hline, .inr (.ended hmore rfl hunread)⟩
  | last hfeed hne hline hunread =>
    subst htext
    have hrest : '\n' ∉ rest := fun hmem => hfeed (.tail _ hmem)
    refine ⟨rest, hline, ?_⟩
    by_cases hnil : rest = []
    · subst hnil
      exact .inl ⟨rfl, hunread⟩
    · exact .inr (.last hrest hnil rfl hunread)

theorem exists_readChar (h : t.Holds text) :
    ∃ t', t.readChar = (text.head?, t') ∧ t'.Holds text.tail := by
  cases text with
  | nil =>
    obtain ⟨t', hfill, hholds⟩ := exists_fill_nil h
    exact ⟨t', by simp [readChar, hfill], hholds⟩
  | cons c rest =>
    obtain ⟨t', hfill, htaken⟩ := exists_fill h (List.cons_ne_nil c rest)
    obtain ⟨more, hline, hholds⟩ := htaken.tail
    exact ⟨{ t' with line := more }, by simp [readChar, hfill, hline], hholds⟩

theorem exists_readLine_nil (h : t.Holds []) : ∃ t', t.readLine = (none, t') ∧ t'.Holds [] := by
  obtain ⟨t', hfill, hholds⟩ := exists_fill_nil h
  exact ⟨t', by simp [readLine, hfill], hholds⟩

theorem exists_readLine (h : t.Holds text) (hne : text ≠ []) :
    ∃ t', t.readLine =
        (some (dropEndWhile (fun c => c = '\n' || c = '\r') (splitLine text).1), t') ∧
      t'.Holds ((splitLine text).2.getD []) := by
  obtain ⟨t', hfill, htaken⟩ := exists_fill h hne
  have hread : t.readLine =
      (some (dropEndWhile (fun c => c = '\n' || c = '\r') t'.line), { t' with line := [] }) := by
    simp [readLine, hfill]
  refine ⟨{ t' with line := [] }, hread.trans ?_, .inl ⟨rfl, ?_⟩⟩
  · cases htaken with
    | ended hfeed hline hunread =>
      rw [splitLine_append_feed hfeed, hline, dropEndWhile_append_feed]
    | last hfeed hne hline hunread => rw [splitLine_of_notMem hfeed, hline]
  · cases htaken with
    | ended hfeed hline hunread => rw [splitLine_append_feed hfeed]; exact hunread
    | last hfeed hne hline hunread => rw [splitLine_of_notMem hfeed]; exact hunread

end Terminal

namespace Script

theorem readChar_eq (s : Script) :
    s.readChar = (s.unread.head?, { s with unread := s.unread.tail }) := by
  obtain ⟨unread, written, journal⟩ := s
  cases unread <;> rfl

theorem readLine_eq {s : Script} (hne : s.unread ≠ []) :
    s.readLine = (some (dropReturn (splitLine s.unread).1),
      { s with unread := (splitLine s.unread).2.getD [] }) := by
  simp [readLine, hne]

end Script

namespace Console

variable {s : Script} {t : Terminal}

theorem exists_reply_char (h : t.Holds s.unread) :
    ∃ answer s' t', reply s .char = (answer, s') ∧ reply t .char = (answer, t') ∧
      s'.unread = s.unread.tail ∧ t'.Holds s'.unread := by
  obtain ⟨t', hread, hholds⟩ := Terminal.exists_readChar h
  exact ⟨_, _, t', reply_char s.readChar_eq, reply_char hread, rfl, hholds⟩

-- The line is where the two may differ; what they have left is the same again.
theorem exists_reply_line (h : t.Holds s.unread) :
    ∃ one s' other t', reply s .line = (one, s') ∧ reply t .line = (other, t') ∧
      (one = other ↔ ¬ ['\r', '\r'] <:+ (splitLine s.unread).1) ∧
      s'.unread = (splitLine s.unread).2.getD [] ∧ t'.Holds s'.unread := by
  by_cases hne : s.unread = []
  · rw [hne] at h
    obtain ⟨t', hread, hholds⟩ := Terminal.exists_readLine_nil h
    have hscript : s.readLine = (none, s) := by simp [Script.readLine, hne]
    refine ⟨_, s, _, t', reply_line hscript, reply_line hread, ?_, ?_, ?_⟩
    · simp [hne, splitLine]
    · simp [hne, splitLine]
    · rwa [hne]
  · obtain ⟨t', hread, hholds⟩ := Terminal.exists_readLine h hne
    refine ⟨_, _, _, t', reply_line (Script.readLine_eq hne), reply_line hread, ?_, rfl, hholds⟩
    rw [← dropReturn_eq_iff (notMem_splitLine s.unread)]
    simp

theorem replies_eq_of_singleReturns (h : t.Holds s.unread) (hsingle : SingleReturns s.unread)
    (requests : List Request) : replies s requests = replies t requests := by
  induction requests generalizing s t with
  | nil => rfl
  | cons request requests ih =>
    cases request with
    | char =>
      obtain ⟨answer, s', t', hs, ht, hunread, hholds⟩ := exists_reply_char h
      rw [replies_cons hs, replies_cons ht, ih hholds (hunread ▸ hsingle.tail)]
    | line =>
      obtain ⟨one, s', other, t', hs, ht, hanswer, hunread, hholds⟩ := exists_reply_line h
      obtain ⟨hline, hrest⟩ := (singleReturns_iff s.unread).mp hsingle
      rw [replies_cons hs, replies_cons ht, hanswer.mpr hline, ih hholds (hunread ▸ hrest)]

-- Reading line after line finds any line that they read differently.
theorem singleReturns_of_replies_eq {s : Script} {t : Terminal} (h : t.Holds s.unread)
    (hagree : ∀ requests, replies s requests = replies t requests) : SingleReturns s.unread := by
  by_cases hne : s.unread = []
  · rw [hne]
    exact singleReturns_nil
  obtain ⟨one, s', other, t', hs, ht, hanswer, hunread, hholds⟩ := exists_reply_line h
  have hcons : ∀ requests, one = other ∧ replies s' requests = replies t' requests := by
    intro requests
    have hrequests := hagree (.line :: requests)
    rw [replies_cons hs, replies_cons ht] at hrequests
    exact List.cons.inj hrequests
  rw [singleReturns_iff, ← hanswer, ← hunread]
  have hshorter : s'.unread.length < s.unread.length := by
    rw [hunread]
    exact length_rest_splitLine_lt hne
  exact ⟨(hcons []).1, singleReturns_of_replies_eq hholds fun requests => (hcons requests).2⟩
termination_by s.unread.length

-- The writer's room makes no difference: what does not fit is noted, and reading goes on.
theorem replies_eq_iff_single_returns (input : String) (room : Option Nat) :
    (∀ requests : List Request,
        replies (Script.ofInput input) requests =
          replies ({ unread := Utf8.encode input.toList, room } : Terminal) requests) ↔
      ∀ line ∈ input.toList.splitOn '\n', ¬ ['\r', '\r'] <:+ line := by
  have hholds : ({ unread := Utf8.encode input.toList, room } : Terminal).Holds
      (Script.ofInput input).unread := .inl ⟨rfl, rfl⟩
  constructor
  · intro hagree
    exact singleReturns_of_replies_eq hholds hagree
  · intro hsingle requests
    exact replies_eq_of_singleReturns hholds hsingle requests

end Console

end Esoterica
