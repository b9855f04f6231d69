import Esoterica.CommandLine
import Esoterica.Proofs.Session.Typing
import Esoterica.Proofs.Whitespace.Decoration
import Esoterica.Proofs.Whitespace.RoundTrip

namespace Esoterica

open Text

namespace Whitespace

section Trim

theorem trimEnd_eq_self_iff {text : List Char} :
    trimEnd text = text ↔ ∀ c ∈ text.getLast?, isBlank c = false := by
  have hiff : trimEnd text = text ↔ ∀ hne : text ≠ [], ¬ isBlank (text.getLast hne) = true :=
    List.rdropWhile_eq_self_iff
  rw [hiff]
  constructor
  · intro h c hc
    obtain ⟨hne, rfl⟩ := List.mem_getLast?_eq_getLast hc
    simpa using h hne
  · intro h hne
    simp [h _ (List.getLast?_eq_some_getLast hne)]

-- The character that a listing shows for an operand.
def OperandKind.shownChar? : (kind : OperandKind) → kind.Operand → Option Char
  | .none, _ => .none
  | .number, value => printable? value
  | .label, _ => .none

-- The line of the instruction ends with a character that is shown, and this one is blank.
def Instr.endsBlank (i : Instr) : Bool :=
  (i.opcode.kind.shownChar? i.operand).any isBlank

theorem OperandKind.remark_eq : (kind : OperandKind) → (operand : kind.Operand) →
    kind.remark operand =
      ((kind.shownChar? operand).map fun c => " ; ascii: ".toList ++ [c]).getD []
  | .none, _ => rfl
  | .number, value => by
    simp only [remark, shownChar?]
    cases printable? value <;> rfl
  | .label, _ => rfl

-- What stands before a remark ends with a word.
theorem isBlank_getLast?_bare {offset : List Char} {all : List (List Char)} (hne : all ≠ [])
    (hall : ∀ word ∈ all, IsWord word) : ∀ c ∈ (bare offset all).getLast?, isBlank c = false := by
  intro c hc
  obtain ⟨front, word, rfl⟩ := (List.eq_nil_or_concat' all).resolve_left hne
  obtain ⟨hword, hchars⟩ := hall word (by simp)
  have hbare : bare offset (front ++ [word]) =
      ('[' :: offset ++ ']' :: spaced front ++ [' ']) ++ word := by
    simp [bare, spaced]
  rw [hbare, List.getLast?_append_of_ne_nil _ hword] at hc
  exact (hchars c (List.mem_of_getLast? hc)).1

theorem Token.trimEnd_listed_eq_self_iff (t : Token) :
    trimEnd t.listed = t.listed ↔ t.instr.endsBlank = false := by
  rw [trimEnd_eq_self_iff, t.listed_eq, OperandKind.remark_eq, Instr.endsBlank]
  cases t.instr.opcode.kind.shownChar? t.instr.operand with
  | none =>
    have hne : t.instr.shownWords ≠ [] := List.cons_ne_nil _ _
    simpa using isBlank_getLast?_bare hne t.instr.isWord_of_mem_shownWords
  | some c => simp

-- Only the last line of a listing changes when blanks are dropped at its end.
theorem trimEnd_listed_concat (front : List Token) (t : Token) :
    trimEnd (Scan.listed ⟨front ++ [t], none⟩) =
      Scan.listed ⟨front, none⟩ ++ trimEnd t.listed := by
  have hlisted : Scan.listed ⟨front ++ [t], none⟩ =
      Scan.listed ⟨front, none⟩ ++ t.listed ++ ['\n'] := by
    simp [Scan.listed]
  obtain ⟨rest, hrest⟩ : ∃ rest, t.listed = '[' :: rest := ⟨_, rfl⟩
  have hmark : isBlank '[' = false := by decide
  have hfeed : ∀ c ∈ ['\n'], isBlank c = true := by simp [isBlank]
  rw [hlisted, trimEnd_append_blanks _ hfeed, hrest, trimEnd_append_cons hmark]
  exact congrArg _ (trimEnd_append_cons hmark [] rest).symm

-- A listing is its own text with the end trimmed and one line feed if it has a last line and this
-- one has no blank at its end.
theorem trimEnd_listed_append_feed_iff (tokens : List Token) :
    trimEnd (Scan.listed ⟨tokens, none⟩) ++ ['\n'] = Scan.listed ⟨tokens, none⟩ ↔
      ∃ t, tokens.getLast? = some t ∧ t.instr.endsBlank = false := by
  rcases List.eq_nil_or_concat' tokens with rfl | ⟨front, t, rfl⟩
  · simp [Scan.listed, trimEnd, dropEndWhile]
  · rw [trimEnd_listed_concat]
    simp [Scan.listed, ← Token.trimEnd_listed_eq_self_iff]

end Trim

end Whitespace

theorem Terminal.noteAll_eq (t : Terminal) (entries : List Entry) :
    ∃ journal, Console.noteAll t entries = { t with journal } := by
  induction entries generalizing t with
  | nil => exact ⟨t.journal, rfl⟩
  | cons e entries ih => exact ih (t.note e)

section Printed

variable {files : Files} {lang : Language} {file : String} {listing : List Char}

theorem Session.listFile_whitespace {text : List Char} (hread : files.readText file = .ok text)
    (hlisting : Whitespace.disassemble (Utf8.encode text).toArray = .ok listing) :
    listFile files .whitespace file = .ok listing := by
  simp only [listFile, hread, hlisting]
  rfl

-- A file whose name is no option and no request for help may follow the language.
theorem CommandLine.parse_disasm (lang : Language) (file : String)
    (hoption : isOption file = false) (hhelp : file ≠ "help") :
    ∃ o, parse ["--disasm", lang.code, file] = .ok o ∧ o.task = .ok (.list lang file) := by
  have hne : ∀ option : String, isOption option = true → file ≠ option := by
    rintro option h rfl
    simp [h] at hoption
  have hlast : ∀ o : Options, parseOnto o [file] = .ok (o.withArguments [file]) := by
    intro o
    simp [parseOnto, hoption, hne "--help" (by decide), hne "--" (by decide),
      hne "-d" (by decide), hne "--disasm" (by decide), hne "--seed" (by decide),
      hne "--log" (by decide)]
  refine ⟨{ listing := true, arguments := [lang.code, file] }, ?_, ?_⟩
  · have hcode : parse ["--disasm", lang.code, file] =
        parseOnto { listing := true, arguments := [lang.code] } [file] := by
      cases lang <;> rfl
    rw [hcode, hlast]
    rfl
  · simp [Options.task, Session.ofCode?_code]

-- The program prints the listing that its arguments ask for, and nothing else.
theorem CommandLine.execute_list {arguments : List String} {o : Options}
    (hparse : parse arguments = .ok o) (htask : o.task = .ok (.list lang file))
    (hlist : Session.listFile files lang file = .ok listing) (input : List UInt8) (bound : Nat) :
    ∃ r, execute arguments files input bound = some r ∧ r.exitCode = 0 ∧ r.report = none ∧
      r.output = String.ofList listing := by
  obtain ⟨journal, hnoted⟩ := Terminal.noteAll_eq { unread := input }
    (Session.listEntries o.filterOrDefault files lang file)
  refine ⟨_, by simp only [execute, hparse, htask, Task.perform, printListing, hlist, hnoted]; rfl,
    rfl, rfl, ?_⟩
  simp [Terminal.put, Terminal.output, Utf8.decodeLossy_encode]

end Printed

namespace Session

variable {setting : Setting} {file : String}

-- Wherever the session obeys this line, it writes this text and prompts again.
def Answers (setting : Setting) (line text : List Char) : Prop :=
  ∀ t : Terminal, t.room = none →
    step setting ⟨.obey line, t⟩ = .next ⟨.prompt,
      { t with written := t.written ++ Utf8.encode text, atLineStart := true }⟩

theorem step_prompt {t : Terminal} (hroom : t.room = none) :
    step setting ⟨.prompt, t⟩ =
      .next ⟨.listen, { t with written := t.written ++ Utf8.encode "> ".toList }⟩ := by
  simp only [step, enter, Terminal.putText_of_unlimited hroom]
  rw [Terminal.flush_of_unlimited]
  exact hroom

-- A session with one line ends at the prompt after the answer.
theorem Answers.ends {line text : List Char} (h : Answers setting line text)
    (hfeed : '\n' ∉ line) (hreturn : '\r' ∉ line) :
    Ends setting none (Utf8.encode (line ++ ['\n']))
      (opening ++ Utf8.encode (text ++ "> ".toList)) [] := by
  have hobey : Leads (step setting) (begin { unread := Utf8.encode (line ++ ['\n']) ++ [] })
      ⟨.obey line, (opened []).terminal⟩ := leads_obey hfeed hreturn
  have hleads := (hobey.tail (h _ rfl)).tail (step_prompt rfl)
  rw [List.append_nil] at hleads
  refine ends_iff.mpr ⟨_, (halts_iff_of_leads hleads).mpr (halts_waiting rfl rfl rfl), ?_, rfl⟩
  simp [opened, Utf8.encode_append]

theorem answers_disasm {line listing : List Char}
    (hline : Command.ofLine line = .ok (.disasm .whitespace file))
    (hlist : listFile setting.files .whitespace file = .ok listing) :
    Answers setting line (trimEnd listing ++ ['\n']) := by
  intro t hroom
  simp only [step, obey, hline, hlist, proceed, Terminal.emitLine_of_unlimited hroom]

def disasmLine (lang : Language) (file : String) : List Char :=
  ("disasm " ++ lang.code ++ " " ++ file).toList

theorem disasmLine_eq (lang : Language) (file : String) :
    disasmLine lang file =
      "disasm".toList ++ ' ' :: (lang.code.toList ++ ' ' :: file.toList) := by
  simp [disasmLine]

theorem ofLine_disasmLine (lang : Language) (hfile : isWord file.toList = true) :
    Command.ofLine (disasmLine lang file) = .ok (.disasm lang file) := by
  have hwords := words_target "disasm" (by decide) lang hfile
  rw [← disasmLine_eq] at hwords
  simp only [Command.ofLine, hwords, Command.readTarget, Command.readLanguage, ofCode?_code]
  rfl

-- With arguments the listing of a file is printed as it is. A session trims the end of it and adds
-- a line feed, so that at most the last line differs. That is the same text if and only if there is
-- a last line and no blank character is shown at the end of it.
theorem listing_printed_alike_iff (setting : Setting) (file : String) (text : List Char)
    (tokens : List Whitespace.Token) (hread : setting.files.readText file = .ok text)
    (htokens : Whitespace.tokens? (Utf8.encode text).toArray = .ok tokens) :
    ∃ listing, Whitespace.disassemble (Utf8.encode text).toArray = .ok listing ∧
      (∀ arguments o input bound, CommandLine.parse arguments = .ok o →
        o.task = .ok (.list .whitespace file) →
          ∃ r, CommandLine.execute arguments setting.files input bound = some r ∧
            r.exitCode = 0 ∧ r.report = none ∧ r.output = String.ofList listing) ∧
      (CommandLine.isOption file = false → file ≠ "help" →
        ∃ o, CommandLine.parse ["--disasm", "ws", file] = .ok o ∧
          o.task = .ok (.list .whitespace file)) ∧
      (∀ line, Command.ofLine line = .ok (.disasm .whitespace file) →
        Answers setting line (trimEnd listing ++ ['\n'])) ∧
      (isWord file.toList = true →
        Ends setting none (Utf8.encode (disasmLine .whitespace file ++ ['\n']))
          (opening ++ Utf8.encode (trimEnd listing ++ ['\n'] ++ "> ".toList)) []) ∧
      (∀ front t, tokens = front ++ [t] →
        trimEnd listing = Whitespace.Scan.listed ⟨front, none⟩ ++ trimEnd t.listed) ∧
      (trimEnd listing ++ ['\n'] = listing ↔
        ∃ t, tokens.getLast? = some t ∧ t.instr.endsBlank = false) := by
  have hlisting := Whitespace.disassemble_eq_ok.mpr ⟨tokens, htokens, rfl⟩
  have hlist := listFile_whitespace hread hlisting
  refine ⟨_, hlisting, ?_, ?_, ?_, ?_, ?_, Whitespace.trimEnd_listed_append_feed_iff tokens⟩
  · intro arguments o input bound hparse htask
    exact CommandLine.execute_list hparse htask hlist input bound
  · exact CommandLine.parse_disasm .whitespace file
  · intro line hline
    exact answers_disasm hline hlist
  · intro hfile
    have hcode := notMem_of_isWord (isWord_code .whitespace)
    have hname := notMem_of_isWord hfile
    apply (answers_disasm (ofLine_disasmLine .whitespace hfile) hlist).ends
    · simp [disasmLine_eq, hcode, hname]
    · simp [disasmLine_eq, hcode, hname]
  · rintro front t rfl
    exact Whitespace.trimEnd_listed_concat front t

theorem readText_withFile (text : List Char) :
    (withFile "p" text).files.readText "p" = .ok text := by
  have hread : (withFile "p" text).files.read "p" = .ok (Utf8.encode text) := rfl
  simp only [Files.readText, hread, Utf8.decode_encode]
  rfl

-- A text with two numbers that are shown as characters, the first one as a blank, and an
-- instruction without a number.
def spacious : List Char :=
  "   \t     \n   \t  \t   \n\t\n  ".toList

theorem tokens?_spacious : Whitespace.tokens? (Utf8.encode spacious).toArray =
    .ok [⟨⟨.push, (32 : Int64)⟩, 9⟩, ⟨⟨.push, (72 : Int64)⟩, 20⟩, ⟨⟨.outchar, ()⟩, 24⟩] := by
  with_unfolding_all rfl

theorem listing_printed_alike_iff_spacious :
    ∃ listing r, (withFile "p" spacious).files.readText "p" = .ok spacious ∧
      Whitespace.disassemble (Utf8.encode spacious).toArray = .ok listing ∧
      CommandLine.execute ["--disasm", "ws", "p"] (withFile "p" spacious).files [] 0 = some r ∧
      r.output = String.ofList listing ∧
      Ends (withFile "p" spacious) none (Utf8.encode (disasmLine .whitespace "p" ++ ['\n']))
        (opening ++ Utf8.encode (listing ++ "> ".toList)) [] := by
  have hread := readText_withFile spacious
  obtain ⟨listing, hlisting, harguments, hparse, -, hends, -, hiff⟩ :=
    listing_printed_alike_iff _ _ _ _ hread tokens?_spacious
  obtain ⟨o, ho, htask⟩ := hparse (by decide) (by decide)
  obtain ⟨r, hr, -, -, houtput⟩ := harguments _ o [] 0 ho htask
  have hsame := hends (by decide)
  rw [hiff.mpr ⟨_, rfl, by decide⟩] at hsame
  exact ⟨listing, r, hread, hlisting, hr, houtput, hsame⟩

-- A text with a single number, which is shown as a blank.
def lastBlank : List Char :=
  "   \t     \n".toList

-- A session does not print the blanks at the end of a listing.
theorem listing_cut_in_session_lastBlank :
    ∃ listing r, Whitespace.disassemble (Utf8.encode lastBlank).toArray = .ok listing ∧
      CommandLine.execute ["--disasm", "ws", "p"] (withFile "p" lastBlank).files [] 0 = some r ∧
      r.output = String.ofList listing ∧ listing = "[0009] push 32 ; ascii:  \n".toList ∧
      Ends (withFile "p" lastBlank) none (Utf8.encode (disasmLine .whitespace "p" ++ ['\n']))
        (opening ++ Utf8.encode "[0009] push 32 ; ascii:\n> ".toList) [] ∧
      ¬ Ends (withFile "p" lastBlank) none (Utf8.encode (disasmLine .whitespace "p" ++ ['\n']))
        (opening ++ Utf8.encode (listing ++ "> ".toList)) [] := by
  have htokens : Whitespace.tokens? (Utf8.encode lastBlank).toArray =
      .ok [⟨⟨.push, (32 : Int64)⟩, 9⟩] := by with_unfolding_all rfl
  have hlisting : Whitespace.disassemble (Utf8.encode lastBlank).toArray =
      .ok "[0009] push 32 ; ascii:  \n".toList :=
    Whitespace.disassemble_eq_ok.mpr ⟨_, htokens, by decide +kernel⟩
  have hlist := listFile_whitespace (readText_withFile lastBlank) hlisting
  obtain ⟨o, ho, htask⟩ := CommandLine.parse_disasm .whitespace "p" (by decide) (by decide)
  obtain ⟨r, hr, -, -, houtput⟩ := CommandLine.execute_list ho htask hlist [] 0
  have hanswers := answers_disasm (ofLine_disasmLine .whitespace (by decide)) hlist
  have hends := hanswers.ends (by decide) (by decide)
  refine ⟨_, r, hlisting, hr, houtput, rfl, hends, ?_⟩
  intro hwhole
  exact absurd (hends.unique hwhole).1 (by decide +kernel)

end Session

end Esoterica
