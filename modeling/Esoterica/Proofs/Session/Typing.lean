import Esoterica.Proofs.LastLine
import Esoterica.Proofs.Session.Composition

namespace Esoterica

open Text

theorem Terminal.readLine_of_feed {t : Terminal} {line : List Char} {rest : List UInt8}
    (hroom : t.room = none) (hline : t.line = []) (hfeed : '\n' ∉ line) (hreturn : '\r' ∉ line)
    (hunread : t.unread = Utf8.encode (line ++ ['\n']) ++ rest) :
    t.readLine = (some line, { t with unread := rest }) := by
  have hbytes : t.unread = Utf8.encode line ++ 10 :: rest := by
    simp [hunread, Utf8.encode_append]
  have hdecode : Utf8.decode (Utf8.encode line ++ [10]) = .ok (line ++ ['\n']) := by
    rw [← Utf8.encode_feed, ← Utf8.encode_append, Utf8.decode_encode]
  have hkept : dropEndWhile (fun c => c = '\n' || c = '\r') line = line := by
    refine List.rdropWhile_eq_self_iff.mpr fun hne hlast => ?_
    have hmem := List.getLast_mem hne
    simp only [Bool.or_eq_true, decide_eq_true_eq] at hlast
    rcases hlast with hlast | hlast
    · exact hfeed (hlast ▸ hmem)
    · exact hreturn (hlast ▸ hmem)
  rw [readLine_eq, fill_of_feed hroom hline (Utf8.feed_notMem_encode hfeed) hbytes, hdecode]
  simp [dropEndWhile_append_feed, hkept, hline]

namespace Session

variable {setting : Setting} {lang : Language}

section Launch

-- The terminal after a program that has come to this result.
def settle (r : Except RunFault Unit) (t : Terminal) : Terminal :=
  match r with
  | .ok _ => t.finishLine
  | .error fault => t.finishLine.emitLine ("Error: " ++ (Fault.run fault).message).toList

theorem afterWork_stop (r : Except RunFault Unit) (program : Running) (t : Terminal) :
    afterWork (.stop r (program, t)) = .next ⟨.prompt, settle r t⟩ := by
  cases r <;> rfl

theorem step_work_of_next {program program' : Running} {t t' : Terminal}
    (h : Running.step (program, t) = .next (program', t')) :
    step setting ⟨.work program, t⟩ = .next ⟨.work program', t'⟩ := by
  rw [step_work, h]
  rfl

theorem step_work_of_stop {program program' : Running} {t t' : Terminal}
    {r : Except RunFault Unit} (h : Running.step (program, t) = .stop r (program', t')) :
    step setting ⟨.work program, t⟩ = .next ⟨.prompt, settle r t'⟩ := by
  rw [step_work, h, afterWork_stop]

theorem halts_work_iff {program : Running} {t : Terminal} {out : Unit × Session} :
    Halts (step setting) ⟨.work program, t⟩ out ↔
      ∃ r program' t', Halts Running.step (program, t) (r, program', t') ∧
        Halts (step setting) ⟨.prompt, settle r t'⟩ out := by
  constructor
  · rintro ⟨bound, h⟩
    induction bound generalizing program t with
    | zero => cases h
    | succ bound ih =>
      cases hstep : Running.step (program, t) with
      | next x =>
        rw [runFor_of_next (step_work_of_next hstep)] at h
        obtain ⟨r, program', t', hprogram, hrest⟩ := ih h
        exact ⟨r, program', t', (halts_iff_of_next hstep).mpr hprogram, hrest⟩
      | stop r x =>
        rw [runFor_of_next (step_work_of_stop hstep)] at h
        exact ⟨r, x.1, x.2, halts_of_stop hstep, bound, h⟩
  · rintro ⟨r, program', t', ⟨bound, h⟩, hrest⟩
    induction bound generalizing program t with
    | zero => cases h
    | succ bound ih =>
      cases hstep : Running.step (program, t) with
      | next x =>
        rw [runFor_of_next hstep] at h
        exact (halts_iff_of_next (step_work_of_next hstep)).mpr (ih h)
      | stop r x =>
        rw [runFor_of_stop hstep] at h
        cases h
        exact (halts_iff_of_next (step_work_of_stop hstep)).mpr hrest

-- A session learns of a program only what the program comes to.
theorem halts_launch_iff {text : List Char} {t : Terminal} {out : Unit × Session} :
    Halts (step setting) ⟨.launch lang text, t⟩ out ↔
      ∃ r t', lang.Finishes text setting.seed t r t' ∧
        Halts (step setting) ⟨.prompt, settle r t'⟩ out := by
  cases hstart : lang.start text setting.seed with
  | error fault =>
    have hstep : step setting ⟨.launch lang text, t⟩ =
        .next ⟨.prompt, settle (.error fault) t⟩ := by
      simp only [step, hstart]
      rfl
    rw [halts_iff_of_next hstep]
    simp [Language.finishes_of_error hstart]
  | ok program =>
    have hstep : step setting ⟨.launch lang text, t⟩ = .next ⟨.work program, t⟩ := by
      simp only [step, hstart]
      rfl
    rw [halts_iff_of_next hstep, halts_work_iff]
    simp only [Language.finishes_of_ok hstart]
    constructor
    · rintro ⟨r, program', t', hprogram, hrest⟩
      exact ⟨r, t', ⟨program', hprogram⟩, hrest⟩
    · rintro ⟨r, t', ⟨program', hprogram⟩, hrest⟩
      exact ⟨r, program', t', hprogram, hrest⟩

end Launch

section Lines

-- The characters make up one word.
def isWord (word : List Char) : Bool :=
  !word.isEmpty && word.all (!isBlank ·)

theorem isWord_iff {word : List Char} :
    isWord word = true ↔ word ≠ [] ∧ ∀ c ∈ word, isBlank c = false := by
  simp [isWord]

theorem isWord_code (lang : Language) : isWord lang.code.toList = true := by
  cases lang <;> decide

theorem words_of_isWord {word : List Char} (h : isWord word = true) : words word = [word] := by
  obtain ⟨hne, hword⟩ := isWord_iff.mp h
  have hwords : words (word ++ []) = word :: words [] := words_append hne hword (by simp)
  simpa using hwords

theorem words_append_space {word rest : List Char} (h : isWord word = true) :
    words (word ++ ' ' :: rest) = word :: words rest := by
  obtain ⟨hne, hword⟩ := isWord_iff.mp h
  rw [words_append hne hword (by simp [isBlank]), words_cons_of_blank (by decide)]

theorem ofCode?_code (lang : Language) : Language.ofCode? lang.code = some lang := by
  cases lang <;> rfl

-- The line that begins a program in this language.
def startLine (lang : Language) : List Char :=
  ("start " ++ lang.code).toList

def loadLine (lang : Language) (file : String) : List Char :=
  ("load " ++ lang.code ++ " " ++ file).toList

theorem startLine_eq (lang : Language) :
    startLine lang = "start".toList ++ ' ' :: lang.code.toList := by
  simp [startLine]

theorem loadLine_eq (lang : Language) (file : String) :
    loadLine lang file = "load".toList ++ ' ' :: (lang.code.toList ++ ' ' :: file.toList) := by
  simp [loadLine]

theorem ofLine_startLine (lang : Language) :
    Command.ofLine (startLine lang) = .ok (.start lang) := by
  have hstart : isWord "start".toList = true := by decide
  have hwords : (words (startLine lang)).map String.ofList = ["start", lang.code] := by
    rw [startLine_eq, words_append_space hstart, words_of_isWord (isWord_code lang)]
    simp
  simp only [Command.ofLine, hwords, Command.readLanguage, ofCode?_code]
  rfl

theorem words_target (command : String) (hcommand : isWord command.toList = true)
    (lang : Language) {file : String} (hfile : isWord file.toList = true) :
    (words (command.toList ++ ' ' :: (lang.code.toList ++ ' ' :: file.toList))).map
      String.ofList = [command, lang.code, file] := by
  rw [words_append_space hcommand, words_append_space (isWord_code lang), words_of_isWord hfile]
  simp

theorem ofLine_loadLine (lang : Language) {file : String} (hfile : isWord file.toList = true) :
    Command.ofLine (loadLine lang file) = .ok (.load lang file) := by
  have hwords := words_target "load" (by decide) lang hfile
  rw [← loadLine_eq] at hwords
  simp only [Command.ofLine, hwords, Command.readTarget, Command.readLanguage, ofCode?_code]
  rfl

theorem notMem_of_isWord {word : List Char} (h : isWord word = true) :
    '\n' ∉ word ∧ '\r' ∉ word := by
  obtain ⟨-, hword⟩ := isWord_iff.mp h
  constructor <;>
  · intro hmem
    have hblank := hword _ hmem
    revert hblank
    decide

end Lines

section Input

variable {rest : List UInt8}

-- A session obeys the first line of its input.
theorem leads_obey {line : List Char} (hfeed : '\n' ∉ line) (hreturn : '\r' ∉ line) :
    Leads (step setting) (begin { unread := Utf8.encode (line ++ ['\n']) ++ rest })
      ⟨.obey line, (opened rest).terminal⟩ := by
  refine (leads_opened setting _).tail ?_
  have hread : (opened (Utf8.encode (line ++ ['\n']) ++ rest)).terminal.readLine =
      (some line, (opened rest).terminal) := Terminal.readLine_of_feed rfl rfl hfeed hreturn rfl
  show step setting ⟨.listen, (opened (Utf8.encode (line ++ ['\n']) ++ rest)).terminal⟩ = _
  simp only [step, hread]
  rfl

-- The lines of a program and the line that ends it.
def blockOf (all : List (List Char)) : List Char :=
  all.flatMap (· ++ ['\n']) ++ ("end".toList ++ ['\n'])

theorem blockOf_cons (line : List Char) (all : List (List Char)) :
    blockOf (line :: all) = line ++ ['\n'] ++ blockOf all := by
  simp [blockOf]

theorem leads_collect (all before : List (List Char)) {t : Terminal} (hroom : t.room = none)
    (hline : t.line = []) (hall : ∀ line ∈ all, '\n' ∉ line ∧ '\r' ∉ line)
    (hend : "end".toList ∉ all) (hunread : t.unread = Utf8.encode (blockOf all) ++ rest) :
    Leads (step setting) ⟨.collect lang before, t⟩
      ⟨.launch lang (textOf (all.reverse ++ before)), { t with unread := rest }⟩ := by
  induction all generalizing before t with
  | nil =>
    have hread := Terminal.readLine_of_feed hroom hline (by decide) (by decide) hunread
    refine .single ?_
    simp only [step, hread]
    rfl
  | cons line all ih =>
    obtain ⟨⟨hfeed, hreturn⟩, hall⟩ := List.forall_mem_cons.mp hall
    obtain ⟨hne, hend⟩ := not_or.mp (List.mem_cons.not.mp hend)
    rw [blockOf_cons, Utf8.encode_append, List.append_assoc] at hunread
    have hread := Terminal.readLine_of_feed hroom hline hfeed hreturn hunread
    have hstep : step setting ⟨.collect lang before, t⟩ = .next ⟨.collect lang (line :: before),
        { t with unread := Utf8.encode (blockOf all) ++ rest }⟩ := by
      simp only [step, hread, if_neg (Ne.symm hne)]
      rfl
    have hmore := ih (line :: before) (t := { t with unread := Utf8.encode (blockOf all) ++ rest })
      hroom hline hall hend rfl
    rw [List.reverse_cons, List.append_assoc]
    exact .head hstep hmore

-- A program that is typed, with the command before it.
def typed (lang : Language) (text : List Char) : List Char :=
  startLine lang ++ ['\n'] ++ endLine text ++ ("end".toList ++ ['\n'])

def loaded (lang : Language) (file : String) : List Char :=
  loadLine lang file ++ ['\n']

theorem leads_typed {text : List Char} (hreturn : '\r' ∉ text) (hend : "end".toList ∉ lines text) :
    Leads (step setting) (begin { unread := Utf8.encode (typed lang text) ++ rest })
      ⟨.launch lang (endLine text), (opened rest).terminal⟩ := by
  obtain ⟨hflat, hall⟩ := flatMap_lines hreturn
  have hinput : Utf8.encode (typed lang text) ++ rest =
      Utf8.encode (startLine lang ++ ['\n']) ++ (Utf8.encode (blockOf (lines text)) ++ rest) := by
    rw [typed, ← hflat, List.append_assoc, Utf8.encode_append, List.append_assoc]
    rfl
  have htext : textOf ((lines text).reverse ++ []) = endLine text := by
    rw [← hflat, textOf, List.append_nil, List.reverse_reverse]
  have hcode := notMem_of_isWord (isWord_code lang)
  have hobey : ∀ t, step setting ⟨.obey (startLine lang), t⟩ = .next ⟨.collect lang [], t⟩ := by
    intro t
    simp only [step, obey, ofLine_startLine]
    rfl
  rw [hinput, ← htext]
  refine (leads_obey ?_ ?_).trans (.head (hobey _) (leads_collect _ _ rfl rfl hall hend rfl))
  · simp [startLine_eq, hcode]
  · simp [startLine_eq, hcode]

theorem leads_loaded {text : List Char} {file : String} (hfile : isWord file.toList = true)
    (hread : setting.files.readText file = .ok text) :
    Leads (step setting) (begin { unread := Utf8.encode (loaded lang file) ++ rest })
      ⟨.launch lang text, (opened rest).terminal⟩ := by
  have hcode := notMem_of_isWord (isWord_code lang)
  have hname := notMem_of_isWord hfile
  have hobey : step setting ⟨.obey (loadLine lang file), (opened rest).terminal⟩ =
      .next ⟨.launch lang text, (opened rest).terminal⟩ := by
    simp only [step, obey, ofLine_loadLine lang hfile, hread]
    rfl
  refine (leads_obey ?_ ?_).tail hobey
  · simp [loadLine_eq, hcode, hname]
  · simp [loadLine_eq, hcode, hname]

-- The text that a file has to hold for the program in it to be the one that is typed. What ends a
-- line belongs to the program in Whitespace only.
def fileText (lang : Language) (text : List Char) : List Char :=
  if lang = .whitespace then endLine text else text

-- A session does the same with a program that is typed and with one that is loaded.
theorem ends_typed_iff_ends_loaded (setting : Setting) (lang : Language) (text : List Char)
    (file : String) (rest : List UInt8) (hreturn : '\r' ∉ text) (hend : "end".toList ∉ lines text)
    (hfile : isWord file.toList = true)
    (hread : setting.files.read file = .ok (Utf8.encode (fileText lang text)))
    (output unread : List UInt8) :
    Ends setting none (Utf8.encode (typed lang text) ++ rest) output unread ↔
      Ends setting none (Utf8.encode (loaded lang file) ++ rest) output unread := by
  have hload : setting.files.readText file = .ok (fileText lang text) := by
    simp only [Files.readText, hread, Utf8.decode_encode]
    rfl
  simp only [ends_iff, halts_iff_of_leads (leads_typed hreturn hend),
    halts_iff_of_leads (leads_loaded hfile hload), halts_launch_iff]
  by_cases hlang : lang = .whitespace
  · rw [fileText, if_pos hlang]
  · simp only [fileText, if_neg hlang, Language.finishes_endLine_iff hlang hreturn]

def withFile (name : String) (text : List Char) : Setting where
  seed := 0
  files other := if other = name then .ok (Utf8.encode text) else .error .notFound

-- A program whose last line has not been ended. What it reads is taken from the session.
def echoTwice : List Char :=
  ",.,.\n[>]".toList

theorem ends_typed_iff_ends_loaded_echoTwice :
    '\r' ∉ echoTwice ∧ "end".toList ∉ lines echoTwice ∧ isWord "p".toList = true ∧
      (withFile "p" echoTwice).files.read "p" =
        .ok (Utf8.encode (fileText .brainfuck echoTwice)) ∧
      Ends (withFile "p" echoTwice) none
        (Utf8.encode (loaded .brainfuck "p") ++ Utf8.encode "xy\nexit\n!".toList)
        (opening ++ Utf8.encode "xy\n> > ".toList) (Utf8.encode "!".toList) ∧
      Ends (withFile "p" echoTwice) none
        (Utf8.encode (typed .brainfuck echoTwice) ++ Utf8.encode "xy\nexit\n!".toList)
        (opening ++ Utf8.encode "xy\n> > ".toList) (Utf8.encode "!".toList) := by
  have hreturn : '\r' ∉ echoTwice := by decide
  have hend : "end".toList ∉ lines echoTwice := by decide +kernel
  have hfile : isWord "p".toList = true := by decide
  have hread : (withFile "p" echoTwice).files.read "p" =
      .ok (Utf8.encode (fileText .brainfuck echoTwice)) := by rfl
  have hrun : (run (withFile "p" echoTwice) 24
      { unread := Utf8.encode (loaded .brainfuck "p") ++ Utf8.encode "xy\nexit\n!".toList }).map
        (fun t => (t.written.toList, t.unread)) =
          some (opening ++ Utf8.encode "xy\n> > ".toList, Utf8.encode "!".toList) := by
    decide +kernel
  have hloaded := ends_of_run hrun
  exact ⟨hreturn, hend, hfile, hread, hloaded,
    (ends_typed_iff_ends_loaded _ _ _ _ _ hreturn hend hfile hread _ _).mpr hloaded⟩

-- A program that pushes the code of a letter and writes the letter. A line feed after it would
-- begin another instruction.
def letter : List Char :=
  "   \t  \t   \n\t\n  ".toList

-- In Whitespace a text is not typed as it is loaded if its last line has not been ended.
theorem typed_unlike_loaded_letter :
    '\r' ∉ letter ∧ "end".toList ∉ lines letter ∧ isWord "p".toList = true ∧
      (withFile "p" letter).files.read "p" = .ok (Utf8.encode letter) ∧
      Ends (withFile "p" letter) none (Utf8.encode (loaded .whitespace "p") ++ [])
        (opening ++ Utf8.encode "H\n> ".toList) [] ∧
      Ends (withFile "p" letter) none (Utf8.encode (typed .whitespace letter) ++ [])
        (opening ++ Utf8.encode "Error: malformed instruction at 16\n> ".toList) [] ∧
      ¬ ∀ output unread,
        Ends (withFile "p" letter) none (Utf8.encode (typed .whitespace letter) ++ []) output
            unread ↔
          Ends (withFile "p" letter) none (Utf8.encode (loaded .whitespace "p") ++ []) output
            unread := by
  have hend : "end".toList ∉ lines letter := by decide +kernel
  have hloaded : (run (withFile "p" letter) 24
      { unread := Utf8.encode (loaded .whitespace "p") ++ [] }).map
        (fun t => (t.written.toList, t.unread)) =
          some (opening ++ Utf8.encode "H\n> ".toList, []) := by decide +kernel
  have htyped : (run (withFile "p" letter) 24
      { unread := Utf8.encode (typed .whitespace letter) ++ [] }).map
        (fun t => (t.written.toList, t.unread)) =
          some (opening ++ Utf8.encode "Error: malformed instruction at 16\n> ".toList, []) := by
    decide +kernel
  have hfile : isWord "p".toList = true := by decide
  refine ⟨by decide, hend, hfile, rfl, ends_of_run hloaded, ends_of_run htyped, ?_⟩
  intro hsame
  obtain ⟨houtput, -⟩ := ((hsame _ _).mp (ends_of_run htyped)).unique (ends_of_run hloaded)
  exact absurd houtput (by decide +kernel)

end Input

end Session

end Esoterica
