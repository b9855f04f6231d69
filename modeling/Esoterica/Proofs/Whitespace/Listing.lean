import Esoterica.Proofs.Text.Decimal
import Esoterica.Proofs.Whitespace.Line
import Esoterica.Proofs.Whitespace.Scan
import Esoterica.Whitespace.Listing

namespace Esoterica.Whitespace

open Text

def IsWord (word : List Char) : Prop :=
  word ≠ [] ∧ ∀ c ∈ word, isBlank c = false ∧ isControl c = false ∧ c ≠ ';'

-- Words with a blank before each.
def spaced (words : List (List Char)) : List Char :=
  words.flatMap (' ' :: ·)

section Lines

theorem spaced_singleton (word : List Char) : spaced [word] = ' ' :: word := by
  simp [spaced]

theorem isWord_of_digits {digits : List Char} (hne : digits ≠ [])
    (h : ∀ c ∈ digits, c = '-' ∨ c.isDigit = true) : IsWord digits := by
  refine ⟨hne, fun c hc => ?_⟩
  rcases h c hc with rfl | hdigit
  · decide
  · obtain ⟨hlow, hhigh⟩ := Decimal.toNat_of_isDigit hdigit
    refine ⟨?_, ?_, ?_⟩
    · simp only [isBlank, Bool.or_eq_false_iff, Bool.and_eq_false_imp, decide_eq_true_eq,
        decide_eq_false_iff_not, beq_eq_false_iff_ne]
      omega
    · simp only [isControl, Bool.or_eq_false_iff, Bool.and_eq_false_imp, decide_eq_true_eq,
        decide_eq_false_iff_not]
      omega
    · rintro rfl
      have : ';'.toNat = 59 := rfl
      omega

theorem spread_spaced {all : List (List Char)} (h : ∀ word ∈ all, IsWord word) :
    Spread all (spaced all) := by
  induction all with
  | nil => exact .nil (by simp [spaced])
  | cons word all ih =>
    obtain ⟨hne, hword⟩ := h word List.mem_cons_self
    have hspaced : spaced (word :: all) = [' '] ++ (word ++ spaced all) := rfl
    have hblank : ∀ c ∈ (spaced all).head?, isBlank c = true := by
      intro c hc
      cases all with
      | nil => simp [spaced] at hc
      | cons next all =>
        have : c = ' ' := by simpa [spaced] using hc.symm
        rw [this]
        rfl
    rw [hspaced]
    exact .cons (by simp [isBlank]) hne (fun c hc => (hword c hc).1) hblank
      (ih fun word hmem => h word (List.mem_cons_of_mem _ hmem))

theorem mem_spaced {all : List (List Char)} (h : ∀ word ∈ all, IsWord word) {c : Char}
    (hc : c ∈ spaced all) : isControl c = false ∧ c ≠ ';' := by
  obtain ⟨word, hword, hc⟩ := List.mem_flatMap.mp hc
  rcases List.mem_cons.mp hc with rfl | hc
  · decide
  · exact ((h word hword).2 c hc).2

-- The text of a line up to its remark: an offset, then words.
def bare (offset : List Char) (words : List (List Char)) : List Char :=
  '[' :: offset ++ ']' :: spaced words

variable {offset : List Char} {all : List (List Char)}

theorem mem_bare (hoffset : IsWord offset) (hall : ∀ word ∈ all, IsWord word) {c : Char}
    (hc : c ∈ bare offset all) : isControl c = false ∧ c ≠ ';' := by
  simp only [bare, List.cons_append, List.mem_cons, List.mem_append] at hc
  rcases hc with rfl | hc | rfl | hc
  · decide
  · exact (hoffset.2 c hc).2
  · decide
  · exact mem_spaced hall hc

-- What a line may go on with: nothing, or a blank and a semicolon, then anything.
def IsRemark (remark : List Char) : Prop :=
  remark = [] ∨ ∃ text, remark = ' ' :: ';' :: text

theorem hasWords_bare (hne : offset ≠ []) (hdigits : ∀ c ∈ offset, c.isDigit = true)
    (hall : ∀ word ∈ all, IsWord word) {remark : List Char} (hremark : IsRemark remark) :
    HasWords (bare offset all ++ remark) all := by
  have hspread := spread_spaced hall
  have hcode : ';' ∉ spaced all := fun hmem => (mem_spaced hall hmem).2 rfl
  have hmark : IsMark ('[' :: offset ++ [']']) := .inr ⟨offset, hne, hdigits, rfl⟩
  rcases hremark with rfl | ⟨text, rfl⟩
  · exact ⟨[], _, spaced all, [], by simp [bare], by simp, hmark, hspread, hcode, .inl rfl⟩
  · -- the blank before the comment is one behind the words
    exact ⟨[], _, spaced all ++ [' '], ';' :: text, by simp [bare], by simp, hmark,
      hspread.append_blanks (by simp [isBlank]), by simpa using hcode, .inr ⟨text, rfl⟩⟩

end Lines

section Labels

theorem letter_ne_dot (b : UInt8) : Label.letter b ≠ '.' := by
  unfold Label.letter
  split <;> decide

theorem isWord_shown {l : Label} (h : l.symbols ≠ []) : IsWord l.shown := by
  constructor
  · simp [Label.shown, Label.maxShown, h]
  · intro c hc
    rcases List.mem_append.mp hc with hc | hc
    · obtain ⟨b, -, rfl⟩ := List.mem_map.mp hc
      unfold Label.letter
      split <;> decide
    · have : c = '.' := by
        split at hc
        · simpa using hc
        · simp at hc
      rw [this]
      decide

theorem labelSymbol?_eq_some {c : Char} {b : UInt8} :
    labelSymbol? c = some b ↔ c = Label.letter b ∧ isSymbol b = true := by
  constructor
  · intro h
    unfold labelSymbol? at h
    split at h <;> cases h
    all_goals exact ⟨rfl, rfl⟩
  · rintro ⟨rfl, hsymbol⟩
    simp only [isSymbol, Bool.or_eq_true, beq_iff_eq] at hsymbol
    rcases hsymbol with (rfl | rfl) | rfl <;> rfl

theorem mapM_labelSymbol?_eq_some {word : List Char} {symbols : List UInt8} :
    word.mapM labelSymbol? = some symbols ↔
      word = symbols.map Label.letter ∧ ∀ b ∈ symbols, isSymbol b = true := by
  induction word generalizing symbols with
  | nil => cases symbols <;> simp
  | cons c word ih =>
    simp only [List.mapM_cons, Option.pure_def, Option.bind_eq_bind, Option.bind_eq_some_iff,
      labelSymbol?_eq_some, ih]
    constructor
    · rintro ⟨b, ⟨rfl, hb⟩, symbols, ⟨rfl, hsymbols⟩, h⟩
      cases h
      exact ⟨rfl, List.forall_mem_cons.mpr ⟨hb, hsymbols⟩⟩
    · rintro ⟨hword, hall⟩
      obtain ⟨b, rest, rfl, rfl, rfl⟩ := List.map_eq_cons_iff.mp hword.symm
      obtain ⟨hb, hrest⟩ := List.forall_mem_cons.mp hall
      exact ⟨b, ⟨rfl, hb⟩, rest, ⟨rfl, hrest⟩, rfl⟩

-- A word is read as a label exactly if its letters show symbols.
theorem readLabel_eq_ok {word : List Char} {l : Label} :
    readLabel word = .ok l ↔
      word = l.symbols.map Label.letter ∧ ∀ b ∈ l.symbols, isSymbol b = true := by
  rw [← mapM_labelSymbol?_eq_some]
  constructor
  · intro h
    unfold readLabel at h
    split at h
    · cases h
    · split at h
      · cases h
        assumption
      · cases h
  · intro h
    have hdots : ['.', '.', '.'].isSuffixOf word = false := by
      by_contra hdots
      have hsuffix := List.isSuffixOf_iff_suffix.mp (eq_true_of_ne_false hdots)
      have hmem : '.' ∈ word := hsuffix.subset List.mem_cons_self
      rw [(mapM_labelSymbol?_eq_some.mp h).1] at hmem
      obtain ⟨b, -, hb⟩ := List.mem_map.mp hmem
      exact letter_ne_dot b hb
    simp only [readLabel, hdots, h, Bool.false_eq_true, if_false]

theorem readLabel_shown {l : Label} (hplain : ∀ b ∈ l.symbols, b = Symbol.space ∨ b = Symbol.tab)
    (hlen : l.symbols.length ≤ Label.maxShown) : readLabel l.shown = .ok l := by
  have hshown : l.shown = l.symbols.map Label.letter := by
    simp [Label.shown, List.take_of_length_le hlen, Nat.not_lt.mpr hlen]
  exact readLabel_eq_ok.mpr ⟨hshown, fun b hb => isSymbol_of_plain (hplain b hb)⟩

theorem readLabel_cut {l : Label} (h : Label.maxShown < l.symbols.length) :
    readLabel l.shown = .error .truncatedLabel := by
  have hdots : ['.', '.', '.'].isSuffixOf l.shown = true := by
    rw [List.isSuffixOf_iff_suffix, Label.shown, if_pos h]
    exact List.suffix_append _ _
  rw [readLabel, if_pos hdots]

end Labels

section Instructions

namespace OperandKind

-- The words that a listing shows for an operand.
def shownWords : (kind : OperandKind) → kind.Operand → List (List Char)
  | .none, _ => []
  | .number, value => [Decimal.ofInt value.toInt]
  | .label, l => if l.symbols.isEmpty then [] else [l.shown]

-- What it says about the operand after these words.
def remark : (kind : OperandKind) → kind.Operand → List Char
  | .none, _ => []
  | .number, value =>
    match printable? value with
    | some c => " ; ascii: ".toList ++ [c]
    | .none => []
  | .label, _ => []

theorem listed_eq : (kind : OperandKind) → (operand : kind.Operand) →
    kind.listed operand = spaced (kind.shownWords operand) ++ kind.remark operand
  | .none, _ => rfl
  | .number, value => by
    simp only [shownWords, spaced_singleton]
    rfl
  | .label, l => by
    simp only [listed, shownWords, remark, List.append_nil]
    split <;> simp [spaced]

theorem isRemark_remark : (kind : OperandKind) → (operand : kind.Operand) →
    IsRemark (kind.remark operand)
  | .none, _ => .inl rfl
  | .number, value => by
    simp only [remark]
    split
    · exact .inr ⟨_, rfl⟩
    · exact .inl rfl
  | .label, _ => .inl rfl

theorem mem_remark : (kind : OperandKind) → (operand : kind.Operand) →
    ∀ c ∈ kind.remark operand, isControl c = false
  | .none, _ => by simp [remark]
  | .number, value => by
    intro c hc
    simp only [remark] at hc
    split at hc
    · rename_i char hchar
      rcases List.mem_append.mp hc with hc | hc
      · have hremark : " ; ascii: ".toList.all (!isControl ·) = true := by decide
        simpa using List.all_eq_true.mp hremark c hc
      · rw [List.mem_singleton.mp hc]
        have := (Option.filter_eq_some_iff.mp hchar).2
        simpa using this
    · simp at hc
  | .label, _ => by simp [remark]

theorem isWord_of_mem_shownWords : (kind : OperandKind) → (operand : kind.Operand) →
    ∀ word ∈ kind.shownWords operand, IsWord word
  | .none, _ => by simp [shownWords]
  | .number, value => by
    intro word hword
    rw [List.mem_singleton.mp hword]
    exact isWord_of_digits (Decimal.ofInt_ne_nil _) fun c hc => Decimal.mem_ofInt hc
  | .label, l => by
    intro word hword
    simp only [shownWords] at hword
    split at hword
    · simp at hword
    · rename_i hne
      rw [List.mem_singleton.mp hword]
      exact isWord_shown (by simpa using hne)

theorem length_shownWords_le : (kind : OperandKind) → (operand : kind.Operand) →
    (kind.shownWords operand).length ≤ 1
  | .none, _ => by simp [shownWords]
  | .number, _ => by simp [shownWords]
  | .label, l => by
    simp only [shownWords]
    split <;> simp

theorem readOperand_shownWords : (kind : OperandKind) → (operand : kind.Operand) →
    (∀ l, kind.label? operand = some l → (∀ b ∈ l.symbols, b = Symbol.space ∨ b = Symbol.tab) ∧
      l.symbols.length ≤ Label.maxShown) →
    readOperand kind (kind.shownWords operand).head? = .ok operand
  | .none, _, _ => rfl
  | .number, value, _ => by
    simp only [shownWords, List.head?_cons, readOperand, Decimal.readInt64_ofInt]
  | .label, l, h => by
    obtain ⟨hplain, hlen⟩ := h l rfl
    simp only [shownWords, readOperand]
    split
    · rename_i hnil
      obtain ⟨symbols⟩ := l
      obtain rfl : symbols = [] := by simpa using hnil
      rfl
    · exact readLabel_shown hplain hlen

theorem readOperand_cut : (kind : OperandKind) → (operand : kind.Operand) → {l : Label} →
    kind.label? operand = some l → Label.maxShown < l.symbols.length →
    readOperand kind (kind.shownWords operand).head? = .error .truncatedLabel
  | .label, l, _, rfl, h => by
    have hne : l.symbols.isEmpty = false := by
      cases hl : l.symbols with
      | nil => simp [hl] at h
      | cons b rest => rfl
    simp only [shownWords, hne, readOperand]
    exact readLabel_cut h

end OperandKind

namespace Instr

def isCut (i : Instr) : Bool :=
  i.label?.any fun l => Label.maxShown < l.symbols.length

def shownWords (i : Instr) : List (List Char) :=
  i.opcode.mnemonic.toList :: i.opcode.kind.shownWords i.operand

end Instr

theorem Opcode.isWord_mnemonic (op : Opcode) : IsWord op.mnemonic.toList := by
  constructor
  · cases op <;> decide
  · have hall :
        op.mnemonic.toList.all (fun c => !isBlank c && !isControl c && c != ';') = true := by
      cases op <;> decide
    simpa [and_assoc] using hall

theorem Opcode.ofMnemonic?_mnemonic (op : Opcode) : ofMnemonic? op.mnemonic = some op := by
  cases op <;> decide

theorem Instr.isWord_of_mem_shownWords (i : Instr) : ∀ word ∈ i.shownWords, IsWord word := by
  intro word hword
  rcases List.mem_cons.mp hword with rfl | hword
  · exact i.opcode.isWord_mnemonic
  · exact i.opcode.kind.isWord_of_mem_shownWords i.operand word hword

theorem Instr.isCut_eq_true {i : Instr} :
    i.isCut = true ↔ ∃ l, i.label? = some l ∧ Label.maxShown < l.symbols.length := by
  simp [isCut, Option.any_eq_true]

theorem Instr.isCut_eq_false {i : Instr} :
    i.isCut = false ↔ ∀ l, i.label? = some l → l.symbols.length ≤ Label.maxShown := by
  rw [← Bool.not_eq_true, isCut_eq_true]
  simp

theorem Instr.readInstr_shownWords {i : Instr} (h : i.Plain) :
    readInstr i.shownWords = if i.isCut then .error .truncatedLabel else .ok (some i) := by
  have hlen := i.opcode.kind.length_shownWords_le i.operand
  simp only [shownWords, readInstr, String.ofList_toList, Opcode.ofMnemonic?_mnemonic,
    Nat.not_lt.mpr hlen, if_false]
  by_cases hcut : i.isCut = true
  · obtain ⟨l, hl, hlong⟩ := isCut_eq_true.mp hcut
    rw [if_pos hcut, OperandKind.readOperand_cut _ _ hl hlong]
    rfl
  · have hshort := isCut_eq_false.mp (Bool.not_eq_true _ ▸ hcut)
    rw [if_neg hcut, OperandKind.readOperand_shownWords _ _ fun l hl => ⟨h l hl, hshort l hl⟩]
    rfl

theorem Token.listed_eq (t : Token) :
    t.listed = bare (Decimal.padded 4 t.stop) t.instr.shownWords ++
      t.instr.opcode.kind.remark t.instr.operand := by
  have hspaced : spaced t.instr.shownWords =
      ' ' :: (t.instr.opcode.mnemonic.toList ++
        spaced (t.instr.opcode.kind.shownWords t.instr.operand)) := rfl
  simp [listed, bare, OperandKind.listed_eq, hspaced]

theorem Token.isControl_of_mem_listed (t : Token) : ∀ c ∈ t.listed, isControl c = false := by
  intro c hc
  rw [listed_eq] at hc
  have hoffset : IsWord (Decimal.padded 4 t.stop) :=
    isWord_of_digits (Decimal.padded_ne_nil 4 t.stop)
      fun c hc => .inr (Decimal.isDigit_of_mem_padded hc)
  rcases List.mem_append.mp hc with hc | hc
  · exact (mem_bare hoffset t.instr.isWord_of_mem_shownWords hc).1
  · exact OperandKind.mem_remark _ _ c hc

theorem Token.feed_notMem_listed (t : Token) : '\n' ∉ t.listed := by
  intro hfeed
  exact absurd (t.isControl_of_mem_listed _ hfeed) (by decide)

theorem Token.getLast?_listed_ne (t : Token) : t.listed.getLast? ≠ some '\r' := by
  intro hreturn
  exact absurd (t.isControl_of_mem_listed _ (List.mem_of_getLast? hreturn)) (by decide)

theorem readLine_listed {t : Token} (h : t.instr.Plain) :
    readLine t.listed =
      if t.instr.isCut then .error .truncatedLabel else .ok (some t.instr) := by
  have hline : HasWords t.listed t.instr.shownWords := by
    rw [t.listed_eq]
    exact hasWords_bare (Decimal.padded_ne_nil 4 t.stop)
      (fun c hc => Decimal.isDigit_of_mem_padded hc) t.instr.isWord_of_mem_shownWords
      (OperandKind.isRemark_remark _ _)
  have hfirst : ∀ word ∈ t.instr.shownWords.head?, word.head? ≠ some '[' := by
    rintro word ⟨⟩
    exact t.instr.opcode.head?_mnemonic_ne
  rw [readLine_of_hasWords hline hfirst, Instr.readInstr_shownWords h]

end Instructions

end Esoterica.Whitespace
