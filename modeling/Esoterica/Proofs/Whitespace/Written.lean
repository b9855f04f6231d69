import Esoterica.Proofs.Whitespace.RoundTrip
import Mathlib.Data.List.Forall2
import Mathlib.Data.List.ReduceOption

namespace Esoterica.Whitespace

open Text

-- A statement of a listing, with its operand as it is written.
structure Statement where
  op : Opcode
  operand : Option (List Char)

namespace Statement

def words (s : Statement) : List (List Char) :=
  s.op.mnemonic.toList :: s.operand.toList

end Statement

-- The words of a line that may hold a statement.
def lineWords (s : Option Statement) : List (List Char) :=
  (s.map Statement.words).getD []

-- The line holds the statement, or none.
def Holds (line : List Char) (s : Option Statement) : Prop :=
  HasWords line (lineWords s)

-- The operand of a kind that is written as a word or left out.
inductive OperandKind.Denotes : (kind : OperandKind) → Option (List Char) → kind.Operand → Prop
  | none : Denotes .none .none ()
  | number {word : List Char} {value : Int64} (h : Decimal.Denotes word value.toInt) :
      Denotes .number (some word) value
  | label {symbols : List UInt8} (h : ∀ b ∈ symbols, isSymbol b = true) :
      Denotes .label (some (symbols.map Label.letter)) (⟨symbols⟩ : Label)
  | unnamed : Denotes .label .none (⟨[]⟩ : Label)

-- The statement stands for the instruction.
def Statement.Denotes (s : Statement) (i : Instr) : Prop :=
  ∃ operand, s.op.kind.Denotes s.operand operand ∧ i = ⟨s.op, operand⟩

-- The lines of the listing hold these statements, in order.
def Written (listing : List Char) (statements : List Statement) : Prop :=
  ∃ held, List.Forall₂ Holds (lines listing) held ∧ held.reduceOption = statements

section Reading

theorem map_eq_ok {ε α β : Type} {x : Except ε α} {f : α → β} {b : β} :
    x.map f = .ok b ↔ ∃ a, x = .ok a ∧ f a = b := by
  cases x <;> simp [Except.map]

theorem readOperand_eq_ok {kind : OperandKind} {word? : Option (List Char)}
    {operand : kind.Operand} :
    readOperand kind word? = .ok operand ↔ kind.Denotes word? operand := by
  constructor
  · intro h
    cases kind with
    | none =>
      cases word? with
      | none => exact .none
      | some word => cases h
    | number =>
      cases word? with
      | none => cases h
      | some word =>
        simp only [readOperand] at h
        split at h
        · rename_i value hvalue
          cases h
          exact .number (Decimal.readInt64_eq_ok.mp hvalue)
        · cases h
    | label =>
      obtain ⟨symbols⟩ := operand
      obtain ⟨hword, hsymbols⟩ := readLabel_eq_ok.mp h
      cases word? with
      | none =>
        obtain rfl : symbols = [] := List.map_eq_nil_iff.mp hword.symm
        exact .unnamed
      | some word =>
        obtain rfl : word = symbols.map Label.letter := hword
        exact .label hsymbols
  · intro h
    cases h with
    | none => rfl
    | number h => simp only [readOperand, Decimal.readInt64_eq_ok.mpr h]
    | label h => exact readLabel_eq_ok.mpr ⟨rfl, h⟩
    | unnamed => rfl

theorem Opcode.ofMnemonic?_eq_some {name : List Char} {op : Opcode} :
    ofMnemonic? (String.ofList name) = some op ↔ name = op.mnemonic.toList := by
  constructor
  · intro h
    have hname : op.mnemonic = String.ofList name := by simpa using List.find?_some h
    rw [hname, String.toList_ofList]
  · rintro rfl
    rw [String.ofList_toList, ofMnemonic?_mnemonic]

theorem readInstr_eq_ok {all : List (List Char)} {i : Option Instr} :
    readInstr all = .ok i ↔ ∃ s, all = lineWords s ∧ Option.Rel Statement.Denotes s i := by
  constructor
  · intro h
    unfold readInstr at h
    split at h
    · cases h
      exact ⟨none, rfl, .none⟩
    · rename_i name operands
      split at h
      · cases h
      · rename_i op hop
        split at h
        · cases h
        · rename_i hone
          obtain ⟨operand, hoperand, rfl⟩ := map_eq_ok.mp h
          have hall : operands.head?.toList = operands := by
            cases operands with
            | nil => rfl
            | cons word more => simpa using hone
          refine ⟨some ⟨op, operands.head?⟩, ?_,
            .some ⟨operand, readOperand_eq_ok.mp hoperand, rfl⟩⟩
          rw [Opcode.ofMnemonic?_eq_some.mp hop]
          exact congrArg _ hall.symm
  · rintro ⟨s, rfl, h⟩
    cases h with
    | none => rfl
    | @some s i h =>
      obtain ⟨operand, hoperand, rfl⟩ := h
      have hone : ¬ 1 < s.operand.toList.length := by cases s.operand <;> simp
      have hread : readOperand s.op.kind s.operand.toList.head? = .ok operand := by
        rw [Option.head?_toList]
        exact readOperand_eq_ok.mpr hoperand
      simp only [lineWords, Option.map_some, Option.getD_some, Statement.words, readInstr,
        Opcode.ofMnemonic?_eq_some.mpr rfl, if_neg hone, hread, Except.map]

theorem head?_lineWords_ne (s : Option Statement) :
    ∀ word ∈ (lineWords s).head?, word.head? ≠ some '[' := by
  intro word hword
  cases s with
  | none => cases hword
  | some s =>
    cases hword
    exact s.op.head?_mnemonic_ne

theorem holds_iff {line : List Char} {s : Option Statement} :
    Holds line s ↔ ∃ code, dropOffset (codePart line) = .ok code ∧ words code = lineWords s := by
  constructor
  · intro h
    exact dropOffset_of_hasWords h (head?_lineWords_ne s)
  · rintro ⟨code, hcode, hwords⟩
    rw [Holds, ← hwords]
    exact hasWords_of_dropOffset hcode

instance (line : List Char) (s : Option Statement) : Decidable (Holds line s) :=
  decidable_of_iff ((dropOffset (codePart line)).map words = .ok (lineWords s)) <| by
    rw [holds_iff, map_eq_ok]

theorem readLine_eq_ok {line : List Char} {i : Option Instr} :
    readLine line = .ok i ↔ ∃ s, Holds line s ∧ Option.Rel Statement.Denotes s i := by
  constructor
  · intro h
    obtain ⟨all, hline, hread⟩ := hasWords_of_readLine h
    obtain ⟨s, rfl, hs⟩ := readInstr_eq_ok.mp hread
    exact ⟨s, hline, hs⟩
  · rintro ⟨s, hline, hs⟩
    rw [readLine_of_hasWords hline (head?_lineWords_ne s)]
    exact readInstr_eq_ok.mpr ⟨s, rfl, hs⟩

theorem readLines_cons_eq_ok {number : Nat} {line : List Char} {rest : List (List Char)}
    {instrs : List Instr} :
    readLines number (line :: rest) = .ok instrs ↔
      ∃ i more, readLine line = .ok i ∧ readLines (number + 1) rest = .ok more ∧
        i.toList ++ more = instrs := by
  rw [readLines]
  split
  · simp_all
  · simp_all
  · simp_all [map_eq_ok]

theorem readLines_eq_ok {number : Nat} {texts : List (List Char)} {instrs : List Instr} :
    readLines number texts = .ok instrs ↔
      ∃ held, List.Forall₂ Holds texts held ∧
        List.Forall₂ Statement.Denotes held.reduceOption instrs := by
  induction texts generalizing number instrs with
  | nil => simp [readLines, eq_comm]
  | cons line rest ih =>
    simp only [readLines_cons_eq_ok, readLine_eq_ok, ih, List.forall₂_cons_left_iff]
    constructor
    · rintro ⟨i, more, ⟨s, hs, hi⟩, ⟨held, hheld, hmore⟩, rfl⟩
      refine ⟨s :: held, ⟨s, held, hs, hheld, rfl⟩, ?_⟩
      cases hi with
      | none => exact hmore
      | some hi => exact .cons hi hmore
    · rintro ⟨_, ⟨s, held, hs, hheld, rfl⟩, hinstrs⟩
      cases s with
      | none => exact ⟨none, instrs, ⟨none, hs, .none⟩, ⟨held, hheld, hinstrs⟩, rfl⟩
      | some s =>
        obtain ⟨i, more, hi, hmore, rfl⟩ := List.forall₂_cons_left_iff.mp hinstrs
        exact ⟨some i, more, ⟨some s, hs, .some hi⟩, ⟨held, hheld, hmore⟩, rfl⟩

-- A listing is read exactly if it says something, and as what it says.
theorem readListing_eq_ok {listing : List Char} {instrs : List Instr} :
    readListing listing = .ok instrs ↔
      ∃ statements, Written listing statements ∧
        List.Forall₂ Statement.Denotes statements instrs := by
  rw [readListing, readLines_eq_ok]
  constructor
  · rintro ⟨held, hheld, hinstrs⟩
    exact ⟨_, ⟨held, hheld, rfl⟩, hinstrs⟩
  · rintro ⟨_, ⟨held, hheld, rfl⟩, hinstrs⟩
    exact ⟨held, hheld, hinstrs⟩

end Reading

section Feeds

-- No label of the statement has a feed written in it.
def Statement.Feedless (s : Statement) : Prop :=
  s.op.kind = .label → ∀ word ∈ s.operand, 'n' ∉ word

instance (s : Statement) : Decidable s.Feedless :=
  inferInstanceAs (Decidable (_ → _))

theorem letter_eq_n {b : UInt8} (h : isSymbol b = true) :
    Label.letter b = 'n' ↔ ¬ (b = Symbol.space ∨ b = Symbol.tab) := by
  simp only [isSymbol, Bool.or_eq_true, beq_iff_eq] at h
  rcases h with (rfl | rfl) | rfl <;> decide

theorem n_notMem_letters {symbols : List UInt8} (h : ∀ b ∈ symbols, isSymbol b = true) :
    'n' ∉ symbols.map Label.letter ↔ ∀ b ∈ symbols, b = Symbol.space ∨ b = Symbol.tab := by
  rw [List.mem_map, not_exists]
  refine forall_congr' fun b => ?_
  rw [not_and]
  refine forall_congr' fun hb => ?_
  rw [letter_eq_n (h b hb), not_not]

theorem OperandKind.Denotes.isSymbol_label {kind : OperandKind} {word? : Option (List Char)}
    {operand : kind.Operand} (h : kind.Denotes word? operand) :
    ∀ l, kind.label? operand = some l → ∀ b ∈ l.symbols, isSymbol b = true := by
  intro l hl
  cases h with
  | none => cases hl
  | number h => cases hl
  | label h =>
    cases hl
    exact h
  | unnamed =>
    cases hl
    simp

theorem OperandKind.Denotes.plain_iff {kind : OperandKind} {word? : Option (List Char)}
    {operand : kind.Operand} (h : kind.Denotes word? operand) :
    (∀ l, kind.label? operand = some l → ∀ b ∈ l.symbols, b = Symbol.space ∨ b = Symbol.tab) ↔
      (kind = .label → ∀ word ∈ word?, 'n' ∉ word) := by
  cases h with
  | none => simp [label?]
  | number h => simp [label?]
  | label h => simp only [label?, Option.some.injEq, forall_eq', Option.mem_some_iff,
      n_notMem_letters h, forall_const]
  | unnamed => simp [label?]

namespace Statement

theorem Denotes.isSymbol_of_mem_encode {s : Statement} {i : Instr} (h : s.Denotes i) {b : UInt8}
    (hb : b ∈ i.encode) : isSymbol b = true := by
  obtain ⟨operand, hoperand, rfl⟩ := h
  exact Instr.isSymbol_of_mem_encode (i := ⟨s.op, operand⟩) hoperand.isSymbol_label hb

theorem Denotes.plain_iff {s : Statement} {i : Instr} (h : s.Denotes i) :
    i.Plain ↔ s.Feedless := by
  obtain ⟨operand, hoperand, rfl⟩ := h
  exact hoperand.plain_iff

variable {statements : List Statement} {instrs : List Instr}
  (h : List.Forall₂ Statement.Denotes statements instrs)

include h

theorem forall_isSymbol : ∀ i ∈ instrs, ∀ b ∈ i.encode, isSymbol b = true := by
  induction h with
  | nil => simp
  | cons hs _ ih => exact List.forall_mem_cons.mpr ⟨fun b => hs.isSymbol_of_mem_encode, ih⟩

theorem forall_plain_iff : (∀ i ∈ instrs, i.Plain) ↔ ∀ s ∈ statements, s.Feedless := by
  induction h with
  | nil => simp
  | cons hs _ ih => rw [List.forall_mem_cons, List.forall_mem_cons, hs.plain_iff, ih]

end Statement

theorem exists_tokens_canonical_iff {instrs : List Instr} :
    (∃ tokens, tokens? (canonical instrs) = .ok tokens ∧ tokens.map Token.instr = instrs) ↔
      ∀ i ∈ instrs, i.Plain := by
  constructor
  · rintro ⟨tokens, htokens, rfl⟩
    exact List.forall_mem_map.mpr (plain_of_tokens? htokens)
  · exact tokens?_canonical

end Feeds

theorem assembled_reads_back_iff {listing : List Char} {source : Source}
    (h : assemble listing = .ok source) :
    (∃ statements instrs, Written listing statements ∧
      List.Forall₂ Statement.Denotes statements instrs) ∧
    ∀ statements instrs, Written listing statements →
      List.Forall₂ Statement.Denotes statements instrs →
      (∀ b ∈ source, b = Symbol.space ∨ b = Symbol.tab ∨ b = Symbol.feed) ∧
      ((∃ tokens, tokens? source = .ok tokens ∧ tokens.map Token.instr = instrs) ↔
        ∀ s ∈ statements, s.Feedless) := by
  obtain ⟨instrs, hread, rfl⟩ := map_eq_ok.mp h
  obtain ⟨statements, hwritten, hinstrs⟩ := readListing_eq_ok.mp hread
  refine ⟨⟨statements, instrs, hwritten, hinstrs⟩, ?_⟩
  intro statements' instrs' hwritten' hinstrs'
  -- what is read does not depend on how it is found in the listing
  obtain rfl : instrs = instrs' := by
    have hread' := readListing_eq_ok.mpr ⟨statements', hwritten', hinstrs'⟩
    exact Except.ok.inj (hread.symm.trans hread')
  constructor
  · intro b hb
    obtain ⟨i, hi, hb⟩ := List.mem_flatMap.mp (List.mem_toArray.mp hb)
    have hsymbol := Statement.forall_isSymbol hinstrs' i hi b hb
    simpa [isSymbol, or_assoc] using hsymbol
  · exact exists_tokens_canonical_iff.trans (Statement.forall_plain_iff hinstrs')

-- A number, an empty line, and a label that a jump goes back to.
def counted : List Char :=
  "  [12] push +5 ; five\r\n\n\tlabel 01\njmp 01".toList

def countedInstrs : List Instr :=
  [⟨.push, (5 : Int64)⟩, ⟨.label, (⟨[Symbol.space, Symbol.tab]⟩ : Label)⟩,
    ⟨.jmp, (⟨[Symbol.space, Symbol.tab]⟩ : Label)⟩]

-- A label that begins with a feed, then an instruction.
def fed : List Char :=
  "label n\ndup".toList

def fedInstrs : List Instr :=
  [⟨.label, (⟨[Symbol.feed]⟩ : Label)⟩, ⟨.dup, ()⟩]

theorem assembled_reads_back_iff_counted_fed :
    (assemble counted = .ok (canonical countedInstrs) ∧
      ∃ tokens, tokens? (canonical countedInstrs) = .ok tokens ∧
        tokens.map Token.instr = countedInstrs) ∧
    assemble fed = .ok (canonical fedInstrs) ∧
      ¬ ∃ tokens, tokens? (canonical fedInstrs) = .ok tokens ∧
        tokens.map Token.instr = fedInstrs := by
  constructor
  · have h : assemble counted = .ok (canonical countedInstrs) := by decide +kernel
    have hwritten : Written counted
        [⟨.push, some "+5".toList⟩, ⟨.label, some "01".toList⟩, ⟨.jmp, some "01".toList⟩] :=
      ⟨[some ⟨.push, some "+5".toList⟩, none, some ⟨.label, some "01".toList⟩,
        some ⟨.jmp, some "01".toList⟩], by decide +kernel, rfl⟩
    have hnumber : OperandKind.Denotes .number (some "+5".toList) (5 : Int64) :=
      readOperand_eq_ok.mp (by decide +kernel)
    have hlabel : OperandKind.Denotes .label (some "01".toList)
        (⟨[Symbol.space, Symbol.tab]⟩ : Label) := readOperand_eq_ok.mp (by decide +kernel)
    have hback := (assembled_reads_back_iff h).2 _ countedInstrs hwritten
      (.cons ⟨_, hnumber, rfl⟩ (.cons ⟨_, hlabel, rfl⟩ (.cons ⟨_, hlabel, rfl⟩ .nil)))
    exact ⟨h, hback.2.mpr (by decide +kernel)⟩
  · have h : assemble fed = .ok (canonical fedInstrs) := by decide +kernel
    have hwritten : Written fed [⟨.label, some "n".toList⟩, ⟨.dup, none⟩] :=
      ⟨[some ⟨.label, some "n".toList⟩, some ⟨.dup, none⟩], by decide +kernel, rfl⟩
    have hlabel : OperandKind.Denotes .label (some "n".toList) (⟨[Symbol.feed]⟩ : Label) :=
      readOperand_eq_ok.mp (by decide +kernel)
    have hback := (assembled_reads_back_iff h).2 _ fedInstrs hwritten
      (.cons ⟨_, hlabel, rfl⟩ (.cons ⟨_, .none, rfl⟩ .nil))
    exact ⟨h, mt hback.2.mp (by decide +kernel)⟩

end Esoterica.Whitespace
