import Esoterica.Proofs.Whitespace.Acceptance
import Esoterica.Proofs.Whitespace.RoundTrip

namespace Esoterica.Whitespace

open Text

-- The digits between the brackets that a line begins with.
def offsetDigits (line : List Char) : List Char :=
  (line.drop 1).takeWhile (· != ']')

def firstWord (line : List Char) : List Char :=
  (words ((line.dropWhile (· != ']')).drop 1)).headD []

-- Where the token of a line ends, and its opcode.
def columns? (line : List Char) : Option (Nat × Opcode) :=
  (Opcode.ofMnemonic? (String.ofList (firstWord line))).map fun op =>
    (Nat.ofDigitChars 10 (offsetDigits line) 0, op)

section Columns

-- Behind a word of a line stands a blank, or nothing.
theorem isBlank_head?_spaced_append (all : List (List Char)) {remark : List Char}
    (hremark : IsRemark remark) : ∀ c ∈ (spaced all ++ remark).head?, isBlank c = true := by
  intro c hc
  cases all with
  | nil =>
    rcases hremark with rfl | ⟨text, rfl⟩
    · simp [spaced] at hc
    · obtain rfl : c = ' ' := by simpa [spaced] using hc.symm
      rfl
  | cons word all =>
    obtain rfl : c = ' ' := by simpa [spaced] using hc.symm
    rfl

variable {offset : List Char} (hdigits : ∀ c ∈ offset, c.isDigit = true)

include hdigits

theorem offsetDigits_bare (all : List (List Char)) (remark : List Char) :
    offsetDigits (bare offset all ++ remark) = offset := by
  have hclose : ']' ∉ offset := notMem_digits hdigits rfl
  simp [offsetDigits, bare, List.takeWhile_append_of_pos (bne_of_notMem hclose)]

theorem firstWord_bare {word : List Char} (hword : IsWord word) (all : List (List Char))
    {remark : List Char} (hremark : IsRemark remark) :
    firstWord (bare offset (word :: all) ++ remark) = word := by
  have hclose : ']' ∉ '[' :: offset := by
    simp [notMem_digits hdigits (c := ']') rfl]
  have hline : bare offset (word :: all) ++ remark =
      ('[' :: offset) ++ ']' :: ' ' :: (word ++ (spaced all ++ remark)) := by
    simp [bare, spaced]
  have hwords : words (word ++ (spaced all ++ remark)) = word :: words (spaced all ++ remark) :=
    words_append hword.1 (fun c hc => (hword.2 c hc).1) (isBlank_head?_spaced_append all hremark)
  rw [firstWord, hline, List.dropWhile_append_of_pos (bne_of_notMem hclose)]
  simp [words_cons_of_blank, isBlank, hwords]

end Columns

namespace Token

theorem filled_offsetDigits (t : Token) : Decimal.Filled 4 (offsetDigits t.listed) t.stop := by
  rw [t.listed_eq, offsetDigits_bare fun c => Decimal.isDigit_of_mem_padded]
  exact Decimal.filled_padded (by omega) t.stop

theorem firstWord_listed (t : Token) :
    firstWord t.listed = t.instr.opcode.mnemonic.toList := by
  rw [t.listed_eq]
  exact firstWord_bare (fun c => Decimal.isDigit_of_mem_padded) t.instr.opcode.isWord_mnemonic _
    (OperandKind.isRemark_remark _ _)

theorem columns?_listed (t : Token) : columns? t.listed = some (t.stop, t.instr.opcode) := by
  rw [columns?, firstWord_listed, String.ofList_toList, Opcode.ofMnemonic?_mnemonic,
    t.filled_offsetDigits.value]
  rfl

end Token

-- The listing goes as far as the reading of the text, line by line. Each line is one line of text,
-- and tells where its token ends and what its opcode is.
theorem listing_tells_tokens (text : List Char) (source : Source) :
    ∃ tokens fault listing, (Reader.mk source 0).Yields tokens fault ∧
      disassembleOnto text source = (text ++ listing, fault) ∧
      lines listing = tokens.map Token.listed ∧
      (lines listing).map columns? = tokens.map (fun t => some (t.stop, t.instr.opcode)) ∧
      ∀ t ∈ tokens, '\n' ∉ t.listed ∧ t.listed.getLast? ≠ some '\r' ∧
        t.listed.head? = some '[' ∧ Decimal.Filled 4 (offsetDigits t.listed) t.stop ∧
        firstWord t.listed = t.instr.opcode.mnemonic.toList := by
  have hlines := lines_listed (scan source 0)
  refine ⟨(scan source 0).tokens, (scan source 0).fault, (scan source 0).listed,
    Reader.yields_scan source 0, rfl, hlines, ?_, ?_⟩
  · rw [hlines, List.map_map]
    exact List.map_congr_left fun t _ => t.columns?_listed
  · intro t _
    exact ⟨t.feed_notMem_listed, t.getLast?_listed_ne, rfl, t.filled_offsetDigits,
      t.firstWord_listed⟩

-- Pushes a line feed and a letter, and then breaks off.
def cutOff : Source :=
  .ofText "   \t \t \n   \t\t\t \t\t\t \t\t\n \t\né"

theorem scan_cutOff : scan cutOff 0 =
    ⟨[⟨⟨.push, (10 : Int64)⟩, 7⟩, ⟨⟨.push, (955 : Int64)⟩, 21⟩], some (.unexpectedEnd 27)⟩ := by
  with_unfolding_all rfl

theorem listing_tells_tokens_cutOff :
    ∃ listing, disassembleOnto "; two\n".toList cutOff =
        ("; two\n".toList ++ listing, some (.unexpectedEnd 27)) ∧
      lines listing = ["[0007] push 10".toList, "[0021] push 955 ; ascii: λ".toList] ∧
      (lines listing).map columns? = [some (7, .push), some (21, .push)] ∧
      Decimal.Filled 4 (offsetDigits "[0021] push 955 ; ascii: λ".toList) 21 := by
  obtain ⟨tokens, fault, listing, hyields, hlisting, hlines, hcolumns, hall⟩ :=
    listing_tells_tokens "; two\n".toList cutOff
  have hscan := Reader.yields_scan cutOff 0
  rw [scan_cutOff] at hscan
  obtain ⟨rfl, rfl⟩ := hyields.unique hscan
  have hletter : Token.listed ⟨⟨.push, (955 : Int64)⟩, 21⟩ =
      "[0021] push 955 ; ascii: λ".toList := by decide +kernel
  have hfeed : Token.listed ⟨⟨.push, (10 : Int64)⟩, 7⟩ = "[0007] push 10".toList := by
    decide +kernel
  obtain ⟨-, -, -, hfilled, -⟩ := hall ⟨⟨.push, (955 : Int64)⟩, 21⟩ (by simp)
  rw [hletter] at hfilled
  rw [List.map_cons, List.map_cons, hletter, hfeed] at hlines
  exact ⟨listing, hlisting, hlines, hcolumns, hfilled⟩

end Esoterica.Whitespace
