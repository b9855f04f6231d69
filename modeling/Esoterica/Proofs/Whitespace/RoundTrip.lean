import Esoterica.Proofs.Whitespace.Encoding
import Esoterica.Proofs.Whitespace.Listing

namespace Esoterica.Whitespace

open Text

theorem tokens?_eq_ok {source : Source} {tokens : List Token} :
    tokens? source = .ok tokens ↔ scan source 0 = ⟨tokens, none⟩ := by
  unfold tokens?
  obtain ⟨read, fault⟩ := scan source 0
  cases fault <;> simp

theorem disassemble_eq_ok {source : Source} {listing : List Char} :
    disassemble source = .ok listing ↔
      ∃ tokens, tokens? source = .ok tokens ∧ Scan.listed ⟨tokens, none⟩ = listing := by
  simp only [tokens?_eq_ok, disassemble]
  obtain ⟨read, fault⟩ := scan source 0
  cases fault <;> simp

-- The text of a program that says nothing but its instructions.
def canonical (instrs : List Instr) : Source :=
  (instrs.flatMap Instr.encode).toArray

theorem tokens?_canonical {instrs : List Instr} (h : ∀ i ∈ instrs, i.Plain) :
    ∃ tokens, tokens? (canonical instrs) = .ok tokens ∧ tokens.map Token.instr = instrs := by
  obtain ⟨hfault, hinstrs⟩ := scan_encode h
  refine ⟨_, tokens?_eq_ok.mpr ?_, hinstrs⟩
  rw [← hfault]
  rfl

theorem lines_listed (s : Scan) : lines s.listed = s.tokens.map Token.listed := by
  have hlisted : s.listed = (s.tokens.map Token.listed).flatMap (· ++ ['\n']) := by
    rw [List.flatMap_map]
    rfl
  rw [hlisted]
  apply lines_flatMap
  intro line hline
  obtain ⟨t, -, rfl⟩ := List.mem_map.mp hline
  exact ⟨t.feed_notMem_listed, t.getLast?_listed_ne⟩

section Lines

variable {tokens : List Token} (hplain : ∀ t ∈ tokens, t.instr.Plain)

include hplain

theorem readLines_listed (hcut : ∀ t ∈ tokens, t.instr.isCut = false) (line : Nat) :
    readLines line (tokens.map Token.listed) = .ok (tokens.map Token.instr) := by
  induction tokens generalizing line with
  | nil => rfl
  | cons t tokens ih =>
    have hrest := ih (fun t ht => hplain t (List.mem_cons_of_mem _ ht))
      (fun t ht => hcut t (List.mem_cons_of_mem _ ht)) (line + 1)
    have hfirst := readLine_listed (hplain t List.mem_cons_self)
    rw [hcut t List.mem_cons_self] at hfirst
    simp [readLines, hfirst, hrest, Except.map]

-- The first label that was cut decides, since all lines before it can be read.
theorem readLines_listed_cut (hcut : ∃ t ∈ tokens, t.instr.isCut = true) (line : Nat) :
    readLines line (tokens.map Token.listed) =
      .error ⟨.truncatedLabel, line + tokens.findIdx (·.instr.isCut)⟩ := by
  induction tokens generalizing line with
  | nil => simp at hcut
  | cons t tokens ih =>
    have hfirst := readLine_listed (hplain t List.mem_cons_self)
    by_cases ht : t.instr.isCut = true
    · simp [readLines, hfirst, ht, List.findIdx_cons]
    · have hmore : ∃ t ∈ tokens, t.instr.isCut = true := by
        obtain ⟨t', hmem, ht'⟩ := hcut
        rcases List.mem_cons.mp hmem with rfl | hmem
        · exact absurd ht' ht
        · exact ⟨t', hmem, ht'⟩
      have hrest := ih (fun t ht => hplain t (List.mem_cons_of_mem _ ht)) hmore (line + 1)
      simp [readLines, hfirst, ht, hrest, Except.map, List.findIdx_cons]
      omega

theorem assemble_listed (hcut : ∀ t ∈ tokens, t.instr.isCut = false) :
    assemble (Scan.listed ⟨tokens, none⟩) = .ok (canonical (tokens.map Token.instr)) := by
  rw [assemble, readListing, lines_listed, readLines_listed hplain hcut]
  rfl

theorem assemble_listed_cut (hcut : ∃ t ∈ tokens, t.instr.isCut = true) :
    assemble (Scan.listed ⟨tokens, none⟩) =
      .error ⟨.truncatedLabel, tokens.findIdx (·.instr.isCut) + 1⟩ := by
  rw [assemble, readListing, lines_listed, readLines_listed_cut hplain hcut, Nat.add_comm]
  rfl

end Lines

theorem plain_of_tokens? {source : Source} {tokens : List Token}
    (h : tokens? source = .ok tokens) : ∀ t ∈ tokens, t.instr.Plain := by
  intro t ht
  have hscan := tokens?_eq_ok.mp h
  exact plain_of_mem_scan (by rw [hscan]; exact ht)

-- A text whose labels can all be shown goes through its listing to a text with the same
-- instructions, and that text comes back from its own listing as it is.
theorem exists_reassembled {source : Source} {tokens : List Token}
    (htokens : tokens? source = .ok tokens) (hcut : ∀ t ∈ tokens, t.instr.isCut = false) :
    ∃ tokens', tokens? (canonical (tokens.map Token.instr)) = .ok tokens' ∧
      tokens'.map Token.instr = tokens.map Token.instr ∧
      assemble (Scan.listed ⟨tokens, none⟩) = .ok (canonical (tokens.map Token.instr)) ∧
      assemble (Scan.listed ⟨tokens', none⟩) = .ok (canonical (tokens.map Token.instr)) := by
  have hplain := plain_of_tokens? htokens
  have hinstrsPlain : ∀ i ∈ tokens.map Token.instr, i.Plain := by
    intro i hi
    obtain ⟨t, ht, rfl⟩ := List.mem_map.mp hi
    exact hplain t ht
  obtain ⟨tokens', htokens', hinstrs⟩ := tokens?_canonical hinstrsPlain
  have hcut' : ∀ t ∈ tokens', t.instr.isCut = false := by
    intro t ht
    have hmem : t.instr ∈ tokens.map Token.instr := hinstrs ▸ List.mem_map_of_mem ht
    obtain ⟨t', ht', heq⟩ := List.mem_map.mp hmem
    rw [← heq]
    exact hcut t' ht'
  refine ⟨tokens', htokens', hinstrs, assemble_listed hplain hcut, ?_⟩
  rw [assemble_listed (plain_of_tokens? htokens') hcut', hinstrs]

theorem assemble_disassemble {source : Source} {listing : List Char}
    (h : disassemble source = .ok listing) :
    ∃ tokens, tokens? source = .ok tokens ∧
      ((∀ t ∈ tokens, ∀ l, t.instr.label? = some l → l.symbols.length ≤ Label.maxShown) →
        ∃ again tokens' listing', assemble listing = .ok again ∧
          tokens? again = .ok tokens' ∧ tokens'.map Token.instr = tokens.map Token.instr ∧
          disassemble again = .ok listing' ∧ assemble listing' = .ok again) ∧
      ((∃ t ∈ tokens, ∃ l, t.instr.label? = some l ∧ Label.maxShown < l.symbols.length) →
        assemble listing = .error ⟨.truncatedLabel, tokens.findIdx (·.instr.isCut) + 1⟩) := by
  obtain ⟨tokens, htokens, rfl⟩ := disassemble_eq_ok.mp h
  refine ⟨tokens, htokens, fun hshort => ?_, fun hlong => ?_⟩
  · have hcut := fun t ht => Instr.isCut_eq_false.mpr (hshort t ht)
    obtain ⟨tokens', htokens', hinstrs, hassemble, hagain⟩ := exists_reassembled htokens hcut
    exact ⟨_, tokens', _, hassemble, htokens', hinstrs,
      disassemble_eq_ok.mpr ⟨tokens', htokens', rfl⟩, hagain⟩
  · obtain ⟨t, ht, l, hl, hlen⟩ := hlong
    exact assemble_listed_cut (plain_of_tokens? htokens)
      ⟨t, ht, Instr.isCut_eq_true.mpr ⟨l, hl, hlen⟩⟩

-- `push -0` with a comment inside, then a jump to the label without symbols.
def remarked : Source :=
  Source.ofText "  +\t \n\n \n\n"

-- `exit`, then a label of 61 spaces.
def overlong : Source :=
  Source.ofText ("\n\n\n\n  " ++ String.ofList (List.replicate 61 ' ') ++ "\n")

theorem assemble_disassemble_remarked_overlong :
    (∃ tokens again tokens' listing', tokens? remarked = .ok tokens ∧
      assemble "[0005] push 0\n[0009] jmp\n".toList = .ok again ∧
      tokens? again = .ok tokens' ∧ tokens'.map Token.instr = tokens.map Token.instr ∧
      disassemble again = .ok listing' ∧ assemble listing' = .ok again) ∧
    ∃ listing, disassemble overlong = .ok listing ∧
      assemble listing = .error ⟨.truncatedLabel, 2⟩ := by
  constructor
  · have h : disassemble remarked = .ok "[0005] push 0\n[0009] jmp\n".toList := by decide +kernel
    obtain ⟨tokens, htokens, hround, -⟩ := assemble_disassemble h
    have hlabels : ∀ t ∈ (scan remarked 0).tokens, ∀ l ∈ t.instr.label?,
        l.symbols.length ≤ Label.maxShown := by decide +kernel
    rw [tokens?_eq_ok.mp htokens] at hlabels
    obtain ⟨again, tokens', listing', hagain⟩ := hround hlabels
    exact ⟨tokens, again, tokens', listing', htokens, hagain⟩
  · have h : disassemble overlong = .ok ("[0002] exit\n[0067] label ".toList ++
        List.replicate 60 '0' ++ "...\n".toList) := by decide +kernel
    obtain ⟨tokens, htokens, -, hcut⟩ := assemble_disassemble h
    have hlabels : ∃ t ∈ (scan overlong 0).tokens, ∃ l ∈ t.instr.label?,
        Label.maxShown < l.symbols.length := by decide +kernel
    have hfirst : (scan overlong 0).tokens.findIdx (·.instr.isCut) = 1 := by decide +kernel
    rw [tokens?_eq_ok.mp htokens] at hlabels hfirst
    simp only at hfirst
    rw [hfirst] at hcut
    exact ⟨_, h, hcut hlabels⟩

end Esoterica.Whitespace
