import Esoterica.Proofs.Whitespace.Acceptance
import Esoterica.Proofs.Whitespace.JumpTable
import Esoterica.Whitespace.Machine
import Mathlib.Data.Set.Card

namespace Esoterica.Whitespace

theorem Instr.defines_iff {i : Instr} {label : Label} :
    i.defines label = true ↔ i = ⟨.label, label⟩ := by
  unfold defines
  split
  · rename_i l
    constructor
    · intro h
      rw [eq_of_beq h]
    · intro h
      cases h
      exact beq_self_eq_true label
  · rename_i hother
    simpa using hother label

def definedLabels (tokens : List Token) : Set Label :=
  {l | ∃ t ∈ tokens, t.instr = ⟨.label, l⟩}

theorem definedLabels_append_label (tokens : List Token) (label : Label) (stop : Nat) :
    definedLabels (tokens ++ [⟨⟨.label, label⟩, stop⟩]) = insert label (definedLabels tokens) := by
  ext l
  simp only [definedLabels, Set.mem_ofPred_eq, Set.mem_insert_iff, List.mem_append,
    List.mem_singleton]
  constructor
  · rintro ⟨t, ht | rfl, hinstr⟩
    · exact .inr ⟨t, ht, hinstr⟩
    · cases hinstr
      exact .inl rfl
  · rintro (rfl | ⟨t, ht, hinstr⟩)
    · exact ⟨_, .inr rfl, rfl⟩
    · exact ⟨t, .inl ht, hinstr⟩

theorem definedLabels_append_other (tokens : List Token) {t : Token}
    (h : ∀ label : Label, t.instr ≠ ⟨.label, label⟩) :
    definedLabels (tokens ++ [t]) = definedLabels tokens := by
  ext l
  simp [definedLabels, or_and_right, exists_or, h l]

theorem finite_definedLabels (tokens : List Token) : (definedLabels tokens).Finite := by
  refine (tokens.finite_toSet.image fun t => t.instr.label?.getD ⟨[]⟩).subset ?_
  rintro label ⟨⟨instr, stop⟩, ht, hlabel⟩
  obtain rfl : instr = ⟨.label, label⟩ := hlabel
  exact ⟨_, ht, rfl⟩

namespace JumpTable

-- A label stands for the end of its last definition, if it has one.
theorem target?_eq_find? (tokens : List Token) (label : Label) :
    (ofTokens tokens).target? label =
      (tokens.reverse.find? (·.instr.defines label)).map Token.stop := by
  induction tokens using List.reverseRecOn with
  | nil => simp [ofTokens, target?, empty]
  | append_singleton tokens t ih =>
    rw [ofTokens_append, target?_add, ih, List.reverse_concat, List.find?_cons]
    cases t.instr.defines label <;> rfl

theorem target?_eq_some_iff {tokens : List Token} {label : Label} {offset : Nat} :
    (ofTokens tokens).target? label = some offset ↔
      ∃ before t after, tokens = before ++ t :: after ∧ t.instr = ⟨.label, label⟩ ∧
        (∀ later ∈ after, later.instr ≠ ⟨.label, label⟩) ∧ t.stop = offset := by
  simp only [target?_eq_find?, Option.map_eq_some_iff, List.find?_eq_some_iff_append,
    Instr.defines_iff, Bool.not_eq_true', ← Bool.not_eq_true]
  constructor
  · rintro ⟨t, ⟨ht, after, before, htokens, hafter⟩, hstop⟩
    refine ⟨before.reverse, t, after.reverse, ?_, ht, ?_, hstop⟩
    · rw [← List.reverse_reverse tokens, htokens]
      simp
    · intro later hlater
      exact hafter later (List.mem_reverse.mp hlater)
  · rintro ⟨before, t, after, rfl, ht, hafter, hstop⟩
    refine ⟨t, ⟨ht, after.reverse, before.reverse, by simp, ?_⟩, hstop⟩
    intro later hlater
    exact hafter later (List.mem_reverse.mp hlater)

theorem target?_eq_none_iff {tokens : List Token} {label : Label} :
    (ofTokens tokens).target? label = none ↔ ∀ t ∈ tokens, t.instr ≠ ⟨.label, label⟩ := by
  simp [target?_eq_find?, Instr.defines_iff]

theorem mem_targets_iff {tokens : List Token} {label : Label} :
    label ∈ (ofTokens tokens).targets ↔ label ∈ definedLabels tokens := by
  rw [Std.HashMap.mem_iff_isSome_getElem?, ← not_iff_not, Bool.not_eq_true,
    Option.isSome_eq_false_iff, Option.isNone_iff_eq_none]
  show (ofTokens tokens).target? label = none ↔ _
  rw [target?_eq_none_iff]
  simp [definedLabels]

theorem targets_add_of_other (table : JumpTable) {t : Token}
    (h : ∀ label : Label, t.instr ≠ ⟨.label, label⟩) : (table.add t).targets = table.targets := by
  unfold add
  split
  · rename_i label hlabel
    exact absurd hlabel (h label)
  · rfl

-- A definition counts if the label has none before.
theorem size_ofTokens (tokens : List Token) :
    (ofTokens tokens).size = (definedLabels tokens).ncard := by
  induction tokens using List.reverseRecOn with
  | nil => simp [ofTokens, size, empty, definedLabels]
  | append_singleton tokens t ih =>
    rw [ofTokens_append]
    by_cases hlabel : ∃ label : Label, t.instr = ⟨.label, label⟩
    · obtain ⟨label, hlabel⟩ := hlabel
      obtain ⟨instr, stop⟩ := t
      obtain rfl : instr = ⟨.label, label⟩ := hlabel
      have hsize : ((ofTokens tokens).add ⟨⟨.label, label⟩, stop⟩).size =
          ((ofTokens tokens).targets.insert label stop).size := rfl
      rw [definedLabels_append_label, hsize, Std.HashMap.size_insert]
      by_cases hmem : label ∈ definedLabels tokens
      · rw [if_pos (mem_targets_iff.mpr hmem), Set.insert_eq_of_mem hmem]
        exact ih
      · rw [if_neg (mt mem_targets_iff.mp hmem),
          Set.ncard_insert_of_notMem hmem (finite_definedLabels tokens)]
        exact congrArg (· + 1) ih
    · have hother : ∀ label : Label, t.instr ≠ ⟨.label, label⟩ := fun label h => hlabel ⟨label, h⟩
      rw [definedLabels_append_other _ hother, size, targets_add_of_other _ hother]
      exact ih

-- What the table of a text holds, whose tokens these are.
structure Records (table : JumpTable) (size : Nat) (tokens : List Token) : Prop where
  boundaries : table.boundaries.toList = tokens.map Token.stop
  ascending : table.boundaries.toList.Pairwise (· < ·)
  inside : ∀ offset ∈ table.boundaries, offset < size
  found : ∀ offset, table.isBoundary offset = true ↔ ∃ t ∈ tokens, t.stop = offset
  defined : ∀ label offset, table.target? label = some offset ↔
    ∃ before t after, tokens = before ++ t :: after ∧ t.instr = ⟨.label, label⟩ ∧
      (∀ later ∈ after, later.instr ≠ ⟨.label, label⟩) ∧ t.stop = offset
  undefined : ∀ label, table.target? label = none ↔ ∀ t ∈ tokens, t.instr ≠ ⟨.label, label⟩
  count : table.size = (definedLabels tokens).ncard

theorem records_ofTokens (source : Source) :
    (ofTokens (scan source 0).tokens).Records source.size (scan source 0).tokens := by
  obtain ⟨hascending, hinside⟩ := scan_ascending source 0
  have hboundaries := boundaries_ofTokens (scan source 0).tokens
  refine ⟨hboundaries, hboundaries ▸ hascending, ?_, isBoundary_ofTokens hascending,
    fun _ _ => target?_eq_some_iff, fun _ => target?_eq_none_iff, size_ofTokens _⟩
  intro offset hoffset
  rw [← Array.mem_toList_iff, hboundaries] at hoffset
  obtain ⟨t, ht, rfl⟩ := List.mem_map.mp hoffset
  exact (hinside t ht).2

end JumpTable

-- A jump fails because of its label exactly if the table does not know the label.
theorem Machine.jump_undefined_iff {κ : Type} (p : Program) (label : Label) (m : Machine) (c : κ) :
    jump p label m c = .fault (.undefinedLabel label) m c ↔ p.jumps.target? label = none := by
  unfold jump
  cases htarget : p.jumps.target? label with
  | none => simp
  | some target =>
    simp only [seek, reduceCtorEq, iff_false]
    split <;> simp

theorem program_records_definitions (source : Source) :
    (∀ tokens, (Reader.mk source 0).Yields tokens none →
      ∃ p, Program.ofSource source = .ok p ∧ p.source = source ∧
        p.jumps.Records source.size tokens ∧
        ∀ (κ : Type) (label : Label) (m : Machine) (c : κ),
          Machine.jump p label m c = .fault (.undefinedLabel label) m c ↔
            ∀ t ∈ tokens, t.instr ≠ ⟨.label, label⟩) ∧
    ∀ tokens fault, (Reader.mk source 0).Yields tokens (some fault) →
      Program.ofSource source = .error fault := by
  have hyields := Reader.yields_scan source 0
  constructor
  · intro tokens h
    obtain ⟨rfl, hnone⟩ := h.unique hyields
    have hrecords := JumpTable.records_ofTokens source
    refine ⟨⟨source, .ofTokens (scan source 0).tokens⟩, ?_, rfl, hrecords, ?_⟩
    · rw [Program.ofSource, tokens?, ← hnone]
      rfl
    · intro κ label m c
      rw [Machine.jump_undefined_iff]
      exact hrecords.undefined label
  · intro tokens fault h
    obtain ⟨-, hfault⟩ := h.unique hyields
    rw [Program.ofSource, tokens?, ← hfault]
    rfl

-- A label that is defined twice, with a duplication between the definitions.
def twiceDefined : Source :=
  Source.ofText "\n  \t\n \n \n  \t\n"

theorem scan_twiceDefined : scan twiceDefined 0 =
    ⟨[⟨⟨.label, ⟨[Symbol.tab]⟩⟩, 4⟩, ⟨⟨.dup, ()⟩, 7⟩, ⟨⟨.label, ⟨[Symbol.tab]⟩⟩, 12⟩], none⟩ := by
  with_unfolding_all rfl

-- A definition whose label does not end.
def halfDefined : Source :=
  Source.ofText "\n  \t"

theorem scan_halfDefined : scan halfDefined 0 = ⟨[], some (.unexpectedEnd 4)⟩ := by
  with_unfolding_all rfl

theorem program_records_definitions_twice :
    (∃ p, Program.ofSource twiceDefined = .ok p ∧
      p.jumps.target? ⟨[Symbol.tab]⟩ = some 12 ∧ p.jumps.target? ⟨[]⟩ = none ∧
      p.jumps.isBoundary 7 = true ∧ p.jumps.isBoundary 3 = false) ∧
    Program.ofSource halfDefined = .error (.unexpectedEnd 4) := by
  have hread := Reader.yields_scan twiceDefined 0
  have hbroken := Reader.yields_scan halfDefined 0
  rw [scan_twiceDefined] at hread
  rw [scan_halfDefined] at hbroken
  constructor
  · obtain ⟨p, hp, -, hrecords, -⟩ := (program_records_definitions twiceDefined).1 _ hread
    refine ⟨p, hp, ?_, ?_, ?_, ?_⟩
    · exact (hrecords.defined _ _).mpr
        ⟨[⟨⟨.label, ⟨[Symbol.tab]⟩⟩, 4⟩, ⟨⟨.dup, ()⟩, 7⟩], ⟨⟨.label, ⟨[Symbol.tab]⟩⟩, 12⟩, [], rfl,
          rfl, by simp, rfl⟩
    · rw [hrecords.undefined]
      intro t ht hlabel
      simp only [List.mem_cons, List.not_mem_nil, or_false] at ht
      rcases ht with rfl | rfl | rfl <;> cases hlabel
    · exact (hrecords.found 7).mpr ⟨⟨⟨.dup, ()⟩, 7⟩, by simp, rfl⟩
    · rw [← Bool.not_eq_true, hrecords.found]
      simp
  · exact (program_records_definitions halfDefined).2 _ _ hbroken

end Esoterica.Whitespace
