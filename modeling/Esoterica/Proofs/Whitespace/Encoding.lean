import Esoterica.Proofs.Whitespace.Scan

namespace Esoterica.Whitespace

namespace OperandKind

theorem decode_encode : (kind : OperandKind) → (operand : kind.Operand) →
    kind.decode (kind.encode operand) = operand
  | .none, _ => rfl
  | .number, value => Number.decode_encode value
  | .label, _ => rfl

-- What holds of spaces, of tabs and of the bytes of a label holds of every byte of an operand.
theorem mem_encode {P : UInt8 → Prop} (hplain : ∀ b, b = Symbol.space ∨ b = Symbol.tab → P b)
    {b : UInt8} : (kind : OperandKind) → (operand : kind.Operand) →
    (∀ l, kind.label? operand = some l → ∀ b ∈ l.symbols, P b) → b ∈ kind.encode operand → P b
  | .none, _, _, hb => by simp [encode] at hb
  | .number, _, _, hb => hplain b (Number.mem_encode hb)
  | .label, l, hlabel, hb => hlabel l rfl b hb

end OperandKind

theorem Opcode.isSymbol_of_mem_code (op : Opcode) : ∀ b ∈ op.code, isSymbol b = true := by
  have hall : op.code.all isSymbol = true := by cases op <;> rfl
  exact List.all_eq_true.mp hall

namespace Instr

-- The operation of an instruction, and the spelling of its operand.
def part (i : Instr) : Opcode × List UInt8 :=
  (i.opcode, i.opcode.kind.encode i.operand)

theorem instr_part (i : Instr) : i.part.1.instr i.part.2 = i := by
  simp only [part, Opcode.instr, OperandKind.decode_encode]

theorem feed_notMem_part {i : Instr} (h : i.Plain) : Symbol.feed ∉ i.part.2 := by
  intro hfeed
  have hplain := OperandKind.mem_encode (fun _ hb => hb) i.opcode.kind i.operand h hfeed
  revert hplain
  decide

theorem isSymbol_of_mem_encode {i : Instr}
    (h : ∀ l, i.label? = some l → ∀ b ∈ l.symbols, isSymbol b = true) {b : UInt8}
    (hb : b ∈ i.encode) : isSymbol b = true := by
  unfold encode at hb
  split at hb
  · exact Opcode.isSymbol_of_mem_code _ b hb
  · simp only [List.mem_append, List.mem_singleton] at hb
    rcases hb with (hcode | hoperand) | rfl
    · exact Opcode.isSymbol_of_mem_code _ b hcode
    · exact OperandKind.mem_encode (fun _ => isSymbol_of_plain) i.opcode.kind i.operand h hoperand
    · decide

end Instr

-- In a text of symbols only, no byte is passed over.
theorem map_fst_symbolsFrom {bytes : List UInt8} (h : ∀ b ∈ bytes, isSymbol b = true) :
    (symbolsFrom bytes.toArray 0).map Prod.fst = bytes := by
  have hall : ∀ x ∈ bytes.zipIdx, isSymbol x.1 = true := by
    intro x hx
    exact h x.1 (List.fst_mem_of_mem_zipIdx hx)
  simp only [symbolsFrom, List.drop_zero]
  rw [List.filter_eq_self.mpr hall, List.zipIdx_map_fst]

theorem scan_encode {instrs : List Instr} (h : ∀ i ∈ instrs, i.Plain) :
    (scan (instrs.flatMap Instr.encode).toArray 0).fault = none ∧
      (scan (instrs.flatMap Instr.encode).toArray 0).tokens.map Token.instr = instrs := by
  have hsymbols : ∀ b ∈ instrs.flatMap Instr.encode, isSymbol b = true := by
    intro b hb
    obtain ⟨i, hi, hb⟩ := List.mem_flatMap.mp hb
    exact Instr.isSymbol_of_mem_encode (fun l hl b hb => isSymbol_of_plain (h i hi l hl b hb)) hb
  have hspell : instrs.flatMap Instr.encode =
      (instrs.map Instr.part).flatMap fun part => part.1.spelling part.2 := by
    rw [List.flatMap_map]
    rfl
  have hraw : ∀ part ∈ instrs.map Instr.part, Symbol.feed ∉ part.2 := by
    intro part hpart
    obtain ⟨i, hi, rfl⟩ := List.mem_map.mp hpart
    exact Instr.feed_notMem_part (h i hi)
  obtain ⟨hfault, hinstrs⟩ :=
    scan_of_spelling (instrs.map Instr.part) hraw ((map_fst_symbolsFrom hsymbols).trans hspell)
  refine ⟨hfault, hinstrs.trans ?_⟩
  rw [List.map_map]
  exact (List.map_congr_left fun i _ => i.instr_part).trans (List.map_id _)

end Esoterica.Whitespace
