import Esoterica.Proofs.PrefixCode
import Esoterica.Proofs.Whitespace.Number
import Esoterica.Whitespace.Token

namespace Esoterica.Whitespace

-- The symbols at offset `pos` or later, each with its offset.
def symbolsFrom (source : Source) (pos : Nat) : List (UInt8 × Nat) :=
  ((source.toList.drop pos).zipIdx pos).filter (isSymbol ·.1)

theorem symbolsFrom_of_lt {source : Source} {pos : Nat} (h : pos < source.size) :
    symbolsFrom source pos =
      if isSymbol source[pos] then (source[pos], pos) :: symbolsFrom source (pos + 1)
      else symbolsFrom source (pos + 1) := by
  have hdrop : source.toList.drop pos = source[pos] :: source.toList.drop (pos + 1) := by
    rw [List.drop_eq_getElem_cons (by simpa using h), Array.getElem_toList]
  rw [symbolsFrom, hdrop, List.zipIdx_cons, List.filter_cons]
  rfl

theorem symbolsFrom_of_size_le {source : Source} {pos : Nat} (h : source.size ≤ pos) :
    symbolsFrom source pos = [] := by
  simp [symbolsFrom, List.drop_of_length_le, h]

theorem symbolsFrom_eq (source : Source) (pos : Nat) :
    symbolsFrom source pos =
      match nextSymbol? source pos with
      | none => []
      | some (offset, b) => (b, offset) :: symbolsFrom source (offset + 1) := by
  fun_induction nextSymbol? source pos with
  | case1 pos hlt hsym => simp [symbolsFrom_of_lt hlt, hsym]
  | case2 pos hlt hsym ih => simpa [symbolsFrom_of_lt hlt, hsym] using ih
  | case3 pos hge => exact symbolsFrom_of_size_le (by omega)

theorem nextSymbol?_of_symbolsFrom_nil {source : Source} {pos : Nat}
    (h : symbolsFrom source pos = []) : nextSymbol? source pos = none := by
  rw [symbolsFrom_eq] at h
  cases hnext : nextSymbol? source pos with
  | none => rfl
  | some found => simp [hnext] at h

theorem nextSymbol?_of_symbolsFrom_cons {source : Source} {pos offset : Nat} {b : UInt8}
    {rest : List (UInt8 × Nat)} (h : symbolsFrom source pos = (b, offset) :: rest) :
    nextSymbol? source pos = some (offset, b) ∧ symbolsFrom source (offset + 1) = rest := by
  rw [symbolsFrom_eq] at h
  cases hnext : nextSymbol? source pos with
  | none => simp [hnext] at h
  | some found =>
    simp only [hnext, List.cons.injEq, Prod.mk.injEq] at h
    obtain ⟨⟨rfl, rfl⟩, hrest⟩ := h
    exact ⟨rfl, hrest⟩

namespace Opcode

theorem isPrefixFree_table : PrefixCode.isPrefixFree table = true := by
  decide

theorem mem_table (op : Opcode) : (op.code, op) ∈ table := by
  cases op <;> decide

theorem code_ne_nil (op : Opcode) : op.code ≠ [] := by
  cases op <;> decide

-- The symbols of an instruction whose operand is spelled `raw`.
def spelling (op : Opcode) (raw : List UInt8) : List UInt8 :=
  if op.kind = .none then op.code else op.code ++ raw ++ [Symbol.feed]

-- The instruction whose operand is spelled `raw`.
def instr (op : Opcode) (raw : List UInt8) : Instr :=
  ⟨op, op.kind.decode raw⟩

end Opcode

section Spelling

variable {source : Source}

theorem scanOpcode_of_nextSymbol? {run : List UInt8} {pos offset : Nat} {b : UInt8}
    (h : nextSymbol? source pos = some (offset, b)) :
    scanOpcode source run pos =
      match Opcode.lookup (run ++ [b]) with
      | .found op => .ok (some (op, offset))
      | .unfinished => scanOpcode source (run ++ [b]) (offset + 1)
      | .invalid => .error (.invalidCode offset) := by
  rw [scanOpcode]
  split
  · simp_all
  · rename_i offset' b' h'
    rw [h] at h'
    simp only [Option.some.injEq, Prod.mk.injEq] at h'
    obtain ⟨rfl, rfl⟩ := h'
    rfl

theorem scanOperand_of_nextSymbol? {run : List UInt8} {pos offset : Nat} {b : UInt8}
    (h : nextSymbol? source pos = some (offset, b)) :
    scanOperand source run pos =
      if b = Symbol.feed then .ok (run, offset)
      else scanOperand source (run ++ [b]) (offset + 1) := by
  rw [scanOperand]
  split
  · simp_all
  · rename_i offset' b' h'
    rw [h] at h'
    simp only [Option.some.injEq, Prod.mk.injEq] at h'
    obtain ⟨rfl, rfl⟩ := h'
    rfl

-- `run` and the next symbols together are the code of an operation.
theorem scanOpcode_of_symbols {op : Opcode} {symbols rest : List (UInt8 × Nat)}
    (hne : symbols ≠ []) (run : List UInt8) {pos : Nat}
    (hcode : run ++ symbols.map Prod.fst = op.code)
    (hsource : symbolsFrom source pos = symbols ++ rest) :
    ∃ stop, scanOpcode source run pos = .ok (some (op, stop)) ∧
      symbolsFrom source (stop + 1) = rest := by
  induction symbols generalizing run pos with
  | nil => exact absurd rfl hne
  | cons first more ih =>
    obtain ⟨b, offset⟩ := first
    obtain ⟨hnext, hrest⟩ := nextSymbol?_of_symbolsFrom_cons hsource
    rw [scanOpcode_of_nextSymbol? hnext]
    cases more with
    | nil =>
      have hfound : Opcode.lookup (run ++ [b]) = .found op := by
        rw [show run ++ [b] = op.code from hcode]
        exact PrefixCode.lookup_code Opcode.isPrefixFree_table op.mem_table
      rw [hfound]
      exact ⟨offset, rfl, hrest⟩
    | cons second more =>
      have hcode' : run ++ [b] ++ (second :: more).map Prod.fst = op.code := by
        simpa using hcode
      have hunfinished : Opcode.lookup (run ++ [b]) = .unfinished :=
        PrefixCode.lookup_unfinished Opcode.isPrefixFree_table (hcode' ▸ op.mem_table) (by simp)
      rw [hunfinished]
      exact ih (by simp) (run ++ [b]) hcode' hrest

-- The next symbols are those of an operand, which a line feed ends.
theorem scanOperand_of_symbols {raw rest : List (UInt8 × Nat)} {offset : Nat}
    (hraw : Symbol.feed ∉ raw.map Prod.fst) (run : List UInt8) {pos : Nat}
    (hsource : symbolsFrom source pos = raw ++ (Symbol.feed, offset) :: rest) :
    scanOperand source run pos = .ok (run ++ raw.map Prod.fst, offset) ∧
      symbolsFrom source (offset + 1) = rest := by
  induction raw generalizing run pos with
  | nil =>
    obtain ⟨hnext, hrest⟩ := nextSymbol?_of_symbolsFrom_cons hsource
    rw [scanOperand_of_nextSymbol? hnext]
    simp [hrest]
  | cons first more ih =>
    obtain ⟨b, at'⟩ := first
    obtain ⟨hnext, hrest⟩ := nextSymbol?_of_symbolsFrom_cons hsource
    simp only [List.map_cons, List.mem_cons, not_or] at hraw
    rw [scanOperand_of_nextSymbol? hnext, if_neg (Ne.symm hraw.1)]
    simpa using ih hraw.2 (run ++ [b]) hrest

theorem nextToken?_of_symbolsFrom_nil {pos : Nat} (h : symbolsFrom source pos = []) :
    nextToken? source pos = .ok none := by
  have hnext := nextSymbol?_of_symbolsFrom_nil h
  have hscan : scanOpcode source [] pos = .ok none := by
    rw [scanOpcode]
    split
    · rfl
    · simp_all
  rw [nextToken?, hscan]

theorem nextToken?_of_spelling {op : Opcode} {raw : List UInt8}
    {symbols rest : List (UInt8 × Nat)} {pos : Nat} (hraw : Symbol.feed ∉ raw)
    (hspell : symbols.map Prod.fst = op.spelling raw)
    (hsource : symbolsFrom source pos = symbols ++ rest) :
    ∃ stop, nextToken? source pos = .ok (some ⟨op.instr raw, stop⟩) ∧
      symbolsFrom source (stop + 1) = rest := by
  unfold Opcode.spelling at hspell
  by_cases hkind : op.kind = .none
  · rw [if_pos hkind] at hspell
    have hne : symbols ≠ [] := by
      rintro rfl
      exact op.code_ne_nil hspell.symm
    obtain ⟨stop, hscan, hrest⟩ := scanOpcode_of_symbols hne [] hspell hsource
    refine ⟨stop, ?_, hrest⟩
    have hoperand : op.kind.decode [] = op.kind.decode raw := by
      revert hkind
      cases op <;> simp [Opcode.kind, OperandKind.decode]
    simp only [nextToken?, hscan, if_pos hkind, Opcode.instr, hoperand]
  · rw [if_neg hkind] at hspell
    -- the symbols divide into the code, the operand and the line feed
    obtain ⟨head, last, rfl, hhead, hlast⟩ := List.map_eq_append_iff.mp hspell
    obtain ⟨code, operand, rfl, hcode, hoperand⟩ := List.map_eq_append_iff.mp hhead
    obtain ⟨⟨b, offset⟩, rfl, rfl⟩ := List.map_eq_singleton_iff.mp hlast
    have hne : code ≠ [] := by
      rintro rfl
      exact op.code_ne_nil hcode.symm
    have hdivided :
        symbolsFrom source pos = code ++ (operand ++ (Symbol.feed, offset) :: rest) := by
      simpa using hsource
    obtain ⟨stop, hscan, hafter⟩ := scanOpcode_of_symbols hne [] hcode hdivided
    obtain ⟨hread, hrest⟩ := scanOperand_of_symbols (hoperand ▸ hraw) [] hafter
    refine ⟨offset, ?_, hrest⟩
    simp only [nextToken?, hscan, if_neg hkind, hread, Opcode.instr, List.nil_append, hoperand]

theorem scan_of_nextToken? {pos : Nat} {t : Token} (h : nextToken? source pos = .ok (some t)) :
    scan source pos = ⟨t :: (scan source t.next).tokens, (scan source t.next).fault⟩ := by
  rw [scan]
  split
  · simp_all
  · simp_all
  · rename_i t' h'
    rw [h] at h'
    simp only [Except.ok.injEq, Option.some.injEq] at h'
    rw [h']

theorem scan_of_nextToken?_none {pos : Nat} (h : nextToken? source pos = .ok none) :
    scan source pos = ⟨[], none⟩ := by
  rw [scan]
  split <;> simp_all

-- Symbols that spell instructions are read as these instructions, and nothing is left over.
theorem scan_of_spelling (parts : List (Opcode × List UInt8))
    (hraw : ∀ part ∈ parts, Symbol.feed ∉ part.2) {pos : Nat}
    (hsource : (symbolsFrom source pos).map Prod.fst =
      parts.flatMap fun part => part.1.spelling part.2) :
    (scan source pos).fault = none ∧
      (scan source pos).tokens.map Token.instr = parts.map fun part => part.1.instr part.2 := by
  induction parts generalizing pos with
  | nil =>
    have hnone := nextToken?_of_symbolsFrom_nil (List.map_eq_nil_iff.mp hsource)
    simp [scan_of_nextToken?_none hnone]
  | cons part parts ih =>
    obtain ⟨op, raw⟩ := part
    rw [List.flatMap_cons] at hsource
    obtain ⟨symbols, rest, hsymbols, hspell, hparts⟩ := List.map_eq_append_iff.mp hsource
    obtain ⟨stop, htoken, hrest⟩ :=
      nextToken?_of_spelling (hraw (op, raw) List.mem_cons_self) hspell hsymbols
    have hmore := ih (fun part hpart => hraw part (List.mem_cons_of_mem _ hpart))
      (hrest ▸ hparts)
    rw [scan_of_nextToken? htoken]
    exact ⟨hmore.1, by simp only [List.map_cons, Token.next, hmore.2]⟩

end Spelling

section Resuming

variable {source : Source} {pos : Nat}

-- Reading that goes on after a token gives what came after it.
theorem scan_next {k : Nat} {t : Token} (h : (scan source pos).tokens[k]? = some t) :
    scan source t.next =
      ⟨(scan source pos).tokens.drop (k + 1), (scan source pos).fault⟩ := by
  fun_induction scan source pos generalizing k with
  | case1 => simp at h
  | case2 => simp at h
  | case3 pos first hnext rest =>
    rename_i ih
    cases k with
    | zero =>
      simp only [List.getElem?_cons_zero, Option.some.injEq] at h
      simp [rest, h]
    | succ k => exact ih (by simpa using h)

-- Tokens end one after the other, at or after the offset where reading began.
theorem scan_ascending (source : Source) (pos : Nat) :
    ((scan source pos).tokens.map Token.stop).Pairwise (· < ·) ∧
      ∀ t ∈ (scan source pos).tokens, pos ≤ t.stop ∧ t.stop < source.size := by
  fun_induction scan source pos with
  | case1 => simp
  | case2 => simp
  | case3 pos first hnext rest ih =>
    have hfirst := le_of_nextToken? hnext
    obtain ⟨hpair, hmem⟩ := ih
    have hafter : ∀ t ∈ rest.tokens, first.stop < t.stop := by
      intro t ht
      have := (hmem t ht).1
      simp only [Token.next] at this
      omega
    constructor
    · simp only [List.map_cons, List.pairwise_cons, List.mem_map, forall_exists_index, and_imp]
      refine ⟨?_, hpair⟩
      rintro _ t ht rfl
      exact hafter t ht
    · intro t ht
      rcases List.mem_cons.mp ht with rfl | ht
      · exact hfirst
      · have := hafter t ht
        have := (hmem t ht).2
        omega

end Resuming

section Labels

-- The label that an instruction names.
def OperandKind.label? : (kind : OperandKind) → kind.Operand → Option Label
  | .none, _ => .none
  | .number, _ => .none
  | .label, l => some l

def Instr.label? (i : Instr) : Option Label :=
  i.opcode.kind.label? i.operand

-- The label, if there is one, has no symbols but spaces and tabs. A line feed would end it.
def Instr.Plain (i : Instr) : Prop :=
  ∀ l, i.label? = some l → ∀ b ∈ l.symbols, b = Symbol.space ∨ b = Symbol.tab

theorem isSymbol_of_plain {b : UInt8} (h : b = Symbol.space ∨ b = Symbol.tab) :
    isSymbol b = true := by
  rcases h with rfl | rfl <;> rfl

variable {source : Source} {pos : Nat}

theorem isSymbol_of_nextSymbol? {offset : Nat} {b : UInt8}
    (h : nextSymbol? source pos = some (offset, b)) : isSymbol b = true := by
  fun_induction nextSymbol? source pos with
  | case1 pos hlt hsym =>
    simp only [Option.some.injEq, Prod.mk.injEq] at h
    rw [← h.2]
    exact hsym
  | case2 pos hlt hsym ih => exact ih h
  | case3 => simp at h

theorem mem_of_scanOperand {run raw : List UInt8} {stop : Nat}
    (h : scanOperand source run pos = .ok (raw, stop)) {b : UInt8} (hb : b ∈ raw) :
    b ∈ run ∨ b = Symbol.space ∨ b = Symbol.tab := by
  fun_induction scanOperand source run pos with
  | case1 => simp at h
  | case2 run pos offset hnext =>
    simp only [Except.ok.injEq, Prod.mk.injEq] at h
    exact .inl (h.1 ▸ hb)
  | case3 run pos offset c hnext hfeed ih =>
    rcases ih h with hrun | hplain
    · rcases List.mem_append.mp hrun with hrun | hc
      · exact .inl hrun
      · have hsym := isSymbol_of_nextSymbol? hnext
        rw [List.mem_singleton.mp hc]
        simp only [isSymbol, Bool.or_eq_true, beq_iff_eq] at hsym
        rcases hsym with (hspace | htab) | hfeed'
        · exact .inr (.inl hspace)
        · exact .inr (.inr htab)
        · exact absurd hfeed' hfeed
    · exact .inr hplain

theorem plain_instr {op : Opcode} {raw : List UInt8}
    (h : ∀ b ∈ raw, b = Symbol.space ∨ b = Symbol.tab) : (op.instr raw).Plain := by
  intro l hl
  cases op <;> simp only [Opcode.instr, Instr.label?, Opcode.kind, OperandKind.decode,
    OperandKind.label?, reduceCtorEq, Option.some.injEq] at hl <;> exact hl ▸ h

theorem plain_of_nextToken? {t : Token} (h : nextToken? source pos = .ok (some t)) :
    t.instr.Plain := by
  unfold nextToken? at h
  split at h
  · simp at h
  · simp at h
  · rename_i op stop hop
    split at h
    · simp only [Except.ok.injEq, Option.some.injEq] at h
      subst h
      exact plain_instr (by simp)
    · split at h
      · simp at h
      · rename_i raw last hraw
        simp only [Except.ok.injEq, Option.some.injEq] at h
        subst h
        refine plain_instr fun b hb => ?_
        simpa using mem_of_scanOperand hraw hb

theorem plain_of_mem_scan {t : Token} (h : t ∈ (scan source pos).tokens) : t.instr.Plain := by
  fun_induction scan source pos with
  | case1 => simp at h
  | case2 => simp at h
  | case3 pos first hnext rest ih =>
    rcases List.mem_cons.mp h with rfl | h
    · exact plain_of_nextToken? hnext
    · exact ih h

end Labels

end Esoterica.Whitespace
