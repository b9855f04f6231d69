import Esoterica.Proofs.Whitespace.Grammar

namespace Esoterica.Whitespace

namespace Reader

-- What the reader says when it is asked for the token number `k`, having been asked for those
-- before.
def answer (r : Reader) : Nat → Except ScanFault (Option Token)
  | 0 => r.next.1
  | k + 1 => r.next.2.answer k

-- The reader gives the tokens one after the other, then the fault if there is one, and then
-- nothing for ever.
def Yields (r : Reader) (tokens : List Token) (fault : Option ScanFault) : Prop :=
  ∀ k, r.answer k =
    (tokens.map (fun t => Except.ok (some t)) ++ fault.toList.map Except.error).getD k (.ok none)

end Reader

section Fronts

variable {source : Source} {run : List UInt8} {pos : Nat}

theorem Opcode.code_of_lookup {op : Opcode} (h : lookup run = .found op) : run = op.code := by
  obtain ⟨op', -, hentry⟩ := List.mem_map.mp (PrefixCode.mem_of_lookup_found h)
  obtain ⟨hcode, rfl⟩ := Prod.mk.inj hentry
  exact hcode.symm

theorem Opcode.pending_of_lookup (h : lookup run = .unfinished) : Pending run := by
  obtain ⟨entry, hentry, hbegins, hne⟩ := PrefixCode.exists_of_lookup_unfinished h
  obtain ⟨op, -, rfl⟩ := List.mem_map.mp hentry
  exact ⟨op, hbegins, hne⟩

theorem Opcode.not_prefix_of_lookup (h : lookup run = .invalid) (op : Opcode) :
    ¬run <+: op.code :=
  PrefixCode.not_begins_of_lookup_invalid h op.mem_table

theorem symbolsFrom_of_nextSymbol? {offset : Nat} {b : UInt8}
    (h : nextSymbol? source pos = some (offset, b)) :
    symbolsFrom source pos = (b, offset) :: symbolsFrom source (offset + 1) := by
  rw [symbolsFrom_eq, h]

theorem symbolsFrom_of_nextSymbol?_none (h : nextSymbol? source pos = none) :
    symbolsFrom source pos = [] := by
  rw [symbolsFrom_eq, h]

theorem symbols_of_scanOpcode_none (h : scanOpcode source run pos = .ok none) :
    run = [] ∧ symbolsFrom source pos = [] := by
  fun_induction scanOpcode source run pos with
  | case1 run pos hnext hrun =>
    exact ⟨List.isEmpty_iff.mp hrun, symbolsFrom_of_nextSymbol?_none hnext⟩
  | case2 => cases h
  | case3 => cases h
  | case4 run pos offset b hnext _ ih => simpa using (ih h).1
  | case5 => cases h

theorem symbols_of_scanOpcode {op : Opcode} {stop : Nat}
    (h : scanOpcode source run pos = .ok (some (op, stop))) :
    ∃ front b, symbolsFrom source pos = front ++ (b, stop) :: symbolsFrom source (stop + 1) ∧
      run ++ (front ++ [(b, stop)]).map Prod.fst = op.code := by
  fun_induction scanOpcode source run pos with
  | case1 => cases h
  | case2 => cases h
  | case3 run pos offset b hnext op' hfound =>
    simp only [Except.ok.injEq, Option.some.injEq, Prod.mk.injEq] at h
    obtain ⟨rfl, rfl⟩ := h
    exact ⟨[], b, symbolsFrom_of_nextSymbol? hnext, Opcode.code_of_lookup hfound⟩
  | case4 run pos offset b hnext _ ih =>
    obtain ⟨front, last, hsymbols, hcode⟩ := ih h
    refine ⟨(b, offset) :: front, last, ?_, ?_⟩
    · rw [symbolsFrom_of_nextSymbol? hnext, hsymbols, List.cons_append]
    · rw [← hcode]
      simp
  | case5 => cases h

theorem symbols_of_scanOpcode_error {fault : ScanFault} (hrun : Opcode.Pending run)
    (h : scanOpcode source run pos = .error fault) :
    (fault = .unexpectedEnd source.size ∧ run ++ (symbolsFrom source pos).map Prod.fst ≠ [] ∧
      Opcode.Pending (run ++ (symbolsFrom source pos).map Prod.fst)) ∨
    ∃ front b offset more, fault = .invalidCode offset ∧
      symbolsFrom source pos = front ++ (b, offset) :: more ∧
      Opcode.Pending (run ++ front.map Prod.fst) ∧
      ∀ op : Opcode, ¬run ++ front.map Prod.fst ++ [b] <+: op.code := by
  fun_induction scanOpcode source run pos with
  | case1 => cases h
  | case2 run pos hnext hne =>
    cases h
    rw [symbolsFrom_of_nextSymbol?_none hnext, List.map_nil, List.append_nil]
    exact .inl ⟨rfl, fun hnil => hne (List.isEmpty_iff.mpr hnil), hrun⟩
  | case3 => cases h
  | case4 run pos offset b hnext hunfinished ih =>
    rw [symbolsFrom_of_nextSymbol? hnext]
    rcases ih (Opcode.pending_of_lookup hunfinished) h with ⟨rfl, hne, hpending⟩ | hinvalid
    · rw [List.append_assoc] at hne hpending
      exact .inl ⟨rfl, hne, hpending⟩
    · obtain ⟨front, last, at', more, rfl, hsymbols, hpending, hnot⟩ := hinvalid
      refine .inr ⟨(b, offset) :: front, last, at', more, rfl, ?_, ?_, ?_⟩
      · rw [hsymbols, List.cons_append]
      · simpa using hpending
      · simpa using hnot
  | case5 run pos offset b hnext hinvalid =>
    cases h
    refine .inr ⟨[], b, offset, _, rfl, symbolsFrom_of_nextSymbol? hnext, ?_, ?_⟩
    · simpa using hrun
    · simpa using Opcode.not_prefix_of_lookup hinvalid

theorem symbols_of_scanOperand {raw : List UInt8} {stop : Nat}
    (h : scanOperand source run pos = .ok (raw, stop)) :
    ∃ front, symbolsFrom source pos =
        front ++ (Symbol.feed, stop) :: symbolsFrom source (stop + 1) ∧
      run ++ front.map Prod.fst = raw := by
  fun_induction scanOperand source run pos with
  | case1 => cases h
  | case2 run pos offset hnext =>
    simp only [Except.ok.injEq, Prod.mk.injEq] at h
    obtain ⟨rfl, rfl⟩ := h
    exact ⟨[], symbolsFrom_of_nextSymbol? hnext, List.append_nil _⟩
  | case3 run pos offset b hnext hfeed ih =>
    obtain ⟨front, hsymbols, hraw⟩ := ih h
    refine ⟨(b, offset) :: front, ?_, ?_⟩
    · rw [symbolsFrom_of_nextSymbol? hnext, hsymbols, List.cons_append]
    · rw [← hraw]
      simp

theorem symbols_of_scanOperand_error {fault : ScanFault}
    (h : scanOperand source run pos = .error fault) :
    fault = .unexpectedEnd source.size ∧
      ∀ x ∈ symbolsFrom source pos, x.1 = Symbol.space ∨ x.1 = Symbol.tab := by
  fun_induction scanOperand source run pos with
  | case1 run pos hnext =>
    cases h
    simp [symbolsFrom_of_nextSymbol?_none hnext]
  | case2 => cases h
  | case3 run pos offset b hnext hfeed ih =>
    obtain ⟨hfault, hmore⟩ := ih h
    refine ⟨hfault, ?_⟩
    rw [symbolsFrom_of_nextSymbol? hnext, List.forall_mem_cons]
    refine ⟨?_, hmore⟩
    have hsymbol := isSymbol_of_nextSymbol? hnext
    simp only [isSymbol, Bool.or_eq_true, beq_iff_eq] at hsymbol
    tauto

theorem cutShort_of_pending {symbols : List UInt8} (hne : symbols ≠ [])
    (h : Opcode.Pending symbols) : CutShort symbols := by
  obtain ⟨op, hbegins, hcode⟩ := h
  let u : Phrase := ⟨op, [], by simp, fun _ => rfl⟩
  refine ⟨hne, u, hbegins.trans u.code_begins, ?_⟩
  intro heq
  have hlength := u.code_begins.length_le
  rw [← heq] at hlength
  exact hcode (hbegins.eq_of_length_le hlength)

theorem symbols_of_nextToken?_none (h : nextToken? source pos = .ok none) :
    symbolsFrom source pos = [] := by
  unfold nextToken? at h
  split at h
  · cases h
  · rename_i hop
    exact (symbols_of_scanOpcode_none hop).2
  · split at h
    · cases h
    · split at h <;> cases h

theorem symbols_of_nextToken? {t : Token} (h : nextToken? source pos = .ok (some t)) :
    ∃ block u b, symbolsFrom source pos = block ++ symbolsFrom source t.next ∧
      block.map Prod.fst = Phrase.spelling u ∧ block.getLast? = some (b, t.stop) ∧
      t.instr = u.instr := by
  unfold nextToken? at h
  split at h
  · cases h
  · cases h
  · rename_i op stop hop
    obtain ⟨front, b, hsymbols, hcode⟩ := symbols_of_scanOpcode hop
    rw [List.nil_append] at hcode
    split at h
    · rename_i hkind
      cases h
      let u : Phrase := ⟨op, [], by simp, fun _ => rfl⟩
      refine ⟨front ++ [(b, stop)], u, b, ?_, ?_, ?_, rfl⟩
      · simpa [Token.next] using hsymbols
      · simpa [u, Phrase.spelling, Opcode.spelling, hkind] using hcode
      · simp
    · rename_i hkind
      split at h
      · cases h
      · rename_i raw last hraw
        cases h
        obtain ⟨operand, hoperand, rfl⟩ := symbols_of_scanOperand hraw
        have hplain : ∀ b ∈ [] ++ operand.map Prod.fst, b = Symbol.space ∨ b = Symbol.tab := by
          intro b hb
          simpa using mem_of_scanOperand hraw hb
        let u : Phrase := ⟨op, _, hplain, fun hnone => absurd hnone hkind⟩
        refine ⟨front ++ (b, stop) :: operand ++ [(Symbol.feed, last)], u, Symbol.feed, ?_, ?_, ?_,
          rfl⟩
        · rw [hsymbols, hoperand]
          simp [Token.next]
        · have hcode' : front.map Prod.fst ++ [b] = op.code := by simpa using hcode
          simp [u, Phrase.spelling, Opcode.spelling, hkind, ← hcode']
        · exact List.getLast?_concat

theorem explains_of_nextToken? {fault : ScanFault} (h : nextToken? source pos = .error fault) :
    fault.Explains source.size (symbolsFrom source pos) := by
  have hstart : Opcode.Pending [] := ⟨.push, List.nil_prefix, by decide⟩
  unfold nextToken? at h
  split at h
  · rename_i hop
    cases h
    rcases symbols_of_scanOpcode_error hstart hop with ⟨rfl, hne, hpending⟩ | hinvalid
    · exact ⟨rfl, cutShort_of_pending hne hpending⟩
    · obtain ⟨front, b, offset, more, rfl, hsymbols, hpending, hnot⟩ := hinvalid
      exact ⟨front, b, more, hsymbols, hpending, hnot⟩
  · cases h
  · rename_i op stop hop
    obtain ⟨front, b, hsymbols, hcode⟩ := symbols_of_scanOpcode hop
    split at h
    · cases h
    · rename_i hkind
      split at h
      · rename_i hraw
        cases h
        obtain ⟨rfl, hplain⟩ := symbols_of_scanOperand_error hraw
        -- all that is left is the operand
        let raw := (symbolsFrom source (stop + 1)).map Prod.fst
        have hraw : ∀ b ∈ raw, b = Symbol.space ∨ b = Symbol.tab := by
          intro b hb
          obtain ⟨x, hx, rfl⟩ := List.mem_map.mp hb
          exact hplain x hx
        let u : Phrase := ⟨op, raw, hraw, fun hnone => absurd hnone hkind⟩
        have hcut : (symbolsFrom source pos).map Prod.fst = op.code ++ raw := by
          rw [hsymbols, ← hcode]
          simp [raw]
        have hspelling : u.spelling = op.code ++ raw ++ [Symbol.feed] := by
          simp [u, Phrase.spelling, Opcode.spelling, hkind]
        refine ⟨rfl, ?_, u, ?_, ?_⟩
        · simp [hsymbols]
        · rw [hcut, hspelling]
          exact List.prefix_append _ _
        · rw [hcut, hspelling]
          simp
      · cases h

end Fronts

section Texts

variable {source : Source}

-- What is left when all phrases have been read, and why.
def Remains (source : Source) (rest : List (UInt8 × Nat)) : Option ScanFault → Prop
  | none => rest = []
  | some fault => fault.Explains source.size rest

theorem Remains.not_begins {rest : List (UInt8 × Nat)} {fault : Option ScanFault}
    (h : Remains source rest fault) (u : Phrase) : ¬u.spelling <+: rest.map Prod.fst := by
  cases fault with
  | none =>
    intro hu
    obtain rfl : rest = [] := h
    exact u.spelling_ne_nil (List.prefix_nil.mp hu)
  | some fault => exact ScanFault.Explains.not_begins h u

theorem scan_divides (source : Source) (pos : Nat) :
    ∃ phrases block rest, symbolsFrom source pos = block ++ rest ∧
      Divides block phrases (scan source pos).tokens ∧
      Remains source rest (scan source pos).fault := by
  fun_induction scan source pos with
  | case1 pos fault hnext =>
    exact ⟨[], [], _, rfl, .nil, explains_of_nextToken? hnext⟩
  | case2 pos hnext => exact ⟨[], [], [], symbols_of_nextToken?_none hnext, .nil, rfl⟩
  | case3 pos t hnext _ ih =>
    obtain ⟨phrases, block, rest, hsymbols, hdivides, hremains⟩ := ih
    obtain ⟨front, u, b, hfront, hspelled, hlast, hinstr⟩ := symbols_of_nextToken? hnext
    refine ⟨u :: phrases, front ++ block, rest, ?_, ?_, hremains⟩
    · rw [hfront, hsymbols, List.append_assoc]
    · obtain ⟨instr, stop⟩ := t
      obtain rfl : instr = u.instr := hinstr
      exact .cons hspelled hlast hdivides

theorem Divides.map_fst {symbols : List (UInt8 × Nat)} {phrases : List Phrase}
    {tokens : List Token} (h : Divides symbols phrases tokens) :
    symbols.map Prod.fst = phrases.flatMap Phrase.spelling := by
  induction h with
  | nil => rfl
  | cons spelled _ _ ih => rw [List.map_append, spelled, ih, List.flatMap_cons]

theorem Divides.map_instr {symbols : List (UInt8 × Nat)} {phrases : List Phrase}
    {tokens : List Token} (h : Divides symbols phrases tokens) :
    tokens.map Token.instr = phrases.map Phrase.instr := by
  induction h with
  | nil => rfl
  | cons _ _ _ ih => rw [List.map_cons, ih, List.map_cons]

theorem Divides.tokens_unique {symbols : List (UInt8 × Nat)} {phrases : List Phrase}
    {tokens tokens' : List Token} (h : Divides symbols phrases tokens)
    (h' : Divides symbols phrases tokens') : tokens = tokens' := by
  induction h generalizing tokens' with
  | nil =>
    generalize ([] : List (UInt8 × Nat)) = symbols at h'
    cases h'
    rfl
  | @cons block rest u phrases tokens b stop spelled last more ih =>
    generalize hsymbols : block ++ rest = symbols at h'
    cases h' with
    | @cons block' rest' _ _ tokens' b' stop' spelled' last' more' =>
      have hlength : block.length = block'.length := by
        rw [← List.length_map (f := Prod.fst), spelled, ← spelled', List.length_map]
      obtain ⟨rfl, rfl⟩ := List.append_inj hsymbols hlength
      rw [last] at last'
      simp only [Option.some.injEq, Prod.mk.injEq] at last'
      rw [last'.2, ih more']

theorem exists_divides {symbols : List (UInt8 × Nat)} (phrases : List Phrase)
    (h : symbols.map Prod.fst = phrases.flatMap Phrase.spelling) :
    ∃ tokens, Divides symbols phrases tokens := by
  induction phrases generalizing symbols with
  | nil =>
    rw [List.map_eq_nil_iff.mp h]
    exact ⟨[], .nil⟩
  | cons u phrases ih =>
    obtain ⟨block, rest, rfl, hblock, hrest⟩ := List.map_eq_append_iff.mp h
    obtain ⟨tokens, htokens⟩ := ih hrest
    cases hlast : block.getLast? with
    | none =>
      rw [List.getLast?_eq_none_iff.mp hlast] at hblock
      exact absurd hblock.symm u.spelling_ne_nil
    | some last =>
      obtain ⟨b, stop⟩ := last
      exact ⟨_, .cons hblock hlast htokens⟩

theorem map_fst_symbolsFrom_zero (source : Source) :
    (symbolsFrom source 0).map Prod.fst = source.symbols := by
  have hfilter := List.filter_map (f := Prod.fst) (p := isSymbol) (l := source.toList.zipIdx)
  rw [List.zipIdx_map_fst] at hfilter
  exact hfilter.symm

-- The phrases in front of what remains are all the phrases that the symbols begin with.
theorem Remains.longest {block rest : List (UInt8 × Nat)} {phrases : List Phrase}
    {tokens : List Token} {fault : Option ScanFault}
    (hsymbols : symbolsFrom source 0 = block ++ rest)
    (hdivides : Divides block phrases tokens) (hremains : Remains source rest fault)
    {longer : List Phrase} (h : longer.flatMap Phrase.spelling <+: source.symbols) :
    longer <+: phrases := by
  refine Phrase.prefix_of_flatMap hremains.not_begins ?_
  rw [← hdivides.map_fst, ← List.map_append, ← hsymbols, map_fst_symbolsFrom_zero]
  exact h

theorem Remains.unique {rest : List (UInt8 × Nat)} {fault fault' : Option ScanFault}
    (h : Remains source rest fault) (h' : Remains source rest fault') : fault' = fault := by
  cases fault with
  | none =>
    obtain rfl : rest = [] := h
    cases fault' with
    | none => rfl
    | some fault' => exact absurd rfl (ScanFault.Explains.ne_nil h')
  | some fault =>
    cases fault' with
    | none =>
      obtain rfl : rest = [] := h'
      exact absurd rfl (ScanFault.Explains.ne_nil h)
    | some fault' => rw [ScanFault.Explains.unique h h']

-- What is read of a text is settled by any division of its symbols into phrases and a rest that
-- begins with none.
theorem scan_of_remains {block rest : List (UInt8 × Nat)} {phrases : List Phrase}
    {tokens : List Token} {fault : Option ScanFault}
    (hsymbols : symbolsFrom source 0 = block ++ rest) (hdivides : Divides block phrases tokens)
    (hremains : Remains source rest fault) : scan source 0 = ⟨tokens, fault⟩ := by
  obtain ⟨read, block', rest', hsymbols', hdivides', hremains'⟩ := scan_divides source 0
  have hparts : source.symbols = phrases.flatMap Phrase.spelling ++ rest.map Prod.fst := by
    rw [← map_fst_symbolsFrom_zero, hsymbols, List.map_append, hdivides.map_fst]
  have hparts' : source.symbols = read.flatMap Phrase.spelling ++ rest'.map Prod.fst := by
    rw [← map_fst_symbolsFrom_zero, hsymbols', List.map_append, hdivides'.map_fst]
  have hle : phrases <+: read := hremains'.longest hsymbols' hdivides' ⟨_, hparts.symm⟩
  have hge : read <+: phrases := hremains.longest hsymbols hdivides ⟨_, hparts'.symm⟩
  obtain rfl : phrases = read := hle.eq_of_length_le hge.length_le
  have hlength : block.length = block'.length := by
    rw [← List.length_map (f := Prod.fst), hdivides.map_fst, ← hdivides'.map_fst, List.length_map]
  obtain ⟨rfl, rfl⟩ := List.append_inj (hsymbols.symm.trans hsymbols') hlength
  rw [hdivides.tokens_unique hdivides', ← hremains.unique hremains']

theorem scan_of_divides {phrases : List Phrase} {tokens : List Token}
    (h : Divides (symbolsFrom source 0) phrases tokens) : scan source 0 = ⟨tokens, none⟩ :=
  scan_of_remains (List.append_nil _).symm h rfl

theorem Remains.kind_eq {rest rest' : List (UInt8 × Nat)} {other : Source}
    {fault fault' : Option ScanFault} (h : Remains source rest fault)
    (h' : Remains other rest' fault') (hrest : rest'.map Prod.fst = rest.map Prod.fst) :
    fault'.map ScanFault.kind = fault.map ScanFault.kind := by
  cases fault with
  | none =>
    obtain rfl : rest = [] := h
    obtain rfl : rest' = [] := List.map_eq_nil_iff.mp hrest
    cases fault' with
    | none => rfl
    | some fault' => exact absurd rfl (ScanFault.Explains.ne_nil h')
  | some fault =>
    cases fault' with
    | none =>
      obtain rfl : rest' = [] := h'
      exact absurd (List.map_eq_nil_iff.mp hrest.symm) (ScanFault.Explains.ne_nil h)
    | some fault' =>
      have hcut := ScanFault.Explains.kind_eq h
      have hcut' := ScanFault.Explains.kind_eq h'
      rw [hrest, ← hcut] at hcut'
      cases hkind : fault.kind <;> cases hkind' : fault'.kind <;> simp_all

-- Reading depends on the symbols only.
theorem scan_remarked {remarked : Source} (h : remarked.symbols = source.symbols) :
    (scan remarked 0).tokens.map Token.instr = (scan source 0).tokens.map Token.instr ∧
      (scan remarked 0).fault.map ScanFault.kind = (scan source 0).fault.map ScanFault.kind := by
  obtain ⟨phrases, block, rest, hsymbols, hdivides, hremains⟩ := scan_divides source 0
  obtain ⟨phrases', block', rest', hsymbols', hdivides', hremains'⟩ := scan_divides remarked 0
  have hparts : source.symbols = phrases.flatMap Phrase.spelling ++ rest.map Prod.fst := by
    rw [← map_fst_symbolsFrom_zero, hsymbols, List.map_append, hdivides.map_fst]
  have hparts' : source.symbols = phrases'.flatMap Phrase.spelling ++ rest'.map Prod.fst := by
    rw [← h, ← map_fst_symbolsFrom_zero, hsymbols', List.map_append, hdivides'.map_fst]
  have hle : phrases <+: phrases' :=
    Remains.longest hsymbols' hdivides' hremains' ⟨_, h ▸ hparts.symm⟩
  have hge : phrases' <+: phrases := Remains.longest hsymbols hdivides hremains ⟨_, hparts'.symm⟩
  obtain rfl : phrases = phrases' := hle.eq_of_length_le hge.length_le
  refine ⟨by rw [hdivides'.map_instr, hdivides.map_instr], hremains.kind_eq hremains' ?_⟩
  exact List.append_cancel_left (hparts'.symm.trans hparts)

end Texts

section Answers

theorem Reader.answer_of_nextToken? {source : Source} {pos : Nat} {t : Token}
    (h : nextToken? source pos = .ok (some t)) (k : Nat) :
    (Reader.mk source pos).answer k =
      if k = 0 then .ok (some t) else (Reader.mk source t.next).answer (k - 1) := by
  have hnext : (Reader.mk source pos).next = (.ok (some t), ⟨source, t.next⟩) := by
    simp only [Reader.next, h]
  cases k with
  | zero => rw [answer, hnext, if_pos rfl]
  | succ k => rw [answer, hnext, if_neg (by omega), Nat.add_sub_cancel]

theorem Reader.answer_of_size_le {source : Source} {pos : Nat} (h : source.size ≤ pos) (k : Nat) :
    (Reader.mk source pos).answer k = .ok none := by
  have hnone := nextToken?_of_symbolsFrom_nil (symbolsFrom_of_size_le h)
  have hnext : (Reader.mk source pos).next = (.ok none, ⟨source, pos⟩) := by
    simp only [Reader.next, hnone, Reader.drained, Nat.max_eq_left h]
  induction k with
  | zero => rw [answer, hnext]
  | succ k ih => rw [answer, hnext, ih]

-- Once there is no token, there never is one again.
theorem Reader.answer_of_no_token {source : Source} {pos : Nat}
    (h : ∀ t, nextToken? source pos ≠ .ok (some t)) (k : Nat) :
    (Reader.mk source pos).answer k =
      if k = 0 then nextToken? source pos else .ok none := by
  have hnext : (Reader.mk source pos).next =
      (nextToken? source pos, ⟨source, max pos source.size⟩) := by
    unfold Reader.next
    split
    · rename_i t ht
      exact absurd ht (h t)
    · rfl
  cases k with
  | zero => rw [answer, hnext, if_pos rfl]
  | succ k => rw [answer, hnext, if_neg (by omega), answer_of_size_le (Nat.le_max_right _ _)]

theorem Reader.yields_scan (source : Source) (pos : Nat) :
    (Reader.mk source pos).Yields (scan source pos).tokens (scan source pos).fault := by
  fun_induction scan source pos with
  | case1 pos fault hnext =>
    intro k
    rw [answer_of_no_token (by simp [hnext]), hnext]
    cases k <;> rfl
  | case2 pos hnext =>
    intro k
    rw [answer_of_no_token (by simp [hnext]), hnext]
    cases k <;> rfl
  | case3 pos t hnext _ ih =>
    intro k
    rw [answer_of_nextToken? hnext]
    cases k with
    | zero => rfl
    | succ k =>
      rw [if_neg (by omega), Nat.add_sub_cancel, ih k]
      rfl

-- A reader yields one sequence of tokens, with one end.
theorem Reader.Yields.unique {r : Reader} {tokens tokens' : List Token}
    {fault fault' : Option ScanFault} (h : r.Yields tokens fault) (h' : r.Yields tokens' fault') :
    tokens = tokens' ∧ fault = fault' := by
  induction tokens generalizing r tokens' with
  | nil =>
    have hfirst := (h 0).symm.trans (h' 0)
    cases tokens' with
    | nil =>
      cases fault <;> cases fault' <;> simp_all
    | cons t tokens' => cases fault <;> simp_all
  | cons t tokens ih =>
    have hfirst := (h 0).symm.trans (h' 0)
    cases tokens' with
    | nil => cases fault' <;> simp_all
    | cons t' tokens' =>
      have hrest : r.next.2.Yields tokens fault := fun k => h (k + 1)
      have hrest' : r.next.2.Yields tokens' fault' := fun k => h' (k + 1)
      obtain ⟨rfl, rfl⟩ := ih hrest hrest'
      simp_all

end Answers

-- The reader accepts exactly the texts whose symbols are phrases. Of any other text it gives the
-- longest sequence of phrases in front and the one fault that the symbols behind it explain. What
-- stands between the symbols has no part in it.
theorem reader_yields_phrases (source : Source) :
    (∀ tokens, (Reader.mk source 0).Yields tokens none ↔
      ∃ phrases, Divides (symbolsFrom source 0) phrases tokens) ∧
    (∀ phrases : List Phrase, source.symbols = phrases.flatMap Phrase.spelling ↔
      ∃ tokens, Divides (symbolsFrom source 0) phrases tokens) ∧
    (∀ phrases others : List Phrase,
      phrases.flatMap Phrase.spelling = others.flatMap Phrase.spelling → phrases = others) ∧
    ((∀ phrases : List Phrase, source.symbols ≠ phrases.flatMap Phrase.spelling) →
      ∃ phrases block rest tokens fault, symbolsFrom source 0 = block ++ rest ∧
        Divides block phrases tokens ∧
        (∀ longer : List Phrase, longer.flatMap Phrase.spelling <+: source.symbols →
          longer <+: phrases) ∧
        (∀ other : ScanFault, other.Explains source.size rest ↔ other = fault) ∧
        (Reader.mk source 0).Yields tokens (some fault)) ∧
    ∀ (remarked : Source) (tokens tokens' : List Token) (fault fault' : Option ScanFault),
      remarked.symbols = source.symbols → (Reader.mk source 0).Yields tokens fault →
      (Reader.mk remarked 0).Yields tokens' fault' →
      tokens'.map Token.instr = tokens.map Token.instr ∧
        fault'.map ScanFault.kind = fault.map ScanFault.kind := by
  have hyields := Reader.yields_scan source 0
  refine ⟨?_, ?_, fun _ _ => Phrase.flatMap_injective, ?_, ?_⟩
  · intro tokens
    constructor
    · intro h
      obtain ⟨phrases, block, rest, hsymbols, hdivides, hremains⟩ := scan_divides source 0
      obtain ⟨rfl, hfault⟩ := h.unique hyields
      rw [← hfault] at hremains
      obtain rfl : rest = [] := hremains
      rw [List.append_nil] at hsymbols
      exact ⟨phrases, hsymbols ▸ hdivides⟩
    · rintro ⟨phrases, h⟩
      rwa [scan_of_divides h] at hyields
  · intro phrases
    rw [← map_fst_symbolsFrom_zero]
    exact ⟨exists_divides phrases, fun ⟨_, h⟩ => h.map_fst⟩
  · intro hnone
    obtain ⟨phrases, block, rest, hsymbols, hdivides, hremains⟩ := scan_divides source 0
    have hlongest (longer : List Phrase) (h : longer.flatMap Phrase.spelling <+: source.symbols) :
        longer <+: phrases := hremains.longest hsymbols hdivides h
    cases hfault : (scan source 0).fault with
    | none =>
      rw [hfault] at hremains
      obtain rfl : rest = [] := hremains
      rw [List.append_nil] at hsymbols
      refine absurd ?_ (hnone phrases)
      rw [← map_fst_symbolsFrom_zero, hsymbols, hdivides.map_fst]
    | some fault =>
      rw [hfault] at hremains hyields
      refine ⟨phrases, block, rest, _, fault, hsymbols, hdivides, hlongest, ?_, hyields⟩
      exact fun other => ⟨ScanFault.Explains.unique hremains, fun h => h ▸ hremains⟩
  · intro remarked tokens tokens' fault fault' hsymbols h h'
    obtain ⟨rfl, rfl⟩ := h.unique hyields
    obtain ⟨rfl, rfl⟩ := h'.unique (Reader.yields_scan remarked 0)
    exact scan_remarked hsymbols

-- A duplication with a comment in it, and symbols that begin no code.
def commented : Source :=
  Source.ofText "a \né c \t\té"

def uncommented : Source :=
  Source.ofText " \n  \t\t"

theorem scan_commented : scan commented 0 = ⟨[⟨⟨.dup, ()⟩, 5⟩], some (.invalidCode 9)⟩ := by
  with_unfolding_all rfl

theorem reader_yields_phrases_commented :
    ∃ phrases block rest, symbolsFrom commented 0 = block ++ rest ∧
      Divides block phrases [⟨⟨.dup, ()⟩, 5⟩] ∧
      (ScanFault.invalidCode 9).Explains commented.size rest ∧
      (Reader.mk commented 0).Yields [⟨⟨.dup, ()⟩, 5⟩] (some (.invalidCode 9)) ∧
      ∀ tokens fault, (Reader.mk uncommented 0).Yields tokens fault →
        tokens.map Token.instr = [⟨.dup, ()⟩] ∧
          fault.map ScanFault.kind = some .invalidCode := by
  obtain ⟨haccepted, hdivided, -, hrefused, halike⟩ := reader_yields_phrases commented
  have hscan := Reader.yields_scan commented 0
  rw [scan_commented] at hscan
  have hnone (phrases : List Phrase) :
      commented.symbols ≠ phrases.flatMap Phrase.spelling := by
    intro hphrases
    obtain ⟨tokens, htokens⟩ := (hdivided phrases).mp hphrases
    cases (((haccepted tokens).mpr ⟨phrases, htokens⟩).unique hscan).2
  obtain ⟨phrases, block, rest, tokens, fault, hsymbols, hdivides, -, hfault, hyields⟩ :=
    hrefused hnone
  obtain ⟨rfl, heq⟩ := hyields.unique hscan
  cases heq
  refine ⟨phrases, block, rest, hsymbols, hdivides, (hfault _).mpr rfl, hyields, ?_⟩
  intro tokens fault h
  have hsame : uncommented.symbols = commented.symbols := by decide +kernel
  exact halike uncommented _ _ _ _ hsame hyields h

end Esoterica.Whitespace
