import Esoterica.Proofs.Whitespace.Acceptance

namespace Esoterica.Whitespace

-- The same token in a text that begins `count` bytes earlier.
def Token.shift (count : Nat) (t : Token) : Token :=
  { t with stop := t.stop + count }

def ScanFault.shift (count : Nat) : ScanFault → ScanFault
  | .unexpectedEnd offset => .unexpectedEnd (offset + count)
  | .invalidCode offset => .invalidCode (offset + count)

section Appending

-- Symbols at offsets that are all higher by `count`.
def shifted (count : Nat) (symbols : List (UInt8 × Nat)) : List (UInt8 × Nat) :=
  symbols.map (Prod.map id (· + count))

theorem map_fst_shifted (count : Nat) (symbols : List (UInt8 × Nat)) :
    (shifted count symbols).map Prod.fst = symbols.map Prod.fst := by
  simp [shifted]

theorem symbolsFrom_append (a b : Source) :
    symbolsFrom (a ++ b) 0 = symbolsFrom a 0 ++ shifted a.size (symbolsFrom b 0) := by
  have hindices : b.toList.zipIdx a.size = b.toList.zipIdx.map (Prod.map id (· + a.size)) := by
    rw [List.zipIdx_eq_map_add]
    simp [Nat.add_comm]
  simp only [symbolsFrom, shifted, List.drop_zero, Array.toList_append, List.zipIdx_append,
    List.filter_append, Nat.zero_add, Array.length_toList, hindices, List.filter_map]
  rfl

theorem Divides.append {x y : List (UInt8 × Nat)} {phrases more : List Phrase}
    {tokens next : List Token} (h : Divides x phrases tokens) (h' : Divides y more next) :
    Divides (x ++ y) (phrases ++ more) (tokens ++ next) := by
  induction h with
  | nil => exact h'
  | cons spelled last _ ih =>
    rw [List.append_assoc]
    exact .cons spelled last ih

theorem Divides.shift {symbols : List (UInt8 × Nat)} {phrases : List Phrase}
    {tokens : List Token} (h : Divides symbols phrases tokens) (count : Nat) :
    Divides (shifted count symbols) phrases (tokens.map (Token.shift count)) := by
  induction h with
  | nil => exact .nil
  | @cons block rest u phrases tokens b stop spelled last more ih =>
    rw [shifted, List.map_append, List.map_cons]
    refine .cons (b := b) ?_ ?_ ih
    · rw [← spelled]
      exact map_fst_shifted count block
    · simp [last]

theorem Remains.shift {b : Source} {rest : List (UInt8 × Nat)} {fault : Option ScanFault}
    (h : Remains b rest fault) (a : Source) :
    Remains (a ++ b) (shifted a.size rest) (fault.map (ScanFault.shift a.size)) := by
  cases fault with
  | none =>
    obtain rfl : rest = [] := h
    rfl
  | some fault =>
    cases fault with
    | unexpectedEnd offset =>
      obtain ⟨rfl, hcut⟩ := h
      refine ⟨?_, ?_⟩
      · rw [Array.size_append, Nat.add_comm]
      · rwa [map_fst_shifted]
    | invalidCode offset =>
      obtain ⟨run, symbol, more, rfl, hrun, hinvalid⟩ := h
      refine ⟨shifted a.size run, symbol, shifted a.size more, ?_, ?_, ?_⟩
      · simp [shifted]
      · rwa [map_fst_shifted]
      · rwa [map_fst_shifted]

-- What follows a text without fault is read as if it stood alone.
theorem scan_append {a : Source} (h : (scan a 0).fault = none) (b : Source) :
    scan (a ++ b) 0 = ⟨(scan a 0).tokens ++ (scan b 0).tokens.map (Token.shift a.size),
      (scan b 0).fault.map (ScanFault.shift a.size)⟩ := by
  obtain ⟨phrases, block, rest, hsymbols, hdivides, hremains⟩ := scan_divides a 0
  obtain ⟨phrases', block', rest', hsymbols', hdivides', hremains'⟩ := scan_divides b 0
  rw [h] at hremains
  obtain rfl : rest = [] := hremains
  rw [List.append_nil] at hsymbols
  refine scan_of_remains ?_ (hdivides.append (hdivides'.shift a.size)) (hremains'.shift a)
  rw [symbolsFrom_append, hsymbols, hsymbols', shifted, List.map_append, List.append_assoc]
  rfl

theorem Source.ofText_append (a b : String) :
    Source.ofText (a ++ b) = Source.ofText a ++ Source.ofText b := by
  simp [Source.ofText, Text.Utf8.encode]

end Appending

section Resuming

namespace Reader

variable {r : Reader} {t : Token}

theorem source_next (r : Reader) : r.next.2.source = r.source := by
  unfold next
  split <;> rfl

theorem next_of_token (h : r.next.1 = .ok (some t)) : r.next.2 = ⟨r.source, t.next⟩ := by
  unfold next at h ⊢
  split at h
  · cases h
    rfl
  · rename_i hnone
    exact absurd h (hnone t)

-- What the reader says after a token is what a reader says that begins behind the token.
theorem answer_after_token {k : Nat} (h : r.answer k = .ok (some t)) (j : Nat) :
    r.answer (k + 1 + j) = (Reader.mk r.source t.next).answer j := by
  induction k generalizing r with
  | zero =>
    rw [Nat.zero_add, Nat.add_comm, answer, next_of_token h]
  | succ k ih =>
    have hrest := ih (r := r.next.2) h
    rw [source_next] at hrest
    rw [← hrest, Nat.add_right_comm (k + 1), Nat.add_right_comm k]
    rfl

theorem pos_next_gt (h : r.pos < r.source.size) : r.pos < r.next.2.pos := by
  unfold next
  split
  · rename_i t ht
    have := le_of_nextToken? ht
    simp only [Token.next]
    omega
  · simp only [drained]
    omega

theorem next_of_size_le (h : r.source.size ≤ r.pos) : r.next = (.ok none, r) := by
  have hnone := nextToken?_of_symbolsFrom_nil (symbolsFrom_of_size_le h)
  simp only [next, hnone, drained, Nat.max_eq_left h]

end Reader

theorem length_scan_le (source : Source) (pos : Nat) :
    (scan source pos).tokens.length ≤ source.size - pos := by
  fun_induction scan source pos with
  | case1 => simp
  | case2 => simp
  | case3 pos t hnext rest ih =>
    have := le_of_nextToken? hnext
    simp only [Token.next] at ih
    simp only [List.length_cons, rest, Token.next]
    omega

end Resuming

theorem reader_resumes_and_appends :
    (∀ (source : Source) (pos k : Nat) (t : Token),
      (Reader.mk source pos).answer k = .ok (some t) →
      ∀ j, (Reader.mk source pos).answer (k + 1 + j) = (Reader.mk source t.next).answer j) ∧
    (∀ (a b : String) (tokens more : List Token) (fault : Option ScanFault),
      (Reader.mk (.ofText a) 0).Yields tokens none →
      (Reader.mk (.ofText b) 0).Yields more fault →
      (Reader.mk (.ofText (a ++ b)) 0).Yields
        (tokens ++ more.map (Token.shift (Source.ofText a).size))
        (fault.map (ScanFault.shift (Source.ofText a).size))) ∧
    (∀ r : Reader, (r.pos < r.source.size → r.pos < r.next.2.pos) ∧
      (r.source.size ≤ r.pos → r.next = (.ok none, r))) ∧
    ∀ r : Reader, ∃ tokens fault, r.Yields tokens fault ∧
      tokens.length ≤ r.source.size - r.pos := by
  refine ⟨?_, ?_, ?_, ?_⟩
  · intro source pos k t h
    exact Reader.answer_after_token h
  · intro a b tokens more fault ha hb
    obtain ⟨rfl, hnone⟩ := ha.unique (Reader.yields_scan _ 0)
    obtain ⟨rfl, rfl⟩ := hb.unique (Reader.yields_scan _ 0)
    have hboth := Reader.yields_scan (.ofText (a ++ b)) 0
    rwa [Source.ofText_append, scan_append hnone.symm, ← Source.ofText_append] at hboth
  · intro r
    exact ⟨Reader.pos_next_gt, Reader.next_of_size_le⟩
  · intro r
    exact ⟨_, _, Reader.yields_scan r.source r.pos, length_scan_le r.source r.pos⟩

-- A duplication with a comment behind it, of which the first character has two bytes.
def remarkedDup : String :=
  " \n é;"

-- A duplication, then a code that is not complete.
def brokenOff : String :=
  " \n \t\né"

theorem scan_remarkedDup : scan (.ofText remarkedDup) 0 = ⟨[⟨⟨.dup, ()⟩, 2⟩], none⟩ := by
  with_unfolding_all rfl

theorem scan_brokenOff :
    scan (.ofText brokenOff) 0 = ⟨[⟨⟨.dup, ()⟩, 2⟩], some (.unexpectedEnd 7)⟩ := by
  with_unfolding_all rfl

-- The second duplication can be read from the middle of the character before it.
theorem reader_resumes_and_appends_brokenOff :
    (Reader.mk (.ofText (remarkedDup ++ brokenOff)) 0).Yields
      [⟨⟨.dup, ()⟩, 2⟩, ⟨⟨.dup, ()⟩, 8⟩] (some (.unexpectedEnd 13)) ∧
    (∀ j, (Reader.mk (.ofText (remarkedDup ++ brokenOff)) 0).answer (1 + 1 + j) =
      (Reader.mk (.ofText (remarkedDup ++ brokenOff)) 9).answer j) ∧
    4 < (Reader.mk (.ofText (remarkedDup ++ brokenOff)) 4).next.2.pos := by
  obtain ⟨hresume, happend, hadvance, -⟩ := reader_resumes_and_appends
  have hfirst := Reader.yields_scan (.ofText remarkedDup) 0
  have hsecond := Reader.yields_scan (.ofText brokenOff) 0
  rw [scan_remarkedDup] at hfirst
  rw [scan_brokenOff] at hsecond
  have hboth := happend _ _ _ _ _ hfirst hsecond
  refine ⟨hboth, hresume _ 0 1 ⟨⟨.dup, ()⟩, 8⟩ (hboth 1), ?_⟩
  exact (hadvance ⟨.ofText (remarkedDup ++ brokenOff), 4⟩).1 (by decide +kernel)

end Esoterica.Whitespace
