import Esoterica.Proofs.Brainfuck.Encodings
import Mathlib.Data.List.Infix

namespace Esoterica.Brainfuck.Spoon

open Text PrefixCode

def bits (bytes : List UInt8) : List Bool :=
  bytes.filterMap digit?

-- The one run of digits that begins no code, although all but its last digit does.
def deadEnd : List Bool :=
  [false, false, true, false, true, true, true, false]

-- Of all the beginnings of codes, a single one has a digit after which no code goes on.
theorem deadEnd_of_inits :
    ∀ entry ∈ table, ∀ init ∈ entry.1.inits, init ≠ entry.1 → ∀ last,
      lookup table (init ++ [last]) = .invalid → init ++ [last] = deadEnd := by
  decide

theorem deadEnd_table_iff {run : List Bool} : DeadEnd table run ↔ run = deadEnd := by
  constructor
  · rintro ⟨init, last, rfl, ⟨entry, hentry, hbegins, hne⟩, hinvalid⟩
    have hinit : init ∈ entry.1.inits := (List.mem_inits init entry.1).mpr hbegins
    exact deadEnd_of_inits entry hentry init hinit hne last hinvalid
  · rintro rfl
    -- it leaves the code of NUL at the last digit
    have hbegins : Begins table deadEnd.dropLast :=
      ⟨(codeOf '\x00', '\x00'), by decide, by decide, by decide⟩
    exact ⟨deadEnd.dropLast, false, rfl, hbegins, by decide⟩

theorem bits_cons {b : UInt8} {bit : Bool} (h : digit? b = some bit) (rest : List UInt8) :
    bits (b :: rest) = bit :: bits rest :=
  List.filterMap_cons_some h

theorem map_snd_digitsFrom_eq (i : Nat) (bytes : List UInt8) :
    (digitsFrom i bytes).map Prod.snd = bits bytes :=
  map_snd_digitsFrom i bytes

section Offsets

theorem digitsFrom_append (i : Nat) (front rest : List UInt8) :
    digitsFrom i (front ++ rest) = digitsFrom i front ++ digitsFrom (i + front.length) rest := by
  simp only [digitsFrom, List.zipIdx_append, List.filterMap_append]

theorem digitsFrom_cons_of_some {b : UInt8} {bit : Bool} (h : digit? b = some bit) (i : Nat)
    (rest : List UInt8) : digitsFrom i (b :: rest) = (i, bit) :: digitsFrom (i + 1) rest := by
  simp [digitsFrom, h]

theorem digitsFrom_cons_of_none {b : UInt8} (h : digit? b = none) (i : Nat)
    (rest : List UInt8) : digitsFrom i (b :: rest) = digitsFrom (i + 1) rest := by
  simp [digitsFrom, h]

-- A digit that is found at `offset` stands there, with the digits before it in front.
theorem exists_of_digitsFrom {i offset : Nat} {bytes : List UInt8} {bit : Bool}
    {front rest : List (Nat × Bool)} (h : digitsFrom i bytes = front ++ (offset, bit) :: rest) :
    ∃ before b after, bytes = before ++ b :: after ∧ offset = i + before.length ∧
      digit? b = some bit ∧ bits before = front.map Prod.snd ∧ bits after = rest.map Prod.snd := by
  induction bytes generalizing i front with
  | nil => simp [digitsFrom] at h
  | cons b bytes ih =>
    cases hb : digit? b with
    | none =>
      rw [digitsFrom_cons_of_none hb] at h
      obtain ⟨before, b', after, rfl, rfl, hb', hfront, hrest⟩ := ih h
      refine ⟨b :: before, b', after, rfl, ?_, hb', ?_, hrest⟩
      · simp only [List.length_cons]
        omega
      · simpa [bits, hb] using hfront
    | some first =>
      rw [digitsFrom_cons_of_some hb] at h
      cases front with
      | nil =>
        obtain ⟨hfirst, hrest⟩ := List.cons.inj h
        obtain ⟨rfl, rfl⟩ := Prod.mk.inj hfirst
        refine ⟨[], b, bytes, rfl, rfl, hb, rfl, ?_⟩
        rw [← hrest, map_snd_digitsFrom, bits]
      | cons entry front =>
        obtain ⟨rfl, hrest⟩ := List.cons.inj h
        obtain ⟨before, b', after, rfl, rfl, hb', hfront, hrest⟩ := ih hrest
        refine ⟨b :: before, b', after, rfl, ?_, hb', ?_, hrest⟩
        · simp only [List.length_cons]
          omega
        · simpa [bits, hb] using hfront

end Offsets

-- The bytes come to the dead end behind codes, and its first digit stands at `offset`.
def Refused (bytes : List UInt8) (offset : Nat) : Prop :=
  ∃ program before block rest, bytes = before ++ block ∧ before.length = offset ∧
    Spells table program (bits before) ∧ bits block = deadEnd ++ rest ∧
    (block.head?.bind digit?).isSome = true

theorem decode_digitsFrom_eq_error_iff {bytes : List UInt8} {offset : Nat} :
    PrefixCode.decode table (digitsFrom 0 bytes) = .error offset ↔ Refused bytes offset := by
  rw [PrefixCode.decode_eq_error_iff begins_table_nil isPrefixFree_table]
  constructor
  · rintro ⟨program, front, block, rest, hdigits, hspells, hdead, rfl⟩
    rw [deadEnd_table_iff] at hdead
    cases block with
    | nil => cases hdead
    | cons entry block =>
      obtain ⟨offset, bit⟩ := entry
      obtain ⟨before, b, after, rfl, hoffset, hb, hbefore, hafter⟩ := exists_of_digitsFrom hdigits
      refine ⟨program, before, b :: after, rest.map Prod.snd, rfl, ?_, ?_, ?_, ?_⟩
      · simpa [beginning] using hoffset.symm
      · rwa [hbefore]
      · rw [bits_cons hb, hafter, ← hdead]
        simp
      · simp [hb]
  · rintro ⟨program, before, block, rest, rfl, rfl, hspells, hblock, hfirst⟩
    obtain ⟨b, after, rfl⟩ : ∃ b after, block = b :: after := by
      cases block with
      | nil => cases hfirst
      | cons b after => exact ⟨b, after, rfl⟩
    obtain ⟨bit, hb⟩ : ∃ bit, digit? b = some bit := Option.isSome_iff_exists.mp hfirst
    have hdigits := digitsFrom_cons_of_some hb before.length after
    rw [← map_snd_digitsFrom_eq before.length] at hblock
    obtain ⟨word, others, hsplit, hword, -⟩ := List.map_eq_append_iff.mp hblock
    refine ⟨program, digitsFrom 0 before, word, others, ?_, ?_, ?_, ?_⟩
    · rw [digitsFrom_append, Nat.zero_add, hsplit]
    · rwa [map_snd_digitsFrom_eq]
    · rwa [deadEnd_table_iff]
    · -- the dead end is not empty, and so it begins where the block does
      cases word with
      | nil => cases hword
      | cons entry word =>
        rw [hdigits, List.cons_append] at hsplit
        rw [← (List.cons.inj hsplit).1, beginning]

theorem decode_eq_ok_iff_reads {text out : List Char} :
    decode text = .ok out ↔ Reads table (bits (Utf8.encode text)) out := by
  rw [← map_snd_digitsFrom_eq 0,
    ← exists_decode_iff_reads begins_table_nil isPrefixFree_table, decode, read]
  cases PrefixCode.decode table (digitsFrom 0 (Utf8.encode text)) with
  | error offset => simp [Except.map]
  | ok reading =>
    obtain ⟨items, pending⟩ := reading
    simp [Except.map]

theorem decode_eq_error_iff_refused {text : List Char} {offset : Nat} :
    decode text = .error (.invalidCode offset) ↔ Refused (Utf8.encode text) offset := by
  rw [← decode_digitsFrom_eq_error_iff, decode, read]
  cases PrefixCode.decode table (digitsFrom 0 (Utf8.encode text)) with
  | error offset => simp [Except.map]
  | ok reading => simp [Except.map]

-- A text is read exactly if its digits are codes in a row and the beginning of another code, which
-- are the codes of one program only. Every other text is refused, and always for the same run of
-- digits.
theorem decode_iff_spelled (text : List Char) :
    (∀ out, decode text = .ok out ↔ Reads table (bits (Utf8.encode text)) out) ∧
    (∀ out other, Reads table (bits (Utf8.encode text)) out →
      Reads table (bits (Utf8.encode text)) other → out = other) ∧
    (∀ fault, decode text = .error fault ↔
      ∃ offset, fault = .invalidCode offset ∧ Refused (Utf8.encode text) offset) ∧
    ((∃ out, Reads table (bits (Utf8.encode text)) out) ∨
      ∃ offset, Refused (Utf8.encode text) offset) := by
  refine ⟨fun out => decode_eq_ok_iff_reads, fun out other => ?_, fun fault => ?_, ?_⟩
  · exact reads_unique begins_table_nil isPrefixFree_table
  · obtain ⟨offset⟩ := fault
    simp [decode_eq_error_iff_refused]
  · cases hdecode : decode text with
    | ok out => exact .inl ⟨out, decode_eq_ok_iff_reads.mp hdecode⟩
    | error fault =>
      obtain ⟨offset⟩ := fault
      exact .inr ⟨offset, decode_eq_error_iff_refused.mp hdecode⟩

-- Two digits are left over behind the first code, and the dead end begins behind a comment of two
-- bytes.
theorem decode_iff_spelled_remarked :
    decode ['1', '0', 'é', '0'] = .ok ['+'] ∧
      decode ['1', 'é', '0', '0', '1', '0', '1', '1', ' ', '1', '0', '1'] =
        .error (.invalidCode 3) := by
  have hcode : ([true], '+') ∈ table := by decide
  have hplus : Spells table ['+'] [true] := .cons hcode .nil
  have hbegins : Begins table [false, false] :=
    ⟨([false, false, false], '-'), by decide, by decide, by decide⟩
  refine ⟨((decode_iff_spelled _).1 _).mpr ⟨_, _, hplus, hbegins, by decide⟩, ?_⟩
  refine ((decode_iff_spelled _).2.2.1 _).mpr ⟨3, rfl, ['+'], [49, 195, 169], ?_⟩
  refine ⟨[48, 48, 49, 48, 49, 49, 32, 49, 48, 49], [true], ?_, rfl, hplus, ?_, ?_⟩
  · decide
  · decide
  · decide

end Esoterica.Brainfuck.Spoon
