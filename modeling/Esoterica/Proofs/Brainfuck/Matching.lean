import Esoterica.Proofs.Brainfuck.Brackets
import Mathlib.Order.Bounds.Basic

namespace Esoterica.Brainfuck

open Text

def opening : UInt8 := 91

def closing : UInt8 := 93

inductive Balanced : List UInt8 → Prop
  | nil : Balanced []
  | other {b : UInt8} {rest : List UInt8} (hopen : b ≠ opening) (hclose : b ≠ closing)
      (h : Balanced rest) : Balanced (b :: rest)
  | pair {inner rest : List UInt8} (hinner : Balanced inner) (hrest : Balanced rest) :
      Balanced (opening :: (inner ++ closing :: rest))

-- There is a `[` at offset `i` and a `]` at offset `j`, and what stands between them is balanced.
def Encloses (bytes : List UInt8) (i j : Nat) : Prop :=
  ∃ front inner back, bytes = front ++ opening :: (inner ++ closing :: back) ∧
    front.length = i ∧ i + inner.length + 1 = j ∧ Balanced inner

def IsBracket (bytes : List UInt8) (i : Nat) : Prop :=
  bytes[i]? = some opening ∨ bytes[i]? = some closing

-- Up to the `]` at offset `i` more brackets are closed than opened.
def Exceeds (bytes : List UInt8) (i : Nat) : Prop :=
  bytes[i]? = some closing ∧
    (bytes.take (i + 1)).count opening < (bytes.take (i + 1)).count closing

-- No `]` closes the `[` at offset `i`.
def Unclosed (bytes : List UInt8) (i : Nat) : Prop :=
  bytes[i]? = some opening ∧ ∀ j, ¬Encloses bytes i j

section Balance

variable {v w : List UInt8}

theorem opening_ne_closing : opening ≠ closing := by decide

theorem count_opening_pair (v w : List UInt8) :
    (opening :: (v ++ closing :: w)).count opening = v.count opening + w.count opening + 1 := by
  rw [List.count_cons_self, List.count_append, List.count_cons_of_ne opening_ne_closing.symm]

theorem count_closing_pair (v w : List UInt8) :
    (opening :: (v ++ closing :: w)).count closing = v.count closing + w.count closing + 1 := by
  rw [List.count_cons_of_ne opening_ne_closing, List.count_append, List.count_cons_self,
    Nat.add_assoc]

theorem Balanced.append (hv : Balanced v) (hw : Balanced w) : Balanced (v ++ w) := by
  induction hv with
  | nil => exact hw
  | other hopen hclose _ ih => exact .other hopen hclose ih
  | @pair inner rest hinner _ _ ih =>
    rw [List.cons_append, List.append_assoc, List.cons_append]
    exact .pair hinner ih

theorem Balanced.count_eq (h : Balanced v) : v.count closing = v.count opening := by
  induction h with
  | nil => rfl
  | other hopen hclose _ ih => simpa [List.count_cons, hopen, hclose] using ih
  | @pair inner rest _ _ ihinner ihrest =>
    rw [count_closing_pair, count_opening_pair, ihinner, ihrest]

-- No bracket is closed before it has been opened.
theorem Balanced.count_take_le (h : Balanced v) (k : Nat) :
    (v.take k).count closing ≤ (v.take k).count opening := by
  induction h generalizing k with
  | nil => simp
  | @other b rest hopen hclose _ ih =>
    cases k with
    | zero => simp
    | succ k => simpa [List.count_cons, hopen, hclose] using ih k
  | @pair inner rest hinner hrest ihinner ihrest =>
    cases k with
    | zero => simp
    | succ k =>
      rw [List.take_succ_cons]
      by_cases hk : k ≤ inner.length
      · have hle := ihinner k
        rw [List.take_append_of_le_length hk, List.count_cons_self,
          List.count_cons_of_ne opening_ne_closing]
        omega
      · obtain ⟨more, hmore⟩ : ∃ more, k = inner.length + (more + 1) :=
          ⟨k - inner.length - 1, by omega⟩
        have hle := ihrest more
        rw [hmore, List.take_length_add_append, List.take_succ_cons, count_closing_pair,
          count_opening_pair, hinner.count_eq]
        omega

theorem Encloses.append {i j : Nat} (h : Encloses v i j) (back : List UInt8) :
    Encloses (v ++ back) i j := by
  obtain ⟨front, inner, rest, rfl, hi, hj, hinner⟩ := h
  exact ⟨front, inner, rest ++ back, by simp, hi, hj, hinner⟩

theorem Encloses.prepend {i j : Nat} (h : Encloses v i j) (front : List UInt8) :
    Encloses (front ++ v) (front.length + i) (front.length + j) := by
  obtain ⟨before, inner, rest, rfl, rfl, rfl, hinner⟩ := h
  refine ⟨front ++ before, inner, rest, by simp, by simp, ?_, hinner⟩
  omega

theorem Balanced.exists_encloses {i : Nat} (h : Balanced v) (hi : v[i]? = some opening) :
    ∃ j, Encloses v i j := by
  induction h generalizing i with
  | nil => simp at hi
  | @other b rest hopen _ _ ih =>
    cases i with
    | zero => exact absurd (by simpa using hi) hopen
    | succ i =>
      obtain ⟨j, hj⟩ := ih (by simpa using hi)
      have hlonger := hj.prepend [b]
      exact ⟨_, by simpa [Nat.add_comm] using hlonger⟩
  | @pair inner rest hinner hrest ihinner ihrest =>
    cases i with
    | zero => exact ⟨inner.length + 1, [], inner, rest, rfl, rfl, by omega, hinner⟩
    | succ i =>
      rw [List.getElem?_cons_succ] at hi
      by_cases hlt : i < inner.length
      · rw [List.getElem?_append_left hlt] at hi
        obtain ⟨j, hj⟩ := ihinner hi
        have hlonger := (hj.append (closing :: rest)).prepend [opening]
        exact ⟨_, by simpa [Nat.add_comm] using hlonger⟩
      · rw [List.getElem?_append_right (by omega)] at hi
        cases hrest : i - inner.length with
        | zero =>
          rw [hrest, List.getElem?_cons_zero, Option.some.injEq] at hi
          exact absurd hi opening_ne_closing.symm
        | succ k =>
          rw [hrest, List.getElem?_cons_succ] at hi
          obtain ⟨j, hj⟩ := ihrest hi
          have hlonger := hj.prepend (opening :: (inner ++ [closing]))
          have hindex : (opening :: (inner ++ [closing])).length + k = i + 1 := by
            simp only [List.length_cons, List.length_append, List.length_nil]
            omega
          rw [hindex] at hlonger
          exact ⟨_, by simpa using hlonger⟩

end Balance

section Pending

-- The bytes read so far, and the offsets of the brackets that are open, the innermost first. Behind
-- each of them, up to the next one, the text is balanced.
inductive Pending : List UInt8 → List Nat → Prop
  | balanced {v : List UInt8} (h : Balanced v) : Pending v []
  | opened {v w : List UInt8} {opened : List Nat} (h : Pending v opened) (hw : Balanced w) :
      Pending (v ++ opening :: w) (v.length :: opened)

variable {v w : List UInt8} {opened : List Nat}

theorem Pending.append (h : Pending v opened) (hw : Balanced w) : Pending (v ++ w) opened := by
  cases h with
  | balanced hv => exact .balanced (hv.append hw)
  | opened h hv =>
    rw [List.append_assoc, List.cons_append]
    exact .opened h (hv.append hw)

-- The innermost bracket that is open is the one to be closed next.
theorem Pending.close {start : Nat} (h : Pending v (start :: opened)) (back : List UInt8) :
    Pending (v ++ [closing]) opened ∧ Encloses (v ++ closing :: back) start v.length := by
  cases h with
  | @opened front inner _ hfront hinner =>
    constructor
    · rw [List.append_assoc, List.cons_append]
      exact hfront.append (.pair hinner .nil)
    · refine ⟨front, inner, back, by simp, rfl, ?_, hinner⟩
      simp only [List.length_append, List.length_cons]
      omega

theorem Pending.lt_length (h : Pending v opened) : ∀ i ∈ opened, i < v.length := by
  induction h with
  | balanced => simp
  | @opened v w opened _ _ ih =>
    intro i hi
    rw [List.length_append, List.length_cons]
    rcases List.mem_cons.mp hi with rfl | hi
    · omega
    · have := ih i hi
      omega

theorem Pending.nodup (h : Pending v opened) : opened.Nodup := by
  induction h with
  | balanced => exact .nil
  | @opened v w opened hv _ ih =>
    refine List.nodup_cons.mpr ⟨fun hmem => ?_, ih⟩
    exact absurd (hv.lt_length _ hmem) (Nat.lt_irrefl _)

theorem Pending.count_take_le (h : Pending v opened) (k : Nat) :
    (v.take k).count closing ≤ (v.take k).count opening := by
  induction h generalizing k with
  | balanced hv => exact hv.count_take_le k
  | @opened v w opened _ hw ih =>
    by_cases hk : k ≤ v.length
    · rw [List.take_append_of_le_length hk]
      exact ih k
    · obtain ⟨more, rfl⟩ : ∃ more, k = v.length + (more + 1) := ⟨k - v.length - 1, by omega⟩
      have hv := ih v.length
      have hmore := hw.count_take_le more
      rw [List.take_length] at hv
      rw [List.take_length_add_append, List.take_succ_cons, List.count_append, List.count_append,
        List.count_cons_self, List.count_cons_of_ne opening_ne_closing]
      omega

theorem Pending.not_exceeds (h : Pending v opened) (i : Nat) : ¬Exceeds v i := by
  rintro ⟨-, hcount⟩
  have hle := h.count_take_le (i + 1)
  omega

-- Where all has been read, the innermost bracket that is open is the last one that nothing closes.
theorem Pending.isGreatest_unclosed {last : Nat} (h : Pending v (last :: opened)) :
    IsGreatest { i | Unclosed v i } last := by
  cases h with
  | @opened front w _ _ hw =>
    constructor
    · refine ⟨by simp, ?_⟩
      rintro j ⟨front', inner, back, hbytes, hlength, -, hinner⟩
      obtain ⟨rfl, hrest⟩ := List.append_inj hbytes hlength.symm
      obtain rfl := (List.cons.inj hrest).2
      -- the bracket that closes it closes more than has been opened behind it
      have hle := hw.count_take_le (inner.length + 1)
      rw [List.take_length_add_append, List.take_succ_cons, List.take_zero, List.count_append,
        List.count_append, List.count_cons_self, List.count_cons_of_ne opening_ne_closing.symm,
        hinner.count_eq, List.count_nil, List.count_nil] at hle
      omega
    · rintro i ⟨hi, hunclosed⟩
      by_contra hlt
      obtain ⟨k, rfl⟩ : ∃ k, i = front.length + (k + 1) := ⟨i - front.length - 1, by omega⟩
      rw [List.getElem?_append_right (by omega), Nat.add_sub_cancel_left,
        List.getElem?_cons_succ] at hi
      obtain ⟨j, hj⟩ := hw.exists_encloses hi
      have hlonger := (hj.prepend [opening]).prepend front
      rw [List.length_singleton, Nat.add_comm 1 k] at hlonger
      exact hunclosed _ hlonger

-- Where nothing is open, another closing bracket is the first one to close nothing.
theorem Pending.isLeast_exceeds (h : Pending v []) (back : List UInt8) :
    IsLeast { i | Exceeds (v ++ closing :: back) i } v.length := by
  constructor
  · have hv : v.count closing = v.count opening := by
      cases h with
      | balanced hv => exact hv.count_eq
    refine ⟨by simp, ?_⟩
    rw [List.take_length_add_append, List.take_succ_cons, List.take_zero, List.count_append,
      List.count_append, List.count_cons_self, List.count_cons_of_ne opening_ne_closing.symm, hv]
    simp
  · rintro i ⟨-, hcount⟩
    by_contra hlt
    rw [List.take_append_of_le_length (by omega)] at hcount
    have hle := h.count_take_le (i + 1)
    omega

end Pending

section Pass

-- The bracket at offset `x` and the one that belongs to it are recorded as partners.
def Mated (bytes : List UInt8) (partners : Array Nat) (x : Nat) : Prop :=
  ∃ i j, Encloses bytes i j ∧ partners.getD i 0 = j ∧ partners.getD j 0 = i ∧ (x = i ∨ x = j)

-- The bracket at `offset` is the first one to close nothing or, if there is none, the last one that
-- nothing closes.
def Misplaced (bytes : List UInt8) (offset : Nat) : Prop :=
  IsLeast { i | Exceeds bytes i } offset ∨
    (∀ i, ¬Exceeds bytes i) ∧ IsGreatest { i | Unclosed bytes i } offset

-- What the pass over the brackets says about those that are open or come from offset `i` on.
def Verdict (bytes : List UInt8) (i : Nat) (opened : List Nat) : Except Fault (Array Nat) → Prop
  | .ok partners => Balanced bytes ∧ (∀ x ∈ opened, Mated bytes partners x) ∧
      ∀ x, i ≤ x → IsBracket bytes x → Mated bytes partners x
  | .error fault => ∃ offset, fault = .unbalancedBracket offset ∧ Misplaced bytes offset

theorem toNat_eq_of_ofNat_eq {b : UInt8} {c : Char} (h : Char.ofNat b.toNat = c) :
    b.toNat = c.toNat := by
  have hvalid : b.toNat.isValidChar := by
    have hlt := b.toNat_lt
    exact .inl (by omega)
  rw [← h, Char.ofNat, dif_pos hvalid]
  rfl

theorem ofByte_eq_loop_iff {b : UInt8} : Command.ofByte b = .loop ↔ b = opening := by
  constructor
  · intro h
    unfold Command.ofByte at h
    split at h
    case h_7 hchar => exact UInt8.toNat_inj.mp (toNat_eq_of_ofNat_eq hchar)
    all_goals cases h
  · rintro rfl
    rfl

theorem ofByte_eq_repeat_iff {b : UInt8} : Command.ofByte b = .repeat ↔ b = closing := by
  constructor
  · intro h
    unfold Command.ofByte at h
    split at h
    case h_8 hchar => exact UInt8.toNat_inj.mp (toNat_eq_of_ofNat_eq hchar)
    all_goals cases h
  · rintro rfl
    rfl

theorem matchBrackets_of_other {b : UInt8} (hopen : b ≠ opening) (hclose : b ≠ closing) (i : Nat)
    (opened : List Nat) (partners : Array Nat) (commands : List Command) :
    matchBrackets i opened partners (Command.ofByte b :: commands) =
      matchBrackets (i + 1) opened partners commands := by
  rw [matchBrackets]
  · exact mt ofByte_eq_loop_iff.mp hopen
  · exact mt ofByte_eq_repeat_iff.mp hclose

section Verdict

variable {bytes : List UInt8} {i start : Nat} {opened : List Nat}
  {result : Except Fault (Array Nat)}

theorem Verdict.of_opening (h : Verdict bytes (i + 1) (i :: opened) result) :
    Verdict bytes i opened result := by
  cases result with
  | error fault => exact h
  | ok table =>
    obtain ⟨hbalanced, hopened, hlater⟩ := h
    refine ⟨hbalanced, fun x hx => hopened x (List.mem_cons_of_mem _ hx), ?_⟩
    intro x hx hbracket
    rcases Nat.eq_or_lt_of_le hx with rfl | hlt
    · exact hopened _ List.mem_cons_self
    · exact hlater x hlt hbracket

theorem Verdict.of_closing (h : Verdict bytes (i + 1) opened result)
    (hencloses : Encloses bytes start i)
    (hrecorded : ∀ table, result = .ok table → table.getD start 0 = i ∧ table.getD i 0 = start) :
    Verdict bytes i (start :: opened) result := by
  cases result with
  | error fault => exact h
  | ok table =>
    obtain ⟨hbalanced, hopened, hlater⟩ := h
    obtain ⟨hfirst, hsecond⟩ := hrecorded table rfl
    refine ⟨hbalanced, fun x hx => ?_, fun x hx hbracket => ?_⟩
    · rcases List.mem_cons.mp hx with rfl | hx
      · exact ⟨x, i, hencloses, hfirst, hsecond, .inl rfl⟩
      · exact hopened x hx
    · rcases Nat.eq_or_lt_of_le hx with rfl | hlt
      · exact ⟨start, _, hencloses, hfirst, hsecond, .inr rfl⟩
      · exact hlater x hlt hbracket

theorem Verdict.of_other (h : Verdict bytes (i + 1) opened result) (hother : ¬IsBracket bytes i) :
    Verdict bytes i opened result := by
  cases result with
  | error fault => exact h
  | ok table =>
    obtain ⟨hbalanced, hopened, hlater⟩ := h
    refine ⟨hbalanced, hopened, fun x hx hbracket => ?_⟩
    rcases Nat.eq_or_lt_of_le hx with rfl | hlt
    · exact absurd hbracket hother
    · exact hlater x hlt hbracket

end Verdict

-- The induction is on what is still to be read; what has been read is known by its open brackets.
theorem verdict_of_matchBrackets {v rest : List UInt8} {opened : List Nat} {partners : Array Nat}
    (h : Pending v opened) (hsize : partners.size = (v ++ rest).length) :
    Verdict (v ++ rest) v.length opened
      (matchBrackets v.length opened partners (rest.map Command.ofByte)) := by
  induction rest generalizing v opened partners with
  | nil =>
    rw [List.append_nil, List.map_nil]
    cases opened with
    | nil =>
      cases h with
      | balanced hv =>
        refine ⟨hv, by simp, fun x hx hbracket => ?_⟩
        simp [IsBracket, List.getElem?_eq_none hx] at hbracket
    | cons last opened => exact ⟨last, rfl, .inr ⟨h.not_exceeds, h.isGreatest_unclosed⟩⟩
  | cons b rest ih =>
    have hnext (opened' : List Nat) (partners' : Array Nat) (h' : Pending (v ++ [b]) opened')
        (hsize' : partners'.size = (v ++ b :: rest).length) :
        Verdict (v ++ b :: rest) (v.length + 1) opened'
          (matchBrackets (v.length + 1) opened' partners' (rest.map Command.ofByte)) := by
      have hverdict := ih h' (by simpa using hsize')
      simpa using hverdict
    by_cases hopen : b = opening
    · subst hopen
      exact (hnext _ partners (.opened h .nil) hsize).of_opening
    by_cases hclose : b = closing
    · subst hclose
      cases opened with
      | nil => exact ⟨v.length, rfl, .inl (h.isLeast_exceeds rest)⟩
      | cons start opened =>
        obtain ⟨hpending, hencloses⟩ := h.close rest
        refine (hnext opened _ hpending ?_).of_closing hencloses fun table htable => ?_
        · simpa using hsize
        · exact getD_of_closed htable (by simp [hsize]) h.lt_length h.nodup
    · rw [List.map_cons, matchBrackets_of_other hopen hclose]
      refine (hnext opened partners (h.append (.other hopen hclose .nil)) hsize).of_other ?_
      simp [IsBracket, hopen, hclose]

end Pass

section Outcome

variable {bytes : List UInt8} {i j : Nat}

theorem Encloses.getElem? (h : Encloses bytes i j) :
    bytes[i]? = some opening ∧ bytes[j]? = some closing ∧ i < j := by
  obtain ⟨front, inner, back, rfl, rfl, rfl, -⟩ := h
  refine ⟨by simp, ?_, by omega⟩
  rw [List.getElem?_append_right (by omega), Nat.add_assoc, Nat.add_sub_cancel_left,
    List.getElem?_cons_succ, List.getElem?_append_right (Nat.le_refl _)]
  simp

-- Partners belong to each other, and one of them opens what the other one closes.
theorem Mated.partner {p : Program} {x : Nat} (h : Mated bytes p.partners x) :
    IsBracket bytes (p.partner x) ∧ p.partner (p.partner x) = x ∧ p.partner x ≠ x ∧
      (bytes[x]? = some opening → Encloses bytes x (p.partner x)) := by
  obtain ⟨i, j, hencloses, hfirst, hsecond, hx⟩ := h
  obtain ⟨hi, hj, hlt⟩ := hencloses.getElem?
  have hpi : p.partner i = j := hfirst
  have hpj : p.partner j = i := hsecond
  rcases hx with rfl | rfl
  · rw [hpi]
    exact ⟨.inr hj, hpj, by omega, fun _ => hencloses⟩
  · rw [hpj]
    refine ⟨.inl hi, hpi, by omega, fun hopen => ?_⟩
    rw [hj, Option.some.injEq] at hopen
    exact absurd hopen.symm opening_ne_closing

theorem Balanced.not_misplaced (h : Balanced bytes) (offset : Nat) : ¬Misplaced bytes offset := by
  rintro (⟨⟨-, hcount⟩, -⟩ | ⟨-, ⟨hopen, hunclosed⟩, -⟩)
  · have hle := h.count_take_le (offset + 1)
    omega
  · obtain ⟨j, hj⟩ := h.exists_encloses hopen
    exact hunclosed j hj

theorem Misplaced.unique (h : Misplaced bytes i) (h' : Misplaced bytes j) : i = j := by
  rcases h with hleast | ⟨hnone, hgreatest⟩
  · rcases h' with hleast' | ⟨hnone', -⟩
    · exact hleast.unique hleast'
    · exact absurd hleast.1 (hnone' i)
  · rcases h' with hleast' | ⟨-, hgreatest'⟩
    · exact absurd hleast'.1 (hnone j)
    · exact hgreatest.unique hgreatest'

theorem verdict_of_bytes (bytes : List UInt8) :
    Verdict bytes 0 []
      (matchBrackets 0 [] (Array.replicate bytes.length 0) (bytes.map Command.ofByte)) :=
  verdict_of_matchBrackets (v := []) (.balanced .nil) (by simp)

theorem verdict_of_text (text : List Char) :
    Verdict (Utf8.encode text) 0 [] ((Program.ofText text).map Program.partners) := by
  have hverdict := verdict_of_bytes (Utf8.encode text)
  rw [Program.ofText, Program.ofCommands, List.length_map]
  generalize matchBrackets _ _ _ _ = result at hverdict ⊢
  cases result with
  | error fault => exact hverdict
  | ok table => exact hverdict

-- A program is accepted exactly if its brackets are balanced. Then the table leads from each
-- bracket to the other one of its pair and back, with a balanced text between them. Otherwise the
-- bracket that is reported is the first one to close nothing or, if there is none, the last one
-- that nothing closes.
theorem brackets_matched_or_misplaced (text : List Char) :
    ((∃ p, Program.ofText text = .ok p) ↔ Balanced (Utf8.encode text)) ∧
    (∀ p, Program.ofText text = .ok p → ∀ x, IsBracket (Utf8.encode text) x →
      IsBracket (Utf8.encode text) (p.partner x) ∧ p.partner (p.partner x) = x ∧
        p.partner x ≠ x ∧
        ((Utf8.encode text)[x]? = some opening → Encloses (Utf8.encode text) x (p.partner x))) ∧
    ∀ fault, Program.ofText text = .error fault ↔
      ∃ offset, fault = .unbalancedBracket offset ∧ Misplaced (Utf8.encode text) offset := by
  have hverdict := verdict_of_text text
  cases htext : Program.ofText text with
  | ok p =>
    rw [htext] at hverdict
    obtain ⟨hbalanced, -, hmated⟩ := hverdict
    refine ⟨⟨fun _ => hbalanced, fun _ => ⟨p, rfl⟩⟩, ?_, fun fault => ⟨fun h => ?_, ?_⟩⟩
    · intro q hq x hx
      obtain rfl := Except.ok.inj hq
      exact (hmated x (Nat.zero_le x) hx).partner
    · cases h
    · rintro ⟨offset, -, hmisplaced⟩
      exact absurd hmisplaced (hbalanced.not_misplaced offset)
  | error fault =>
    rw [htext] at hverdict
    obtain ⟨offset, rfl, hmisplaced⟩ := hverdict
    refine ⟨⟨?_, fun hbalanced => ?_⟩, ?_, fun fault => ⟨fun h => ?_, ?_⟩⟩
    · rintro ⟨p, hp⟩
      cases hp
    · exact absurd hmisplaced (hbalanced.not_misplaced offset)
    · intro p hp
      cases hp
    · exact ⟨offset, (Except.error.inj h).symm, hmisplaced⟩
    · rintro ⟨other, rfl, hother⟩
      rw [hmisplaced.unique hother]

-- A pair within a pair, with a comment of two bytes in front of it; a bracket that nothing closes
-- in front of such a pair; and one that closes nothing behind it.
theorem brackets_matched_or_misplaced_nested :
    (∃ p, Program.ofText ['[', 'é', '[', ']', ']'] = .ok p ∧ p.partner (p.partner 0) = 0 ∧
      Encloses (Utf8.encode ['[', 'é', '[', ']', ']']) 0 (p.partner 0)) ∧
    (Program.ofText ['[', '[', ']'] = .error (.unbalancedBracket 0) ∧
      Misplaced (Utf8.encode ['[', '[', ']']) 0) ∧
    Program.ofText ['+', ']'] = .error (.unbalancedBracket 1) ∧
      Misplaced (Utf8.encode ['+', ']']) 1 := by
  refine ⟨⟨_, rfl, ?_⟩, ⟨rfl, ?_⟩, rfl, ?_⟩
  · obtain ⟨-, hinvolution, -, hencloses⟩ :=
      (brackets_matched_or_misplaced ['[', 'é', '[', ']', ']']).2.1 _ rfl 0 (.inl rfl)
    exact ⟨hinvolution, hencloses rfl⟩
  · obtain ⟨offset, hoffset, hmisplaced⟩ :=
      ((brackets_matched_or_misplaced ['[', '[', ']']).2.2 (.unbalancedBracket 0)).mp rfl
    cases hoffset
    exact hmisplaced
  · obtain ⟨offset, hoffset, hmisplaced⟩ :=
      ((brackets_matched_or_misplaced ['+', ']']).2.2 (.unbalancedBracket 1)).mp rfl
    cases hoffset
    exact hmisplaced

end Outcome

end Esoterica.Brainfuck
