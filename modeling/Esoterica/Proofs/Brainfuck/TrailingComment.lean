import Esoterica.Proofs.Brainfuck.Brackets
import Esoterica.Proofs.Halting
import Esoterica.Proofs.Text.Utf8

namespace Esoterica.Brainfuck

def Program.remarked (p : Program) : Program :=
  ⟨p.code.push .comment, p.partners.push 0⟩

section Brackets

theorem push_setIfInBounds {table : Array Nat} {x : Nat} (h : x < table.size) (v : Nat) :
    (table.push 0).setIfInBounds x v = (table.setIfInBounds x v).push 0 := by
  grind

-- The entry of the comment is none of those that the brackets fill in.
theorem matchBrackets_append_comment {commands : List Command} {i : Nat} {opened : List Nat}
    {partners : Array Nat} (hsize : i + commands.length ≤ partners.size)
    (hopened : ∀ x ∈ opened, x < i) :
    matchBrackets i opened (partners.push 0) (commands ++ [.comment]) =
      (matchBrackets i opened partners commands).map (·.push 0) := by
  fun_induction matchBrackets i opened partners commands with
  | case1 => rfl
  | case2 => rfl
  | case3 i opened partners rest ih =>
    simp only [List.length_cons] at hsize
    refine ih (by omega) (List.forall_mem_cons.mpr ⟨Nat.lt_succ_self i, fun x hx => ?_⟩)
    exact Nat.lt_succ_of_lt (hopened x hx)
  | case4 => rfl
  | case5 i partners rest start opened ih =>
    simp only [List.length_cons] at hsize
    have hstart := hopened start List.mem_cons_self
    rw [List.cons_append, matchBrackets, push_setIfInBounds (by omega),
      push_setIfInBounds (by simp; omega)]
    refine ih (by simp; omega) fun x hx => ?_
    exact Nat.lt_succ_of_lt (hopened x (List.mem_cons_of_mem _ hx))
  | case6 i opened partners command rest hloop hrepeat ih =>
    simp only [List.length_cons] at hsize
    rw [List.cons_append, matchBrackets]
    · exact ih (by omega) fun x hx => Nat.lt_succ_of_lt (hopened x hx)
    · exact hloop
    · exact hrepeat

theorem ofCommands_append_comment (commands : List Command) :
    Program.ofCommands (commands ++ [.comment]) =
      (Program.ofCommands commands).map Program.remarked := by
  have hmatch : matchBrackets 0 [] ((Array.replicate commands.length 0).push 0)
      (commands ++ [.comment]) =
        (matchBrackets 0 [] (Array.replicate commands.length 0) commands).map (·.push 0) :=
    matchBrackets_append_comment (by simp) (by simp)
  rw [Program.ofCommands, Program.ofCommands, List.length_append, List.length_singleton,
    Array.replicate_succ, hmatch]
  cases matchBrackets 0 [] (Array.replicate commands.length 0) commands with
  | error fault => rfl
  | ok partners => simp [Except.map, Program.remarked]

theorem ofText_append_feed (text : List Char) :
    Program.ofText (text ++ ['\n']) = (Program.ofText text).map Program.remarked := by
  rw [Program.ofText, Program.ofText, ← ofCommands_append_comment, Text.Utf8.encode_append,
    Text.Utf8.encode_feed, List.map_append]
  rfl

end Brackets

section Run

variable {κ : Type} [Console κ] {p : Program} {m : Machine} {c : κ}

theorem partner_remarked (offset : Nat) : p.remarked.partner offset = p.partner offset := by
  simp only [Program.partner, Program.remarked, Array.getD_eq_getD_getElem?, Array.getElem?_push]
  split
  · simp_all
  · rfl

theorem exec_remarked (command : Command) (h : m.pointer.toNat < tapeLength) :
    Machine.exec p.remarked command m h c = Machine.exec p command m h c := by
  cases command <;> simp only [Machine.exec, Machine.leap, partner_remarked]

theorem step_remarked (h : m.offset ≠ p.code.size) :
    Machine.step p.remarked (m, c) = Machine.step p (m, c) := by
  simp only [Machine.step, exec_remarked]
  simp only [Program.remarked, Array.getElem?_push, h, if_false]

theorem pointer_lt_of_next {m' : Machine} {c' : κ} (h : Machine.step p (m, c) = .next (m', c')) :
    m'.pointer.toNat < tapeLength := by
  simp only [Machine.step] at h
  split at h
  · cases h
  split at h
  case isFalse => cases h
  case isTrue command _ hm =>
    cases command <;> simp only [Machine.exec, Machine.put, Machine.move, Machine.leap,
      Machine.advance] at h
    case right | left =>
      split at h <;> cases h
      assumption
    case input | loop | «repeat» =>
      split at h <;> cases h <;> exact hm
    case stop => cases h
    all_goals
      cases h
      exact hm

theorem step_of_offset (h : p.code.size ≤ m.offset) :
    Machine.step p (m, c) = .stop (.ok ()) (m, c) := by
  simp [Machine.step, Array.getElem?_eq_none h]

-- Where the program is over without the comment, the comment comes first with it.
theorem step_remarked_of_end (h : m.offset = p.code.size) (hm : m.pointer.toNat < tapeLength) :
    Machine.step p.remarked (m, c) = .next ({ m with offset := m.offset + 1 }, c) := by
  have hcode : p.remarked.code[m.offset]? = some .comment := by simp [Program.remarked, h]
  simp only [Machine.step, hcode, dif_pos hm]
  rfl

theorem halts_remarked_of_end (h : m.offset = p.code.size) (hm : m.pointer.toNat < tapeLength) :
    Halts (Machine.step p.remarked) (m, c) (.ok (), { m with offset := m.offset + 1 }, c) := by
  refine (halts_iff_of_next (step_remarked_of_end h hm)).mpr (halts_of_stop (step_of_offset ?_))
  simp [Program.remarked, h]

-- Both machines are in the same state, with the pointer on the tape.
def Together (x y : Machine × κ) : Prop :=
  y = x ∧ x.1.pointer.toNat < tapeLength

def EndAlike (x y : Except Fault Unit × Machine × κ) : Prop :=
  y.1 = x.1 ∧ y.2.2 = x.2.2

-- The machines go together until they come to where the comment stands.
theorem together_or_end {x y : Machine × κ} (h : Together x y) :
    (∃ x' y', Machine.step p x = .next x' ∧ Machine.step p.remarked y = .next y' ∧
        Together x' y') ∨
      ∃ out out', Halts (Machine.step p) x out ∧ Halts (Machine.step p.remarked) y out' ∧
        EndAlike out out' := by
  obtain ⟨rfl, hm⟩ := h
  obtain ⟨m, c⟩ := y
  by_cases hend : m.offset = p.code.size
  · exact .inr ⟨_, _, halts_of_stop (step_of_offset (Nat.le_of_eq hend.symm)),
      halts_remarked_of_end hend hm, rfl, rfl⟩
  · have hsame : Machine.step p.remarked (m, c) = Machine.step p (m, c) := step_remarked hend
    cases hstep : Machine.step p (m, c) with
    | next z =>
      obtain ⟨m', c'⟩ := z
      exact .inl ⟨_, _, rfl, hsame.trans hstep, rfl, pointer_lt_of_next hstep⟩
    | stop r z =>
      exact .inr ⟨_, _, halts_of_stop hstep, halts_of_stop (hsame.trans hstep), rfl, rfl⟩

theorem halts_remarked_iff (hm : m.pointer.toNat < tapeLength) {r : Except Fault Unit} {c' : κ} :
    (∃ m', Halts (Machine.step p.remarked) (m, c) (r, m', c')) ↔
      ∃ m', Halts (Machine.step p) (m, c) (r, m', c') := by
  have htogether : Together (m, c) (m, c) := ⟨rfl, hm⟩
  obtain ⟨hforth, hback⟩ :=
    Halts.both (E := EndAlike) (fun x y h => together_or_end (p := p) h) htogether
  constructor
  · rintro ⟨m', h⟩
    obtain ⟨⟨_, m'', _⟩, h', rfl, rfl⟩ := hback _ h
    exact ⟨m'', h'⟩
  · rintro ⟨m', h⟩
    obtain ⟨⟨_, m'', _⟩, h', rfl, rfl⟩ := hforth _ h
    exact ⟨m'', h'⟩

end Run

end Esoterica.Brainfuck
