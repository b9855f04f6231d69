import Esoterica.Language

namespace Esoterica

open Text

variable {κ σ τ ρ υ α β : Type}

-- A step that has been made beside the console `c`.
def Progress.beside (c : κ) (x : Progress σ ρ) : Progress (σ × κ) ρ :=
  x.map (·, c) id

-- A step without the console that it has been made beside.
def Progress.alone (x : Progress (σ × κ) ρ) : Progress σ ρ :=
  x.map Prod.fst id

namespace Console

-- What a machine does to its console, and what it makes of the answer.
inductive Move (α : Type) where
  | tell (text : List Char) (next : α)
  | askChar (next : Option Char → α)
  | askLine (next : Option (List Char) → α)

namespace Move

def map (f : α → β) : Move α → Move β
  | .tell text next => .tell text (f next)
  | .askChar next => .askChar (f ∘ next)
  | .askLine next => .askLine (f ∘ next)

-- What the machine makes of the answer that a console gives, and that console afterwards.
def perform [Console κ] (c : κ) : Move α → α × κ
  | .tell text next => (next, emitAll c text)
  | .askChar next => (next (readChar c).1, (readChar c).2)
  | .askLine next => (next (readLine c).1, (readLine c).2)

theorem perform_map [Console κ] (f : α → β) (move : Move α) (c : κ) :
    (move.map f).perform c = (f (move.perform c).1, (move.perform c).2) := by
  cases move <;> rfl

def play [Console κ] (c : κ) (move : Move (Progress σ ρ)) : Progress (σ × κ) ρ :=
  (move.perform c).1.beside (move.perform c).2

theorem play_map [Console κ] (f : σ → τ) (g : ρ → υ) (move : Move (Progress σ ρ)) (c : κ) :
    (move.map (Progress.map f g)).play c = (move.play c).map (fun (s, c) => (f s, c)) g := by
  simp only [play, perform_map]
  cases (move.perform c).1 <;> rfl

end Move

-- A console with nothing behind it. A step that asks nothing of its console can be read off here.
instance : Console Unit where
  emit _ _ := ()
  readChar _ := (none, ())
  readLine _ := (none, ())
  note _ _ := ()

end Console

open Console

namespace Whitespace

def Outcome.beside (c : κ) : Outcome Unit → Outcome κ
  | .done m _ => .done m c
  | .exit m _ => .exit m c
  | .fault f m _ => .fault f m c

namespace Machine

variable {p : Program} {m : Machine} {c : κ}

theorem seek_beside (target : Nat) : seek p target m c = (seek p target m ()).beside c := by
  unfold seek
  split <;> rfl

theorem jump_beside (label : Label) : jump p label m c = (jump p label m ()).beside c := by
  unfold jump
  split
  · exact seek_beside _
  · rfl

theorem unary_beside {f : Int64 → Machine → Outcome κ} {g : Int64 → Machine → Outcome Unit}
    (h : ∀ value m, f value m = (g value m).beside c) : unary f m c = (unary g m ()).beside c := by
  unfold unary
  split
  · exact h _ _
  · rfl

theorem binary_beside (f : Int64 → Int64 → Except Fault Int64) :
    binary f m c = (binary f m ()).beside c := by
  unfold binary
  split
  · split <;> rfl
  · rfl

-- The operations that write or read.
def talks : Opcode → Bool
  | .outchar | .outnum | .readchar | .readnum => true
  | _ => false

theorem exec_beside [Console κ] {i : Instr} (h : talks i.opcode = false) (stop : Nat) :
    exec p stop i m c = (exec p stop i m ()).beside c := by
  obtain ⟨op, operand⟩ := i
  cases op with
  | outchar | outnum | readchar | readnum => cases h
  | push | label | exit => rfl
  | dup | copy | swap =>
    simp only [exec]
    split <;> rfl
  | add | sub | mul | div | mod =>
    simp only [exec]
    exact binary_beside _
  | pop =>
    simp only [exec]
    exact unary_beside fun _ _ => rfl
  | slide =>
    simp only [exec]
    refine unary_beside fun value m => ?_
    split <;> rfl
  | store =>
    simp only [exec]
    exact unary_beside fun _ _ => unary_beside fun _ _ => rfl
  | retr =>
    simp only [exec]
    refine unary_beside fun address m => ?_
    split <;> rfl
  | call | jmp =>
    simp only [exec]
    exact jump_beside _
  | jz | jn =>
    simp only [exec]
    refine unary_beside fun value m => ?_
    split
    · exact jump_beside _
    · rfl
  | ret =>
    simp only [exec]
    split
    · exact seek_beside _
    · rfl

def hearChar (address : Int64) (m : Machine) : Option Char → Outcome Unit
  | some char => .done { m with heap := m.heap.insert address (codeOf char) } ()
  | none => .fault .endOfInput m ()

def hearNumber (address : Int64) (m : Machine) : Option (List Char) → Outcome Unit
  | some line =>
    match Decimal.readInt64 (trim line) with
    | .ok number => .done { m with heap := m.heap.insert address number } ()
    | .error _ => .fault .notANumber m ()
  | none => .fault .endOfInput m ()

theorem exec_move (p : Program) (stop : Nat) (i : Instr) (m : Machine) :
    ∃ move : Move (Outcome Unit), ∀ (κ : Type) [Console κ] (c : κ),
      exec p stop i m c = (move.perform c).1.beside (move.perform c).2 := by
  cases htalks : talks i.opcode with
  | false => exact ⟨.tell [] (exec p stop i m ()), fun κ _ c => exec_beside htalks stop⟩
  | true =>
    obtain ⟨op, operand⟩ := i
    obtain ⟨stack, calls, heap, cursor, ticks⟩ := m
    cases stack with
    | nil =>
      -- all four need an operand
      refine ⟨.tell [] (.fault .stackUnderflow ⟨[], calls, heap, cursor, ticks⟩ ()),
        fun κ _ c => ?_⟩
      cases op with
      | outchar | outnum | readchar | readnum => rfl
      | _ => cases htalks
    | cons value rest =>
      let left : Machine := ⟨rest, calls, heap, cursor, ticks⟩
      cases op with
      | outchar =>
        cases hchar : scalar? value with
        | none =>
          refine ⟨.tell [] (.fault (.notACharacter value) left ()), fun κ _ c => ?_⟩
          simp only [exec, unary, hchar]
          rfl
        | some char =>
          refine ⟨.tell [char] (.done left ()), fun κ _ c => ?_⟩
          simp only [exec, unary, hchar]
          rfl
      | outnum => exact ⟨.tell (Decimal.ofInt value.toInt) (.done left ()), fun κ _ c => rfl⟩
      | readchar =>
        refine ⟨.askChar (hearChar value left), fun κ _ c => ?_⟩
        simp only [exec, unary, Move.perform]
        obtain ⟨answer, c'⟩ := Console.readChar c
        cases answer <;> rfl
      | readnum =>
        refine ⟨.askLine (hearNumber value left), fun κ _ c => ?_⟩
        simp only [exec, unary, Move.perform]
        obtain ⟨answer, c'⟩ := Console.readLine c
        cases answer with
        | none => rfl
        | some line =>
          simp only [hearNumber]
          cases Decimal.readInt64 (trim line) <;> rfl
      | _ => cases htalks

-- How a step goes on once its instruction has been executed.
def finish : Outcome Unit → Progress Machine (Except Fault Stop)
  | .done m _ => .next m
  | .exit m _ => .stop (.ok .exited) m
  | .fault f m _ => .stop (.error f) m

theorem exists_move (p : Program) (m : Machine) :
    ∃ move : Move (Progress Machine (Except Fault Stop)), ∀ (κ : Type) [Console κ] (c : κ),
      step p 0 (m, c) = move.play c := by
  cases htoken : nextToken? p.source m.cursor with
  | error fault =>
    refine ⟨.tell [] (.stop (.error (.malformed fault.offset)) { m with cursor := p.source.size }),
      fun κ _ c => ?_⟩
    simp only [step, htoken]
    rfl
  | ok found =>
    cases found with
    | none =>
      refine ⟨.tell [] (.stop (.ok .atEnd) m), fun κ _ c => ?_⟩
      simp only [step, htoken]
      rfl
    | some t =>
      obtain ⟨move, hmove⟩ := exec_move p t.stop t.instr { m with cursor := t.next }
      refine ⟨move.map finish, fun κ _ c => ?_⟩
      simp only [step, htoken, hmove, Move.play, Move.perform_map]
      cases (move.perform c).1 <;> rfl

end Machine

end Whitespace

namespace Brainfuck.Machine

theorem move_beside (pointer : UInt64) (m : Machine) (c : κ) :
    move pointer m c = (move pointer m ()).alone.beside c := by
  unfold move
  dsimp only
  split <;> rfl

theorem exec_beside [Console κ] {p : Program} {command : Command} {m : Machine}
    (h : m.pointer.toNat < tapeLength) (c : κ) (hout : command ≠ .output)
    (hin : command ≠ .input) : exec p command m h c = (exec p command m h ()).alone.beside c := by
  cases command with
  | output => exact absurd rfl hout
  | input => exact absurd rfl hin
  | right | left =>
    simp only [exec]
    exact move_beside ..
  | loop | «repeat» =>
    simp only [exec]
    split <;> rfl
  | increment | decrement | stop | comment => rfl

def hearChar (m : Machine) (h : m.pointer.toNat < tapeLength) :
    Option Char → Progress Machine (Except Fault Unit)
  | some char => (put (cellOf char) m h ()).alone
  | none => (advance m ()).alone

theorem exec_move (p : Program) (command : Command) (m : Machine)
    (h : m.pointer.toNat < tapeLength) :
    ∃ move : Move (Progress Machine (Except Fault Unit)), ∀ (κ : Type) [Console κ] (c : κ),
      exec p command m h c = move.play c := by
  by_cases hout : command = .output
  · subst hout
    exact ⟨.tell [charOf m.cells[m.pointer.toNat]] (.next { m with offset := m.offset + 1 }),
      fun κ _ c => rfl⟩
  by_cases hin : command = .input
  · subst hin
    refine ⟨.askChar (hearChar m h), fun κ _ c => ?_⟩
    simp only [exec, Move.play, Move.perform]
    obtain ⟨answer, c'⟩ := Console.readChar c
    cases answer <;> rfl
  · exact ⟨.tell [] (exec p command m h ()).alone, fun κ _ c => exec_beside h c hout hin⟩

theorem exists_move (p : Program) (m : Machine) :
    ∃ move : Move (Progress Machine (Except Fault Unit)), ∀ (κ : Type) [Console κ] (c : κ),
      step p (m, c) = move.play c := by
  cases hcode : p.code[m.offset]? with
  | none =>
    refine ⟨.tell [] (.stop (.ok ()) m), fun κ _ c => ?_⟩
    simp only [step, hcode]
    rfl
  | some command =>
    by_cases hpointer : m.pointer.toNat < tapeLength
    · obtain ⟨move, hmove⟩ := exec_move p command m hpointer
      refine ⟨move, fun κ _ c => ?_⟩
      simp only [step, hcode, dif_pos hpointer, hmove]
    · refine ⟨.tell [] (.stop (.error (.noCell m.pointer)) m), fun κ _ c => ?_⟩
      simp only [step, hcode, dif_neg hpointer]
      rfl

end Brainfuck.Machine

namespace Byter.Walk

theorem exists_move (w : Walk) :
    ∃ move : Move (Progress Walk (Except Fault Unit)), ∀ (κ : Type) [Console κ] (c : κ),
      step (w, c) = move.play c := by
  cases hcell : w.cell? with
  | none =>
    refine ⟨.tell [] (.stop (.error (.outOfGrid w.row w.col)) w), fun κ _ c => ?_⟩
    simp only [step, hcell]
    rfl
  | some cell =>
    by_cases htalks : w.grid[cell] ∈ ['\x7b', '\x7d', '+', '-', '$']
    · refine ⟨.tell [Char.ofNat cell] (step (w, ())).alone, fun κ _ c => ?_⟩
      simp only [step, hcell]
      generalize w.grid[cell] = char at htalks
      simp only [List.mem_cons, List.not_mem_nil, or_false] at htalks
      rcases htalks with rfl | rfl | rfl | rfl | rfl <;> rfl
    · refine ⟨.tell [] (step (w, ())).alone, fun κ _ c => ?_⟩
      simp only [step, hcell]
      generalize w.grid[cell] = char at htalks
      split
      case h_6 | h_7 | h_8 | h_9 | h_10 => simp at htalks
      all_goals rfl

end Byter.Walk

namespace Befunge.Machine

def Outcome.beside (c : κ) : Outcome Unit → Outcome κ
  | .done m _ => .done m c
  | .halt m _ => .halt m c
  | .fault f m _ => .fault f m c

theorem divide_beside (f : Int64 → Int64 → Int64) (m : Machine) (c : κ) :
    divide f m c = (divide f m ()).beside c := by
  unfold divide
  dsimp only
  split <;> rfl

theorem exec_beside [Console κ] {char : Char} (h : char ∉ ['.', ',', '&', '~']) (value : Int64)
    (m : Machine) (c : κ) : exec char value m c = (exec char value m ()).beside c := by
  unfold exec
  split
  · rfl
  split
  -- division, the four that talk, and access to the field
  case h_5 | h_6 => exact divide_beside ..
  case h_19 | h_20 | h_24 | h_25 => simp at h
  case h_22 | h_23 =>
    dsimp only
    split <;> rfl
  all_goals rfl

def hearNumber (m : Machine) : Option (List Char) → Outcome Unit
  | some line =>
    match Decimal.readInt64 (trim line) with
    | .ok number => .done (m.push number) ()
    | .error _ => .fault .notANumber m ()
  | none => .done (m.push (-1)) ()

def hearChar (m : Machine) : Option Char → Outcome Unit
  | some char => .done (m.push (codeOf char)) ()
  | none => .done (m.push (-1)) ()

theorem exec_move (char : Char) (value : Int64) (m : Machine) :
    ∃ move : Move (Outcome Unit), ∀ (κ : Type) [Console κ] (c : κ),
      exec char value m c = (move.perform c).1.beside (move.perform c).2 := by
  by_cases htalks : char ∈ ['.', ',', '&', '~']
  · simp only [List.mem_cons, List.not_mem_nil, or_false] at htalks
    rcases htalks with rfl | rfl | rfl | rfl
    · exact ⟨.tell (Decimal.ofInt m.pop.1.toInt ++ [' ']) (.done m.pop.2 ()), fun κ _ c => rfl⟩
    · exact ⟨.tell [(scalar? m.pop.1).getD '�'] (.done m.pop.2 ()), fun κ _ c => rfl⟩
    · refine ⟨.askLine (hearNumber m), fun κ _ c => ?_⟩
      simp only [exec, Move.perform]
      obtain ⟨answer, c'⟩ := Console.readLine c
      cases answer with
      | none => rfl
      | some line =>
        simp only [hearNumber]
        cases Decimal.readInt64 (trim line) <;> rfl
    · refine ⟨.askChar (hearChar m), fun κ _ c => ?_⟩
      simp only [exec, Move.perform]
      obtain ⟨answer, c'⟩ := Console.readChar c
      cases answer <;> rfl
  · exact ⟨.tell [] (exec char value m ()), fun κ _ c => exec_beside htalks value m c⟩

def finish : Outcome Unit → Progress Machine (Except Fault Unit)
  | .done m _ => .next m.advance
  | .halt m _ => .stop (.ok ()) m
  | .fault f m _ => .stop (.error f) m

theorem exists_move (m : Machine) :
    ∃ move : Move (Progress Machine (Except Fault Unit)), ∀ (κ : Type) [Console κ] (c : κ),
      step (m, c) = move.play c := by
  cases hquoting : m.quoting with
  | true =>
    refine ⟨.tell [] (step (m, ())).alone, fun κ _ c => ?_⟩
    simp only [step, hquoting, if_true]
    split <;> rfl
  | false =>
    obtain ⟨move, hmove⟩ := exec_move (instrOf m.here) m.here m
    refine ⟨move.map finish, fun κ _ c => ?_⟩
    simp only [step, hquoting, hmove, Move.play, Move.perform_map, Bool.false_eq_true, if_false]
    cases (move.perform c).1 <;> rfl

end Befunge.Machine

-- Whatever program is at work, its step makes one move.
theorem Running.exists_move (r : Running) :
    ∃ move : Move (Progress Running (Except RunFault Unit)), ∀ (κ : Type) [Console κ] (c : κ),
      step (r, c) = move.play c := by
  cases r with
  | whitespace p m =>
    obtain ⟨move, hmove⟩ := Whitespace.Machine.exists_move p m
    exact ⟨move.map (Progress.map (.whitespace p) _), fun κ _ c => by
      rw [Move.play_map, ← hmove]
      rfl⟩
  | brainfuck p m =>
    obtain ⟨move, hmove⟩ := Brainfuck.Machine.exists_move p m
    exact ⟨move.map (Progress.map (.brainfuck p) _), fun κ _ c => by
      rw [Move.play_map, ← hmove]
      rfl⟩
  | byter w =>
    obtain ⟨move, hmove⟩ := Byter.Walk.exists_move w
    exact ⟨move.map (Progress.map .byter _), fun κ _ c => by
      rw [Move.play_map, ← hmove]
      rfl⟩
  | befunge m =>
    obtain ⟨move, hmove⟩ := Befunge.Machine.exists_move m
    exact ⟨move.map (Progress.map .befunge _), fun κ _ c => by
      rw [Move.play_map, ← hmove]
      rfl⟩

end Esoterica
