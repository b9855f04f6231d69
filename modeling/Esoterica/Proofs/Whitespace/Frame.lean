import Esoterica.Proofs.Whitespace.Refinement

namespace Esoterica.Whitespace

open Text

-- Data around the data of a machine: operands and calls below its own, and numbers at addresses
-- that it has not defined.
structure Frame where
  stack : List Int64
  calls : List Nat
  heap : Heap

-- The machine inside of a frame. At an address that both define, the machine's own number stands.
def Machine.within (f : Frame) (m : Machine) : Machine :=
  { m with stack := m.stack ++ f.stack, calls := m.calls ++ f.calls, heap := f.heap ∪ m.heap }

section Heap

variable {f : Frame} {m : Machine}

theorem getElem?_heap_within (address : Int64) :
    (m.within f).heap[address]? = m.heap[address]?.or f.heap[address]? := by
  unfold Machine.within
  rw [Std.ExtTreeMap.getElem?_union]

theorem insert_heap_within (address value : Int64) :
    { m.within f with heap := (m.within f).heap.insert address value } =
      { m with heap := m.heap.insert address value }.within f := by
  have hinsert : f.heap ∪ m.heap.insert address value = (f.heap ∪ m.heap).insert address value :=
    Std.ExtTreeMap.union_insert_right_eq_insert_union (p := ⟨address, value⟩)
  simp only [Machine.within, hinsert]

end Heap

variable {κ : Type}

-- What an instruction comes to inside of a frame, given what it comes to without. Where it fails
-- without the frame, anything can come of it.
inductive Outcome.Within (f : Frame) : Outcome κ → Outcome κ → Prop
  | done {m : Machine} {c : κ} : Within f (.done m c) (.done (m.within f) c)
  | exit {m : Machine} {c : κ} : Within f (.exit m c) (.exit (m.within f) c)
  | fault {fault : Fault} {m : Machine} {c : κ} {out : Outcome κ} : Within f (.fault fault m c) out

section Instructions

variable {f : Frame} {p : Program} {period : UInt64} {m : Machine} {c : κ}

theorem seek_within (target : Nat) :
    (Machine.seek p target m c).Within f (Machine.seek p target (m.within f) c) := by
  unfold Machine.seek
  split
  · exact .done
  · exact .fault

theorem jump_within (label : Label) :
    (Machine.jump p label m c).Within f (Machine.jump p label (m.within f) c) := by
  unfold Machine.jump
  split
  · exact seek_within _
  · exact .fault

theorem unary_within {g : Int64 → Machine → Outcome κ}
    (hg : ∀ value m, (g value m).Within f (g value (m.within f))) :
    (Machine.unary g m c).Within f (Machine.unary g (m.within f) c) := by
  obtain ⟨stack, calls, heap, cursor, ticks⟩ := m
  cases stack with
  | nil => exact .fault
  | cons value rest => exact hg value ⟨rest, calls, heap, cursor, ticks⟩

theorem binary_within (g : Int64 → Int64 → Except Fault Int64) :
    (Machine.binary g m c).Within f (Machine.binary g (m.within f) c) := by
  obtain ⟨stack, calls, heap, cursor, ticks⟩ := m
  obtain _ | ⟨right, _ | ⟨left, rest⟩⟩ := stack
  · exact .fault
  · exact .fault
  · simp only [Machine.binary, Machine.within, List.cons_append]
    cases g left right with
    | ok value => exact .done
    | error fault => exact .fault

theorem tick_within :
    Machine.tick period (m.within f) c =
      (Machine.tick period m c).map (fun (m, c) => (m.within f, c)) id := by
  have hticks : (m.within f).ticks = m.ticks := rfl
  by_cases hperiod : period = 0
  · simp only [Machine.tick, if_pos hperiod]
    rfl
  by_cases hend : (m.ticks + 1) % period = 0
  · simp only [Machine.tick, if_neg hperiod, hticks, if_pos hend]
    rfl
  · simp only [Machine.tick, if_neg hperiod, hticks, if_neg hend]
    rfl

variable [Console κ]

theorem copy_within (stop : Nat) (depth : Int64) :
    (Machine.exec p stop ⟨.copy, depth⟩ m c).Within f
      (Machine.exec p stop ⟨.copy, depth⟩ (m.within f) c) := by
  simp only [Machine.exec]
  by_cases hdepth : 0 ≤ depth.toInt
  · simp only [if_pos hdepth]
    cases hvalue : m.stack[depth.toInt.toNat]? with
    | none => exact .fault
    | some value =>
      have hframed : (m.within f).stack[depth.toInt.toNat]? = some value := by
        have hlen := (List.getElem?_eq_some_iff.mp hvalue).1
        exact (List.getElem?_append_left hlen).trans hvalue
      simp only [hframed]
      exact .done
  · simp only [if_neg hdepth]
    exact .fault

theorem slide_within (stop : Nat) (count : Int64) :
    (Machine.exec p stop ⟨.slide, count⟩ m c).Within f
      (Machine.exec p stop ⟨.slide, count⟩ (m.within f) c) := by
  simp only [Machine.exec]
  refine unary_within fun value m => ?_
  by_cases hlen : count.toInt.toNat ≤ m.stack.length
  · have hframed : count.toInt.toNat ≤ (m.within f).stack.length := by
      simp only [Machine.within, List.length_append]
      omega
    have hdrop : (m.within f).stack.drop count.toInt.toNat =
        m.stack.drop count.toInt.toNat ++ f.stack := List.drop_append_of_le_length hlen
    simp only [if_pos hlen, if_pos hframed, hdrop]
    exact .done
  · simp only [if_neg hlen]
    exact .fault

-- What an instruction finds on top of the operands, as the innermost call or at an address, it
-- finds inside of every frame.
theorem exec_within (stop : Nat) (i : Instr) (m : Machine) (c : κ) :
    (Machine.exec p stop i m c).Within f (Machine.exec p stop i (m.within f) c) := by
  obtain ⟨op, operand⟩ := i
  cases op with
  | push | label => exact .done
  | exit => exact .exit
  | copy => exact copy_within stop operand
  | slide => exact slide_within stop operand
  | dup =>
    obtain ⟨stack, calls, heap, cursor, ticks⟩ := m
    cases stack with
    | nil => exact .fault
    | cons value rest => exact .done
  | swap =>
    obtain ⟨stack, calls, heap, cursor, ticks⟩ := m
    obtain _ | ⟨first, _ | ⟨second, rest⟩⟩ := stack
    · exact .fault
    · exact .fault
    · exact .done
  | add | sub | mul | div | mod =>
    simp only [Machine.exec]
    exact binary_within _
  | pop | outnum =>
    simp only [Machine.exec]
    exact unary_within fun _ _ => .done
  | store =>
    simp only [Machine.exec]
    refine unary_within fun value m => unary_within fun address m => ?_
    rw [insert_heap_within]
    exact .done
  | retr =>
    simp only [Machine.exec]
    refine unary_within fun address m => ?_
    cases hvalue : m.heap[address]? with
    | none => exact .fault
    | some value =>
      have hframed : (m.within f).heap[address]? = some value := by
        rw [getElem?_heap_within, hvalue, Option.some_or]
      simp only [hframed]
      exact .done
  | call =>
    simp only [Machine.exec]
    exact jump_within (m := { m with calls := stop :: m.calls }) operand
  | jmp =>
    simp only [Machine.exec]
    exact jump_within operand
  | jz | jn =>
    simp only [Machine.exec]
    refine unary_within fun value m => ?_
    split
    · exact jump_within operand
    · exact .done
  | ret =>
    obtain ⟨stack, calls, heap, cursor, ticks⟩ := m
    cases calls with
    | nil => exact .fault
    | cons target rest => exact seek_within (m := ⟨stack, rest, heap, cursor, ticks⟩) target
  | outchar =>
    simp only [Machine.exec]
    refine unary_within fun value m => ?_
    split
    · exact .done
    · exact .fault
  | readchar =>
    simp only [Machine.exec]
    refine unary_within fun address m => ?_
    split
    · rw [insert_heap_within]
      exact .done
    · exact .fault
  | readnum =>
    simp only [Machine.exec]
    refine unary_within fun address m => ?_
    split
    · split
      · rw [insert_heap_within]
        exact .done
      · exact .fault
    · exact .fault

end Instructions

section Executions

variable [Console κ]

-- The state behind the next instruction, if there is one and it does not fail.
def Machine.succeed? (p : Program) (period : UInt64) (x : Machine × κ) : Option (Machine × κ) :=
  match step p period x with
  | .next y => some y
  | .stop (.ok .interrupted) y => some y
  | .stop (.ok .exited) y => some y
  | .stop _ _ => none

-- The state behind `count` instructions, if there are so many and none of them fails. A run that
-- is interrupted is taken up again.
def Machine.execute (p : Program) (period : UInt64) :
    Nat → Machine × κ → Option (Machine × κ)
  | 0, x => some x
  | count + 1, x => (succeed? p period x).bind (execute p period count)

variable {f : Frame} {p : Program} {period : UInt64} {m m' : Machine} {c c' : κ}

-- A step fails, or a frame makes no difference to it.
theorem step_within (f : Frame) (p : Program) (period : UInt64) (m : Machine) (c : κ) :
    (∃ fault y, Machine.step p period (m, c) = .stop (.error fault) y) ∨
      Machine.step p period (m.within f, c) =
        (Machine.step p period (m, c)).map (fun (m, c) => (m.within f, c)) id := by
  have hcursor : (m.within f).cursor = m.cursor := rfl
  simp only [Machine.step, hcursor]
  cases nextToken? p.source m.cursor with
  | error fault => exact .inl ⟨_, _, rfl⟩
  | ok found =>
    cases found with
    | none => exact .inr rfl
    | some t =>
      have hexec := exec_within (f := f) (p := p) t.stop t.instr { m with cursor := t.next } c
      have hframed : ({ m with cursor := t.next } : Machine).within f =
          { m.within f with cursor := t.next } := rfl
      rw [hframed] at hexec
      simp only
      generalize Machine.exec p t.stop t.instr { m with cursor := t.next } c = out at hexec ⊢
      generalize Machine.exec p t.stop t.instr { m.within f with cursor := t.next } c = out'
        at hexec ⊢
      cases hexec with
      | done => exact .inr tick_within
      | exit => exact .inr rfl
      | fault => exact .inl ⟨_, _, rfl⟩

theorem succeed?_within (h : Machine.succeed? p period (m, c) = some (m', c')) :
    Machine.succeed? p period (m.within f, c) = some (m'.within f, c') := by
  obtain ⟨fault, y, hfault⟩ | hstep := step_within f p period m c
  · simp [Machine.succeed?, hfault] at h
  · simp only [Machine.succeed?, hstep] at h ⊢
    generalize Machine.step p period (m, c) = x at h ⊢
    obtain ⟨y⟩ | ⟨⟨fault⟩ | ⟨_ | _ | _⟩, y⟩ := x
    all_goals cases h
    all_goals rfl

-- Instructions that succeed do the same inside of every frame, and leave the frame as it was but
-- for the addresses that they have defined themselves.
theorem execution_is_local (p : Program) (period : UInt64) (f : Frame) (count : Nat)
    {m m' : Machine} {c c' : κ} (h : Machine.execute p period count (m, c) = some (m', c')) :
    Machine.execute p period count (m.within f, c) = some (m'.within f, c') := by
  induction count generalizing m c with
  | zero =>
    cases h
    rfl
  | succ count ih =>
    obtain ⟨⟨m₁, c₁⟩, hfirst, hrest⟩ := Option.bind_eq_some_iff.mp h
    rw [Machine.execute, succeed?_within hfirst]
    exact ih hrest

-- Stores 5 at the address 3 and retrieves it.
def stored : Source :=
  Source.ofText "   \t\t\n   \t \t\n\t\t    \t\t\n\t\t\t"

def storedTokens : List Token :=
  [⟨⟨.push, (3 : Int64)⟩, 5⟩, ⟨⟨.push, (5 : Int64)⟩, 12⟩, ⟨⟨.store, ()⟩, 15⟩,
    ⟨⟨.push, (3 : Int64)⟩, 21⟩, ⟨⟨.retr, ()⟩, 24⟩]

theorem tokens?_stored : tokens? stored = .ok storedTokens := by
  with_unfolding_all rfl

-- The address 3 is defined here too, until the program defines it.
def surroundings : Frame :=
  ⟨[7], [9], ((∅ : Heap).insert 3 8).insert 4 1⟩

theorem execution_is_local_stored :
    ∃ p m, Program.ofSource stored = .ok p ∧
      Machine.execute p 0 5 ({}, Script.ofInput "x") = some (m, .ofInput "x") ∧
      Machine.execute p 0 5 (Machine.within surroundings {}, Script.ofInput "x") =
        some (m.within surroundings, .ofInput "x") ∧
      (m.within surroundings).stack = [5, 7] ∧ (m.within surroundings).calls = [9] ∧
      (m.within surroundings).heap[(3 : Int64)]? = some 5 ∧
      (m.within surroundings).heap[(4 : Int64)]? = some 1 := by
  let m : Machine := { stack := [5], heap := (∅ : Heap).insert 3 5, cursor := 25 }
  have hp := Program.ofSource_eq_ok.mpr ⟨_, tokens?_stored, rfl⟩
  have hexecute : Machine.execute ⟨stored, .ofTokens storedTokens⟩ 0 5 ({}, Script.ofInput "x") =
      some (m, .ofInput "x") := by with_unfolding_all rfl
  refine ⟨_, m, hp, hexecute, execution_is_local _ 0 surroundings 5 hexecute, rfl, rfl, ?_, ?_⟩
  · simp [m, getElem?_heap_within]
  · simp [m, getElem?_heap_within, surroundings]

end Executions

end Esoterica.Whitespace
