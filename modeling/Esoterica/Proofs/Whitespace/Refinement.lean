import Esoterica.Console.Script
import Esoterica.Proofs.Whitespace.Indexed
import Esoterica.Proofs.Whitespace.RoundTrip

namespace Esoterica.Whitespace

open Text Indexed

-- A program made from a text with these tokens.
structure Program.Loaded (p : Program) (tokens : List Token) : Prop where
  scan_eq : scan p.source 0 = ⟨tokens, none⟩
  jumps_eq : p.jumps = .ofTokens tokens

theorem Program.ofSource_eq_ok {source : Source} {p : Program} :
    Program.ofSource source = .ok p ↔
      ∃ tokens, tokens? source = .ok tokens ∧ p = ⟨source, .ofTokens tokens⟩ := by
  unfold ofSource
  cases tokens? source with
  | error fault => simp [Except.map]
  | ok tokens => simp [Except.map, eq_comm]

theorem Program.loaded_of_tokens? {source : Source} {tokens : List Token}
    (h : tokens? source = .ok tokens) : Program.Loaded ⟨source, .ofTokens tokens⟩ tokens :=
  ⟨tokens?_eq_ok.mp h, rfl⟩

-- The token at index `k` ends at `offset`.
def EndsAt (tokens : List Token) (k offset : Nat) : Prop :=
  ∃ t, tokens[k]? = some t ∧ t.stop = offset

-- Reading from offset `pos` on begins with the token at index `k`.
inductive ReadsFrom (source : Source) (tokens : List Token) : Nat → Nat → Prop
  | start : ReadsFrom source tokens 0 0
  | behind {k : Nat} {t : Token} (h : tokens[k]? = some t) : ReadsFrom source tokens (k + 1) t.next
  | ended {pos : Nat} (h : source.size ≤ pos) : ReadsFrom source tokens tokens.length pos

-- The same data on both sides, with the ends of calls for their indices.
structure SameData (tokens : List Token) (s : State) (m : Machine) : Prop where
  stack : m.stack = s.stack
  heap : m.heap = s.heap
  ticks : m.ticks = s.ticks
  calls : List.Forall₂ (EndsAt tokens) s.calls m.calls

-- A machine over a text stands for a machine over its instructions.
structure Represents (p : Program) (tokens : List Token) (m : Machine) (s : State) : Prop
    extends SameData tokens s m where
  cursor : ReadsFrom p.source tokens s.pc m.cursor

theorem represents_fresh (p : Program) (tokens : List Token) : Represents p tokens {} {} :=
  ⟨⟨rfl, rfl, rfl, .nil⟩, .start⟩

section Reading

variable {p : Program} {tokens : List Token} (hp : p.Loaded tokens)

theorem nextToken?_of_scan {source : Source} {pos : Nat} {tokens : List Token}
    (h : scan source pos = ⟨tokens, none⟩) : nextToken? source pos = .ok tokens.head? := by
  cases hnext : nextToken? source pos with
  | error fault =>
    rw [scan] at h
    split at h <;> simp_all
  | ok found =>
    cases found with
    | none => simp_all [scan_of_nextToken?_none hnext]
    | some t =>
      rw [scan_of_nextToken? hnext, Scan.mk.injEq] at h
      rw [← h.1]
      rfl

include hp

theorem Program.Loaded.nextToken? {k pos : Nat} (h : ReadsFrom p.source tokens k pos) :
    nextToken? p.source pos = .ok tokens[k]? := by
  have hscan : scan p.source pos = ⟨tokens.drop k, none⟩ := by
    cases h with
    | start => exact hp.scan_eq
    | @behind k t ht =>
      have ht' : (scan p.source 0).tokens[k]? = some t := by
        rw [hp.scan_eq]
        exact ht
      rw [scan_next ht', hp.scan_eq]
    | ended hpos =>
      have hnone := nextToken?_of_symbolsFrom_nil (symbolsFrom_of_size_le hpos)
      rw [scan_of_nextToken?_none hnone, List.drop_length]
  rw [nextToken?_of_scan hscan, List.head?_drop]

theorem Program.Loaded.isBoundary {k offset : Nat} (h : EndsAt tokens k offset) :
    p.jumps.isBoundary offset = true := by
  obtain ⟨t, ht, rfl⟩ := h
  have hascending := (scan_ascending p.source 0).1
  rw [hp.scan_eq] at hascending
  rw [hp.jumps_eq, JumpTable.isBoundary_ofTokens hascending]
  exact ⟨t, List.mem_of_getElem? ht, rfl⟩

theorem Program.Loaded.target? (label : Label) :
    p.jumps.target? label =
      (definition? (tokens.map Token.instr) label).bind fun k => tokens[k]?.map Token.stop := by
  rw [hp.jumps_eq, JumpTable.target?_ofTokens]

end Reading

section Execution

variable {κ : Type} {p : Program} {tokens : List Token} {k : Nat} {t : Token}

-- Both machines are at work on the instruction at index `k`, whose token is `t`.
structure Midway (tokens : List Token) (k : Nat) (t : Token) (s : State) (m : Machine) : Prop
    extends SameData tokens s m where
  pc : s.pc = k
  cursor : m.cursor = t.next

-- What the instruction at index `k` comes to on both sides.
inductive Agrees (p : Program) (tokens : List Token) (k : Nat) (t : Token) :
    Outcome κ → Except Fault Flow × State × κ → Prop
  | onward {m : Machine} {s : State} {c : κ} (h : Midway tokens k t s m) :
      Agrees p tokens k t (.done m c) (.ok .onward, s, c)
  | behind {m : Machine} {s : State} {c : κ} {j : Nat} {u : Token} (h : SameData tokens s m)
      (hu : tokens[j]? = some u) (hcursor : m.cursor = u.next) :
      Agrees p tokens k t (.done m c) (.ok (.behind j), s, c)
  | out {m : Machine} {s : State} {c : κ} (h : SameData tokens s m)
      (hcursor : m.cursor = p.source.size) : Agrees p tokens k t (.exit m c) (.ok .out, s, c)
  | fault {f : Fault} {m : Machine} {s : State} {c : κ} (h : Midway tokens k t s m) :
      Agrees p tokens k t (.fault f m c) (.error f, s, c)

variable {s : State} {m : Machine} {c : κ}

theorem Midway.withStack (h : Midway tokens k t s m) (stack : List Int64) :
    Midway tokens k t { s with stack } { m with stack } :=
  { h with stack := rfl }

theorem Midway.withHeap (h : Midway tokens k t s m) (heap : Heap) :
    Midway tokens k t { s with heap } { m with heap } :=
  { h with heap := rfl }

theorem Midway.withCalls (h : Midway tokens k t s m) {indices ends : List Nat}
    (hcalls : List.Forall₂ (EndsAt tokens) indices ends) :
    Midway tokens k t { s with calls := indices } { m with calls := ends } :=
  { h with calls := hcalls }

theorem Midway.passed (h : Midway tokens k t s m) (ht : tokens[k]? = some t) :
    Represents p tokens m { s with pc := s.pc + 1 } :=
  { h.toSameData with
    cursor := by
      rw [h.cursor, h.pc]
      exact .behind ht }

theorem run_pop_bind (f : Int64 → Action κ Flow) :
    (pop >>= f).run (s, c) =
      match s.stack with
      | [] => (.error .stackUnderflow, s, c)
      | value :: rest => (f value).run ({ s with stack := rest }, c) := by
  obtain ⟨pc, stack, calls, heap, ticks⟩ := s
  cases stack <;> rfl

theorem run_get_bind (f : State × κ → Action κ Flow) (x : State × κ) :
    (get >>= f).run x = (f x).run x :=
  rfl

theorem agrees_unary {f : Int64 → Machine → Outcome κ} {g : Int64 → Action κ Flow}
    (h : Midway tokens k t s m)
    (hfg : ∀ value s m, Midway tokens k t s m →
      Agrees p tokens k t (f value m) ((g value).run (s, c))) :
    Agrees p tokens k t (Machine.unary f m c) ((pop >>= g).run (s, c)) := by
  rw [run_pop_bind, Machine.unary, h.stack]
  cases s.stack with
  | nil => exact .fault h
  | cons value rest => exact hfg value _ _ (h.withStack rest)

theorem agrees_combine (f : Int64 → Int64 → Except Fault Int64) (h : Midway tokens k t s m) :
    Agrees p tokens k t (Machine.binary f m c) ((combine f).run (s, c)) := by
  rw [combine, run_pop_bind, Machine.binary, h.stack]
  cases hstack : s.stack with
  | nil => exact .fault { h with stack := hstack.symm }
  | cons right rest =>
    simp only [run_pop_bind]
    cases rest with
    | nil => exact .fault (h.withStack [])
    | cons left rest =>
      simp only
      cases f left right with
      | error fault => exact .fault (h.withStack rest)
      | ok value => exact .onward (h.withStack (value :: rest))

variable (hp : p.Loaded tokens)

include hp

theorem agrees_seek (h : SameData tokens s m) {j offset : Nat} (hj : EndsAt tokens j offset) :
    Agrees p tokens k t (Machine.seek p offset m c) (.ok (.behind j), s, c) := by
  rw [Machine.seek, if_pos (hp.isBoundary hj)]
  obtain ⟨u, hu, rfl⟩ := hj
  exact .behind { h with } hu rfl

theorem agrees_jump (label : Label) (h : Midway tokens k t s m) :
    Agrees p tokens k t (Machine.jump p label m c)
      ((jump (tokens.map Token.instr) label).run (s, c)) := by
  rw [Machine.jump, hp.target?, jump]
  cases hdef : definition? (tokens.map Token.instr) label with
  | none => exact .fault h
  | some j =>
    have hj : j < tokens.length := by simpa using definition?_lt hdef
    simp only [Option.bind_some, List.getElem?_eq_getElem hj, Option.map_some]
    exact agrees_seek hp h.toSameData ⟨_, List.getElem?_eq_getElem hj, rfl⟩

-- Executing an instruction comes to the same on both sides.
theorem agrees_exec [Console κ] (ht : tokens[k]? = some t) (h : Midway tokens k t s m) :
    Agrees p tokens k t (Machine.exec p t.stop t.instr m c)
      ((perform (tokens.map Token.instr) t.instr).run (s, c)) := by
  obtain ⟨⟨op, operand⟩, stop⟩ := t
  cases op with
  | push =>
    rw [Machine.exec, perform, h.stack]
    exact .onward (h.withStack (operand :: s.stack))
  | dup =>
    rw [Machine.exec, perform, run_pop_bind, h.stack]
    cases s.stack with
    | nil => exact .fault h
    | cons value rest => exact .onward (h.withStack (value :: value :: rest))
  | copy =>
    rw [Machine.exec, perform, run_get_bind, h.stack]
    by_cases hneg : operand.toInt < 0
    · simp only [hneg, if_true, Int.not_le.mpr hneg, if_false]
      exact .fault h
    · simp only [hneg, if_false, Int.not_lt.mp hneg, if_true]
      cases s.stack[operand.toInt.toNat]? with
      | none => exact .fault h
      | some value => exact .onward (h.withStack (value :: s.stack))
  | swap =>
    rw [Machine.exec, perform, run_get_bind, h.stack]
    simp only
    cases s.stack with
    | nil => exact .fault h
    | cons first rest =>
      cases rest with
      | nil => exact .fault h
      | cons second rest => exact .onward (h.withStack (second :: first :: rest))
  | pop =>
    rw [Machine.exec, perform]
    exact agrees_unary h fun value s m h => .onward h
  | slide =>
    rw [Machine.exec, perform]
    refine agrees_unary h fun value s m h => ?_
    rw [run_get_bind, h.stack]
    by_cases hlen : s.stack.length < operand.toInt.toNat
    · simp only [hlen, if_true, Nat.not_le.mpr hlen, if_false]
      exact .fault h
    · simp only [hlen, if_false, Nat.not_lt.mp hlen, if_true]
      exact .onward (h.withStack _)
  | add | sub | mul | div | mod =>
    rw [Machine.exec, perform]
    exact agrees_combine _ h
  | store =>
    rw [Machine.exec, perform]
    refine agrees_unary h fun value s m h => ?_
    refine agrees_unary h fun address s m h => ?_
    rw [h.heap]
    exact .onward (h.withHeap (s.heap.insert address value))
  | retr =>
    rw [Machine.exec, perform]
    refine agrees_unary h fun address s m h => ?_
    have hheap : m.heap[address]? = s.heap[address]? := by rw [h.heap]
    rw [run_get_bind, hheap, h.stack]
    simp only
    cases s.heap[address]? with
    | none => exact .fault h
    | some value => exact .onward (h.withStack (value :: s.stack))
  | label => exact .onward h
  | call =>
    rw [Machine.exec, perform]
    have hcall : EndsAt tokens s.pc stop := ⟨_, h.pc ▸ ht, rfl⟩
    exact agrees_jump hp operand (h.withCalls (.cons hcall h.calls))
  | jmp => exact agrees_jump hp operand h
  | jz | jn =>
    rw [Machine.exec, perform]
    refine agrees_unary h fun value s m h => ?_
    split
    · exact agrees_jump hp operand h
    · exact .onward h
  | ret =>
    rw [Machine.exec, perform, run_get_bind]
    have hcalls := h.calls
    simp only
    generalize s.calls = indices at hcalls ⊢
    generalize m.calls = ends at hcalls ⊢
    cases hcalls with
    | nil => exact .fault h
    | cons hj hrest => exact agrees_seek hp (h.withCalls hrest).toSameData hj
  | exit => exact .out { h.toSameData with } rfl
  | outchar =>
    rw [Machine.exec, perform]
    refine agrees_unary h fun value s m h => ?_
    cases scalar? value with
    | none => exact .fault h
    | some char => exact .onward h
  | outnum =>
    rw [Machine.exec, perform]
    exact agrees_unary h fun value s m h => .onward h
  | readchar =>
    rw [Machine.exec, perform]
    refine agrees_unary h fun address s m h => ?_
    rw [run_get_bind, h.heap]
    simp only
    obtain ⟨char?, c'⟩ := Console.readChar c
    cases char? with
    | none => exact .fault h
    | some char => exact .onward (h.withHeap (s.heap.insert address (codeOf char)))
  | readnum =>
    rw [Machine.exec, perform]
    refine agrees_unary h fun address s m h => ?_
    rw [run_get_bind, h.heap]
    simp only
    obtain ⟨line?, c'⟩ := Console.readLine c
    cases line? with
    | none => exact .fault h
    | some line =>
      simp only
      cases Decimal.readInt64 (trim line) with
      | error _ => exact .fault h
      | ok value => exact .onward (h.withHeap (s.heap.insert address value))

end Execution

section Runs

variable {κ : Type} {p : Program} {tokens : List Token}

-- The machines correspond, and both are at the same console.
def Corresponds (p : Program) (tokens : List Token) (x : Machine × κ) (y : State × κ) : Prop :=
  Represents p tokens x.1 y.1 ∧ x.2 = y.2

theorem tick_matches (period : UInt64) {m : Machine} {s : State} (c : κ)
    (h : Represents p tokens m s) :
    (Machine.tick period m c).Matches (Corresponds p tokens) (tick period s c) := by
  have hticks :
      Represents p tokens { m with ticks := m.ticks + 1 } { s with ticks := s.ticks + 1 } :=
    { h with ticks := congrArg (· + 1) h.ticks }
  simp only [Machine.tick, tick, h.ticks]
  split
  · exact .next ⟨h, rfl⟩
  · split
    · exact .stop ⟨h.ticks ▸ hticks, rfl⟩
    · exact .next ⟨h.ticks ▸ hticks, rfl⟩

variable [Console κ]

def Machine.runs (p : Program) (period : UInt64) (bounds : List Nat) (m : Machine) (c : κ) :
    Option (List (Except Fault Stop × Machine × κ)) :=
  runEach (fun bound (m, c) => m.run p period bound c) bounds (m, c)

variable (hp : p.Loaded tokens)

include hp

theorem step_matches (period : UInt64) {x : Machine × κ} {y : State × κ}
    (h : Corresponds p tokens x y) :
    (Machine.step p period x).Matches (Corresponds p tokens)
      (step (tokens.map Token.instr) period y) := by
  obtain ⟨m, c⟩ := x
  obtain ⟨s, c'⟩ := y
  obtain ⟨h, hc⟩ := h
  obtain rfl : c = c' := hc
  rw [Machine.step, step]
  simp only [hp.nextToken? h.cursor, List.getElem?_map]
  cases ht : tokens[s.pc]? with
  | none => exact .stop ⟨h, rfl⟩
  | some t =>
    have hmid : Midway tokens s.pc t s { m with cursor := t.next } :=
      { h.toSameData with pc := rfl, cursor := rfl }
    have hexec := agrees_exec hp (c := c) ht hmid
    simp only [Option.map_some]
    generalize Machine.exec p t.stop t.instr { m with cursor := t.next } c = done at hexec ⊢
    generalize (perform (tokens.map Token.instr) t.instr).run (s, c) = done' at hexec ⊢
    cases hexec with
    | onward h => exact tick_matches period _ (h.passed ht)
    | fault h => exact .stop ⟨h.passed ht, rfl⟩
    | behind h hu hcursor =>
      refine tick_matches period _ { h with cursor := ?_ }
      rw [hcursor]
      exact .behind hu
    | out h hcursor =>
      refine .stop ⟨{ h with cursor := ?_ }, rfl⟩
      rw [hcursor, List.length_map]
      exact .ended (Nat.le_refl _)

theorem run_lockstep (period : UInt64) (bound : Nat) {x : Machine × κ} {y : State × κ}
    (h : Corresponds p tokens x y) :
    Option.Rel (SameEnd (Corresponds p tokens)) (x.1.run p period bound x.2)
      (run (tokens.map Token.instr) period bound y.1 y.2) :=
  runFor_lockstep (fun _ _ => step_matches hp period) bound h

end Runs

-- Every series of runs of an accepted text goes as on the machine over its instructions.
theorem runs_refine_indexed {κ : Type} [Console κ] {source : Source} {p : Program}
    (h : Program.ofSource source = .ok p) :
    ∃ tokens, tokens? source = .ok tokens ∧
      ∀ (period : UInt64) (console : κ) (bounds : List Nat),
        Option.Rel (List.Forall₂ (SameEnd (Corresponds p tokens)))
          (Machine.runs p period bounds {} console)
          (Indexed.runs (tokens.map Token.instr) period bounds {} console) := by
  obtain ⟨tokens, htokens, rfl⟩ := Program.ofSource_eq_ok.mp h
  have hp := Program.loaded_of_tokens? htokens
  refine ⟨tokens, htokens, fun period console bounds => ?_⟩
  exact runEach_lockstep (fun bound _ _ => run_lockstep hp period bound) bounds
    ⟨represents_fresh _ tokens, rfl⟩

-- A call of a label that is defined twice, and a return that is met first inside of the call and
-- then outside of it.
def redefined : Source :=
  Source.ofText "\n \t \n\n   \n   \t\n\n   \n\n\t\n"

def redefinedTokens : List Token :=
  [⟨⟨.call, ⟨[32]⟩⟩, 4⟩, ⟨⟨.label, ⟨[32]⟩⟩, 9⟩, ⟨⟨.push, (1 : Int64)⟩, 14⟩,
    ⟨⟨.label, ⟨[32]⟩⟩, 19⟩, ⟨⟨.ret, ()⟩, 22⟩]

theorem tokens?_redefined : tokens? redefined = .ok redefinedTokens := by
  with_unfolding_all rfl

theorem runs_refine_indexed_redefined :
    ∃ p, Program.ofSource redefined = .ok p ∧ ∃ m m',
      Machine.runs p 0 [8, 8] {} (Script.ofInput "") =
        some [(.error .returnOutsideCall, m, .ofInput ""), (.ok .atEnd, m', .ofInput "")] ∧
      m.stack = [1] ∧ m'.stack = [1] := by
  have h := Program.ofSource_eq_ok.mpr ⟨_, tokens?_redefined, rfl⟩
  refine ⟨_, h, ?_⟩
  obtain ⟨tokens, htokens, hruns⟩ := runs_refine_indexed (κ := Script) h
  obtain rfl : redefinedTokens = tokens := Except.ok.inj (tokens?_redefined.symm.trans htokens)
  have hindexed :
      Indexed.runs (redefinedTokens.map Token.instr) 0 [8, 8] {} (Script.ofInput "") =
        some [(.error .returnOutsideCall, { pc := 5, stack := [1] }, .ofInput ""),
          (.ok .atEnd, { pc := 5, stack := [1] }, .ofInput "")] := rfl
  have hmatch := hruns 0 (.ofInput "") [8, 8]
  rw [hindexed] at hmatch
  generalize Machine.runs _ 0 [8, 8] {} (Script.ofInput "") = ends at hmatch ⊢
  cases hmatch with
  | some hall =>
    obtain ⟨⟨_, m, _⟩, _, ⟨rfl, h, rfl⟩, hrest, rfl⟩ := List.forall₂_cons_right_iff.mp hall
    obtain ⟨⟨_, m', _⟩, _, ⟨rfl, h', rfl⟩, hnil, rfl⟩ := List.forall₂_cons_right_iff.mp hrest
    rw [List.forall₂_nil_right_iff.mp hnil]
    exact ⟨m, m', rfl, h.stack, h'.stack⟩

end Esoterica.Whitespace
