import Esoterica.Proofs.Console.Terminal
import Esoterica.Proofs.Halting
import Esoterica.Proofs.Lockstep
import Esoterica.Session

namespace Esoterica

open Console

namespace Session

-- Both sessions are in the same phase, at terminals that `R` relates.
def Alike (R : Terminal → Terminal → Prop) (s t : Session) : Prop :=
  t.phase = s.phase ∧ R s.terminal t.terminal

section Step

variable {g : Bool → Prop} {R : Terminal → Terminal → Prop} {s t : Terminal}

theorem complain_matches (h : Terminal.Kept g R) (fault : Fault) (hst : R s t) :
    (complain fault s).Matches (Alike R) (complain fault t) :=
  .next ⟨rfl, h.emitLine _ (h.finishLine hst)⟩

theorem leave_matches (h : Terminal.Kept g R) (hst : R s t) :
    (leave s).Matches (Alike R) (leave t) :=
  .stop ⟨rfl, h.flush hst⟩

theorem obey_matches (h : Terminal.Kept g R) (setting : Setting) (line : List Char) (hst : R s t) :
    (obey setting line s).Matches (Alike R) (obey setting line t) := by
  unfold obey
  split
  case h_1 => exact complain_matches h _ hst
  case h_2 => exact .next ⟨rfl, hst⟩
  case h_3 => exact leave_matches h hst
  case h_4 =>
    split
    · exact complain_matches h _ hst
    · exact .next ⟨rfl, hst⟩
  case h_5 =>
    split
    · exact complain_matches h _ hst
    · exact .next ⟨rfl, h.emitLine _ hst⟩
  case h_6 => exact .next ⟨rfl, hst⟩
  case h_7 => exact .next ⟨rfl, h.emitLine _ hst⟩
  case h_8 => exact .next ⟨rfl, h.putText _ _ hst⟩
  case h_9 => exact .next ⟨rfl, h.emitLine _ hst⟩

-- How a session goes on after a step of the program at work.
def afterWork : Progress (Running × Terminal) (Except RunFault Unit) → Progress Session Unit
  | .next (program, t) => enter (.work program) t
  | .stop (.ok ()) (_, t) => proceed t.finishLine
  | .stop (.error fault) (_, t) => complain (.run fault) t

theorem step_work (setting : Setting) (program : Running) (t : Terminal) :
    step setting ⟨.work program, t⟩ = afterWork (Running.step (program, t)) := by
  simp only [step]
  obtain ⟨program, t⟩ | ⟨⟨_⟩ | fault, program, t⟩ := Running.step (program, t) <;> rfl

theorem ended_afterWork (x : Progress Running (Except RunFault Unit)) (t : Terminal) :
    (afterWork (x.beside t)).state.terminal.ended = t.ended := by
  cases x with
  | next program => rfl
  | stop r program =>
    cases r with
    | ok _ => exact t.ended_finishLine
    | error fault =>
      show (t.finishLine.emitLine _).ended = t.ended
      simp

theorem afterWork_matches (h : Terminal.Kept g R) (x : Progress Running (Except RunFault Unit))
    (hst : R s t) : (afterWork (x.beside s)).Matches (Alike R) (afterWork (x.beside t)) := by
  cases x with
  | next program => exact .next ⟨rfl, hst⟩
  | stop r program =>
    cases r with
    | ok _ => exact .next ⟨rfl, h.finishLine hst⟩
    | error fault => exact complain_matches h _ hst

theorem step_matches (h : Terminal.Kept g R) (setting : Setting) {s t : Session} (hst : Alike R s t)
    (hg : g (step setting s).state.terminal.ended) :
    (step setting s).Matches (Alike R) (step setting t) := by
  obtain ⟨phase, s⟩ := s
  obtain ⟨phase', t⟩ := t
  obtain ⟨hphase, hst⟩ := hst
  obtain rfl : phase' = phase := hphase
  cases phase' with
  | prompt => exact .next ⟨rfl, h.flush (h.putText _ _ hst)⟩
  | obey line => exact obey_matches h setting line hst
  | launch lang text =>
    simp only [step]
    split
    · exact .next ⟨rfl, hst⟩
    · exact complain_matches h _ hst
  | work program =>
    obtain ⟨move, hmove⟩ := program.exists_move
    rw [step_work, hmove, Move.play] at hg ⊢
    rw [ended_afterWork] at hg
    rw [step_work, hmove, Move.play]
    obtain ⟨hnext, hR⟩ := h.perform move hst hg
    rw [hnext]
    exact afterWork_matches h _ hR
  | listen =>
    have hread := h.readLine hst
    simp only [step] at hg ⊢
    generalize s.readLine = x at hg hread ⊢
    generalize t.readLine = y at hread ⊢
    obtain ⟨answer, s'⟩ := x
    obtain ⟨answer', t'⟩ := y
    cases answer with
    | none =>
      obtain ⟨rfl, hR⟩ := hread (by simpa [leave, Progress.state] using hg)
      exact leave_matches h hR
    | some line =>
      obtain ⟨rfl, hR⟩ := hread hg
      exact .next ⟨rfl, hR⟩
  | collect lang lines =>
    have hread := h.readLine hst
    simp only [step] at hg ⊢
    generalize s.readLine = x at hg hread ⊢
    generalize t.readLine = y at hread ⊢
    obtain ⟨answer, s'⟩ := x
    obtain ⟨answer', t'⟩ := y
    cases answer with
    | none =>
      obtain ⟨rfl, hR⟩ := hread hg
      exact .next ⟨rfl, hR⟩
    | some line =>
      by_cases hend : line = "end".toList
      · simp only [hend, if_true] at hg ⊢
        obtain ⟨rfl, hR⟩ := hread hg
        simp only [hend, if_true]
        exact .next ⟨rfl, hR⟩
      · simp only [hend, if_false] at hg ⊢
        obtain ⟨rfl, hR⟩ := hread hg
        simp only [hend, if_false]
        exact .next ⟨rfl, hR⟩

-- What all that a terminal can be asked for leaves true of it lasts from step to step.
theorem kept_step {P : Terminal → Prop}
    (h : Terminal.Kept (fun _ => True) fun s t => t = s ∧ P s) {setting : Setting} {s t : Session}
    (hnext : step setting s = .next t) (hs : P s.terminal) : P t.terminal := by
  have hmatch := step_matches h setting (s := s) (t := s) ⟨rfl, rfl, hs⟩ trivial
  rw [hnext] at hmatch
  cases hmatch with
  | next hst => exact hst.2.2

end Step

-- A session with this input, whose writer has this room, comes to its end. By then it has written
-- `output`, and `unread` has not been taken from the reader.
def Ends (setting : Setting) (room : Option Nat) (input output unread : List UInt8) : Prop :=
  ∃ bound t, run setting bound { unread := input, room } = some t ∧
    t.written.toList = output ∧ t.unread = unread

theorem ends_iff {setting : Setting} {room : Option Nat} {input output unread : List UInt8} :
    Ends setting room input output unread ↔
      ∃ s : Session, Halts (step setting) (begin { unread := input, room }) ((), s) ∧
        s.terminal.written.toList = output ∧ s.terminal.unread = unread := by
  constructor
  · rintro ⟨bound, t, hrun, hout⟩
    obtain ⟨⟨_, s⟩, hs, rfl⟩ := Option.map_eq_some_iff.mp hrun
    exact ⟨s, ⟨bound, hs⟩, hout⟩
  · rintro ⟨s, ⟨bound, hs⟩, hout⟩
    exact ⟨bound, s.terminal, by rw [run, hs]; rfl, hout⟩

theorem Ends.unique {setting : Setting} {room : Option Nat}
    {input output output' unread unread' : List UInt8} (h : Ends setting room input output unread)
    (h' : Ends setting room input output' unread') : output = output' ∧ unread = unread' := by
  obtain ⟨s, hs, rfl, rfl⟩ := ends_iff.mp h
  obtain ⟨s', hs', rfl, rfl⟩ := ends_iff.mp h'
  cases hs.unique hs'
  exact ⟨rfl, rfl⟩

-- What a session comes to can be computed.
theorem ends_of_run {setting : Setting} {room : Option Nat} {input output unread : List UInt8}
    {bound : Nat} (h : (run setting bound { unread := input, room }).map
      (fun t => (t.written.toList, t.unread)) = some (output, unread)) :
    Ends setting room input output unread := by
  obtain ⟨t, hrun, hout⟩ := Option.map_eq_some_iff.mp h
  exact ⟨bound, t, hrun, congrArg Prod.fst hout, congrArg Prod.snd hout⟩

section Room

-- The first writer has taken the first `size` bytes of what the second one has taken.
def Cut (size : Nat) (v w : Writer) : Prop :=
  v.room = some (size - w.written.size) ∧ w.room = none ∧
    v.written.toList = w.written.toList.take size

theorem Cut.put {size : Nat} {v w : Writer} (h : Cut size v w) (bytes : List UInt8) :
    Cut size (v.put bytes) (w.put bytes) := by
  obtain ⟨hroom, hfree, hwritten⟩ := h
  have hsize : (w.written ++ bytes).size = w.written.size + bytes.length := by
    simp [← Array.length_toList]
  rw [Writer.put_of_limited hroom, Writer.put_of_unlimited hfree]
  refine ⟨?_, rfl, ?_⟩
  · rw [hsize, Nat.sub_sub]
  · simp [hwritten, List.take_append]

-- The writer's room decides how much of the output is written, and nothing else.
theorem ends_with_room_iff (setting : Setting) (room : Nat) (input output unread : List UInt8) :
    Ends setting (some room) input output unread ↔
      ∃ whole, Ends setting none input whole unread ∧ output = whole.take room := by
  have hkept : Terminal.Kept (fun _ => True) (Terminal.Twins (Cut room)) :=
    Terminal.kept_twins fun _ _ bytes h => h.put bytes
  have hbegin : Alike (Terminal.Twins (Cut room)) (begin { unread := input, room := some room })
      (begin { unread := input }) :=
    ⟨rfl, hkept.emitLine _ ⟨rfl, rfl, rfl, rfl, rfl, rfl, by simp [Terminal.writer]⟩⟩
  have hstep : ∀ s t, Alike (Terminal.Twins (Cut room)) s t →
      (step setting s).Matches (Alike (Terminal.Twins (Cut room))) (step setting t) :=
    fun s t hst => step_matches hkept setting hst trivial
  obtain ⟨hforth, hback⟩ := Halts.lockstep hstep hbegin
  simp only [ends_iff]
  constructor
  · rintro ⟨s, hs, rfl, rfl⟩
    obtain ⟨⟨_, t⟩, ht, -, -, htwins⟩ := hforth _ hs
    exact ⟨t.terminal.written.toList, ⟨t, ht, rfl, htwins.unread⟩, htwins.writers.2.2⟩
  · rintro ⟨whole, ⟨t, ht, rfl, rfl⟩, rfl⟩
    obtain ⟨⟨_, s⟩, hs, -, -, htwins⟩ := hback _ ht
    exact ⟨s, hs, htwins.writers.2.2, htwins.unread.symm⟩

end Room

end Session

end Esoterica
