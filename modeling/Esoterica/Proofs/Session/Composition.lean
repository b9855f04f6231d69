import Esoterica.Proofs.Session.Lockstep

namespace Esoterica

open Text

-- The bytes end with a line feed, if there are any.
def Closed (bytes : List UInt8) : Prop :=
  bytes = [] ∨ bytes.getLast? = some 10

-- The first line of closed bytes is a whole one, and what follows it is closed.
theorem Closed.exists_line {bytes : List UInt8} (h : Closed bytes) (hne : bytes ≠ []) :
    ∃ line rest, 10 ∉ line ∧ bytes = line ++ 10 :: rest ∧ Closed rest := by
  have hlast := h.resolve_left hne
  obtain ⟨line, rest, rfl, hline⟩ := List.eq_append_cons_of_mem (List.mem_of_getLast? hlast)
  refine ⟨line, rest, hline, rfl, ?_⟩
  cases rest with
  | nil => exact .inl rfl
  | cons b rest =>
    right
    simpa [List.getLast?_append, List.getLast?_cons_cons] using hlast

namespace Terminal

-- `t` is `s` with more to read after all that is left, which ends with a whole line.
structure Before (more : List UInt8) (s t : Terminal) : Prop where
  eq : t = { s with unread := s.unread ++ more }
  closed : Closed s.unread
  unlimited : s.room = none

section Before

variable {more : List UInt8} {s t : Terminal}

theorem Before.unlimited' (h : Before more s t) : t.room = none := by
  rw [h.eq]
  exact h.unlimited

theorem Before.fill (h : Before more s t) (hended : s.fill.2.ended = false) :
    t.fill.1 = s.fill.1 ∧ Before more s.fill.2 t.fill.2 := by
  have hroom' := h.unlimited'
  obtain ⟨rfl, hclosed, hroom⟩ := h
  by_cases hline : s.line = []
  · by_cases hunread : s.unread = []
    · rw [fill_of_end hroom hline hunread] at hended
      cases hended
    · obtain ⟨line, rest, hfeed, hbytes, hrest⟩ := hclosed.exists_line hunread
      have hbytes' : s.unread ++ more = line ++ 10 :: (rest ++ more) := by simp [hbytes]
      rw [fill_of_feed hroom hline hfeed hbytes, fill_of_feed hroom' hline hfeed hbytes']
      cases Utf8.decode (line ++ [10]) with
      | ok text => exact ⟨rfl, rfl, hrest, hroom⟩
      | error fault => exact ⟨rfl, rfl, hrest, hroom⟩
  · rw [fill_of_line hline, fill_of_line (t := { s with unread := s.unread ++ more }) hline]
    exact ⟨rfl, rfl, hclosed, hroom⟩

-- More input has no say in what is read before the end of the input would have been met.
theorem kept_before (more : List UInt8) : Kept (· = false) (Before more) where
  line_eq h := by rw [h.eq]
  start_eq h := by rw [h.eq]
  putText text failure h := by
    rw [putText_of_unlimited h.unlimited, putText_of_unlimited h.unlimited']
    exact ⟨by rw [h.eq], h.closed, h.unlimited⟩
  flush h := by
    rw [flush_of_unlimited h.unlimited, flush_of_unlimited h.unlimited']
    exact h
  fill h hended := h.fill hended
  withLine line h := ⟨by rw [h.eq], h.closed, h.unlimited⟩
  withStart start h := ⟨by rw [h.eq], h.closed, h.unlimited⟩

end Before

-- Once the end of the input has been met, it has been met.
theorem kept_ended : Kept (fun _ => True) (fun s t => t = s ∧ s.ended = true) where
  line_eq h := by rw [h.1]
  start_eq h := by rw [h.1]
  putText text failure h := ⟨by rw [h.1], by simpa using h.2⟩
  flush h := ⟨by rw [h.1], by simpa using h.2⟩
  fill {s t} h _ := by
    obtain ⟨rfl, hended⟩ := h
    refine ⟨rfl, rfl, ?_⟩
    unfold fill
    split
    · exact hended
    dsimp only
    split
    · rfl
    split <;> simpa [warn, note] using hended
  withLine line h := ⟨by rw [h.1], h.2⟩
  withStart start h := ⟨by rw [h.1], h.2⟩

end Terminal

namespace Session

variable {setting : Setting}

section Leads

theorem ended_step {s t : Session} (hnext : step setting s = .next t)
    (h : s.terminal.ended = true) : t.terminal.ended = true :=
  kept_step Terminal.kept_ended hnext h

-- Two sessions go on alike for as long as the first one does not meet the end of its input.
theorem leads_alike {R : Terminal → Terminal → Prop} (h : Terminal.Kept (· = false) R)
    {s s' t : Session} (hleads : Leads (step setting) s s') (hended : s'.terminal.ended = false)
    (hst : Alike R s t) : ∃ t', Leads (step setting) t t' ∧ Alike R s' t' := by
  induction hleads with
  | refl => exact ⟨t, .refl, hst⟩
  | @tail u s' hleads hnext ih =>
    have hu : u.terminal.ended = false := by
      by_contra htrue
      rw [ended_step hnext (by simpa using htrue)] at hended
      cases hended
    obtain ⟨v, hv, halike⟩ := ih hu
    have hmatch := step_matches h setting halike (by rw [hnext]; exact hended)
    rw [hnext] at hmatch
    generalize hother : step setting v = other at hmatch
    cases hmatch with
    | @next _ t' hst' => exact ⟨t', hv.tail hother, hst'⟩

end Leads

section Settled

-- Where no program is at work, the next character stands at the start of a line.
def Settled (s : Session) : Prop :=
  (∃ program, s.phase = .work program) ∨ s.terminal.atLineStart = true

theorem settled_complain (fault : Fault) (t : Terminal) : Settled (complain fault t).state :=
  .inr (Terminal.atLineStart_emitLine ..)

theorem settled_obey (line : List Char) {t : Terminal} (h : t.atLineStart = true) :
    Settled (obey setting line t).state := by
  unfold obey
  split
  case h_1 => exact settled_complain _ _
  case h_2 => exact .inr h
  case h_3 => exact .inr (by simpa [leave, Progress.state] using h)
  case h_4 =>
    split
    · exact settled_complain _ _
    · exact .inr h
  case h_5 =>
    split
    · exact settled_complain _ _
    · exact .inr (Terminal.atLineStart_emitLine ..)
  case h_6 => exact .inr h
  case h_7 => exact .inr (Terminal.atLineStart_emitLine ..)
  case h_8 => exact .inr (by simpa [proceed, Progress.state] using h)
  case h_9 => exact .inr (Terminal.atLineStart_emitLine ..)

theorem settled_step (setting : Setting) {s : Session} (h : Settled s) :
    Settled (step setting s).state := by
  obtain ⟨phase, t⟩ := s
  cases phase with
  | prompt =>
    have hstart : t.atLineStart = true := by simpa [Settled] using h
    exact .inr (by simpa [step, enter, Progress.state] using hstart)
  | listen =>
    have hstart : t.readLine.2.atLineStart = true := by simpa [Settled] using h
    simp only [step]
    generalize t.readLine = x at hstart
    obtain ⟨_ | line, t'⟩ := x
    · exact .inr (by simpa [leave, Progress.state] using hstart)
    · exact .inr hstart
  | obey line => exact settled_obey line (by simpa [Settled] using h)
  | collect lang lines =>
    have hstart : t.readLine.2.atLineStart = true := by simpa [Settled] using h
    simp only [step]
    generalize t.readLine = x at hstart
    obtain ⟨_ | line, t'⟩ := x
    · exact .inr hstart
    · dsimp only
      split <;> exact .inr hstart
  | launch lang text =>
    simp only [step]
    split
    · exact .inl ⟨_, rfl⟩
    · exact settled_complain _ _
  | work program =>
    rw [step_work]
    obtain ⟨program, t⟩ | ⟨⟨_⟩ | fault, program, t⟩ := Running.step (program, t)
    · exact .inl ⟨_, rfl⟩
    · exact settled_complain _ _
    · exact .inr t.atLineStart_finishLine

theorem settled_leads {s t : Session} (h : Settled s) (hleads : Leads (step setting) s t) :
    Settled t := by
  induction hleads with
  | refl => exact h
  | tail _ hnext ih =>
    have hstep := settled_step setting ih
    rwa [hnext] at hstep

end Settled

section Seam

-- The session listens at a prompt and has read all of its input, but has not met the end of it.
def waits (s : Session) : Bool :=
  match s.phase with
  | .listen => !s.terminal.ended && s.terminal.line.isEmpty && s.terminal.unread.isEmpty
  | _ => false

theorem waits_iff {s : Session} : s.waits = true ↔
    ∃ t, s = ⟨.listen, t⟩ ∧ t.ended = false ∧ t.line = [] ∧ t.unread = [] := by
  obtain ⟨phase, t⟩ := s
  cases phase <;> simp [waits, and_assoc]

-- All of the input is used up at a prompt, where more of it would be read next.
def WaitsForMore (setting : Setting) (input : List UInt8) : Prop :=
  ∃ s, Leads (step setting) (begin { unread := input }) s ∧ s.waits = true

theorem waitsForMore_of_advance {input : List UInt8} {count : Nat}
    (h : (advance (step setting) count (begin { unread := input })).any waits = true) :
    WaitsForMore setting input := by
  obtain ⟨s, hadvance, hwaits⟩ := (Option.any_eq_true _ _).mp h
  exact ⟨s, leads_of_advance hadvance, hwaits⟩

def opening : List UInt8 :=
  Utf8.encode (banner.toList ++ ['\n'] ++ "> ".toList)

-- Both writers take all that they are given, and have taken the same since they held these bytes.
def Since (before before' : List UInt8) (v w : Writer) : Prop :=
  v.room = none ∧ w.room = none ∧
    ∃ more, v.written.toList = before ++ more ∧ w.written.toList = before' ++ more

theorem Since.put {before before' : List UInt8} {v w : Writer} (h : Since before before' v w)
    (bytes : List UInt8) : Since before before' (v.put bytes) (w.put bytes) := by
  obtain ⟨hv, hw, more, hmore, hmore'⟩ := h
  rw [Writer.put_of_unlimited hv, Writer.put_of_unlimited hw]
  exact ⟨rfl, rfl, more ++ bytes, by simp [hmore], by simp [hmore']⟩

def opened (input : List UInt8) : Session :=
  ⟨.listen, { unread := input, written := opening.toArray }⟩

theorem step_begin (setting : Setting) (input : List UInt8) :
    step setting (begin { unread := input }) = .next (opened input) := by
  have hwritten : (#[] : Array UInt8) ++ Utf8.encode (banner.toList ++ ['\n']) ++
      Utf8.encode "> ".toList = opening.toArray := by
    rw [opening, Utf8.encode_append (banner.toList ++ ['\n'])]
    simp
  simp only [step, enter, begin, Terminal.emitLine_of_unlimited]
  rw [Terminal.putText_of_unlimited rfl, Terminal.flush_of_unlimited rfl, hwritten]
  rfl

theorem leads_opened (setting : Setting) (input : List UInt8) :
    Leads (step setting) (begin { unread := input }) (opened input) :=
  .single (step_begin setting input)

theorem halts_waiting {t : Terminal} (hroom : t.room = none) (hline : t.line = [])
    (hunread : t.unread = []) :
    Halts (step setting) ⟨.listen, t⟩ ((), ⟨.prompt, { t with ended := true }⟩) := by
  refine halts_of_stop ?_
  have hread : t.readLine = (none, { t with ended := true }) := by
    rw [Terminal.readLine_eq, Terminal.fill_of_end hroom hline hunread]
    rfl
  have hroom' : ({ t with ended := true } : Terminal).room = none := hroom
  simp only [step, hread, leave, Terminal.flush_of_unlimited hroom']

-- At the seam the session stands as one that has just been opened stands, but for what is written.
theorem leads_seam {a : List UInt8} (ha : Closed a) (hwaits : WaitsForMore setting a)
    (b : List UInt8) : ∃ before t, Ends setting none a before [] ∧
      Leads (step setting) (begin { unread := a ++ b }) t ∧
      Alike (Terminal.Twins (Since before opening)) t (opened b) := by
  obtain ⟨s, hleads, hwaits⟩ := hwaits
  obtain ⟨t, rfl, hended, hline, hunread⟩ := waits_iff.mp hwaits
  have hkept := Terminal.kept_before b
  have hbegin : Alike (Terminal.Before b) (begin { unread := a }) (begin { unread := a ++ b }) :=
    ⟨rfl, hkept.emitLine _ ⟨rfl, ha, rfl⟩⟩
  obtain ⟨⟨phase, u⟩, hleads', hphase, hbefore⟩ := leads_alike hkept hleads hended hbegin
  have hroom : t.room = none := hbefore.unlimited
  have hstart : t.atLineStart = true := by
    have hsettled := settled_leads (.inr rfl) hleads
    simpa [Settled] using hsettled
  have hends : Halts (step setting) (begin { unread := a })
      ((), ⟨.prompt, { t with ended := true }⟩) :=
    (halts_iff_of_leads hleads).mpr (halts_waiting hroom hline hunread)
  obtain rfl : u = { t with unread := t.unread ++ b } := hbefore.eq
  refine ⟨t.written.toList, _, ends_iff.mpr ⟨_, hends, rfl, hunread⟩, hleads', hphase.symm, ?_⟩
  exact ⟨by simp [opened, hunread], hline.symm, hstart.symm, hended.symm, hroom, rfl,
    [], by simp [Terminal.writer, opened]⟩

-- A session that is given more input where it waits for it does what a new session does with that
-- input, after all that it has done before.
theorem ends_append_iff (setting : Setting) (a b : List UInt8) (ha : Closed a)
    (hwaits : WaitsForMore setting a) :
    ∃ before, Ends setting none a before [] ∧
      (∀ output unread, Ends setting none b output unread → opening <+: output) ∧
      ∀ output unread, Ends setting none (a ++ b) output unread ↔
        ∃ after, Ends setting none b after unread ∧
          output = before ++ after.drop opening.length := by
  obtain ⟨before, t, hends, hleads, halike⟩ := leads_seam ha hwaits b
  have hkept : Terminal.Kept (fun _ => True) (Terminal.Twins (Since before opening)) :=
    Terminal.kept_twins fun _ _ bytes h => h.put bytes
  obtain ⟨hforth, hback⟩ := Halts.lockstep
    (fun _ _ hst => step_matches hkept setting hst trivial) halike
  have hopened := leads_opened setting b
  refine ⟨before, hends, ?_, ?_⟩
  · simp only [ends_iff, halts_iff_of_leads hopened]
    rintro output unread ⟨s, hs, rfl, rfl⟩
    obtain ⟨u, -, -, -, htwins⟩ := hback _ hs
    obtain ⟨-, -, more, -, hmore⟩ := htwins.writers
    exact ⟨more, hmore.symm⟩
  · intro output unread
    simp only [ends_iff, halts_iff_of_leads hleads, halts_iff_of_leads hopened]
    constructor
    · rintro ⟨s, hs, rfl, rfl⟩
      obtain ⟨⟨_, u⟩, hu, -, -, htwins⟩ := hforth _ hs
      obtain ⟨-, -, more, hmore, hmore'⟩ := htwins.writers
      refine ⟨_, ⟨u, hu, hmore', htwins.unread⟩, ?_⟩
      rw [List.drop_left]
      exact hmore
    · rintro ⟨after, ⟨u, hu, rfl, rfl⟩, rfl⟩
      obtain ⟨⟨_, s⟩, hs, -, -, htwins⟩ := hback _ hu
      obtain ⟨-, -, more, hmore, hmore'⟩ := htwins.writers
      refine ⟨s, hs, ?_, htwins.unread.symm⟩
      rw [show u.terminal.written.toList = opening ++ more from hmore', List.drop_left]
      exact hmore

-- A program that fails within a line of its input and of its output, what is left of that line as
-- a command, and a wiped screen.
def faltering : List UInt8 :=
  Utf8.encode "start bf\n,.<.\nend\nxy\nclear\n".toList

def echo : List UInt8 :=
  Utf8.encode "start bf\n,.\nend\nz".toList

theorem ends_append_iff_faltering :
    Closed faltering ∧ WaitsForMore ⟨0, Files.empty⟩ faltering ∧
      ∃ before, Ends ⟨0, Files.empty⟩ none faltering before [] ∧
        (∀ output unread, Ends ⟨0, Files.empty⟩ none echo output unread → opening <+: output) ∧
        ∀ output unread, Ends ⟨0, Files.empty⟩ none (faltering ++ echo) output unread ↔
          ∃ after, Ends ⟨0, Files.empty⟩ none echo after unread ∧
            output = before ++ after.drop opening.length := by
  have hclosed : Closed faltering := .inr (by decide +kernel)
  have hwaits : WaitsForMore ⟨0, Files.empty⟩ faltering := by
    have hadvance : (advance (step ⟨0, Files.empty⟩) 16 (begin { unread := faltering })).any
        waits = true := by decide +kernel
    exact waitsForMore_of_advance hadvance
  exact ⟨hclosed, hwaits, ends_append_iff ⟨0, Files.empty⟩ faltering echo hclosed hwaits⟩

end Seam

end Session

end Esoterica
