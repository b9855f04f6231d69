import Esoterica.Proofs.Whitespace.Refinement

namespace Esoterica.Whitespace

open Indexed

-- The same instruction ends at `offset` in one text and at `offset'` in the other.
def EndsAlike (tokens tokens' : List Token) (offset offset' : Nat) : Prop :=
  ∃ k, EndsAt tokens k offset ∧ EndsAt tokens' k offset'

-- Machines on two texts with the same data and with calls at the same instructions.
structure SameRun {κ : Type} (tokens tokens' : List Token) (x y : Machine × κ) : Prop where
  stack : x.1.stack = y.1.stack
  heap : x.1.heap = y.1.heap
  calls : List.Forall₂ (EndsAlike tokens tokens') x.1.calls y.1.calls
  console : x.2 = y.2

section Alignment

variable {κ : Type} {p p' : Program} {tokens tokens' : List Token}

theorem calls_aligned {indices ends ends' : List Nat}
    (h : List.Forall₂ (EndsAt tokens) indices ends)
    (h' : List.Forall₂ (EndsAt tokens') indices ends') :
    List.Forall₂ (EndsAlike tokens tokens') ends ends' := by
  induction h generalizing ends' with
  | nil =>
    cases h'
    exact .nil
  | cons hk _ ih =>
    cases h' with
    | cons hk' hrest' => exact .cons ⟨_, hk, hk'⟩ (ih hrest')

-- Both machines stand for the same machine over instructions.
def Aligned (p p' : Program) (tokens tokens' : List Token) (x y : Machine × κ) : Prop :=
  ∃ s, Corresponds p tokens x s ∧ Corresponds p' tokens' y s

theorem Aligned.sameRun {x y : Machine × κ} (h : Aligned p p' tokens tokens' x y) :
    SameRun tokens tokens' x y := by
  obtain ⟨s, ⟨hx, hc⟩, ⟨hy, hc'⟩⟩ := h
  exact ⟨hx.stack.trans hy.stack.symm, hx.heap.trans hy.heap.symm, calls_aligned hx.calls hy.calls,
    hc.trans hc'.symm⟩

variable [Console κ] (hp : p.Loaded tokens) (hp' : p'.Loaded tokens')
  (hinstrs : tokens'.map Token.instr = tokens.map Token.instr)

include hp hp' hinstrs

theorem Aligned.step (period : UInt64) {x y : Machine × κ} (h : Aligned p p' tokens tokens' x y) :
    (Machine.step p period x).Matches (Aligned p p' tokens tokens') (Machine.step p' period y) := by
  obtain ⟨s, hx, hy⟩ := h
  have hmatch := step_matches hp period hx
  have hmatch' := step_matches hp' period hy
  rw [hinstrs] at hmatch'
  exact hmatch.join hmatch'

theorem runs_aligned (period : UInt64) (bounds : List Nat) (console : κ) :
    Option.Rel (List.Forall₂ (SameEnd (SameRun tokens tokens')))
      (Machine.runs p period bounds {} console) (Machine.runs p' period bounds {} console) := by
  have hstart : Aligned p p' tokens tokens' ({}, console) ({}, console) :=
    ⟨({}, console), ⟨represents_fresh p tokens, rfl⟩, ⟨represents_fresh p' tokens', rfl⟩⟩
  have hrun (bound : Nat) (x y : Machine × κ) (h : Aligned p p' tokens tokens' x y) :
      Option.Rel (SameEnd (Aligned p p' tokens tokens')) (x.1.run p period bound x.2)
        (y.1.run p' period bound y.2) :=
    runFor_lockstep (fun _ _ => Aligned.step hp hp' hinstrs period) bound h
  exact runs_mono (fun _ _ => Aligned.sameRun) (runEach_lockstep hrun bounds hstart)

end Alignment

theorem reassembled_runs_alike {κ : Type} [Console κ] {source : Source} {p : Program}
    {tokens : List Token} (h : Program.ofSource source = .ok p)
    (htokens : tokens? source = .ok tokens)
    (hlabels : ∀ t ∈ tokens, ∀ l, t.instr.label? = some l → l.symbols.length ≤ Label.maxShown) :
    ∃ listing again p' tokens', disassemble source = .ok listing ∧ assemble listing = .ok again ∧
      Program.ofSource again = .ok p' ∧ tokens? again = .ok tokens' ∧
      ∀ (period : UInt64) (console : κ) (bounds : List Nat),
        Option.Rel (List.Forall₂ (SameEnd (SameRun tokens tokens')))
          (Machine.runs p period bounds {} console) (Machine.runs p' period bounds {} console) := by
  have hcut := fun t ht => Instr.isCut_eq_false.mpr (hlabels t ht)
  obtain ⟨tokens', htokens', hinstrs, hassemble, -⟩ := exists_reassembled htokens hcut
  obtain ⟨tokens, htokens₀, rfl⟩ := Program.ofSource_eq_ok.mp h
  obtain rfl := Except.ok.inj (htokens₀.symm.trans htokens)
  refine ⟨_, _, _, tokens', disassemble_eq_ok.mpr ⟨tokens, htokens, rfl⟩, hassemble,
    Program.ofSource_eq_ok.mpr ⟨tokens', htokens', rfl⟩, htokens', fun period console bounds => ?_⟩
  exact runs_aligned (Program.loaded_of_tokens? htokens) (Program.loaded_of_tokens? htokens')
    hinstrs period bounds console

-- The program `redefined` with a comment, and with a zero in front of the number.
def wordy : Source :=
  Source.ofText "call\n \t \n\n   \n    \t\n\n   \n\n\t\n"

def wordyTokens : List Token :=
  [⟨⟨.call, ⟨[32]⟩⟩, 8⟩, ⟨⟨.label, ⟨[32]⟩⟩, 13⟩, ⟨⟨.push, (1 : Int64)⟩, 19⟩,
    ⟨⟨.label, ⟨[32]⟩⟩, 24⟩, ⟨⟨.ret, ()⟩, 27⟩]

theorem reassembled_runs_alike_wordy :
    ∃ listing p p', Program.ofSource wordy = .ok p ∧ disassemble wordy = .ok listing ∧
      assemble listing = .ok redefined ∧ Program.ofSource redefined = .ok p' ∧
      ∀ (period : UInt64) (console : Script) (bounds : List Nat),
        Option.Rel (List.Forall₂ (SameEnd (SameRun wordyTokens redefinedTokens)))
          (Machine.runs p period bounds {} console) (Machine.runs p' period bounds {} console) := by
  have htokens : tokens? wordy = .ok wordyTokens := by with_unfolding_all rfl
  have hlabels : ∀ t ∈ wordyTokens, ∀ l ∈ t.instr.label?, l.symbols.length ≤ Label.maxShown := by
    decide
  have h := Program.ofSource_eq_ok.mpr ⟨_, htokens, rfl⟩
  obtain ⟨listing, again, p', tokens', hlisting, hagain, h', htokens', hruns⟩ :=
    reassembled_runs_alike (κ := Script) h htokens hlabels
  have hcomputed : (disassemble wordy).toOption.bind (fun listing => (assemble listing).toOption) =
      some redefined := by decide +kernel
  obtain rfl : again = redefined := by simpa [hlisting, hagain, Except.toOption] using hcomputed
  obtain rfl : tokens' = redefinedTokens := Except.ok.inj (htokens'.symm.trans tokens?_redefined)
  exact ⟨listing, _, p', h, hlisting, hagain, h', hruns⟩

end Esoterica.Whitespace
