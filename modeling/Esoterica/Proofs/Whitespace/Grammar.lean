import Esoterica.Proofs.Whitespace.Scan

namespace Esoterica.Whitespace

-- An operation and the spelling of its operand, without the line feed that ends it.
structure Phrase where
  op : Opcode
  raw : List UInt8
  plain : ∀ b ∈ raw, b = Symbol.space ∨ b = Symbol.tab
  bare : op.kind = .none → raw = []

namespace Phrase

def spelling (u : Phrase) : List UInt8 :=
  u.op.spelling u.raw

def instr (u : Phrase) : Instr :=
  u.op.instr u.raw

end Phrase

def Source.symbols (source : Source) : List UInt8 :=
  source.toList.filter isSymbol

-- The phrases are spelled by the symbols one after the other, and each token is the instruction
-- of its phrase, ending at the offset of the last symbol of the phrase.
inductive Divides : List (UInt8 × Nat) → List Phrase → List Token → Prop
  | nil : Divides [] [] []
  | cons {block rest : List (UInt8 × Nat)} {u : Phrase} {phrases : List Phrase}
      {tokens : List Token} {b : UInt8} {stop : Nat} (spelled : block.map Prod.fst = u.spelling)
      (last : block.getLast? = some (b, stop)) (more : Divides rest phrases tokens) :
      Divides (block ++ rest) (u :: phrases) (⟨u.instr, stop⟩ :: tokens)

-- A code goes on from the run.
def Opcode.Pending (run : List UInt8) : Prop :=
  ∃ op : Opcode, run <+: op.code ∧ run ≠ op.code

-- The symbols begin a phrase and do not complete it.
def CutShort (symbols : List UInt8) : Prop :=
  symbols ≠ [] ∧ ∃ u : Phrase, symbols <+: u.spelling ∧ symbols ≠ u.spelling

-- What the symbols behind the last phrase have to do with the fault that they lead to.
def ScanFault.Explains (size : Nat) (rest : List (UInt8 × Nat)) : ScanFault → Prop
  | .unexpectedEnd offset => offset = size ∧ CutShort (rest.map Prod.fst)
  | .invalidCode offset => ∃ run b more, rest = run ++ (b, offset) :: more ∧
      Opcode.Pending (run.map Prod.fst) ∧ ∀ op : Opcode, ¬run.map Prod.fst ++ [b] <+: op.code

inductive FaultKind where
  | unexpectedEnd
  | invalidCode
  deriving DecidableEq

def ScanFault.kind : ScanFault → FaultKind
  | .unexpectedEnd _ => .unexpectedEnd
  | .invalidCode _ => .invalidCode

section Phrases

theorem Opcode.eq_of_code_begins {op op' : Opcode} (h : op.code <+: op'.code) : op = op' := by
  have hentry := PrefixCode.eq_of_begins isPrefixFree_table op.mem_table op'.mem_table h
  exact congrArg Prod.snd hentry

theorem Phrase.feed_notMem (u : Phrase) : Symbol.feed ∉ u.raw := by
  intro hfeed
  rcases u.plain _ hfeed with h | h <;> revert h <;> decide

theorem Phrase.code_begins (u : Phrase) : u.op.code <+: u.spelling := by
  unfold spelling Opcode.spelling
  split
  · exact List.prefix_rfl
  · rw [List.append_assoc]
    exact List.prefix_append _ _

theorem Phrase.spelling_ne_nil (u : Phrase) : u.spelling ≠ [] := by
  intro hnil
  have hcode := u.code_begins
  rw [hnil, List.prefix_nil] at hcode
  exact u.op.code_ne_nil hcode

-- The first line feed ends an operand.
theorem append_feed_inj {r s x y : List UInt8} (hr : Symbol.feed ∉ r) (hs : Symbol.feed ∉ s)
    (h : r ++ Symbol.feed :: x = s ++ Symbol.feed :: y) : r = s ∧ x = y := by
  induction r generalizing s with
  | nil =>
    cases s with
    | nil => exact ⟨rfl, (List.cons.inj h).2⟩
    | cons b s => simp [(List.cons.inj h).1] at hs
  | cons a r ih =>
    cases s with
    | nil => simp [(List.cons.inj h).1] at hr
    | cons b s =>
      obtain ⟨rfl, htail⟩ := List.cons.inj h
      obtain ⟨rfl, hxy⟩ :=
        ih (List.not_mem_of_not_mem_cons hr) (List.not_mem_of_not_mem_cons hs) htail
      exact ⟨rfl, hxy⟩

theorem Phrase.ext_raw {u v : Phrase} (hop : u.op = v.op) (hraw : u.raw = v.raw) : u = v := by
  cases u
  cases v
  cases hop
  cases hraw
  rfl

-- Two phrases at the front of the same symbols are the same phrase.
theorem Phrase.append_inj {u v : Phrase} {x y : List UInt8}
    (h : u.spelling ++ x = v.spelling ++ y) : u = v ∧ x = y := by
  have hu : u.op.code <+: v.spelling ++ y :=
    h ▸ u.code_begins.trans (List.prefix_append _ _)
  have hv : v.op.code <+: v.spelling ++ y := v.code_begins.trans (List.prefix_append _ _)
  have hop : u.op = v.op := by
    rcases List.prefix_or_prefix_of_prefix hu hv with huv | hvu
    · exact Opcode.eq_of_code_begins huv
    · exact (Opcode.eq_of_code_begins hvu).symm
  by_cases hkind : v.op.kind = .none
  · have hraw : u.raw = v.raw := by rw [u.bare (hop ▸ hkind), v.bare hkind]
    obtain rfl := Phrase.ext_raw hop hraw
    exact ⟨rfl, List.append_cancel_left h⟩
  · simp only [spelling, Opcode.spelling, hop, if_neg hkind, List.append_assoc,
      List.append_cancel_left_eq, List.singleton_append] at h
    obtain ⟨hraw, hrest⟩ := append_feed_inj u.feed_notMem v.feed_notMem h
    exact ⟨Phrase.ext_raw hop hraw, hrest⟩

-- Symbols that begin with no phrase end every sequence of phrases in front of them.
theorem Phrase.prefix_of_flatMap {phrases longer : List Phrase} {rest : List UInt8}
    (hrest : ∀ u : Phrase, ¬u.spelling <+: rest)
    (h : longer.flatMap spelling <+: phrases.flatMap spelling ++ rest) : longer <+: phrases := by
  induction longer generalizing phrases with
  | nil => exact List.nil_prefix
  | cons v longer ih =>
    obtain ⟨more, hmore⟩ := h
    rw [List.flatMap_cons, List.append_assoc] at hmore
    cases phrases with
    | nil => exact absurd ⟨_, hmore⟩ (hrest v)
    | cons u phrases =>
      rw [List.flatMap_cons, List.append_assoc] at hmore
      obtain ⟨rfl, htail⟩ := Phrase.append_inj hmore
      exact (List.prefix_cons_inj v).mpr (ih ⟨more, htail⟩)

theorem Phrase.flatMap_injective {phrases others : List Phrase}
    (h : phrases.flatMap spelling = others.flatMap spelling) : phrases = others := by
  have hnil : ∀ u : Phrase, ¬u.spelling <+: [] := by
    intro u hu
    exact u.spelling_ne_nil (List.prefix_nil.mp hu)
  have h₁ : phrases <+: others := prefix_of_flatMap hnil (by simp [h])
  have h₂ : others <+: phrases := prefix_of_flatMap hnil (by simp [h])
  exact h₁.eq_of_length_le h₂.length_le

end Phrases

section Leftovers

-- A run that cannot be completed rules out every code, whatever comes behind the run.
theorem Opcode.not_begins_of_invalid {run symbols : List UInt8} {b : UInt8}
    (hrun : Pending run) (hinvalid : ∀ op : Opcode, ¬run ++ [b] <+: op.code)
    (hsymbols : run ++ [b] <+: symbols) (op : Opcode) : ¬op.code <+: symbols := by
  intro hop
  rcases List.prefix_or_prefix_of_prefix hop hsymbols with hcode | hcode
  · rcases List.prefix_concat_iff.mp hcode with heq | hshort
    · exact hinvalid op (heq ▸ List.prefix_rfl)
    · obtain ⟨op', hbegins, hne⟩ := hrun
      obtain rfl := Opcode.eq_of_code_begins (hshort.trans hbegins)
      exact hne (hbegins.eq_of_length_le hshort.length_le)
  · exact hinvalid op hcode

variable {size : Nat} {rest : List (UInt8 × Nat)} {fault other : ScanFault}

theorem CutShort.not_begins {symbols : List UInt8} (h : CutShort symbols) (u : Phrase) :
    ¬u.spelling <+: symbols := by
  intro hu
  obtain ⟨-, v, hv, hne⟩ := h
  obtain ⟨x, hx⟩ := hu.trans hv
  obtain ⟨rfl, -⟩ := Phrase.append_inj (y := []) (hx.trans (List.append_nil _).symm)
  exact hne (hv.eq_of_length_le hu.length_le)

theorem run_begins {run more : List (UInt8 × Nat)} {b : UInt8} {offset : Nat} :
    run.map Prod.fst ++ [b] <+: (run ++ (b, offset) :: more).map Prod.fst :=
  ⟨more.map Prod.fst, by simp⟩

theorem ScanFault.Explains.not_begins (h : fault.Explains size rest) (u : Phrase) :
    ¬u.spelling <+: rest.map Prod.fst := by
  cases fault with
  | unexpectedEnd offset => exact h.2.not_begins u
  | invalidCode offset =>
    obtain ⟨run, b, more, rfl, hrun, hinvalid⟩ := h
    intro hu
    exact Opcode.not_begins_of_invalid hrun hinvalid run_begins u.op (u.code_begins.trans hu)

theorem ScanFault.Explains.ne_nil (h : fault.Explains size rest) : rest ≠ [] := by
  cases fault with
  | unexpectedEnd offset =>
    rintro rfl
    exact h.2.1 rfl
  | invalidCode offset =>
    obtain ⟨run, b, more, rfl, -, -⟩ := h
    simp

theorem CutShort.not_invalid {offset : Nat} (h : CutShort (rest.map Prod.fst)) :
    ¬(ScanFault.invalidCode offset).Explains size rest := by
  rintro ⟨run, b, more, rfl, hrun, hinvalid⟩
  obtain ⟨-, v, hv, -⟩ := h
  exact Opcode.not_begins_of_invalid hrun hinvalid (run_begins.trans hv) v.op v.code_begins

theorem ScanFault.Explains.kind_eq (h : fault.Explains size rest) :
    fault.kind = .unexpectedEnd ↔ CutShort (rest.map Prod.fst) := by
  cases fault with
  | unexpectedEnd offset => exact ⟨fun _ => h.2, fun _ => rfl⟩
  | invalidCode offset =>
    refine ⟨fun hkind => ?_, fun hcut => absurd h hcut.not_invalid⟩
    cases hkind

-- The longer one of two runs goes on from the shorter one, so that it cannot be pending.
theorem offset_eq_of_longer {run more c more' : List (UInt8 × Nat)} {b b' : UInt8}
    {offset offset' : Nat} (hinvalid : ∀ op : Opcode, ¬run.map Prod.fst ++ [b] <+: op.code)
    (hpending : Opcode.Pending ((run ++ c).map Prod.fst))
    (h : (b, offset) :: more = c ++ (b', offset') :: more') : offset = offset' := by
  cases c with
  | nil =>
    obtain ⟨hhead, -⟩ := List.cons.inj h
    exact congrArg Prod.snd hhead
  | cons first c =>
    obtain ⟨rfl, -⟩ := List.cons.inj h
    obtain ⟨op, hbegins, -⟩ := hpending
    exact absurd (run_begins.trans hbegins) (hinvalid op)

theorem ScanFault.Explains.unique (h : fault.Explains size rest)
    (h' : other.Explains size rest) : other = fault := by
  cases fault with
  | unexpectedEnd offset =>
    cases other with
    | unexpectedEnd offset' => rw [h.1, h'.1]
    | invalidCode offset' => exact absurd h' h.2.not_invalid
  | invalidCode offset =>
    cases other with
    | unexpectedEnd offset' => exact absurd h h'.2.not_invalid
    | invalidCode offset' =>
      obtain ⟨run, b, more, rfl, hrun, hinvalid⟩ := h
      obtain ⟨run', b', more', heq, hrun', hinvalid'⟩ := h'
      rcases List.append_eq_append_iff.mp heq with ⟨c, rfl, htail⟩ | ⟨c, rfl, htail⟩
      · rw [offset_eq_of_longer hinvalid hrun' htail]
      · rw [offset_eq_of_longer hinvalid' hrun htail]

end Leftovers

end Esoterica.Whitespace
