import Esoterica.Proofs.Whitespace.Scan
import Esoterica.Whitespace.JumpTable

namespace Esoterica.Whitespace

section Search

variable {xs : Array Nat} (hxs : xs.toList.Pairwise (· < ·))

include hxs

theorem lt_of_getElem?_ascending {i j a b : Nat} (hij : i < j) (ha : xs[i]? = some a)
    (hb : xs[j]? = some b) : a < b := by
  obtain ⟨hi, rfl⟩ := Array.getElem?_eq_some_iff.mp ha
  obtain ⟨hj, rfl⟩ := Array.getElem?_eq_some_iff.mp hb
  have := List.pairwise_iff_getElem.mp hxs i j (by simpa using hi) (by simpa using hj) hij
  simpa using this

-- Searching between two indices finds what stands between them.
theorem searchAscending_iff {x lo hi : Nat} (hhi : hi ≤ xs.size) :
    searchAscending xs x lo hi = true ↔ ∃ k, lo ≤ k ∧ k < hi ∧ xs[k]? = some x := by
  fun_induction searchAscending xs x lo hi with
  | case1 lo hi hlt mid hnone =>
    have hmid : mid < xs.size := by omega
    simp [hmid] at hnone
  | case2 lo hi hlt mid hsome =>
    simp only [true_iff]
    exact ⟨mid, by omega, by omega, hsome⟩
  | case3 lo hi hlt mid y hsome hne hless ih =>
    rw [ih hhi]
    constructor
    · rintro ⟨k, hk, hkhi, hx⟩
      exact ⟨k, by omega, hkhi, hx⟩
    · rintro ⟨k, hk, hkhi, hx⟩
      refine ⟨k, ?_, hkhi, hx⟩
      by_contra hle
      rcases Nat.lt_or_eq_of_le (show k ≤ mid by omega) with hkmid | rfl
      · have := lt_of_getElem?_ascending hxs hkmid hx hsome
        omega
      · rw [hx] at hsome
        simp_all
  | case4 lo hi hlt mid y hsome hne hless ih =>
    rw [ih (by omega)]
    constructor
    · rintro ⟨k, hk, hkmid, hx⟩
      exact ⟨k, hk, by omega, hx⟩
    · rintro ⟨k, hk, hkhi, hx⟩
      refine ⟨k, hk, ?_, hx⟩
      by_contra hge
      rcases Nat.lt_or_eq_of_le (show mid ≤ k by omega) with hmidk | rfl
      · have := lt_of_getElem?_ascending hxs hmidk hsome hx
        omega
      · rw [hx] at hsome
        simp_all
  | case5 lo hi hge =>
    simp only [Bool.false_eq_true, false_iff]
    rintro ⟨k, hk, hkhi, -⟩
    omega

end Search

def Instr.defines (i : Instr) (label : Label) : Bool :=
  match i with
  | ⟨.label, l⟩ => label == l
  | _ => false

-- Of the instructions that define a label, the index of the last one.
def definition? (code : List Instr) (label : Label) : Option Nat :=
  (code.zipIdx.filter (·.1.defines label)).getLast?.map Prod.snd

theorem definition?_append (code : List Instr) (i : Instr) (label : Label) :
    definition? (code ++ [i]) label =
      if i.defines label then some code.length else definition? code label := by
  simp only [definition?, List.zipIdx_append, List.filter_append, List.zipIdx_singleton,
    Nat.zero_add, List.filter_cons, List.filter_nil]
  split <;> simp

theorem definition?_lt {code : List Instr} {label : Label} {k : Nat}
    (h : definition? code label = some k) : k < code.length := by
  induction code using List.reverseRecOn with
  | nil => simp [definition?] at h
  | append_singleton code i ih =>
    rw [definition?_append] at h
    split at h
    · simp at h
      simp [h]
    · have := ih h
      simp
      omega

namespace JumpTable

theorem ofTokens_append (tokens : List Token) (t : Token) :
    ofTokens (tokens ++ [t]) = (ofTokens tokens).add t := by
  simp [ofTokens]

theorem boundaries_add (table : JumpTable) (t : Token) :
    (table.add t).boundaries = table.boundaries.push t.stop := by
  unfold add
  split <;> rfl

theorem target?_define (table : JumpTable) (l : Label) (offset : Nat) (label : Label) :
    (table.define l offset).target? label =
      if label == l then some offset else table.target? label := by
  simp only [target?, define, Std.HashMap.getElem?_insert]
  by_cases h : l = label
  · simp [h]
  · simp [h, Ne.symm h]

theorem target?_add (table : JumpTable) (t : Token) (label : Label) :
    (table.add t).target? label =
      if t.instr.defines label then some t.stop else table.target? label := by
  unfold add
  split
  · rename_i l hl
    rw [hl]
    exact target?_define _ l t.stop label
  · rename_i hother
    have hnot : t.instr.defines label = false := by
      unfold Instr.defines
      split
      · rename_i l hl
        exact absurd hl (hother l)
      · rfl
    simp [hnot, target?]

theorem boundaries_ofTokens (tokens : List Token) :
    (ofTokens tokens).boundaries.toList = tokens.map Token.stop := by
  induction tokens using List.reverseRecOn with
  | nil => rfl
  | append_singleton tokens t ih => simp [ofTokens_append, boundaries_add, ih]

-- A label stands for the end of its last definition.
theorem target?_ofTokens (tokens : List Token) (label : Label) :
    (ofTokens tokens).target? label =
      (definition? (tokens.map Token.instr) label).bind fun k => tokens[k]?.map Token.stop := by
  induction tokens using List.reverseRecOn with
  | nil => simp [ofTokens, target?, empty, definition?]
  | append_singleton tokens t ih =>
    rw [ofTokens_append, target?_add, List.map_append, List.map_singleton, definition?_append]
    split
    · simp
    · rw [ih]
      cases hdef : definition? (tokens.map Token.instr) label with
      | none => rfl
      | some k =>
        have hk : k < tokens.length := by simpa using definition?_lt hdef
        simp [List.getElem?_append_left hk]

theorem isBoundary_ofTokens {tokens : List Token}
    (h : (tokens.map Token.stop).Pairwise (· < ·)) (offset : Nat) :
    (ofTokens tokens).isBoundary offset = true ↔ ∃ t ∈ tokens, t.stop = offset := by
  have hlist := boundaries_ofTokens tokens
  rw [isBoundary, searchAscending_iff (by rw [hlist]; exact h) (Nat.le_refl _)]
  constructor
  · rintro ⟨k, -, hk, hx⟩
    have hmem : offset ∈ (ofTokens tokens).boundaries.toList := by
      rw [Array.mem_toList_iff]
      exact Array.mem_of_getElem? hx
    rw [hlist] at hmem
    simpa using hmem
  · rintro ⟨t, ht, rfl⟩
    have hmem : t.stop ∈ (ofTokens tokens).boundaries.toList := by
      rw [hlist]
      exact List.mem_map_of_mem ht
    obtain ⟨k, hk, hx⟩ := List.mem_iff_getElem.mp hmem
    have hsize : k < (ofTokens tokens).boundaries.size := by simpa using hk
    exact ⟨k, Nat.zero_le k, hsize, by simp [hsize, ← hx]⟩

end JumpTable

end Esoterica.Whitespace
