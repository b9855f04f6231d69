import Esoterica.PrefixCode
import Mathlib.Data.List.Basic

namespace Esoterica.PrefixCode

variable {α β : Type} [DecidableEq α] {table : List (List α × β)}

-- Where one code word begins another, the two are the same entry.
theorem eq_of_begins (hfree : isPrefixFree table = true) {a b : List α × β} (ha : a ∈ table)
    (hb : b ∈ table) (h : a.1 <+: b.1) : a = b := by
  induction table with
  | nil => simp at ha
  | cons entry rest ih =>
    obtain ⟨code, item⟩ := entry
    simp only [isPrefixFree, Bool.and_eq_true, List.all_eq_true, Bool.not_eq_true'] at hfree
    obtain ⟨hfirst, hrest⟩ := hfree
    rcases List.mem_cons.mp ha with rfl | ha
    · rcases List.mem_cons.mp hb with rfl | hb
      · rfl
      · have hnot := (hfirst b hb).1
        rw [List.isPrefixOf_iff_prefix.mpr h] at hnot
        simp at hnot
    · rcases List.mem_cons.mp hb with rfl | hb
      · have hnot := (hfirst a ha).2
        rw [List.isPrefixOf_iff_prefix.mpr h] at hnot
        simp at hnot
      · exact ih hrest ha hb

theorem lookup_code (hfree : isPrefixFree table = true) {code : List α} {item : β}
    (h : (code, item) ∈ table) : lookup table code = .found item := by
  unfold lookup
  cases hfind : table.find? (·.1 == code) with
  | none =>
    have hne := List.find?_eq_none.mp hfind (code, item) h
    simp at hne
  | some entry =>
    have hcode : entry.1 = code := by simpa using List.find?_some hfind
    have hentry : entry = (code, item) :=
      eq_of_begins hfree (List.mem_of_find?_eq_some hfind) h (hcode ▸ List.prefix_rfl)
    rw [hentry]

theorem lookup_unfinished (hfree : isPrefixFree table = true) {run more : List α} {item : β}
    (h : (run ++ more, item) ∈ table) (hmore : more ≠ []) : lookup table run = .unfinished := by
  have hbegins : run <+: run ++ more := List.prefix_append run more
  unfold lookup
  cases hfind : table.find? (·.1 == run) with
  | some entry =>
    -- an entry for `run` itself would begin the longer code word
    have hrun : entry.1 = run := by simpa using List.find?_some hfind
    have hentry : entry = (run ++ more, item) :=
      eq_of_begins hfree (List.mem_of_find?_eq_some hfind) h (hrun ▸ hbegins)
    rw [hentry] at hrun
    simp [hmore] at hrun
  | none =>
    have hany : table.any (run.isPrefixOf ·.1) = true :=
      List.any_eq_true.mpr ⟨_, h, List.isPrefixOf_iff_prefix.mpr hbegins⟩
    simp only [hany, if_true]

theorem mem_of_lookup_found {run : List α} {item : β} (h : lookup table run = .found item) :
    (run, item) ∈ table := by
  unfold lookup at h
  cases hfind : table.find? (·.1 == run) with
  | none =>
    simp only [hfind] at h
    split at h <;> cases h
  | some entry =>
    obtain ⟨code, found⟩ := entry
    simp only [hfind, Match.found.injEq] at h
    have hcode : code = run := by simpa using List.find?_some hfind
    have hmem := List.mem_of_find?_eq_some hfind
    rwa [hcode, h] at hmem

theorem exists_of_lookup_unfinished {run : List α} (h : lookup table run = .unfinished) :
    ∃ entry ∈ table, run <+: entry.1 ∧ run ≠ entry.1 := by
  unfold lookup at h
  cases hfind : table.find? (·.1 == run) with
  | some entry => simp [hfind] at h
  | none =>
    have hany : table.any (run.isPrefixOf ·.1) = true := by
      by_contra hnot
      simp [hfind, hnot] at h
    obtain ⟨entry, hentry, hbegins⟩ := List.any_eq_true.mp hany
    refine ⟨entry, hentry, List.isPrefixOf_iff_prefix.mp hbegins, ?_⟩
    rintro rfl
    simpa using List.find?_eq_none.mp hfind entry hentry

theorem not_begins_of_lookup_invalid {run : List α} (h : lookup table run = .invalid)
    {entry : List α × β} (hentry : entry ∈ table) : ¬run <+: entry.1 := by
  intro hbegins
  have hany : table.any (run.isPrefixOf ·.1) = true :=
    List.any_eq_true.mpr ⟨entry, hentry, List.isPrefixOf_iff_prefix.mpr hbegins⟩
  unfold lookup at h
  cases hfind : table.find? (·.1 == run) with
  | some found => simp [hfind] at h
  | none => simp [hfind, hany] at h

end Esoterica.PrefixCode
