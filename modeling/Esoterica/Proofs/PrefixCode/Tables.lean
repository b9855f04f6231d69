import Esoterica.Proofs.PrefixCode.Language

namespace Esoterica.PrefixCode

variable {α β : Type} [DecidableEq α] {table other : List (List α × β)}

section Lookup

theorem isPrefixFree_iff_pairwise :
    isPrefixFree table = true ↔ table.Pairwise fun a b => ¬ a.1 <+: b.1 ∧ ¬ b.1 <+: a.1 := by
  induction table with
  | nil => simp [isPrefixFree]
  | cons entry rest ih =>
    obtain ⟨code, item⟩ := entry
    rw [isPrefixFree, Bool.and_eq_true, ih, List.pairwise_cons]
    simp [← Bool.not_eq_true, List.isPrefixOf_iff_prefix]

-- Which entry stands first has no say, since each pair of entries is compared both ways.
theorem isPrefixFree_of_perm (hperm : other.Perm table) (hfree : isPrefixFree table = true) :
    isPrefixFree other = true := by
  rw [isPrefixFree_iff_pairwise] at hfree ⊢
  exact hfree.perm hperm.symm fun h => ⟨h.2, h.1⟩

theorem lookup_eq_found_iff (hfree : isPrefixFree table = true) {run : List α} {item : β} :
    lookup table run = .found item ↔ (run, item) ∈ table :=
  ⟨mem_of_lookup_found, lookup_code hfree⟩

theorem lookup_eq_invalid_iff {run : List α} :
    lookup table run = .invalid ↔ ∀ entry ∈ table, ¬ run <+: entry.1 := by
  constructor
  · intro h entry hentry
    exact not_begins_of_lookup_invalid h hentry
  · intro h
    cases hlookup : lookup table run with
    | found item => exact absurd List.prefix_rfl (h _ (mem_of_lookup_found hlookup))
    | unfinished =>
      obtain ⟨entry, hentry, hbegins, -⟩ := exists_of_lookup_unfinished hlookup
      exact absurd hbegins (h entry hentry)
    | invalid => rfl

theorem lookup_of_perm (hfree : isPrefixFree table = true) (hperm : other.Perm table)
    (run : List α) : lookup other run = lookup table run := by
  have hfree' := isPrefixFree_of_perm hperm hfree
  cases h : lookup table run with
  | found item =>
    rw [lookup_eq_found_iff hfree']
    exact hperm.mem_iff.mpr (mem_of_lookup_found h)
  | unfinished =>
    obtain ⟨entry, hentry, hbegins⟩ := exists_of_lookup_unfinished h
    apply (lookup_eq_unfinished_iff hfree').mpr
    exact ⟨entry, hperm.mem_iff.mpr hentry, hbegins⟩
  | invalid =>
    apply lookup_eq_invalid_iff.mpr
    intro entry hentry
    exact not_begins_of_lookup_invalid h (hperm.mem_iff.mp hentry)

variable (hfree : isPrefixFree table = true) {run : List α} {item : β}
  (hfound : lookup table run = .found item)

include hfree hfound

theorem lookup_of_shorter {front : List α} (hfront : front <+: run) (hne : front ≠ run) :
    lookup table front = .unfinished :=
  (lookup_eq_unfinished_iff hfree).mpr ⟨_, mem_of_lookup_found hfound, hfront, hne⟩

theorem lookup_of_longer {longer : List α} (hlonger : run <+: longer) (hne : longer ≠ run) :
    lookup table longer = .invalid := by
  apply lookup_eq_invalid_iff.mpr
  intro entry hentry hbegins
  -- the word that goes on from the longer run would go on from the code word too
  have heq : (run, item) = entry :=
    eq_of_begins hfree (mem_of_lookup_found hfound) hentry (hlonger.trans hbegins)
  subst heq
  exact hne (hbegins.eq_of_length_le hlonger.length_le)

end Lookup

section Stream

-- Reading goes on while it has not failed, so it has not failed before.
theorem exists_decodeHeld_front {items : List β} {held front rest : List (Nat × α)}
    {reading : Reading α β} (h : decodeHeld table items held (front ++ rest) = .ok reading) :
    ∃ early, decodeHeld table items held front = .ok early := by
  induction front generalizing items held with
  | nil => exact ⟨_, rfl⟩
  | cons entry front ih =>
    rw [List.cons_append, decodeHeld] at h
    rw [decodeHeld]
    cases hlookup : lookup table ((held ++ [entry]).map Prod.snd) with
    | found item =>
      simp only [hlookup] at h
      exact ih h
    | unfinished =>
      simp only [hlookup] at h
      exact ih h
    | invalid =>
      simp only [hlookup] at h
      cases h

theorem exists_decode_front {stream front : List (Nat × α)} {reading : Reading α β}
    (h : decode table stream = .ok reading) (hfront : front <+: stream) :
    ∃ early, decode table front = .ok early := by
  obtain ⟨rest, rfl⟩ := hfront
  rw [decode_eq_decodeHeld] at h ⊢
  exact exists_decodeHeld_front h

theorem decode_of_entries (hfree : isPrefixFree table = true)
    (hwords : ∀ entry ∈ table, entry.1 ≠ []) {entries : List (List α × β)}
    (hentries : ∀ entry ∈ entries, entry ∈ table) {stream : List (Nat × α)}
    (hstream : stream.map Prod.snd = entries.flatMap Prod.fst) :
    decode table stream = .ok ⟨entries.map Prod.snd, []⟩ := by
  cases entries with
  | nil =>
    have hnil : stream = [] := by simpa using hstream
    rw [hnil]
    rfl
  | cons entry entries =>
    have hentry := hentries entry List.mem_cons_self
    have hempty : Begins table [] := ⟨entry, hentry, List.nil_prefix, (hwords entry hentry).symm⟩
    apply (decode_eq_ok_iff hempty hfree).mpr
    exact ⟨_, spells_of_entries hentries, hempty, by simpa using hstream⟩

end Stream

-- In a table without a code word that begins another one, lookup finds the entries and nothing
-- else, in any order of them. It tells a beginning of a code word from what goes on behind one, and
-- the items are read back from their code words in a row without ever meeting an invalid run.
theorem instantaneous_table_reads_items (table : List (List α × β))
    (hfree : isPrefixFree table = true) :
    (∀ run item, lookup table run = .found item ↔ (run, item) ∈ table) ∧
    (∀ other, other.Perm table → ∀ run, lookup other run = lookup table run) ∧
    (∀ run item, lookup table run = .found item →
      (∀ front, front <+: run → front ≠ run → lookup table front = .unfinished) ∧
      ∀ longer, run <+: longer → longer ≠ run → lookup table longer = .invalid) ∧
    ((∀ entry ∈ table, entry.1 ≠ []) → ∀ entries : List (List α × β),
      (∀ entry ∈ entries, entry ∈ table) → ∀ stream : List (Nat × α),
        stream.map Prod.snd = entries.flatMap Prod.fst →
          decode table stream = .ok ⟨entries.map Prod.snd, []⟩ ∧
          ∀ front, front <+: stream → ∃ early, decode table front = .ok early) := by
  refine ⟨fun run item => lookup_eq_found_iff hfree, fun other => lookup_of_perm hfree, ?_, ?_⟩
  · intro run item hfound
    exact ⟨fun front => lookup_of_shorter hfree hfound, fun longer => lookup_of_longer hfree hfound⟩
  · intro hwords entries hentries stream hstream
    have hdecode := decode_of_entries hfree hwords hentries hstream
    exact ⟨hdecode, fun front => exists_decode_front hdecode⟩

-- Three letters, and their code words as bytes.
def letters : List (List UInt8 × Char) :=
  [([49], 'a'), ([48, 49], 'b'), ([48, 48, 49], 'c')]

theorem instantaneous_table_reads_items_letters :
    isPrefixFree letters = true ∧ lookup letters [48, 48, 49] = .found 'c' ∧
      lookup letters.reverse [48, 48] = .unfinished ∧ lookup letters [49, 48] = .invalid ∧
      decode letters [(0, 48), (1, 49), (4, 48), (5, 48), (7, 49), (8, 49)] =
        .ok ⟨['b', 'c', 'a'], []⟩ := by
  have hfree : isPrefixFree letters = true := by decide
  obtain ⟨hfound, hperm, hnear, hstream⟩ := instantaneous_table_reads_items letters hfree
  have hc : lookup letters [48, 48, 49] = .found 'c' := (hfound _ _).mpr (by decide)
  have ha : lookup letters [49] = .found 'a' := (hfound _ _).mpr (by decide)
  have hshort := (hnear _ _ hc).1 [48, 48] (by decide) (by decide)
  have hlong := (hnear _ _ ha).2 [49, 48] (by decide) (by decide)
  have hread := hstream (by decide) [([48, 49], 'b'), ([48, 48, 49], 'c'), ([49], 'a')] (by decide)
    [(0, 48), (1, 49), (4, 48), (5, 48), (7, 49), (8, 49)] (by decide)
  exact ⟨hfree, hc, (hperm _ letters.reverse_perm _).trans hshort, hlong, hread.1⟩

end Esoterica.PrefixCode
