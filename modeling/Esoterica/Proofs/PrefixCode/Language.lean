import Esoterica.Proofs.PrefixCode

namespace Esoterica.PrefixCode

variable {α β : Type}

-- The code words of `items` in a row.
inductive Spells (table : List (List α × β)) : List β → List α → Prop
  | nil : Spells table [] []
  | cons {code symbols : List α} {item : β} {items : List β} (h : (code, item) ∈ table)
      (more : Spells table items symbols) : Spells table (item :: items) (code ++ symbols)

-- The run stops short of a code word.
def Begins (table : List (List α × β)) (run : List α) : Prop :=
  ∃ entry ∈ table, run <+: entry.1 ∧ run ≠ entry.1

-- The symbols are the code words of `items` and then the beginning of another one.
def Reads (table : List (List α × β)) (symbols : List α) (items : List β) : Prop :=
  ∃ spelled pending, Spells table items spelled ∧ Begins table pending ∧
    symbols = spelled ++ pending

theorem spells_of_entries {table entries : List (List α × β)}
    (h : ∀ entry ∈ entries, entry ∈ table) :
    Spells table (entries.map Prod.snd) (entries.flatMap Prod.fst) := by
  induction entries with
  | nil => exact .nil
  | cons entry entries ih =>
    obtain ⟨hentry, hrest⟩ := List.forall_mem_cons.mp h
    exact .cons hentry (ih hrest)

theorem Begins.of_append {table : List (List α × β)} {run more : List α}
    (h : Begins table (run ++ more)) : Begins table run := by
  obtain ⟨entry, hentry, hbegins, hne⟩ := h
  refine ⟨entry, hentry, (List.prefix_append run more).trans hbegins, ?_⟩
  rintro rfl
  have hlength := hbegins.length_le
  rw [List.length_append] at hlength
  have hmore : more = [] := List.length_eq_zero_iff.mp (by omega)
  exact hne (by simp [hmore])

def beginning : List (Nat × α) → Nat
  | [] => 0
  | (offset, _) :: _ => offset

theorem beginning_append {held : List (Nat × α)} (h : held ≠ []) (more : List (Nat × α)) :
    beginning (held ++ more) = beginning held := by
  cases held with
  | nil => exact absurd rfl h
  | cons entry held => rfl

variable [DecidableEq α] {table : List (List α × β)}

-- The last symbol of the run is the first one with which it begins no code word.
def DeadEnd (table : List (List α × β)) (run : List α) : Prop :=
  ∃ init last, run = init ++ [last] ∧ Begins table init ∧ lookup table run = .invalid

theorem lookup_eq_unfinished_iff (hfree : isPrefixFree table = true) {run : List α} :
    lookup table run = .unfinished ↔ Begins table run := by
  refine ⟨exists_of_lookup_unfinished, ?_⟩
  rintro ⟨⟨code, item⟩, hentry, ⟨more, hmore⟩, hne⟩
  have hrest : more ≠ [] := by
    rintro rfl
    exact hne (by simpa using hmore)
  exact lookup_unfinished hfree (by simpa [hmore] using hentry) hrest

-- A code that has to be begun has no empty code word.
theorem ne_nil_of_begins (hfree : isPrefixFree table = true) (h : Begins table []) :
    ∀ entry ∈ table, entry.1 ≠ [] := by
  intro entry hentry hnil
  obtain ⟨other, hother, -, hne⟩ := h
  have hbegins : entry.1 <+: other.1 := hnil ▸ List.nil_prefix
  have heq := eq_of_begins hfree hentry hother hbegins
  exact hne (by rw [← heq, hnil])

section Held

-- Reads as `decodeFrom` does, and keeps the offsets of the run as well as its symbols.
def decodeHeld (table : List (List α × β)) (items : List β) (held : List (Nat × α)) :
    List (Nat × α) → Except Nat (Reading α β)
  | [] => .ok ⟨items.reverse, held.map Prod.snd⟩
  | entry :: rest =>
    match lookup table ((held ++ [entry]).map Prod.snd) with
    | .found item => decodeHeld table (item :: items) [] rest
    | .unfinished => decodeHeld table items (held ++ [entry]) rest
    | .invalid => .error (beginning (held ++ [entry]))

theorem decodeFrom_eq_decodeHeld (items : List β) {start : Nat} (held stream : List (Nat × α))
    (h : held ≠ [] → start = beginning held) :
    decodeFrom table items start (held.map Prod.snd) stream =
      decodeHeld table items held stream := by
  induction stream generalizing items start held with
  | nil => rfl
  | cons entry rest ih =>
    obtain ⟨offset, symbol⟩ := entry
    have hstart : (if (held.map Prod.snd).isEmpty then offset else start) =
        beginning (held ++ [(offset, symbol)]) := by
      by_cases hheld : held = []
      · simp [hheld, beginning]
      · simp [hheld, beginning_append hheld, h hheld]
    have hrun : held.map Prod.snd ++ [symbol] = (held ++ [(offset, symbol)]).map Prod.snd := by
      simp
    rw [decodeFrom, decodeHeld]
    simp only [hstart, hrun]
    cases lookup table ((held ++ [(offset, symbol)]).map Prod.snd) with
    | found item => exact ih _ [] fun hne => absurd rfl hne
    | unfinished => exact ih _ _ fun _ => rfl
    | invalid => rfl

theorem decode_eq_decodeHeld (stream : List (Nat × α)) :
    decode table stream = decodeHeld table [] [] stream :=
  decodeFrom_eq_decodeHeld [] [] stream fun hne => absurd rfl hne

-- Nothing happens while the run begins a code word.
theorem decodeHeld_append (hfree : isPrefixFree table = true) (items : List β)
    (held rest : List (Nat × α)) {more : List (Nat × α)}
    (h : Begins table ((held ++ more).map Prod.snd)) :
    decodeHeld table items held (more ++ rest) = decodeHeld table items (held ++ more) rest := by
  induction more generalizing held with
  | nil => simp
  | cons entry more ih =>
    have hlonger : Begins table (((held ++ [entry]) ++ more).map Prod.snd) := by simpa using h
    have hbegins : Begins table ((held ++ [entry]).map Prod.snd) := by
      rw [List.map_append] at hlonger
      exact hlonger.of_append
    rw [List.cons_append, decodeHeld]
    simp only [(lookup_eq_unfinished_iff hfree).mpr hbegins]
    rw [ih _ hlonger, List.append_assoc, List.singleton_append]

-- A code word gives its item, wherever its symbols stand.
theorem decodeHeld_code (hfree : isPrefixFree table = true) (items : List β) {item : β}
    {word rest : List (Nat × α)} (h : (word.map Prod.snd, item) ∈ table) (hne : word ≠ []) :
    decodeHeld table items [] (word ++ rest) = decodeHeld table (item :: items) [] rest := by
  obtain ⟨init, last, rfl⟩ := (List.eq_nil_or_concat' word).resolve_left hne
  have hbegins : Begins table (([] ++ init).map Prod.snd) := by
    refine ⟨_, h, ?_, ?_⟩
    · simp
    · simp
  rw [List.append_assoc, decodeHeld_append hfree items [] _ hbegins, List.singleton_append,
    decodeHeld]
  simp only [List.nil_append, lookup_code hfree h]

theorem decodeHeld_of_spells (hfree : isPrefixFree table = true) (hempty : Begins table [])
    {more : List β} {symbols : List α} (h : Spells table more symbols) (items : List β)
    {front rest : List (Nat × α)} (hfront : front.map Prod.snd = symbols) :
    decodeHeld table items [] (front ++ rest) =
      decodeHeld table (more.reverse ++ items) [] rest := by
  induction h generalizing items front with
  | nil =>
    obtain rfl : front = [] := List.map_eq_nil_iff.mp hfront
    rfl
  | @cons code symbols item more hentry _ ih =>
    obtain ⟨word, others, rfl, rfl, hothers⟩ := List.map_eq_append_iff.mp hfront
    have hword : word ≠ [] := by
      rintro rfl
      exact ne_nil_of_begins hfree hempty _ hentry rfl
    rw [List.append_assoc, decodeHeld_code hfree items hentry hword, ih (item :: items) hothers]
    simp

end Held

section Language

variable (hempty : Begins table [])

include hempty

-- The symbols held are part of what is taken apart, so that the induction can go on behind any of
-- them.
theorem decodeHeld_ok {reading : Reading α β} {items : List β} {held stream : List (Nat × α)}
    (h : decodeHeld table items held stream = .ok reading)
    (hheld : Begins table (held.map Prod.snd)) :
    ∃ more spelled, reading.items = items.reverse ++ more ∧ Spells table more spelled ∧
      Begins table reading.pending ∧
      (held ++ stream).map Prod.snd = spelled ++ reading.pending := by
  fun_induction decodeHeld table items held stream with
  | case1 items held =>
    obtain rfl := Except.ok.inj h
    exact ⟨[], [], by simp, .nil, hheld, by simp⟩
  | case2 items held entry rest item hfound ih =>
    obtain ⟨more, spelled, hitems, hspells, hpending, hsymbols⟩ := ih h hempty
    refine ⟨item :: more, _, ?_, .cons (mem_of_lookup_found hfound) hspells, hpending, ?_⟩
    · simpa using hitems
    · simpa using hsymbols
  | case3 items held entry rest hunfinished ih =>
    obtain ⟨more, spelled, hitems, hspells, hpending, hsymbols⟩ :=
      ih h (exists_of_lookup_unfinished hunfinished)
    exact ⟨more, spelled, hitems, hspells, hpending, by simpa using hsymbols⟩
  | case4 => cases h

theorem decodeHeld_error {offset : Nat} {items : List β} {held stream : List (Nat × α)}
    (h : decodeHeld table items held stream = .error offset)
    (hheld : Begins table (held.map Prod.snd)) :
    ∃ more front block rest, held ++ stream = front ++ (block ++ rest) ∧
      Spells table more (front.map Prod.snd) ∧ DeadEnd table (block.map Prod.snd) ∧
      beginning block = offset := by
  fun_induction decodeHeld table items held stream with
  | case1 => cases h
  | case2 items held entry rest item hfound ih =>
    obtain ⟨more, front, block, behind, hstream, hspells, hdead, hoffset⟩ := ih h hempty
    refine ⟨item :: more, held ++ entry :: front, block, behind, ?_, ?_, hdead, hoffset⟩
    · simpa using hstream
    · simpa using hspells.cons (mem_of_lookup_found hfound)
  | case3 items held entry rest hunfinished ih =>
    obtain ⟨more, front, block, behind, hstream, hspells, hdead, hoffset⟩ :=
      ih h (exists_of_lookup_unfinished hunfinished)
    exact ⟨more, front, block, behind, by simpa using hstream, hspells, hdead, hoffset⟩
  | case4 items held entry rest hinvalid =>
    refine ⟨[], [], held ++ [entry], rest, by simp, .nil, ?_, Except.error.inj h⟩
    exact ⟨held.map Prod.snd, entry.2, by simp, hheld, hinvalid⟩

variable (hfree : isPrefixFree table = true)

include hfree

-- What is read are code words in a row, and the beginning of another one is left over.
theorem decode_eq_ok_iff {stream : List (Nat × α)} {items : List β} {pending : List α} :
    decode table stream = .ok ⟨items, pending⟩ ↔
      ∃ spelled, Spells table items spelled ∧ Begins table pending ∧
        stream.map Prod.snd = spelled ++ pending := by
  rw [decode_eq_decodeHeld]
  constructor
  · intro h
    obtain ⟨more, spelled, hitems, hspells, hpending, hsymbols⟩ := decodeHeld_ok hempty h hempty
    obtain rfl : items = more := hitems
    exact ⟨spelled, hspells, hpending, hsymbols⟩
  · rintro ⟨spelled, hspells, hpending, hsymbols⟩
    obtain ⟨front, rest, rfl, hfront, rfl⟩ := List.map_eq_append_iff.mp hsymbols
    have hrest := decodeHeld_append hfree (items.reverse ++ []) [] [] hpending
    rw [decodeHeld_of_spells hfree hempty hspells [] hfront]
    simpa [decodeHeld] using hrest

theorem exists_decode_iff_reads {stream : List (Nat × α)} {items : List β} :
    (∃ pending, decode table stream = .ok ⟨items, pending⟩) ↔
      Reads table (stream.map Prod.snd) items := by
  simp only [decode_eq_ok_iff hempty hfree, Reads]
  exact exists_comm

-- There is one way to take a stream apart.
theorem reads_unique {symbols : List α} {items others : List β} (h : Reads table symbols items)
    (h' : Reads table symbols others) : items = others := by
  have hsymbols : (symbols.map (Prod.mk 0)).map Prod.snd = symbols := by
    rw [List.map_map]
    exact List.map_id symbols
  rw [← hsymbols, ← exists_decode_iff_reads hempty hfree] at h h'
  obtain ⟨pending, hdecode⟩ := h
  obtain ⟨pending', hdecode'⟩ := h'
  rw [hdecode, Except.ok.injEq, Reading.mk.injEq] at hdecode'
  exact hdecode'.1

-- Reading fails at the first symbol of the run that comes to a dead end.
theorem decode_eq_error_iff {stream : List (Nat × α)} {offset : Nat} :
    decode table stream = .error offset ↔
      ∃ items front block rest, stream = front ++ (block ++ rest) ∧
        Spells table items (front.map Prod.snd) ∧ DeadEnd table (block.map Prod.snd) ∧
        beginning block = offset := by
  rw [decode_eq_decodeHeld]
  constructor
  · intro h
    exact decodeHeld_error hempty h hempty
  · rintro ⟨items, front, block, rest, rfl, hspells, ⟨init, last, hblock, hbegins, hinvalid⟩, rfl⟩
    obtain ⟨held, tail, rfl, rfl, htail⟩ := List.map_eq_append_iff.mp hblock
    obtain ⟨entry, rfl, -⟩ := List.map_eq_singleton_iff.mp htail
    rw [decodeHeld_of_spells hfree hempty hspells [] rfl, List.append_assoc,
      decodeHeld_append hfree _ [] _ hbegins, List.singleton_append, decodeHeld]
    simp only [List.nil_append, hinvalid]

end Language

end Esoterica.PrefixCode
