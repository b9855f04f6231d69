import Esoterica.Proofs.Brainfuck.Block
import Mathlib.Data.List.Basic

namespace Esoterica.Brainfuck

-- There are comments only from offset `i` up to offset `j`.
inductive Blank (p : Program) : Nat → Nat → Prop
  | here {i : Nat} : Blank p i i
  | comment {i j : Nat} (h : p.code[i]? = some .comment) (more : Blank p (i + 1) j) : Blank p i j

-- The block stands in the text from offset `i` up to offset `j`.
inductive Block.Stands (p : Program) : Block → Nat → Nat → Prop
  | done {i j : Nat} (blank : Blank p i j) : Stands p .done i j
  | action {i j o : Nat} {command : Command} {a : Action} {rest : Block} (blank : Blank p i o)
      (h : p.code[o]? = some command) (ha : command.action? = some a)
      (more : Stands p rest (o + 1) j) : Stands p (.action o a rest) i j
  | loop {i j o k : Nat} {body rest : Block} (blank : Blank p i o)
      (hopen : p.code[o]? = some .loop) (inner : Stands p body (o + 1) k)
      (hclose : p.code[k]? = some .repeat) (hpartner : p.partner o = k ∧ p.partner k = o)
      (more : Stands p rest (k + 1) j) : Stands p (.loop body rest) i j

theorem Block.Stands.comment {p : Program} {b : Block} {i j : Nat}
    (h : p.code[i]? = some .comment) (hb : b.Stands p (i + 1) j) : b.Stands p i j := by
  cases hb with
  | done blank => exact .done (.comment h blank)
  | action blank h' ha more => exact .action (.comment h blank) h' ha more
  | loop blank hopen inner hclose hpartner more =>
    exact .loop (.comment h blank) hopen inner hclose hpartner more

-- The first block stands from offset `i` up to the bracket that closes the innermost one of the
-- brackets opened before, each of the other blocks from there up to the next such bracket, and
-- the last one up to the end.
inductive Closes (p : Program) : Block → List Block → List Nat → Nat → Prop
  | last {b : Block} {i : Nat} (h : b.Stands p i p.code.size) : Closes p b [] [] i
  | more {b next : Block} {outer : List Block} {start : Nat} {opened : List Nat} {i k : Nat}
      (h : b.Stands p i k) (hclose : p.code[k]? = some .repeat)
      (hpartner : p.partner start = k ∧ p.partner k = start)
      (hnext : Closes p next outer opened (k + 1)) : Closes p b (next :: outer) (start :: opened) i

theorem Closes.extend {p : Program} {b b' : Block} {outer : List Block} {opened : List Nat}
    {i i' : Nat} (h : Closes p b outer opened i)
    (hb : ∀ j, b.Stands p i j → b'.Stands p i' j) : Closes p b' outer opened i' := by
  cases h with
  | last h => exact .last (hb _ h)
  | more h hclose hpartner hnext => exact .more (hb _ h) hclose hpartner hnext

theorem getD_setIfInBounds_ne {table : Array Nat} {x y v : Nat} (h : x ≠ y) :
    (table.setIfInBounds y v).getD x 0 = table.getD x 0 := by
  simp only [Array.getD_eq_getD_getElem?, Array.getElem?_setIfInBounds_ne h.symm]

-- An entry is left alone unless it belongs to a bracket that is open or still to come.
theorem getD_of_matchBrackets {commands : List Command} {i x : Nat} {opened : List Nat}
    {partners table : Array Nat} (h : matchBrackets i opened partners commands = .ok table)
    (hx : x < i) (hopened : x ∉ opened) : table.getD x 0 = partners.getD x 0 := by
  fun_induction matchBrackets i opened partners commands with
  | case1 => rw [Except.ok.inj h]
  | case2 => cases h
  | case3 i opened partners rest ih =>
    refine ih h (by omega) ?_
    rw [List.mem_cons, not_or]
    exact ⟨by omega, hopened⟩
  | case4 => cases h
  | case5 i partners rest start opened ih =>
    rw [List.mem_cons, not_or] at hopened
    rw [ih h (by omega) hopened.2, getD_setIfInBounds_ne (by omega),
      getD_setIfInBounds_ne hopened.1]
  | case6 i opened partners command rest _ _ ih => exact ih h (by omega) hopened

-- Two brackets that are closed are not open any more, and so they keep what is recorded of them.
theorem getD_of_closed {i start : Nat} {opened : List Nat} {partners table : Array Nat}
    {commands : List Command}
    (h : matchBrackets (i + 1) opened ((partners.setIfInBounds start i).setIfInBounds i start)
      commands = .ok table)
    (hi : i < partners.size) (hopened : ∀ x ∈ start :: opened, x < i)
    (hnodup : (start :: opened).Nodup) : table.getD start 0 = i ∧ table.getD i 0 = start := by
  have hstart : start < i := hopened start List.mem_cons_self
  have hlast : i ∉ opened := by
    intro hmem
    have hlt := hopened i (List.mem_cons_of_mem _ hmem)
    omega
  constructor
  · rw [getD_of_matchBrackets h (by omega) (List.nodup_cons.mp hnodup).1,
      getD_setIfInBounds_ne (by omega)]
    simp [Array.getD_eq_getD_getElem?, show start < partners.size by omega]
  · rw [getD_of_matchBrackets h (by omega) hlast]
    simp [Array.getD_eq_getD_getElem?, hi]

theorem getElem?_of_drop {all rest : List Command} {i : Nat} {command : Command}
    (h : all.drop i = command :: rest) :
    all.toArray[i]? = some command ∧ all.drop (i + 1) = rest ∧ i + 1 ≤ all.length := by
  have hi : i < all.length := by
    by_contra hge
    simp [List.drop_of_length_le (Nat.le_of_not_lt hge)] at h
  rw [List.drop_eq_getElem_cons hi] at h
  obtain ⟨hcommand, hrest⟩ := List.cons.inj h
  exact ⟨by simp [hi, hcommand], hrest, hi⟩

theorem closes_of_matchBrackets {all commands : List Command} {i : Nat} {opened : List Nat}
    {partners table : Array Nat} (h : matchBrackets i opened partners commands = .ok table)
    (hcommands : all.drop i = commands) (hi : i ≤ all.length) (hsize : partners.size = all.length)
    (hopened : ∀ x ∈ opened, x < i) (hnodup : opened.Nodup) :
    ∃ block outer, Block.parseFrom i commands = some (block, outer) ∧
      Closes ⟨all.toArray, table⟩ block outer opened i := by
  fun_induction matchBrackets i opened partners commands with
  | case1 i partners =>
    have hend : i = all.length := by
      have := List.drop_eq_nil_iff.mp hcommands
      omega
    exact ⟨.done, [], rfl, .last (.done (by simpa [hend] using .here))⟩
  | case2 => cases h
  | case3 i opened partners rest ih =>
    obtain ⟨hopen, hrest, hi⟩ := getElem?_of_drop hcommands
    have hopened' : ∀ x ∈ i :: opened, x < i + 1 := by
      intro x hx
      rcases List.mem_cons.mp hx with rfl | hx
      · omega
      · have := hopened x hx
        omega
    have hnodup' : (i :: opened).Nodup := by
      refine List.nodup_cons.mpr ⟨fun hmem => ?_, hnodup⟩
      have := hopened i hmem
      omega
    obtain ⟨body, outer, hparse, hcloses⟩ := ih h hrest hi hsize hopened' hnodup'
    cases hcloses with
    | @more _ next outer _ _ _ k hbody hclose hpartner hnext =>
      refine ⟨.loop body next, outer, by simp [Block.parseFrom, hparse], hnext.extend ?_⟩
      intro j hj
      exact .loop .here hopen hbody hclose hpartner hj
  | case4 => cases h
  | case5 i partners rest start opened ih =>
    obtain ⟨hclose, hrest, hi⟩ := getElem?_of_drop hcommands
    have hopened' : ∀ x ∈ opened, x < i + 1 := by
      intro x hx
      have := hopened x (List.mem_cons_of_mem _ hx)
      omega
    obtain ⟨block, outer, hparse, hcloses⟩ :=
      ih h hrest hi (by simpa using hsize) hopened' (List.nodup_cons.mp hnodup).2
    refine ⟨.done, block :: outer, by simp [Block.parseFrom, hparse], ?_⟩
    exact .more (.done .here) hclose (getD_of_closed h (by omega) hopened hnodup) hcloses
  | case6 i opened partners command rest hloop hrepeat ih =>
    obtain ⟨hcommand, hrest, hi⟩ := getElem?_of_drop hcommands
    have hopened' : ∀ x ∈ opened, x < i + 1 := by
      intro x hx
      have := hopened x hx
      omega
    obtain ⟨block, outer, hparse, hcloses⟩ := ih h hrest hi hsize hopened' hnodup
    cases ha : command.action? with
    | some a =>
      refine ⟨.action i a block, outer, ?_, hcloses.extend ?_⟩
      · cases command <;> simp_all [Block.parseFrom]
      · intro j hj
        exact .action .here hcommand ha hj
    | none =>
      obtain rfl : command = .comment := by
        cases command <;> simp_all [Command.action?]
      refine ⟨block, outer, by simp [Block.parseFrom, hparse, Command.action?], hcloses.extend ?_⟩
      intro j hj
      exact hj.comment hcommand

theorem Command.ofByte_eq_meaning (b : UInt8) : ofByte b = meaning b := by
  have hall : (List.range 256).all (fun n => ofByte (.ofNat n) = meaning (.ofNat n)) = true := by
    decide +kernel
  have hbyte := List.all_eq_true.mp hall b.toNat (List.mem_range.mpr b.toNat_lt)
  rw [UInt8.ofNat_toNat] at hbyte
  exact of_decide_eq_true hbyte

-- An accepted text has a tree, which stands in it from the beginning to the end.
theorem exists_stands {text : List Char} {p : Program} (h : Program.ofText text = .ok p) :
    ∃ block, Block.ofText text = some block ∧ block.Stands p 0 p.code.size := by
  unfold Program.ofText Program.ofCommands at h
  rw [List.map_congr_left fun b _ => Command.ofByte_eq_meaning b] at h
  generalize hcommands : (Text.Utf8.encode text).map Command.meaning = commands at h
  cases htable : matchBrackets 0 [] (Array.replicate commands.length 0) commands with
  | error fault => simp [htable, Except.map] at h
  | ok table =>
    simp only [htable, Except.map, Except.ok.injEq] at h
    subst h
    obtain ⟨block, outer, hparse, hcloses⟩ :=
      closes_of_matchBrackets htable rfl (Nat.zero_le _) (by simp) (by simp) (by simp)
    cases hcloses with
    | last hstands =>
      refine ⟨block, ?_, hstands⟩
      rw [Block.ofText, hcommands, Block.ofCommands, hparse]

end Esoterica.Brainfuck
