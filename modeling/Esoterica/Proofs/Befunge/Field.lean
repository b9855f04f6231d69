import Esoterica.Befunge.Field

namespace Esoterica.Befunge.Field

open Text

-- A rectangle that is not empty, with a number for each of its cells.
structure Full (f : Field) : Prop where
  width_pos : 0 < f.width
  height_pos : 0 < f.height
  size_eq : f.cells.size = f.width * f.height

section Cells

variable {f : Field} {x y x' y' : Nat}

theorem index_inj (hx : x < f.width) (hx' : x' < f.width) (h : f.index x y = f.index x' y') :
    x = x' ∧ y = y' := by
  unfold index at h
  have hrest := congrArg (· % f.width) h
  have hrows := congrArg (· / f.width) h
  have hpos : 0 < f.width := by omega
  simp only [Nat.mul_add_mod_self_right, Nat.mod_eq_of_lt hx, Nat.mod_eq_of_lt hx'] at hrest
  simp only [Nat.mul_comm _ f.width, Nat.mul_add_div hpos, Nat.div_eq_of_lt hx,
    Nat.div_eq_of_lt hx', Nat.add_zero] at hrows
  exact ⟨hrest, hrows⟩

theorem Full.index_lt (h : f.Full) (hx : x < f.width) (hy : y < f.height) :
    f.index x y < f.cells.size := by
  have hrows : (y + 1) * f.width ≤ f.height * f.width := Nat.mul_le_mul_right _ hy
  rw [h.size_eq, Nat.mul_comm, index]
  rw [Nat.add_mul, Nat.one_mul] at hrows
  omega

theorem Full.getElem?_index (h : f.Full) (hx : x < f.width) (hy : y < f.height) :
    f.cells[f.index x y]? = some (f.get x y) := by
  rw [get, Array.getD_eq_getD_getElem?, Array.getElem?_eq_getElem (h.index_lt hx hy)]
  rfl

theorem Full.set (h : f.Full) (x y : Nat) (value : Int64) : (f.set x y value).Full :=
  ⟨h.width_pos, h.height_pos, (Array.size_setIfInBounds ..).trans h.size_eq⟩

-- Setting a cell changes this cell and no other.
theorem Full.getElem?_set (h : f.Full) (hx : x < f.width) (hy : y < f.height) (value : Int64)
    (i : Nat) :
    (f.set x y value).cells[i]? = if i = f.index x y then some value else f.cells[i]? := by
  rw [Field.set, Array.getElem?_setIfInBounds, if_pos (h.index_lt hx hy)]
  simp only [eq_comm]

theorem point?_eq_some_iff {a b : Int64} :
    f.point? a b = some (x, y) ↔ a.toInt = x ∧ b.toInt = y ∧ x < f.width ∧ y < f.height := by
  unfold point?
  split
  case isTrue hinside =>
    simp only [Option.some.injEq, Prod.mk.injEq]
    omega
  case isFalse houtside =>
    simp only [reduceCtorEq, false_iff]
    omega

end Cells

section Text

variable (text : List Char)

-- The code of the letter at place `x` of line `y`. Where the text has none, there is a blank.
def letterAt (x y : Nat) : Int64 :=
  Int64.ofNat (((lines text)[y]?.bind (·[x]?)).getD ' ').toNat

theorem getElem?_rowsOf (x y : Nat) :
    (rowsOf text)[y]?.bind (·[x]?) = (lines text)[y]?.bind (·[x]?) := by
  unfold rowsOf
  split
  case h_1 h =>
    rw [h]
    cases y <;> simp
  case h_2 => rfl

theorem rowsOf_ne_nil : rowsOf text ≠ [] := by
  unfold rowsOf
  split
  · simp
  · assumption

theorem le_width :
    1 ≤ (ofText text).width ∧ ∀ row ∈ rowsOf text, row.length ≤ (ofText text).width := by
  have hmax : (1 :: (rowsOf text).map List.length).max? = some (ofText text).width :=
    List.max?_cons'
  have hle := (List.max?_le_iff hmax).mp (Nat.le_refl _)
  refine ⟨hle 1 List.mem_cons_self, fun row hrow => hle _ ?_⟩
  exact List.mem_cons_of_mem _ (List.mem_map_of_mem hrow)

theorem length_padded {row : List Char} (h : row ∈ rowsOf text) :
    (padded (ofText text).width row).length = (ofText text).width := by
  have hwide := (le_width text).2 row h
  simp only [padded, List.length_append, List.length_map, List.length_replicate]
  omega

theorem getElem?_padded {row : List Char} {width x : Nat} (hx : x < width) :
    (padded width row)[x]? = some (Int64.ofNat (row[x]?.getD ' ').toNat) := by
  unfold padded
  by_cases hrow : x < row.length
  · simp [List.getElem?_append_left, hrow, codeOf]
  · rw [List.getElem?_append_right (by simpa using hrow), List.getElem?_replicate_of_lt]
    · simp [List.getElem?_eq_none (Nat.le_of_not_lt hrow), blank, codeOf]
    · simp only [List.length_map]
      omega

-- In rows of the same length one below the other, each row stands behind those above it.
theorem getElem?_flatMap {α β : Type} {g : α → List β} {width x : Nat} (hx : x < width)
    {rows : List α} (hg : ∀ row ∈ rows, (g row).length = width) (y : Nat) :
    (rows.flatMap g)[y * width + x]? = rows[y]?.bind fun row => (g row)[x]? := by
  induction rows generalizing y with
  | nil => rfl
  | cons row rows ih =>
    have hrow := hg row List.mem_cons_self
    rw [List.flatMap_cons]
    cases y with
    | zero => simp [List.getElem?_append_left, hrow, hx]
    | succ y =>
      have hindex : (y + 1) * width + x = (g row).length + (y * width + x) := by
        rw [hrow, Nat.add_mul, Nat.one_mul]
        omega
      rw [hindex, List.getElem?_append_right (Nat.le_add_right ..), Nat.add_sub_cancel_left,
        ih fun row hmem => hg row (List.mem_cons_of_mem _ hmem)]
      rfl

theorem full_ofText : (ofText text).Full where
  width_pos := (le_width text).1
  height_pos := List.length_pos_iff.mpr (rowsOf_ne_nil text)
  size_eq := by
    have hrows : ∀ row ∈ rowsOf text,
        (padded (ofText text).width row).length = (ofText text).width :=
      fun row => length_padded text
    show ((rowsOf text).flatMap (padded (ofText text).width)).toArray.size =
      (ofText text).width * (rowsOf text).length
    rw [List.size_toArray, List.length_flatMap, List.map_congr_left hrows, List.map_const',
      List.sum_replicate_nat, Nat.mul_comm]

-- A text fills its field: each letter has its cell, and the other cells are blank.
theorem getElem?_ofText {x y : Nat} (hx : x < (ofText text).width)
    (hy : y < (ofText text).height) :
    (ofText text).cells[(ofText text).index x y]? = some (letterAt text x y) := by
  obtain ⟨row, hrow⟩ : ∃ row, (rowsOf text)[y]? = some row := ⟨_, List.getElem?_eq_getElem hy⟩
  show ((rowsOf text).flatMap (padded (ofText text).width)).toArray[_]? = _
  rw [List.getElem?_toArray, index, getElem?_flatMap hx fun _ => length_padded text, letterAt,
    ← getElem?_rowsOf, hrow, Option.bind_some, getElem?_padded hx, Option.bind_some]

theorem lt_of_letter {x y : Nat} {char : Char}
    (h : (lines text)[y]?.bind (·[x]?) = some char) :
    x < (ofText text).width ∧ y < (ofText text).height := by
  rw [← getElem?_rowsOf] at h
  obtain ⟨row, hrow, hchar⟩ := Option.bind_eq_some_iff.mp h
  have hwide := (le_width text).2 row (List.mem_of_getElem? hrow)
  have hx := (List.getElem?_eq_some_iff.mp hchar).1
  exact ⟨by omega, (List.getElem?_eq_some_iff.mp hrow).1⟩

end Text

end Esoterica.Befunge.Field
