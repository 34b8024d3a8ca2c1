import MatrixLang.Proofs.Decimal
import MatrixLang.Proofs.Double
import MatrixLang.Proofs.Tensor.Bounds
import MatrixLang.Tensor.Text

/-!
# The text of a tensor is a grid

A tensor with entries is written as a line for each row and a cell for each entry. All
cells are as wide as the longest text of an entry, so the columns stand below each
other. In a float tensor the points do, too: a cell that is filled up on the right has
the same number of places behind its point as every other (`Cell.Numeric.pointed`), and
filling up on the left to one width keeps that. With exponents it is the mantissas that
have equally many places (`Cell.Numeric.mantissa`).

The facts about cells hold whatever the digits are. They come together in `Grid`, one
for each tensor (`isGrid`), and `text_grid` says how the cells stand in the lines.
-/

namespace MatrixLang

open Decimal

variable {text : List Char} {width : Nat}

/-! ## Words and blanks -/

/-- No blanks and no newlines. -/
def IsPlain (cs : List Char) : Prop := ∀ c ∈ cs, c ≠ ' ' ∧ c ≠ '\n'

theorem IsPlain.append {us vs : List Char} (hus : IsPlain us) (hvs : IsPlain vs) :
    IsPlain (us ++ vs) :=
  List.forall_mem_append.mpr ⟨hus, hvs⟩

theorem isPlain_digits (h : AreDigits text) : IsPlain text := by
  intro c hc
  have hdigit := h c hc
  constructor <;> (rintro rfl; cases hdigit)

/-- One word, with blanks on both sides of it. -/
def IsWord (cell : List Char) : Prop :=
  ∃ i word j, cell = List.replicate i ' ' ++ word ++ List.replicate j ' ' ∧ word ≠ []
    ∧ IsPlain word

theorem IsPlain.isWord (h : IsPlain text) (hne : text ≠ []) : IsWord text :=
  ⟨0, text, 0, by simp, hne, h⟩

theorem IsWord.leftpad (h : IsWord text) (width : Nat) :
    IsWord (text.leftpad width ' ') := by
  obtain ⟨i, word, j, rfl, hword⟩ := h
  rw [List.leftpad]
  generalize width - _ = k
  refine ⟨k + i, word, j, ?_, hword⟩
  simp only [← List.replicate_append_replicate, List.append_assoc]

theorem IsWord.newline_not_mem (h : IsWord text) : '\n' ∉ text := by
  obtain ⟨i, word, j, rfl, -, hword⟩ := h
  intro hmem
  simp only [List.mem_append, List.mem_replicate] at hmem
  rcases hmem with (⟨-, h⟩ | h) | ⟨-, h⟩
  · cases h
  · exact (hword _ h).2 rfl
  · cases h

/-! ## Points -/

/-- The only point of a cell stands in this column. -/
def PointAt (column : Nat) (cell : List Char) : Prop :=
  ∃ before after, cell = before ++ '.' :: after ∧ before.length = column
    ∧ '.' ∉ before ∧ '.' ∉ after

/-- A mantissa with this many digits behind its point, and an exponent. -/
def HasMantissa (places : Nat) (cell : List Char) : Prop :=
  ∃ before fraction exponent, cell = before ++ '.' :: fraction ++ 'e' :: exponent
    ∧ '.' ∉ before ∧ AreDigits fraction ∧ fraction.length = places

theorem PointAt.leftpad {column : Nat} (h : PointAt column text) (width : Nat) :
    PointAt (width - text.length + column) (text.leftpad width ' ') := by
  obtain ⟨before, after, htext, rfl, hbefore, hafter⟩ := h
  refine ⟨List.replicate (width - text.length) ' ' ++ before, after, ?_, ?_, ?_, hafter⟩
  · rw [List.leftpad, List.append_assoc, ← htext]
  · rw [List.length_append, List.length_replicate]
  · simp [hbefore]

theorem HasMantissa.leftpad {places : Nat} (h : HasMantissa places text) (width : Nat) :
    HasMantissa places (text.leftpad width ' ') := by
  obtain ⟨before, fraction, exponent, htext, hbefore, hfraction⟩ := h
  refine ⟨List.replicate (width - text.length) ' ' ++ before, fraction, exponent, ?_, ?_,
    hfraction⟩
  · simp only [List.leftpad, htext, List.append_assoc]
  · simp [hbefore]

/-! ## The longest of some -/

theorem le_longest {l : List Nat} {n : Nat} (h : n ∈ l) : n ≤ l.foldl max 0 := by
  rw [List.foldl_max]
  exact Nat.le_trans (List.le_max?_getD_of_mem h) (Nat.le_max_right _ _)

theorem longest_mem {l : List Nat} (h : l ≠ []) : l.foldl max 0 ∈ l := by
  obtain ⟨n, l, rfl⟩ := List.exists_cons_of_ne_nil h
  refine List.max?_mem ?_
  rw [List.max?_cons', List.foldl_cons, Nat.zero_max]

/-! ## Cells of floats -/

theorem point_not_mem (h : AreDigits text) : '.' ∉ text := fun hmem => by cases h _ hmem

theorem point_not_mem_signed (h : AreDigits text) (negative : Bool) :
    '.' ∉ signed negative text := by
  cases negative <;> simp [signed, point_not_mem h]

theorem isPlain_signed (h : AreDigits text) (negative : Bool) :
    IsPlain (signed negative text) := by
  cases negative with
  | true => exact List.forall_mem_cons.mpr ⟨by decide, isPlain_digits h⟩
  | false => exact isPlain_digits h

namespace Cell

/-- A number: a sign and digits, digits behind the point, and an exponent. -/
def Numeric (cell : Cell) (exponent : List Char) : Prop :=
  ∃ negative whole fraction, cell = .pointed (signed negative whole) fraction exponent
    ∧ AreDigits whole ∧ AreDigits fraction

theorem areDigits_trimmed {places : List Char} (h : AreDigits places) :
    AreDigits (trimmed places) := by
  intro c hc
  have hmem := (List.dropWhile_sublist _).mem (List.mem_reverse.mp hc)
  exact h c (List.mem_reverse.mp hmem)

theorem numeric_ofPointed {whole fraction : List Char} (h : Pointed text whole fraction)
    (negative : Bool) (exponent : List Char) :
    (ofPointed (signed negative text) exponent).Numeric exponent := by
  have hwhole : ∀ c ∈ signed negative whole, decide (c ≠ '.') = true := by
    rintro c hc
    refine decide_eq_true ?_
    rintro rfl
    exact point_not_mem_signed h.whole negative hc
  have htext : signed negative text = signed negative whole ++ '.' :: fraction := by
    rw [h.text]
    cases negative <;> rfl
  refine ⟨negative, whole, trimmed fraction, ?_, h.whole, areDigits_trimmed h.fraction⟩
  rw [ofPointed, htext, List.takeWhile_append_of_pos hwhole,
    List.dropWhile_append_of_pos hwhole]
  simp

variable {cell : Cell} {exponent : List Char}

/-- Filled up with blanks, a number without an exponent has its point before the last
`width` characters. -/
theorem Numeric.pointed (h : cell.Numeric []) (hwidth : cell.places ≤ width) :
    ∃ column, PointAt column (cell.text ' ' width)
      ∧ (cell.text ' ' width).length = column + 1 + width := by
  obtain ⟨negative, whole, fraction, rfl, hwhole, hfraction⟩ := h
  refine ⟨_, ⟨signed negative whole, fraction.rightpad width ' ', by simp [text], rfl,
    point_not_mem_signed hwhole negative, ?_⟩, ?_⟩
  · simp [List.rightpad, point_not_mem hfraction]
  · have hplaces : (fraction.rightpad width ' ').length = width := by
      rw [List.length_rightpad]
      exact Nat.max_eq_left hwidth
    simp only [text, List.append_nil, List.length_append, List.length_cons, hplaces]
    omega

/-- Filled up with zeros, a number has `width` digits behind its point. -/
theorem Numeric.mantissa {e : Int} (h : cell.Numeric (exponentText e))
    (hwidth : cell.places ≤ width) : HasMantissa width (cell.text '0' width) := by
  obtain ⟨negative, whole, fraction, rfl, hwhole, hfraction⟩ := h
  refine ⟨signed negative whole, fraction.rightpad width '0', _, rfl,
    point_not_mem_signed hwhole negative, hfraction.append (areDigits_zeros _), ?_⟩
  rw [List.length_rightpad]
  exact Nat.max_eq_left hwidth

theorem Numeric.isWord_blanks (h : cell.Numeric []) (width : Nat) :
    IsWord (cell.text ' ' width) := by
  obtain ⟨negative, whole, fraction, rfl, hwhole, hfraction⟩ := h
  refine ⟨0, signed negative whole ++ '.' :: fraction, width - fraction.length, ?_, by simp,
    ?_⟩
  · simp [text, List.rightpad]
  · exact (isPlain_signed hwhole negative).append
      (List.forall_mem_cons.mpr ⟨by decide, isPlain_digits hfraction⟩)

theorem Numeric.isWord_zeros {e : Int} (h : cell.Numeric (exponentText e)) (width : Nat) :
    IsWord (cell.text '0' width) := by
  obtain ⟨negative, whole, fraction, rfl, hwhole, hfraction⟩ := h
  obtain ⟨sign, ds, hexponent, hsign, hds, -⟩ := exponentText_parts e
  have hfilled := hfraction.append (areDigits_zeros (width - fraction.length))
  have hplain : IsPlain (sign :: ds) := by
    refine List.forall_mem_cons.mpr ⟨?_, isPlain_digits hds⟩
    rcases hsign with rfl | rfl <;> decide
  refine IsPlain.isWord ?_ (by simp [text])
  rw [text, hexponent]
  exact ((isPlain_signed hwhole negative).append
    (List.forall_mem_cons.mpr ⟨by decide, isPlain_digits hfilled⟩)).append
      (List.forall_mem_cons.mpr ⟨by decide, hplain⟩)

end Cell

namespace Tensor

theorem positionalCell_numeric {x : Float} {negative : Bool} {m : Nat} {q : Int}
    (h : Double.ofFloat x = .finite negative m q) : (positionalCell x).Numeric [] := by
  obtain ⟨whole, fraction, hpointed, -⟩ := pointed_parts
    (areDigits_digitsOf (nearest m q (-textPlaces))) textPlaces
  simp only [positionalCell, h]
  exact Cell.numeric_ofPointed hpointed negative []

theorem exponentCell_numeric {x : Float} {negative : Bool} {m : Nat} {q : Int}
    (h : Double.ofFloat x = .finite negative m q) :
    ∃ e, (exponentCell x).Numeric (exponentText e) := by
  simp only [exponentCell, h, scientific]
  split
  · obtain ⟨whole, fraction, hpointed, -⟩ := pointed_parts (areDigits_digitsOf _) textPlaces
    exact ⟨_, Cell.numeric_ofPointed hpointed negative _⟩
  · obtain ⟨whole, fraction, hpointed, -⟩ := pointed_parts (areDigits_digitsOf _) textPlaces
    exact ⟨_, Cell.numeric_ofPointed hpointed negative _⟩

theorem isWord_numeral (d : Double) (h : d = .nan ∨ ∃ negative, d = .infinite negative) :
    IsWord d.numeral := by
  have hplain : IsPlain d.numeral ∧ d.numeral ≠ [] := by
    rcases h with rfl | ⟨negative, rfl⟩
    · simp [Double.numeral, IsPlain]
    · cases negative <;> simp [Double.numeral, signed, IsPlain]
  exact hplain.1.isWord hplain.2

theorem isWord_positionalCell (x : Float) (width : Nat) :
    IsWord ((positionalCell x).text ' ' width) := by
  cases hx : Double.ofFloat x with
  | finite negative m q => exact (positionalCell_numeric hx).isWord_blanks width
  | nan =>
      simp only [positionalCell, hx]
      exact isWord_numeral _ (.inl rfl)
  | infinite negative =>
      simp only [positionalCell, hx]
      exact isWord_numeral _ (.inr ⟨negative, rfl⟩)

theorem isWord_exponentCell (x : Float) (width : Nat) :
    IsWord ((exponentCell x).text '0' width) := by
  cases hx : Double.ofFloat x with
  | finite negative m q =>
      obtain ⟨e, hnumeric⟩ := exponentCell_numeric hx
      exact hnumeric.isWord_zeros width
  | nan =>
      simp only [exponentCell, hx]
      exact isWord_numeral _ (.inl rfl)
  | infinite negative =>
      simp only [exponentCell, hx]
      exact isWord_numeral _ (.inr ⟨negative, rfl⟩)

/-! ## The texts of the entries -/

variable {a : Tensor} {data : List Float}

/-- Cells are filled up to a number of places that none of them exceeds. -/
theorem filledCells_map (fill : Char) (cell : Float → Cell) (data : List Float) :
    ∃ places, filledCells fill (data.map cell) = data.map (fun x => (cell x).text fill places)
      ∧ ∀ x ∈ data, (cell x).places ≤ places := by
  refine ⟨_, by rw [filledCells, List.map_map]; rfl, fun x hx => le_longest ?_⟩
  exact List.mem_map_of_mem (List.mem_map_of_mem hx)

theorem cellTexts_int (h : a.entryKind = .int) :
    a.cellTexts = a.data.toList.map fun x => signedDigits (wholeNumber x).toInt := by
  simp only [cellTexts, h]

theorem cellTexts_positional (h : a.entryKind = .float)
    (hform : usesExponents a.data.toList = false) :
    a.cellTexts = filledCells ' ' (a.data.toList.map positionalCell) := by
  simp only [cellTexts, h, hform, Bool.false_eq_true, if_false]

theorem cellTexts_exponents (h : a.entryKind = .float)
    (hform : usesExponents a.data.toList = true) :
    a.cellTexts = filledCells '0' (a.data.toList.map exponentCell) := by
  simp only [cellTexts, h, hform, if_true]

theorem isWord_signedDigits (n : Int) : IsWord (signedDigits n) := by
  have hsigned : signedDigits n = signed (decide (n < 0)) (digitsOf n.natAbs) := by
    rw [signedDigits, signed]
    simp only [decide_eq_true_eq]
  rw [hsigned]
  refine (isPlain_signed (areDigits_digitsOf _) _).isWord ?_
  have hne := digitsOf_ne_nil n.natAbs
  cases decide (n < 0) <;> simp [signed, hne]

theorem isWord_cellTexts (a : Tensor) : ∀ text ∈ a.cellTexts, IsWord text := by
  intro text htext
  cases hkind : a.entryKind with
  | int =>
      rw [cellTexts_int hkind] at htext
      obtain ⟨x, -, rfl⟩ := List.mem_map.mp htext
      exact isWord_signedDigits _
  | float =>
      cases hform : usesExponents a.data.toList with
      | false =>
          obtain ⟨places, hcells, -⟩ := filledCells_map ' ' positionalCell a.data.toList
          rw [cellTexts_positional hkind hform, hcells] at htext
          obtain ⟨x, -, rfl⟩ := List.mem_map.mp htext
          exact isWord_positionalCell x places
      | true =>
          obtain ⟨places, hcells, -⟩ := filledCells_map '0' exponentCell a.data.toList
          rw [cellTexts_exponents hkind hform, hcells] at htext
          obtain ⟨x, -, rfl⟩ := List.mem_map.mp htext
          exact isWord_exponentCell x places

/-! ## The cells -/

/-- The cells of a text: one word for each entry, padded to the width of the longest,
with the points of finite floats in one column, or their mantissas of one length. -/
structure Grid (a : Tensor) (width : Nat) (cells : List (List Char)) : Prop where
  padded : cells = a.cellTexts.map (List.leftpad width ' ')
  length : cells.length = a.data.size
  even : ∀ cell ∈ cells, cell.length = width
  longest : ∃ text ∈ a.cellTexts, text.length = width
  words : ∀ cell ∈ cells, IsWord cell
  points : a.entryKind = .float → usesExponents a.data.toList = false →
    ∃ column, ∀ (p : Nat) (x : Float) cell, a.data[p]? = some x → x.isFinite = true →
      cells[p]? = some cell → PointAt column cell
  mantissas : a.entryKind = .float → usesExponents a.data.toList = true →
    ∃ places, ∀ (p : Nat) (x : Float) cell, a.data[p]? = some x → x.isFinite = true →
      cells[p]? = some cell → HasMantissa places cell

theorem length_le_width {texts : List (List Char)} (h : text ∈ texts) :
    text.length ≤ (texts.map List.length).foldl max 0 :=
  le_longest (List.mem_map_of_mem h)

/-- The cell of an entry. -/
theorem getElem?_aligned {f : Float → List Char} (h : a.cellTexts = a.data.toList.map f)
    {p : Nat} {x : Float} {cell : List Char} (hx : a.data[p]? = some x)
    (hcell : (aligned a.cellTexts)[p]? = some cell) :
    x ∈ a.data.toList ∧ f x ∈ a.cellTexts
      ∧ cell = (f x).leftpad ((a.cellTexts.map List.length).foldl max 0) ' ' := by
  have hx' : a.data.toList[p]? = some x := by rwa [Array.getElem?_toList]
  have hmem := List.mem_of_getElem? hx'
  refine ⟨hmem, by rw [h]; exact List.mem_map_of_mem hmem, ?_⟩
  rw [aligned, List.getElem?_map, h, List.getElem?_map, hx'] at hcell
  rw [h]
  exact (Option.some.inj hcell).symm

theorem points_aligned (hkind : a.entryKind = .float)
    (hform : usesExponents a.data.toList = false) :
    ∃ column, ∀ (p : Nat) (x : Float) cell, a.data[p]? = some x → x.isFinite = true →
      (aligned a.cellTexts)[p]? = some cell → PointAt column cell := by
  obtain ⟨places, hcells, hplaces⟩ := filledCells_map ' ' positionalCell a.data.toList
  rw [← cellTexts_positional hkind hform] at hcells
  refine ⟨(a.cellTexts.map List.length).foldl max 0 - places - 1, ?_⟩
  intro p x cell hx hfinite hcell
  obtain ⟨hmem, htext, rfl⟩ := getElem?_aligned hcells hx hcell
  obtain ⟨m, q, hdouble⟩ := Double.ofFloat_of_isFinite hfinite
  obtain ⟨column, hpoint, hlength⟩ :=
    (positionalCell_numeric hdouble).pointed (hplaces x hmem)
  have hwidth := length_le_width htext
  -- what stands behind the point is the same for all, so what stands before it is, too
  have hcolumn := hpoint.leftpad ((a.cellTexts.map List.length).foldl max 0)
  rwa [show _ - _ + column = (a.cellTexts.map List.length).foldl max 0 - places - 1 by omega]
    at hcolumn

theorem mantissas_aligned (hkind : a.entryKind = .float)
    (hform : usesExponents a.data.toList = true) :
    ∃ places, ∀ (p : Nat) (x : Float) cell, a.data[p]? = some x → x.isFinite = true →
      (aligned a.cellTexts)[p]? = some cell → HasMantissa places cell := by
  obtain ⟨places, hcells, hplaces⟩ := filledCells_map '0' exponentCell a.data.toList
  rw [← cellTexts_exponents hkind hform] at hcells
  refine ⟨places, ?_⟩
  intro p x cell hx hfinite hcell
  obtain ⟨hmem, -, rfl⟩ := getElem?_aligned hcells hx hcell
  obtain ⟨m, q, hdouble⟩ := Double.ofFloat_of_isFinite hfinite
  obtain ⟨e, hnumeric⟩ := exponentCell_numeric hdouble
  exact (hnumeric.mantissa (hplaces x hmem)).leftpad _

theorem isWord_aligned (a : Tensor) : ∀ cell ∈ aligned a.cellTexts, IsWord cell := by
  intro cell hcell
  obtain ⟨text, htext, rfl⟩ := List.mem_map.mp hcell
  exact (isWord_cellTexts a text htext).leftpad _

theorem isGrid (h : 0 < a.data.size) :
    a.Grid ((a.cellTexts.map List.length).foldl max 0) (aligned a.cellTexts) where
  padded := rfl
  length := a.length_cellTexts
  even := by
    intro cell hcell
    obtain ⟨text, htext, rfl⟩ := List.mem_map.mp hcell
    rw [List.length_leftpad]
    exact Nat.max_eq_left (length_le_width htext)
  longest := by
    refine List.mem_map.mp (longest_mem ?_)
    intro hnil
    have hlength := a.length_cellTexts
    rw [aligned, List.length_map, List.map_eq_nil_iff.mp hnil] at hlength
    rw [← hlength] at h
    cases h
  words := isWord_aligned a
  points := points_aligned
  mantissas := mantissas_aligned

/-! ## The lines -/

def lines (a : Tensor) : List (List Char) := a.text.toList.splitOn '\n'

/-- Rows in a pair of brackets, a line for each: the bracket stands before the first
row, with blanks below it, and behind the last row. -/
def framed (front : Char) : List (List Char) → List (List Char)
  | [] => []
  | [row] => [front :: row ++ [']']]
  | row :: next :: rest => (front :: row) :: framed ' ' (next :: rest)

variable {rows : List (List Char)}

theorem length_framed (front : Char) (rows : List (List Char)) :
    (framed front rows).length = rows.length := by
  fun_induction framed front rows with
  | case1 => rfl
  | case2 => rfl
  | case3 front row next rest ih => exact congrArg (· + 1) ih

theorem intercalate_framed (front : Char) (h : rows ≠ []) :
    ['\n'].intercalate (framed front rows)
      = front :: ['\n', ' '].intercalate rows ++ [']'] := by
  fun_induction framed front rows with
  | case1 => exact absurd rfl h
  | case2 front row => simp
  | case3 front row next rest ih =>
      have hne : framed ' ' (next :: rest) ≠ [] :=
        List.ne_nil_of_length_pos (by rw [length_framed]; exact Nat.succ_pos _)
      obtain ⟨line, others, hothers⟩ := List.exists_cons_of_ne_nil hne
      rw [hothers, List.intercalate_cons_cons, ← hothers, ih (List.cons_ne_nil _ _),
        List.intercalate_cons_cons]
      simp only [List.append_assoc, List.cons_append, List.nil_append]

theorem newline_not_mem_framed {front : Char} (hfront : front ≠ '\n')
    (h : ∀ row ∈ rows, '\n' ∉ row) : ∀ line ∈ framed front rows, '\n' ∉ line := by
  fun_induction framed front rows with
  | case1 => exact nofun
  | case2 front row =>
      have hrow := h row List.mem_cons_self
      simp [hrow, Ne.symm hfront]
  | case3 front row next rest ih =>
      obtain ⟨hrow, hrest⟩ := List.forall_mem_cons.mp h
      refine List.forall_mem_cons.mpr ⟨?_, ih (by decide) hrest⟩
      simp [hrow, Ne.symm hfront]

variable {cells : List (List Char)}

theorem newline_not_mem_rowText (h : ∀ cell ∈ cells, IsWord cell) :
    '\n' ∉ rowText cells := by
  have hinner : '\n' ∉ [' '].intercalate cells := by
    induction cells with
    | nil => simp
    | cons cell cells ih =>
        obtain ⟨hcell, hcells⟩ := List.forall_mem_cons.mp h
        cases cells with
        | nil =>
            rw [List.intercalate_singleton]
            exact hcell.newline_not_mem
        | cons next cells =>
            rw [List.intercalate_cons_cons]
            simp [hcell.newline_not_mem, ih hcells]
  simp [rowText, hinner]

/-- Between the brackets there is a column for each character of a cell, and one between
two cells. -/
theorem length_intercalate_cells (h : ∀ cell ∈ cells, cell.length = width) :
    ([' '].intercalate cells).length = cells.length * width + (cells.length - 1) := by
  induction cells with
  | nil => simp
  | cons cell cells ih =>
      obtain ⟨hcell, hcells⟩ := List.forall_mem_cons.mp h
      cases cells with
      | nil => simp [hcell]
      | cons next cells =>
          rw [List.intercalate_cons_cons, List.length_append, List.length_append, ih hcells,
            hcell, List.length_cons, List.length_cons (a := cell), Nat.succ_mul _ width]
          simp only [List.length_cons, List.length_nil]
          omega

/-! ## Rows -/

theorem rowsOf_parts {m n : Nat} (h : cells.length = m * n) :
    (rowsOf m n cells).flatten = cells ∧ (rowsOf m n cells).length = m
      ∧ ∀ row ∈ rowsOf m n cells, row.length = n := by
  induction m generalizing cells with
  | zero =>
      rw [Nat.zero_mul] at h
      rw [List.eq_nil_of_length_eq_zero h]
      exact ⟨rfl, rfl, nofun⟩
  | succ m ih =>
      rw [Nat.succ_mul] at h
      obtain ⟨hflatten, hlength, hrows⟩ := @ih (cells.drop n) (by rw [List.length_drop]; omega)
      refine ⟨?_, congrArg (· + 1) hlength, List.forall_mem_cons.mpr ⟨?_, hrows⟩⟩
      · rw [rowsOf, List.flatten_cons, hflatten, List.take_append_drop]
      · rw [List.length_take]
        omega

theorem lines_vector {n : Nat} (h : a.shape = .vector n) :
    a.lines = [rowText (aligned a.cellTexts)] := by
  have hchars : a.chars = ['\n'].intercalate [rowText (aligned a.cellTexts)] := by
    simp only [chars, h, List.intercalate_singleton]
  rw [lines, text, String.toList_ofList, hchars]
  refine List.splitOn_intercalate '\n' ?_ (List.cons_ne_nil _ _)
  exact List.forall_mem_singleton.mpr (newline_not_mem_rowText (isWord_aligned a))

theorem lines_matrix {m n : Nat} (ha : a.WellFormed) (h : a.shape = .matrix m n)
    (hm : 0 < m) :
    a.lines = framed '[' ((rowsOf m n (aligned a.cellTexts)).map rowText) := by
  obtain ⟨hflatten, hlength, -⟩ := @rowsOf_parts (aligned a.cellTexts) m n
    (by rw [length_cellTexts, ha.size_matrix h])
  have hne : (rowsOf m n (aligned a.cellTexts)).map rowText ≠ [] :=
    List.ne_nil_of_length_pos (by rwa [List.length_map, hlength])
  have hrows : ∀ row ∈ (rowsOf m n (aligned a.cellTexts)).map rowText, '\n' ∉ row := by
    intro text htext
    obtain ⟨row, hrow, rfl⟩ := List.mem_map.mp htext
    refine newline_not_mem_rowText fun cell hcell => isWord_aligned a cell ?_
    rw [← hflatten]
    exact List.mem_flatten.mpr ⟨row, hrow, hcell⟩
  have hchars : a.chars
      = ['\n'].intercalate (framed '[' ((rowsOf m n (aligned a.cellTexts)).map rowText)) := by
    rw [intercalate_framed '[' hne]
    simp only [chars, h]
  rw [lines, text, String.toList_ofList, hchars]
  refine List.splitOn_intercalate '\n' (newline_not_mem_framed (by decide) hrows) ?_
  exact List.ne_nil_of_length_pos (by rwa [length_framed, List.length_map, hlength])

/-- **The text of a tensor is a regular grid.** A vector with entries is one line and a
matrix with entries has a line for each row; every line has a cell for each column, and
without the brackets and the indent all of them are equally long, since all cells have
the width of the longest. Without rows, or as a vector without entries, a tensor is
`[]`; without columns its rows are. -/
theorem text_grid (ha : a.WellFormed) :
    (∀ n, a.shape = .vector n → 0 < n →
        ∃ (width : Nat) (cells : List (List Char)), a.Grid width cells
          ∧ cells.length = n ∧ a.lines = [rowText cells])
      ∧ (∀ m n, a.shape = .matrix m n → 0 < m → 0 < n →
        ∃ (width : Nat) (rows : List (List (List Char))),
          a.Grid width rows.flatten ∧ rows.length = m
          ∧ (∀ row ∈ rows, row.length = n
            ∧ ([' '].intercalate row).length = n * width + (n - 1))
          ∧ a.lines.length = m ∧ a.lines = framed '[' (rows.map rowText))
      ∧ (a.shape = .vector 0 → a.text = "[]")
      ∧ (∀ n, a.shape = .matrix 0 n → a.text = "[]")
      ∧ ∀ m, a.shape = .matrix m 0 → 0 < m →
        a.lines = framed '[' (List.replicate m ['[', ']']) := by
  refine ⟨fun n h hn => ?_, fun m n h hm hn => ?_, fun h => ?_, fun n h => ?_,
    fun m h hm => ?_⟩
  · have hsize := ha.size_vector h
    refine ⟨_, _, isGrid (hsize ▸ hn), ?_, lines_vector h⟩
    rw [length_cellTexts, hsize]
  · have hsize := ha.size_matrix h
    have hgrid := isGrid (a := a) (by rw [hsize]; exact Nat.mul_pos hm hn)
    obtain ⟨hflatten, hlength, hrows⟩ := @rowsOf_parts (aligned a.cellTexts) m n
      (by rw [length_cellTexts, hsize])
    have hlines := lines_matrix ha h hm
    rw [← hflatten] at hgrid
    refine ⟨_, _, hgrid, hlength, fun row hrow => ⟨hrows row hrow, ?_⟩, ?_, hlines⟩
    · rw [length_intercalate_cells fun cell hcell =>
        hgrid.even cell (List.mem_flatten.mpr ⟨row, hrow, hcell⟩), hrows row hrow]
    · rw [hlines, length_framed, List.length_map, hlength]
  · have hcells : aligned a.cellTexts = [] :=
      List.eq_nil_of_length_eq_zero (by rw [length_cellTexts, ha.size_vector h])
    simp only [text, chars, h, hcells]
    rfl
  · simp only [text, chars, h, rowsOf, List.map_nil]
    rfl
  · obtain ⟨-, hlength, hrows⟩ := @rowsOf_parts (aligned a.cellTexts) m 0
      (by rw [length_cellTexts, ha.size_matrix h])
    have hempty : (rowsOf m 0 (aligned a.cellTexts)).map rowText
        = List.replicate m ['[', ']'] := by
      refine List.eq_replicate_iff.mpr ⟨by rw [List.length_map, hlength], ?_⟩
      intro text htext
      obtain ⟨row, hrow, rfl⟩ := List.mem_map.mp htext
      rw [List.eq_nil_of_length_eq_zero (hrows row hrow)]
      rfl
    rw [lines_matrix ha h hm, hempty]

/-- Two rows of three: signs, a word and numbers of different lengths. -/
theorem text_grid_two_three :
    (⟨.matrix 2 3, .float, #[1.5, -20.25, 0.0 / 0.0, 0.0, 3.0, -0.125]⟩ : Tensor).WellFormed
      ∧ ∃ (width : Nat) (rows : List (List (List Char))),
        Tensor.Grid ⟨.matrix 2 3, .float, #[1.5, -20.25, 0.0 / 0.0, 0.0, 3.0, -0.125]⟩ width
          rows.flatten ∧ ∀ row ∈ rows, ([' '].intercalate row).length = 3 * width + 2 := by
  have hwell : (⟨.matrix 2 3, .float,
      #[1.5, -20.25, 0.0 / 0.0, 0.0, 3.0, -0.125]⟩ : Tensor).WellFormed := rfl
  obtain ⟨width, rows, hgrid, -, hrows, -⟩ :=
    (text_grid hwell).2.1 2 3 rfl (by decide) (by decide)
  exact ⟨hwell, width, rows, hgrid, fun row hrow => (hrows row hrow).2⟩

end Tensor

end MatrixLang
