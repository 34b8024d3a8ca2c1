import MatrixLang.NumberText
import MatrixLang.Decimal.Places
import MatrixLang.Tensor.Basic

/-!
# The text of a tensor

A tensor is written as a grid: a row in brackets on each line, and all cells
padded on the left to one width. Integers are written by their digits. Floats
have up to eight places, without the zeros at their end, and their points stand
below each other. When a magnitude is very large or very small, or when the
largest is more than a thousand times the smallest, all of them are written with
a mantissa and an exponent, and the mantissas get equally many places.
-/

namespace MatrixLang

/-- The text of an entry before it is padded: words such as `nan` as they are,
and numbers with their parts before and after the point. -/
inductive Cell where
  | word (text : List Char)
  | pointed (whole fraction exponent : List Char)
deriving Repr, DecidableEq

namespace Cell

def trimmed (places : List Char) : List Char :=
  (places.reverse.dropWhile (· = '0')).reverse

/-- A text of digits with a point in it, split at the point; the zeros at its end
do not count. -/
def ofPointed (text exponent : List Char) : Cell :=
  .pointed (text.takeWhile (· ≠ '.')) (trimmed ((text.dropWhile (· ≠ '.')).drop 1)) exponent

def places : Cell → Nat
  | .word _ => 0
  | .pointed _ fraction _ => fraction.length

/-- The text of a cell whose places are filled up to `width` with `fill`. -/
def text (fill : Char) (width : Nat) : Cell → List Char
  | .word text => text
  | .pointed whole fraction exponent =>
      whole ++ '.' :: fraction.rightpad width fill ++ exponent

end Cell

namespace Tensor

def textPlaces : Nat := 8

/-- Magnitudes from here on are written with an exponent. -/
def exponentFrom : Float := 1e8

def exponentBelow : Float := 1e-4

def exponentSpread : Float := 1e3

/-- The magnitudes that choose the form: those of the finite entries other than
zero. -/
def magnitudes (data : List Float) : List Float :=
  (data.filter fun x => x.isFinite && x != 0.0).map fun x => if x < 0.0 then -x else x

def smaller (x y : Float) : Float := if y < x then y else x

def larger (x y : Float) : Float := if x < y then y else x

def usesExponents (data : List Float) : Bool :=
  match magnitudes data with
  | [] => false
  | x :: rest =>
      let least := rest.foldl smaller x
      let greatest := rest.foldl larger x
      exponentFrom <= greatest || least < exponentBelow || exponentSpread < greatest / least

def positionalCell (x : Float) : Cell :=
  match Double.ofFloat x with
  | .finite negative m q =>
      .ofPointed (signed negative (Decimal.fixed textPlaces m q)) []
  | d => .word d.numeral

def exponentCell (x : Float) : Cell :=
  match Double.ofFloat x with
  | .finite negative m q =>
      let (mantissa, e) := Decimal.scientific textPlaces m q
      .ofPointed (signed negative mantissa) (Decimal.exponentText e)
  | d => .word d.numeral

/-- The texts of cells, filled up to the places of the one that has most. -/
def filledCells (fill : Char) (cells : List Cell) : List (List Char) :=
  let width := (cells.map Cell.places).foldl max 0
  cells.map (Cell.text fill width)

/-- The texts of the entries, before they get one width. -/
def cellTexts (a : Tensor) : List (List Char) :=
  let data := a.data.toList
  match a.entryKind with
  | .int => data.map fun x => Decimal.signedDigits (wholeNumber x).toInt
  | .float =>
      if usesExponents data then filledCells '0' (data.map exponentCell)
      else filledCells ' ' (data.map positionalCell)

def aligned (texts : List (List Char)) : List (List Char) :=
  let width := (texts.map List.length).foldl max 0
  texts.map (List.leftpad width ' ')

def rowText (cells : List (List Char)) : List Char :=
  '[' :: [' '].intercalate cells ++ [']']

def rowsOf : Nat → Nat → List (List Char) → List (List (List Char))
  | 0, _, _ => []
  | rows + 1, cols, cells =>
      cells.take cols :: rowsOf rows cols (cells.drop cols)

def chars (a : Tensor) : List Char :=
  let cells := aligned a.cellTexts
  match a.shape with
  | .vector _ => rowText cells
  | .matrix rows cols =>
      '[' :: ['\n', ' '].intercalate ((rowsOf rows cols cells).map rowText) ++ [']']

def text (a : Tensor) : String := String.ofList a.chars

end Tensor

end MatrixLang
