import MatrixLang.Token.Basic

/-!
# Cutting a text into slices

The text of a program is cut, from left to right, into slices: blanks,
comments, newlines, words, symbols, numbers, strings, and single characters that
start nothing. A slice is always the longest one that begins where the last one
ended; so `1.+2` is the float `1.`, a plus and an integer, and `1e+` an integer,
a word and a plus.

A string runs to the first quote that no backslash hides, over newlines too.
When there is none, the string stays open to the end of the text; a backslash
that is the last character of the text is not part of it.
-/

namespace MatrixLang

/-- What a slice is. -/
inductive SliceClass where
  | blank
  | comment
  | newline
  | word
  | symbol (s : Symbol)
  | int
  | float
  | string
  /-- A string without its closing quote. -/
  | openString
  | illegal
deriving Repr, DecidableEq

/-- A piece of the text, and what it is. -/
structure Slice where
  cls : SliceClass
  text : List Char
deriving Repr, DecidableEq

namespace Slice

/-! ## Character classes -/

def isBlank (c : Char) : Bool := c = ' ' || c = '\t' || c = '\r' || c = '\x0c'

def isWordStart (c : Char) : Bool := c.isAlpha || c = '_'

def isWordPart (c : Char) : Bool := c.isAlphanum || c = '_'

/-! ## Numbers -/

def digitRun (cs : List Char) : List Char := cs.takeWhile Char.isDigit

/-- A point and the digits after it, of which there may be none. -/
def fractionRun : List Char → List Char
  | '.' :: cs => '.' :: digitRun cs
  | _ => []

def signRun : List Char → List Char
  | '+' :: _ => ['+']
  | '-' :: _ => ['-']
  | _ => []

/-- An exponent at the front: without digits it is none. -/
def exponentRun : List Char → List Char
  | e :: cs =>
      if e = 'e' ∨ e = 'E' then
        let sign := signRun cs
        let digits := digitRun (cs.drop sign.length)
        if digits = [] then [] else e :: sign ++ digits
      else []
  | [] => []

/-- The number at the front of a text that begins with a digit, or with a point
and a digit. A number with a point or an exponent is a float. -/
def number (cs : List Char) : Slice :=
  let whole := digitRun cs
  let fraction := fractionRun (cs.drop whole.length)
  let mantissa := whole ++ fraction
  let exponent := exponentRun (cs.drop mantissa.length)
  if fraction = [] ∧ exponent = [] then ⟨.int, whole⟩ else ⟨.float, mantissa ++ exponent⟩

/-! ## Strings -/

/-- The rest of a string after its opening quote, and whether it is closed. -/
def stringRest : List Char → Bool × List Char
  | '\\' :: c :: cs =>
      let (closed, rest) := stringRest cs
      (closed, '\\' :: c :: rest)
  | c :: cs =>
      if c = '"' then (true, [c])
      else if c = '\\' then (false, [])
      else
        let (closed, rest) := stringRest cs
        (closed, c :: rest)
  | [] => (false, [])

def string (cs : List Char) : Slice :=
  let (closed, rest) := stringRest cs
  ⟨if closed then .string else .openString, '"' :: rest⟩

/-! ## The longest slice -/

/-- The symbol at the front: two characters come before one. -/
def symbol? (c : Char) (cs : List Char) : Option Symbol :=
  match cs with
  | d :: _ => (Symbol.ofChars? [c, d]).or (Symbol.ofChars? [c])
  | [] => Symbol.ofChars? [c]

def startsNumber (c : Char) (cs : List Char) : Bool :=
  c.isDigit || (c = '.' && (cs.head?.any Char.isDigit))

def first (c : Char) (cs : List Char) : Slice :=
  if isBlank c then ⟨.blank, c :: cs.takeWhile isBlank⟩
  else if c = '\n' then ⟨.newline, [c]⟩
  else if c = '#' then ⟨.comment, c :: cs.takeWhile (· ≠ '\n')⟩
  else if isWordStart c then ⟨.word, c :: cs.takeWhile isWordPart⟩
  else if startsNumber c cs then number (c :: cs)
  else if c = '"' then string cs
  else
    match symbol? c cs with
    | some s => ⟨.symbol s, s.chars⟩
    | none => ⟨.illegal, [c]⟩

end Slice

def slices : List Char → List Slice
  | [] => []
  | c :: cs =>
      let s := Slice.first c cs
      s :: slices (cs.drop (s.text.length - 1))
termination_by cs => cs.length
decreasing_by simp only [List.length_drop, List.length_cons]; omega

end MatrixLang
