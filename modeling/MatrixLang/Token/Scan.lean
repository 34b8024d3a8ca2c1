import MatrixLang.Token.Slice
import MatrixLang.Token.Escape
import MatrixLang.Diagnostic.Problem

/-!
# Scanning

Each slice of a text is read by itself: it gives a lexeme, a mistake, or
nothing. What one slice hands to the next is only the line count, which goes up
by the newlines in it. The scan never stops early, and its tokens always end
with the end of the input.
-/

namespace MatrixLang

/-- What a slice amounts to. -/
inductive Reading where
  | nothing
  | lexeme (l : Lexeme)
  | problem (p : Problem)

namespace Slice

/-- Reads a slice. A keyword is not a name, and an integer has to fit in 64
bits. -/
def reading (s : Slice) : Reading :=
  match s.cls with
  | .blank | .comment | .newline => .nothing
  | .word =>
      match Keyword.ofChars? s.text with
      | some k => .lexeme (.word k)
      | none => .lexeme (.ident (String.ofList s.text))
  | .symbol sym => .lexeme (.symbol sym)
  | .int =>
      let n := Decimal.ofDigits s.text
      if (n : Int) ≤ Int64.maxValue.toInt then .lexeme (.int (Int64.ofNat n))
      else .problem (.numberTooLarge (String.ofList s.text))
  | .float => .lexeme (.float (floatOfNumeral s.text))
  | .string =>
      .lexeme (.str (String.ofList (Escape.decode (s.text.drop 1).dropLast)))
  | .openString => .problem .unterminatedString
  | .illegal => .problem (.illegalCharacter (s.text.headD '?'))

def newlines (s : Slice) : Nat := s.text.count '\n'

end Slice

/-- The tokens of a text and the mistakes in it, each in the order of the text. -/
structure Scan where
  tokens : List Token
  errors : List Diagnostic

namespace Scan

def before (r : Reading) (line : Nat) (rest : Scan) : Scan :=
  match r with
  | .nothing => rest
  | .lexeme l => { rest with tokens := ⟨l, line⟩ :: rest.tokens }
  | .problem p => { rest with errors := p.onLine line :: rest.errors }

def ofSlices (line : Nat) : List Slice → Scan
  | [] => ⟨[⟨.eof, line⟩], []⟩
  | s :: rest => before s.reading line (ofSlices (line + s.newlines) rest)

def hasErrors (s : Scan) : Bool := !s.errors.isEmpty

end Scan

def scanChars (line : Nat) (cs : List Char) : Scan :=
  Scan.ofSlices line (slices cs)

def scan (source : String) : Scan := scanChars 1 source.toList

end MatrixLang
