import MatrixLang.Tensor.Text
import MatrixLang.Typing.Ty

/-!
# Values

What an expression evaluates to. Reading a variable that was never assigned
gives the value `null`, which is good for nothing but being printed, returned
and assigned.
-/

namespace MatrixLang

/-- A value of the language. -/
inductive Value where
  | int (n : Int64)
  | float (x : Float)
  | str (s : String)
  | tensor (a : Tensor)
  | null

namespace Value

def ofNumber : Number → Value
  | .int n => .int n
  | .float x => .float x

def number? : Value → Option Number
  | .int n => some (.int n)
  | .float x => some (.float x)
  | _ => none

def kind? : Value → Option Kind
  | .int _ => some .int
  | .float _ => some .float
  | .str _ => some .string
  | .tensor a =>
      match a.shape with
      | .vector _ => some .vector
      | .matrix _ _ => some .matrix
  | .null => none

def text : Value → String
  | .int n => toString n.toInt
  | .float x => floatText x
  | .str s => s
  | .tensor a => a.text
  | .null => "null"

end Value

def kindText : Option Kind → String
  | some k => k.text
  | none => "null"

def Value.kindText (v : Value) : String := MatrixLang.kindText v.kind?

end MatrixLang
