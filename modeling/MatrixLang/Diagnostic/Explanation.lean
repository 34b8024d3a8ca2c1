import MatrixLang.Diagnostic.Code

/-!
# Explanations

The long description of every diagnostic code, line by line, as the `explain`
command shows it. Each explanation is a short text in Markdown with an example
of the mistake.
-/

namespace MatrixLang.Code

def explanationLines : Code → List String
  | .illegalCharacter => [
      "# E0001: Illegal Character",
      "",
      "The scanner met a character that does not start any token.",
      "",
      "```",
      "x = 3 $ 4;   # error: Illegal character '$'",
      "```",
      "",
      "Scanning continues after the offending character, so one file can report",
      "several of these. Remove the character, or put it inside a string or a",
      "`#` comment."]
  | .invalidNumber => [
      "# E0002: Invalid Number Literal",
      "",
      "An integer literal does not fit in a signed 64-bit integer.",
      "",
      "```",
      "x = 99999999999999999999;   # error",
      "```",
      "",
      "Write the value as a float literal (`1e20`) if precision loss is acceptable."]
  | .unterminatedString => [
      "# E0003: Unterminated String Literal",
      "",
      "A `\"` opened a string that is never closed before the end of the file.",
      "",
      "```",
      "print \"hello;   # error",
      "```",
      "",
      "Close the string with `\"`. Use `\\\"` for a quote inside a string."]
  | .unexpectedToken => [
      "# E1001: Syntax Error",
      "",
      "The parser found a token that cannot appear at this position.",
      "",
      "```",
      "x = 1 +;        # error: Syntax error at ';'",
      "if x < 1 \x7b \x7d    # error: conditions must be parenthesised",
      "```",
      "",
      "Parsing stops at the first syntax error."]
  | .unexpectedEnd => [
      "# E1002: Unexpected End of Input",
      "",
      "The file ended in the middle of a statement or block.",
      "",
      "```",
      "while (i < 3) \x7b",
      "    i += 1;",
      "# missing closing brace",
      "```"]
  | .undefinedVariable => [
      "# E2001: Undefined Variable",
      "",
      "A variable is read, or updated with a compound assignment, before any",
      "simple assignment has defined it.",
      "",
      "```",
      "y = x + 1;   # error: Variable 'x' not defined",
      "x += 1;      # error: compound assignment needs an existing value",
      "```",
      "",
      "Variables come into existence on their first `=` assignment. Blocks do not",
      "introduce scopes, so a variable assigned inside an `if` is visible after it."]
  | .invalidOperands => [
      "# E2002: Invalid Operands",
      "",
      "The operator is not defined for this pair of operand kinds.",
      "",
      "| Operands            | `+ - .+ .- .* ./` | `*`     | `/`    |",
      "|---------------------|-------------------|---------|--------|",
      "| scalar, scalar      | scalar            | scalar  | scalar |",
      "| vector, vector      | vector            | -       | -      |",
      "| matrix, matrix      | matrix            | product | -      |",
      "",
      "Every other combination, including any mix of scalar and array, is",
      "rejected.",
      "",
      "```",
      "v = [1, 2, 3];",
      "m = eye(3);",
      "x = v * m;   # error: Invalid operands for *: vector and matrix",
      "```"]
  | .incompatibleShapes => [
      "# E2003: Incompatible Shapes",
      "",
      "Elementwise operands (and `+`/`-` on arrays) must have identical shapes.",
      "",
      "```",
      "a = [1, 2, 3];",
      "b = [1, 2];",
      "c = a .+ b;   # error: Incompatible shapes for .+: (3,) and (2,)",
      "```"]
  | .productMismatch => [
      "# E2004: Matrix Multiplication Dimension Mismatch",
      "",
      "`A * B` on two matrices is the matrix product. The column count of `A`",
      "must equal the row count of `B`; the result is `(rows of A, cols of B)`.",
      "",
      "```",
      "a = ones(2, 3);",
      "b = ones(2, 3);",
      "c = a * b;   # error: incompatible dimensions (2, 3) and (2, 3)",
      "d = a * b';  # ok: (2, 2)",
      "```"]
  | .comparesArrays => [
      "# E2005: Relational Operator Requires Scalars",
      "",
      "`== != < > <= >=` compare numbers only.",
      "",
      "```",
      "v = [1, 2];",
      "if (v == 1) print \"x\";   # error",
      "```"]
  | .invalidCompound => [
      "# E2006: Invalid Compound Assignment",
      "",
      "`x op= e` is checked as `x op e` using the current type of `x`.",
      "",
      "```",
      "s = \"text\";",
      "s += 1;   # error: Invalid compound assignment +=: string and int",
      "```"]
  | .notIndexable => [
      "# E2007: Variable Is Not Indexable",
      "",
      "`x[i]` requires `x` to be a vector (element) or a matrix (row).",
      "",
      "```",
      "x = 5;",
      "y = x[0];   # error",
      "```"]
  | .notMatrix => [
      "# E2008: Variable Is Not a Matrix",
      "",
      "`x[i, j]` requires `x` to be a matrix.",
      "",
      "```",
      "v = [1, 2, 3];",
      "y = v[0, 1];   # error",
      "```"]
  | .outOfBounds => [
      "# E2009: Index Out of Bounds",
      "",
      "A literal index lies outside the statically known shape. Indices are",
      "0-based.",
      "",
      "```",
      "v = [1, 2, 3];",
      "v[3] = 0;   # error: Index 3 out of bounds for vector of size 3",
      "```",
      "",
      "The check uses the most recent assignment to the variable, wherever it",
      "occurs in the file."]
  | .malformedMatrix => [
      "# E2010: Malformed Matrix Literal",
      "",
      "Every row of a matrix literal must be a vector literal, and all rows must",
      "have the same length.",
      "",
      "```",
      "m = [[1, 2], [3]];   # error: Matrix rows have different sizes: \x7b1, 2\x7d",
      "```"]
  | .nonPositiveSize => [
      "# E2011: Non-Positive Matrix Dimension",
      "",
      "`zeros`, `ones` and `eye` take one (square) or two (rows, cols) positive",
      "dimensions.",
      "",
      "```",
      "m = zeros(0);      # error",
      "n = eye(2, -1);    # error",
      "```"]
  | .nonNumericBound => [
      "# E2012: Range Bound Must Be Numeric",
      "",
      "Both bounds of a `for` range must be scalars. Bounds are inclusive.",
      "",
      "```",
      "for i = 1:\"ten\" print i;   # error: Range end must be numeric",
      "```"]
  | .strayLoopControl => [
      "# E2013: Loop Control Outside Loop",
      "",
      "`break` and `continue` are only valid inside `while` or `for` bodies.",
      "",
      "```",
      "if (x > 1) break;   # error: Break statement outside loop",
      "```"]
  | .negatedString => [
      "# E2014: Invalid Unary Minus Operand",
      "",
      "Unary minus applies to numbers, vectors and matrices.",
      "",
      "```",
      "s = -\"abc\";   # error: Unary minus not applicable to string",
      "```"]
  | .transposedNonMatrix => [
      "# E2015: Invalid Transpose Operand",
      "",
      "The postfix `'` operator applies only to matrices.",
      "",
      "```",
      "v = [1, 2, 3];",
      "w = v';   # error: Transpose only applicable to matrices, not vector",
      "```"]
  | .nonScalarElement => [
      "# E2016: Non-Scalar Vector Element",
      "",
      "Vector literal elements must be numbers.",
      "",
      "```",
      "v = [1, \"two\", 3];   # error: Vector element 1 must be a numeric scalar, found string",
      "```",
      "",
      "Nested vector literals form a matrix literal instead; see E2010."]

/-- The explanation of a code; every line of it is ended. -/
def explanation (c : Code) : String :=
  String.join (c.explanationLines.map (· ++ "\n"))

end MatrixLang.Code
