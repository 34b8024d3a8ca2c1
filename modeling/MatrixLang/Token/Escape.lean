/-!
# Escapes in strings

Inside quotes a backslash and one of `n`, `t`, `"` and `\` stand for a newline,
a tab, a quote and a backslash. A backslash before any other character means
nothing special and stays.
-/

namespace MatrixLang.Escape

/-- The character that is meant by one after a backslash. -/
def meaning? : Char → Option Char
  | 'n' => some '\n'
  | 't' => some '\t'
  | '\\' => some '\\'
  | '"' => some '"'
  | _ => none

/-- The contents of a string, from the characters between its quotes. -/
def decode : List Char → List Char
  | '\\' :: c :: cs =>
      match meaning? c with
      | some d => d :: decode cs
      | none => '\\' :: c :: decode cs
  | c :: cs => c :: decode cs
  | [] => []

@[simp] theorem decode_nil : decode [] = [] := by simp [decode]

theorem decode_cons_of_ne {c : Char} (h : c ≠ '\\') (cs : List Char) :
    decode (c :: cs) = c :: decode cs := by
  rw [decode.eq_def]
  split
  · rename_i heq
    injection heq with hc _
    exact absurd hc h
  · rename_i heq
    injection heq with hc hcs
    rw [hc, hcs]
  · contradiction

theorem decode_escape {c d : Char} (h : meaning? c = some d) (cs : List Char) :
    decode ('\\' :: c :: cs) = d :: decode cs := by
  rw [decode, h]

end MatrixLang.Escape
