import MatrixLang.Proofs.Token.Breaks
import MatrixLang.Proofs.Token.Placed

/-!
# Scanning goes line by line

A newline ends every slice but a string. So a text in which no string stays open
is cut in the same way in front of a newline and more text (`slices_newline`),
and since the line is all that one slice hands to the next, the scan of the whole
is the scan of the first part and, on later lines, that of the second
(`scan_newline`).
-/

namespace MatrixLang

open Slice

/-- Cutting a text in front of a newline. -/
theorem slices_newline {a : List Char}
    (h : ∀ s ∈ slices a, s.cls ≠ .openString) (b : List Char) :
    slices (a ++ '\n' :: b) = slices a ++ ⟨.newline, ['\n']⟩ :: slices b := by
  rw [slices_append_break (fun s hs => SliceClass.endsAt_newline (h s hs)),
    slices_cons, first_newline]
  rfl

/-! ## Scans -/

/-- A string that stays open is reported. -/
theorem closed_of_scan {source : String}
    (h : ∀ d ∈ (scan source).errors, d.code ≠ .unterminatedString) :
    ∀ s ∈ slices source.toList, s.cls ≠ .openString := by
  intro s hs hopen
  obtain ⟨d, hd, hcode⟩ := exists_open_iff.mpr ⟨s, hs, hopen⟩
  exact h d hd hcode

/-- What is read further down is read alike, if it is so slice by slice. -/
theorem filterMap_add {α : Type} {read : Slice × Nat → Option α} {move : α → α}
    {k : Nat} (h : ∀ s l, read (s, l + k) = (read (s, l)).map move)
    (ps : List (Slice × Nat)) :
    (ps.map (Prod.map id (· + k))).filterMap read
      = (ps.filterMap read).map move := by
  rw [List.filterMap_map, List.map_filterMap]
  exact congrArg (fun g => ps.filterMap g) (funext fun p => h p.1 p.2)

theorem token?_add (s : Slice) (l k : Nat) :
    token? (s, l + k) = (token? (s, l)).map (Token.mapLine (· + k)) := by
  rw [token?, token?, Option.map_map]
  rfl

theorem report?_add (s : Slice) (l k : Nat) :
    report? (s, l + k) = (report? (s, l)).map (Diagnostic.mapLine (· + k)) := by
  rw [report?, report?, Option.map_map]
  rfl

/-- **Scanning is compositional at line ends.** If no string of `a` stays open,
the tokens of `a`, a newline and `b` are the tokens of `a` but for its end and
then the tokens of `b`, as many lines further down as `a` and the newline take;
and so are the mistakes. -/
theorem scan_newline {a b : String}
    (ha : ∀ d ∈ (scan a).errors, d.code ≠ .unterminatedString) :
    ∃ body, (scan a).tokens = body ++ [⟨.eof, 1 + a.toList.count '\n'⟩]
      ∧ (scan (a ++ "\n" ++ b)).tokens
        = body ++ (scan b).tokens.map
          (Token.mapLine (· + (1 + a.toList.count '\n')))
      ∧ (scan (a ++ "\n" ++ b)).errors
        = (scan a).errors ++ (scan b).errors.map
          (Diagnostic.mapLine (· + (1 + a.toList.count '\n'))) := by
  obtain ⟨k, hk⟩ : ∃ k, k = 1 + a.toList.count '\n' := ⟨_, rfl⟩
  have htext : (a ++ "\n" ++ b).toList = a.toList ++ '\n' :: b.toList := by
    simp
  have hend : 1 + (a ++ "\n" ++ b).toList.count '\n'
      = 1 + b.toList.count '\n' + k := by
    rw [htext, List.count_append, List.count_cons_self]
    omega
  -- the slices of the whole, on their lines
  have hplaced : placed newlines 1 (slices (a ++ "\n" ++ b).toList)
      = placed newlines 1 (slices a.toList) ++ (⟨.newline, ['\n']⟩, k)
        :: (placed newlines 1 (slices b.toList)).map (Prod.map id (· + k)) := by
    have hone : newlines ⟨.newline, ['\n']⟩ = 1 := rfl
    rw [htext, slices_newline (closed_of_scan ha), placed_append,
      newlines_slices, ← hk, placed, hone, Nat.add_comm k 1, placed_add]
  rw [← hk]
  refine ⟨(placed newlines 1 (slices a.toList)).filterMap token?, ?_, ?_, ?_⟩
  · rw [hk]
    exact scan_tokens a
  · rw [scan_tokens, hplaced, hend, scan_tokens b, List.filterMap_append,
      List.filterMap_cons, filterMap_add fun s l => token?_add s l k,
      List.map_append]
    simp [token?, reading, Reading.lexeme?, Token.mapLine]
  · rw [scan_errors, hplaced, scan_errors a, scan_errors b,
      List.filterMap_append, List.filterMap_cons,
      filterMap_add fun s l => report?_add s l k]
    rfl

/-- The first line ends in an illegal character. -/
theorem scan_newline_illegal :
    (∀ d ∈ (scan "x 1e $").errors, d.code ≠ .unterminatedString)
      ∧ ∃ body, (scan "x 1e $").tokens
          = body ++ [⟨.eof, 1 + "x 1e $".toList.count '\n'⟩]
        ∧ (scan ("x 1e $" ++ "\n" ++ "y")).tokens
          = body ++ (scan "y").tokens.map
            (Token.mapLine (· + (1 + "x 1e $".toList.count '\n')))
        ∧ (scan ("x 1e $" ++ "\n" ++ "y")).errors
          = (scan "x 1e $").errors ++ (scan "y").errors.map
            (Diagnostic.mapLine (· + (1 + "x 1e $".toList.count '\n'))) := by
  have hclosed : ∀ d ∈ (scan "x 1e $").errors, d.code ≠ .unterminatedString := by
    decide +kernel
  exact ⟨hclosed, scan_newline hclosed⟩

end MatrixLang
