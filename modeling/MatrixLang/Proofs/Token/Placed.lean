import Mathlib.Algebra.GroupWithZero.Nat
import MatrixLang.Proofs.Lines
import MatrixLang.Proofs.Token.Slices
import MatrixLang.Token.Scan

/-!
# Slices on their lines

A scan reads every slice by itself, on the line that the newlines before it lead
to (`placed`). So its tokens are what the placed slices give, and after them the
end of the input; and so are its mistakes (`Scan.ofSlices_eq`).
An open string is the mistake E0003, and nothing else is (`exists_open_iff`).
-/

namespace MatrixLang

/-! ## Lines -/

section

variable {α β : Type} {newlines : α → Nat}

variable (newlines) in
/-- Pieces of a text and the lines that they start on. -/
def placed (line : Nat) : List α → List (α × Nat)
  | [] => []
  | a :: rest => (a, line) :: placed (line + newlines a) rest

theorem placed_append (line : Nat) (as bs : List α) :
    placed newlines line (as ++ bs)
      = placed newlines line as
        ++ placed newlines (line + (as.map newlines).sum) bs := by
  induction as generalizing line with
  | nil => rfl
  | cons a as ih =>
      rw [List.cons_append, placed, placed, ih, List.map_cons, List.sum_cons,
        Nat.add_assoc, List.cons_append]

/-- Pieces that start further down. -/
theorem placed_add (line k : Nat) (as : List α) :
    placed newlines (line + k) as
      = (placed newlines line as).map (Prod.map id (· + k)) := by
  induction as generalizing line with
  | nil => rfl
  | cons a as ih =>
      rw [placed, placed, List.map_cons, ← ih, Nat.add_right_comm]
      rfl

/-- Other pieces with the same newlines are on the same lines. -/
theorem placed_map {g : α → β} {newlines' : β → Nat} {as : List α}
    (h : ∀ a ∈ as, newlines' (g a) = newlines a) (line : Nat) :
    placed newlines' line (as.map g)
      = (placed newlines line as).map (Prod.map g id) := by
  induction as generalizing line with
  | nil => rfl
  | cons a as ih =>
      obtain ⟨ha, has⟩ := List.forall_mem_cons.mp h
      rw [List.map_cons, placed, placed, List.map_cons, ha, ih has]
      rfl

theorem map_fst_placed (line : Nat) (as : List α) :
    (placed newlines line as).map Prod.fst = as := by
  induction as generalizing line with
  | nil => rfl
  | cons a as ih => rw [placed, List.map_cons, ih]

end

theorem newlines_slices (cs : List Char) :
    ((slices cs).map Slice.newlines).sum = cs.count '\n' := by
  have hcount := List.count_flatMap (x := '\n') (f := Slice.text)
    (l := slices cs)
  rw [slices_texts] at hcount
  exact hcount.symm

/-! ## What slices give -/

namespace Reading

def lexeme? : Reading → Option Lexeme
  | .lexeme l => some l
  | .nothing | .problem _ => none

def problem? : Reading → Option Problem
  | .problem p => some p
  | .nothing | .lexeme _ => none

end Reading

namespace Slice

def token? (p : Slice × Nat) : Option Token :=
  p.1.reading.lexeme?.map fun l => ⟨l, p.2⟩

def report? (p : Slice × Nat) : Option Diagnostic :=
  p.1.reading.problem?.map fun problem => problem.onLine p.2

end Slice

theorem Scan.ofSlices_eq (line : Nat) (ss : List Slice) :
    ofSlices line ss
      = ⟨(placed Slice.newlines line ss).filterMap Slice.token?
            ++ [⟨.eof, line + (ss.map Slice.newlines).sum⟩],
          (placed Slice.newlines line ss).filterMap Slice.report?⟩ := by
  induction ss generalizing line with
  | nil => rfl
  | cons s ss ih =>
      rw [ofSlices, ih, placed, List.map_cons, List.sum_cons, Nat.add_assoc]
      simp only [List.filterMap_cons, Slice.token?, Slice.report?]
      cases s.reading <;> rfl

/-- Slices in two parts: of the first part's tokens all but the end of the input stay. -/
theorem Scan.ofSlices_append (line : Nat) (fore aft : List Slice) :
    ofSlices line (fore ++ aft)
      = ⟨(ofSlices line fore).tokens.dropLast
            ++ (ofSlices (line + (fore.map Slice.newlines).sum) aft).tokens,
          (ofSlices line fore).errors
            ++ (ofSlices (line + (fore.map Slice.newlines).sum) aft).errors⟩ := by
  simp only [ofSlices_eq, placed_append, List.filterMap_append, List.dropLast_concat,
    List.map_append, List.sum_append, List.append_assoc, Nat.add_assoc]

theorem scan_tokens (source : String) :
    (scan source).tokens
      = (placed Slice.newlines 1 (slices source.toList)).filterMap Slice.token?
        ++ [⟨.eof, 1 + source.toList.count '\n'⟩] := by
  rw [scan, scanChars, Scan.ofSlices_eq, newlines_slices]

theorem scan_errors (source : String) :
    (scan source).errors
      = (placed Slice.newlines 1 (slices source.toList)).filterMap Slice.report? := by
  rw [scan, scanChars, Scan.ofSlices_eq]

/-! ## Open strings -/

/-- E0003 is what open strings are. -/
theorem Slice.code_of_problem? {s : Slice} {p : Problem} (h : s.reading.problem? = some p) :
    p.code = .unterminatedString ↔ s.cls = .openString := by
  obtain ⟨cls, text⟩ := s
  cases cls with
  | openString =>
      cases h
      exact ⟨fun _ => rfl, fun _ => rfl⟩
  | illegal =>
      cases h
      exact iff_of_false (by simp [Problem.code]) (by simp)
  | word =>
      simp only [reading] at h
      split at h <;> cases h
  | int =>
      simp only [reading] at h
      split at h <;> cases h
      exact iff_of_false (by simp [Problem.code]) (by simp)
  | _ => cases h

/-- E0003 is reported if and only if there is an open string. -/
theorem exists_open_iff {source : String} :
    (∃ d ∈ (scan source).errors, d.code = .unterminatedString)
      ↔ ∃ s ∈ slices source.toList, s.cls = .openString := by
  have hslices := @map_fst_placed _ Slice.newlines 1 (slices source.toList)
  rw [scan_errors]
  constructor
  · rintro ⟨d, hd, hcode⟩
    obtain ⟨⟨s, l⟩, hs, hd⟩ := List.mem_filterMap.mp hd
    obtain ⟨p, hp, rfl⟩ := Option.map_eq_some_iff.mp hd
    refine ⟨s, ?_, (Slice.code_of_problem? hp).mp hcode⟩
    rw [← hslices]
    exact List.mem_map_of_mem hs
  · rintro ⟨s, hs, hopen⟩
    rw [← hslices] at hs
    obtain ⟨⟨s, l⟩, hplaced, rfl⟩ := List.mem_map.mp hs
    have hreport : Slice.report? (s, l) = some (Problem.unterminatedString.onLine l) := by
      simp only [Slice.report?, Slice.reading, show s.cls = .openString from hopen]
      rfl
    exact ⟨_, List.mem_filterMap.mpr ⟨(s, l), hplaced, hreport⟩, rfl⟩

end MatrixLang
