import MatrixLang.Proofs.Token.Breaks
import MatrixLang.Proofs.Token.LineNumbers

/-!
# Scanning undoes spelling

How lexemes are written: names, numbers and fixed texts as messages show them, and
strings between quotes with their backslashes and quotes escaped
(`Lexeme.Spelling`). What is written for one lexeme is as a whole a match of a
pattern, so it is one slice (`slices_of_mem`), and reading the slice gives the
lexeme back (`Lexeme.Spelling.pattern`). Spaces keep the slices apart, so by
induction on the lexemes a text of many of them is scanned into what it was written
for (`scan_spelled`).
-/

namespace MatrixLang

open Slice

variable {c : Char} {cs u us : List Char} {l : Lexeme}

/-! ## Strings -/

/-- What may be written for a character in a string. -/
inductive CharSpelling : Char → List Char → Prop
  | backslash : CharSpelling '\\' ['\\', '\\']
  | quote : CharSpelling '"' ['\\', '"']
  | newline : CharSpelling '\n' ['\\', 'n']
  | tab : CharSpelling '\t' ['\\', 't']
  | raw {c : Char} : c ≠ '\\' → c ≠ '"' → CharSpelling c [c]

theorem exists_charSpelling (c : Char) : ∃ u, CharSpelling c u := by
  by_cases hbackslash : c = '\\'
  · subst hbackslash
    exact ⟨_, .backslash⟩
  by_cases hquote : c = '"'
  · subst hquote
    exact ⟨_, .quote⟩
  exact ⟨_, .raw hbackslash hquote⟩

theorem CharSpelling.decode (h : CharSpelling c u) (us : List Char) :
    Escape.decode (u ++ us) = c :: Escape.decode us := by
  cases h with
  | raw hbackslash _ => exact Escape.decode_cons_of_ne hbackslash us
  | _ => exact Escape.decode_escape rfl us

theorem CharSpelling.quotable (h : CharSpelling c u) (hus : Quotable us) :
    Quotable (u ++ us) := by
  cases h with
  | raw hbackslash hquote => exact .plain hquote hbackslash hus
  | _ => exact .escape _ hus

/-- What is written for the characters of a string may stand in a string and is
decoded to them. -/
theorem decode_spelled {parts : List (List Char)}
    (h : List.Forall₂ CharSpelling cs parts) :
    Quotable parts.flatten ∧ Escape.decode parts.flatten = cs := by
  induction h with
  | nil => exact ⟨.nil, Escape.decode_nil⟩
  | cons hc _ ih =>
      rw [List.flatten_cons]
      exact ⟨hc.quotable ih.1, by rw [hc.decode, ih.2]⟩

/-! ## Lexemes -/

namespace Lexeme

/-- The lexemes that can be written: all but floats, numbers below zero, the end of
the input and names that are none. -/
def Writable : Lexeme → Prop
  | .int n => 0 ≤ n.toInt
  | .ident name => name.toList ∈ Pattern.ident.language ∧ ∀ k : Keyword, name ≠ k.text
  | .str _ | .word _ | .symbol _ => True
  | .float _ | .eof => False

/-- What may be written for a lexeme. -/
def Spelling : Lexeme → List Char → Prop
  | .str s, u => ∃ parts, List.Forall₂ CharSpelling s.toList parts
      ∧ u = '"' :: (parts.flatten ++ ['"'])
  | l, u => u = l.text.toList

theorem exists_spelling (l : Lexeme) : ∃ u, l.Spelling u := by
  cases l with
  | str s =>
      have hparts : ∃ parts, List.Forall₂ CharSpelling s.toList parts := by
        induction s.toList with
        | nil => exact ⟨[], .nil⟩
        | cons c cs ih =>
            obtain ⟨u, hu⟩ := exists_charSpelling c
            obtain ⟨parts, hparts⟩ := ih
            exact ⟨u :: parts, .cons hu hparts⟩
      obtain ⟨parts, hparts⟩ := hparts
      exact ⟨_, parts, hparts, rfl⟩
  | _ => exact ⟨_, rfl⟩

end Lexeme

theorem Keyword.ofChars?_eq_none {name : String} (h : ∀ k : Keyword, name ≠ k.text) :
    Keyword.ofChars? name.toList = none := by
  cases hk : Keyword.ofChars? name.toList with
  | none => rfl
  | some k =>
      refine absurd ?_ (h k)
      rw [Keyword.text, Keyword.chars_ofChars? hk, String.ofList_toList]

/-- The digits of a number that is not negative. -/
theorem toString_toInt {n : Int64} (h : 0 ≤ n.toInt) :
    ∃ m : Nat, (toString n.toInt).toList = Nat.toDigits 10 m ∧ n = Int64.ofNat m
      ∧ (m : Int) ≤ Int64.maxValue.toInt := by
  obtain ⟨m, hm⟩ := Int.eq_ofNat_of_zero_le h
  refine ⟨m, ?_, ?_, ?_⟩
  · rw [hm]
    exact String.toList_ofList
  · rw [← Int64.ofInt_toInt n, hm]
    rfl
  · rw [← hm]
    exact Int64.toInt_le n

/-- What is written for a lexeme matches a pattern that a space ends, and is read as
the lexeme. -/
theorem Lexeme.Spelling.pattern (hl : l.Writable) (hu : l.Spelling u) :
    ∃ p : Pattern, u ∈ p.language ∧ p.cls.endsAt ' ' = true
      ∧ (⟨p.cls, u⟩ : Slice).reading = .lexeme l := by
  cases l with
  | int n =>
      obtain ⟨m, hdigits, rfl, hm⟩ := toString_toInt hl
      obtain rfl : u = Nat.toDigits 10 m := hu.trans hdigits
      have hvalue : Decimal.ofDigits (Nat.toDigits 10 m) = m :=
        Nat.ofDigitChars_ten_toDigits
      refine ⟨.int, mem_int.mpr ⟨Nat.toDigits_ne_nil, fun d hd => ?_⟩, rfl, ?_⟩
      · exact Nat.isDigit_of_mem_toDigits (by decide) (by decide) hd
      · simp only [reading, Pattern.cls, hvalue, if_pos hm]
  | float x => exact hl.elim
  | str s =>
      obtain ⟨parts, hparts, rfl⟩ := hu
      obtain ⟨hquotable, hdecode⟩ := decode_spelled hparts
      refine ⟨.string, mem_string.mpr ⟨_, rfl, hquotable⟩, rfl, ?_⟩
      simp only [reading, Pattern.cls, List.drop_succ_cons, List.drop_zero,
        List.dropLast_concat, hdecode, String.ofList_toList]
  | ident name =>
      obtain rfl : u = name.toList := hu
      refine ⟨.ident, hl.1, rfl, ?_⟩
      simp only [reading, Pattern.cls, Keyword.ofChars?_eq_none hl.2, String.ofList_toList]
  | word k =>
      obtain rfl : u = k.chars := hu.trans String.toList_ofList
      refine ⟨.word k, rfl, rfl, ?_⟩
      simp only [reading, Pattern.cls, Keyword.ofChars?_chars]
  | symbol s =>
      obtain rfl : u = s.chars := hu.trans String.toList_ofList
      exact ⟨.symbol s, rfl, rfl, rfl⟩
  | eof => exact hl.elim

/-! ## Slices -/

/-- A text that is a match as a whole is one slice. -/
theorem slices_of_mem {p : Pattern} (hu : c :: cs ∈ p.language) :
    slices (c :: cs) = [⟨p.cls, c :: cs⟩] := by
  have hwins := first_wins hu List.prefix_rfl
  have hlen : (c :: cs).length = (first c cs).text.length :=
    Nat.le_antisymm hwins.length (first_front c cs).length_le
  have htext : (first c cs).text = c :: cs := (eq_of_length List.prefix_rfl hlen).symm
  have hcls : (first c cs).cls = p.cls := by
    rcases hwins.same hlen with hsome | ⟨rfl, k, hsome⟩ <;> rw [cls_eq, hsome] <;> rfl
  have hsplit : c :: cs = (first c cs).text ++ [] := by rw [htext, List.append_nil]
  rw [slices_append_first hsplit, slices_nil, ← hcls, ← htext]

theorem Pattern.ne_nil {p : Pattern} (hu : u ∈ p.language) : u ≠ [] := by
  rintro rfl
  cases p with
  | blank => exact (mem_blank.mp hu).1 rfl
  | comment =>
      obtain ⟨ds, hds, -⟩ := mem_comment.mp hu
      cases hds
  | newline => cases hu
  | word k => cases k <;> cases hu
  | symbol s => exact s.chars_ne_nil hu.symm
  | float =>
      obtain ⟨w, f, x, hnil, hparts⟩ := mem_float.mp hu
      rw [eq_comm, List.append_eq_nil_iff, List.append_eq_nil_iff] at hnil
      obtain ⟨⟨rfl, rfl⟩, -⟩ := hnil
      exact hparts.digits.elim (fun hw => hw rfl) nofun
  | int => exact (mem_int.mp hu).1 rfl
  | string =>
      obtain ⟨body, hbody, -⟩ := mem_string.mp hu
      cases hbody
  | openString =>
      obtain ⟨body, hbody, -⟩ := mem_opened.mp hu
      cases hbody
  | ident =>
      obtain ⟨d, ds, hds, -⟩ := mem_ident.mp hu
      cases hds

/-- What is written for a lexeme is one slice. -/
theorem Lexeme.Spelling.slice (hl : l.Writable) (hu : l.Spelling u) :
    ∃ s : Slice, slices u = [s] ∧ s.text = u ∧ s.cls.endsAt ' ' = true
      ∧ s.reading = .lexeme l := by
  obtain ⟨p, hp, hends, hreading⟩ := hu.pattern hl
  obtain ⟨c, cs, rfl⟩ := List.exists_cons_of_ne_nil (Pattern.ne_nil hp)
  exact ⟨_, slices_of_mem hp, rfl, hends, hreading⟩

/-! ## Scans -/

/-- A slice at the front of a text, with what it gives. -/
theorem scanChars_first {s : Slice} {rest : List Char}
    (h : slices cs = s :: slices rest) (line : Nat) :
    scanChars line cs = Scan.before s.reading line (scanChars (line + s.newlines) rest) := by
  rw [scanChars, h, Scan.ofSlices, scanChars]

theorem scanChars_blank (hc : isBlank c = true) (line : Nat) (cs : List Char) :
    scanChars line (c :: cs) = scanChars line (cs.dropWhile isBlank) := by
  have hfirst := first_blank hc cs
  have hsplit : c :: cs = (first c cs).text ++ cs.dropWhile isBlank := by
    rw [hfirst, List.cons_append, List.takeWhile_append_dropWhile]
  have hnone : (first c cs).newlines = 0 := by
    refine List.count_eq_zero.mpr (Pattern.newline_not_mem (p := .blank) ?_ rfl)
    exact first_matches (by rw [hfirst]; rfl)
  rw [scanChars_first (slices_append_first hsplit), hnone, Nat.add_zero, hfirst]
  rfl

/-- A space at the front of a text gives nothing. -/
theorem scanChars_space (line : Nat) (cs : List Char) :
    scanChars line (' ' :: cs) = scanChars line cs := by
  rw [scanChars_blank rfl]
  cases cs with
  | nil => rfl
  | cons c cs =>
      cases hc : isBlank c with
      | true => rw [scanChars_blank hc, List.dropWhile_cons_of_pos hc]
      | false => rw [List.dropWhile_cons_of_neg (Bool.eq_false_iff.mp hc)]

/-- What is written for a lexeme at the front of a text gives the lexeme. -/
theorem Lexeme.Spelling.scanChars (hl : l.Writable) (hu : l.Spelling u) (line : Nat)
    (texts : List (List Char)) :
    MatrixLang.scanChars line ([' '].intercalate (u :: texts))
      = Scan.before (.lexeme l) line
          (MatrixLang.scanChars (line + u.count '\n') ([' '].intercalate texts)) := by
  obtain ⟨s, hslices, rfl, hends, hreading⟩ := hu.slice hl
  rw [← hreading]
  cases texts with
  | nil =>
      refine scanChars_first ?_ line
      rw [List.intercalate_singleton, hslices, List.intercalate_nil, slices_nil]
  | cons v texts =>
      rw [List.intercalate_cons_cons, ← scanChars_space _ ([' '].intercalate (v :: texts))]
      refine scanChars_first ?_ line
      have hall : ∀ r ∈ slices s.text, r.cls.endsAt ' ' = true := by
        rw [hslices]
        exact List.forall_mem_singleton.mpr hends
      rw [List.append_assoc, List.singleton_append, slices_append_break hall, hslices,
        List.singleton_append]

/-- What is written for lexemes gives the lexemes, on the lines that they are written
on. -/
theorem scanChars_spelled {ls : List Lexeme} {texts : List (List Char)}
    (hls : ∀ l ∈ ls, l.Writable) (h : List.Forall₂ Lexeme.Spelling ls texts) (line : Nat) :
    scanChars line ([' '].intercalate texts)
      = ⟨(ls ++ [Lexeme.eof]).mapIdx fun i l => ⟨l, line + (texts.take i).flatten.count '\n'⟩,
          []⟩ := by
  induction h generalizing line with
  | nil =>
      rw [List.intercalate_nil, scanChars, slices_nil]
      rfl
  | @cons l u ls texts hu _ ih =>
      obtain ⟨hl, hls⟩ := List.forall_mem_cons.mp hls
      rw [hu.scanChars hl, ih hls]
      simp only [Scan.before, List.cons_append, List.mapIdx_cons, List.take_zero,
        List.flatten_nil, List.count_nil, Nat.add_zero, List.take_succ_cons,
        List.flatten_cons, List.count_append, Nat.add_assoc]

/-- **Scanning undoes spelling.** Lexemes that can be written, in any number, are
written in some way; and however they are written, with spaces between them, the text
has no mistake in it and its tokens are these lexemes and the end of the input, each on
the line to which the newlines written before it lead. A counter of 32 bits finds the
same lines, unless the newlines are more than it can count. -/
theorem scan_spelled {ls : List Lexeme} (hls : ∀ l ∈ ls, l.Writable) :
    (∃ texts, List.Forall₂ Lexeme.Spelling ls texts)
      ∧ ∀ texts, List.Forall₂ Lexeme.Spelling ls texts →
        (scan (String.ofList ([' '].intercalate texts))).errors = []
          ∧ (scan (String.ofList ([' '].intercalate texts))).tokens
            = ((ls ++ [Lexeme.eof]).mapIdx fun i l =>
                ⟨l, 1 + (texts.take i).flatten.count '\n'⟩)
          ∧ (([' '].intercalate texts).count '\n' < UInt32.size - 1 →
            Scan.counted? 1 (slices ([' '].intercalate texts))
              = some (scan (String.ofList ([' '].intercalate texts)))) := by
  refine ⟨?_, fun texts htexts => ?_⟩
  · clear hls
    induction ls with
    | nil => exact ⟨[], .nil⟩
    | cons l ls ih =>
        obtain ⟨u, hu⟩ := l.exists_spelling
        obtain ⟨texts, htexts⟩ := ih
        exact ⟨u :: texts, .cons hu htexts⟩
  · have hscan := scanChars_spelled hls htexts 1
    rw [scan, String.toList_ofList, hscan]
    refine ⟨rfl, rfl, fun hfew => ?_⟩
    rw [← @String.toList_ofList ([' '].intercalate texts)] at hfew
    have hcounted := counted?_scan hfew
    rwa [scan, String.toList_ofList, hscan] at hcounted

/-- A keyword, a name that begins with it, the greatest number, a string that ends in a
backslash, and an operator. -/
def sampleLexemes : List Lexeme :=
  [.word .if_, .ident "iff", .int 9223372036854775807, .str "a\n\n\"\\", .symbol .dotMul]

/-- Of the newlines in the string the first one is escaped and the second one is not. -/
def sampleTexts : List (List Char) :=
  [['i', 'f'], ['i', 'f', 'f'], "9223372036854775807".toList,
    ['"', 'a', '\\', 'n', '\n', '\\', '"', '\\', '\\', '"'], ['.', '*']]

theorem scan_spelled_sample :
    (∀ l ∈ sampleLexemes, l.Writable)
      ∧ List.Forall₂ Lexeme.Spelling sampleLexemes sampleTexts
      ∧ (scan (String.ofList ([' '].intercalate sampleTexts))).errors = []
      ∧ (scan (String.ofList ([' '].intercalate sampleTexts))).tokens
        = [⟨.word .if_, 1⟩, ⟨.ident "iff", 1⟩, ⟨.int 9223372036854775807, 1⟩,
            ⟨.str "a\n\n\"\\", 1⟩, ⟨.symbol .dotMul, 2⟩, ⟨.eof, 2⟩]
      ∧ Scan.counted? 1 (slices ([' '].intercalate sampleTexts))
        = some (scan (String.ofList ([' '].intercalate sampleTexts))) := by
  have hwritable : ∀ l ∈ sampleLexemes, l.Writable := by
    have hname : (Lexeme.ident "iff").Writable :=
      ⟨mem_ident.mpr ⟨'i', ['f', 'f'], rfl, rfl, List.all_eq_true.mp rfl⟩,
        fun k => by cases k <;> decide⟩
    have hnumber : (Lexeme.int 9223372036854775807).Writable :=
      show 0 ≤ Int64.toInt 9223372036854775807 by decide +kernel
    simp only [sampleLexemes, List.forall_mem_cons]
    exact ⟨trivial, hname, hnumber, trivial, trivial, nofun⟩
  have hspelled : List.Forall₂ Lexeme.Spelling sampleLexemes sampleTexts := by
    refine .cons rfl (.cons rfl (.cons ?_ (.cons ?_ (.cons rfl .nil))))
    · show _ = (toString (Int64.toInt 9223372036854775807)).toList
      decide +kernel
    · exact ⟨_, .cons (.raw (by decide) (by decide)) (.cons .newline
        (.cons (.raw (by decide) (by decide)) (.cons .quote (.cons .backslash .nil)))), rfl⟩
  obtain ⟨-, hundone⟩ := scan_spelled hwritable
  obtain ⟨herrors, htokens, hcounted⟩ := hundone _ hspelled
  refine ⟨hwritable, hspelled, herrors, ?_, hcounted (by decide +kernel)⟩
  rw [htokens]
  rfl

end MatrixLang
