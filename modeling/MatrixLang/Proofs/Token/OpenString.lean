import MatrixLang.Proofs.Token.LineNumbers

/-!
# Open strings

A string goes to the first quote behind its opening quote that is not escaped
(`FirstQuote`). Where there is none, it is open and goes to the end of the text, or to
a backslash there that has nothing to escape (`stringRest_open`); so behind an open
string at most that backslash is left (`slices_open`). By induction on the slices, those
in front of it are the slices of the text in front of it alone (`slices_cut`): what a
scan gives but for the open string, the backslash and the end of the input is the scan
of that text (`EndsOpen`).
-/

namespace MatrixLang

open Slice

variable {c : Char} {cs us rest : List Char} {s : Slice} {fore aft : List Slice}

/-! ## Escaped characters -/

/-- Is a character escaped that this text stands in front of: does the text end in a
backslash that is not escaped itself? -/
def escapes (us : List Char) : Bool :=
  us.foldl (fun escaped c => !escaped && c = '\\') false

theorem escapes_plain (h : c ≠ '\\') (us : List Char) : escapes (c :: us) = escapes us := by
  simp only [escapes, List.foldl_cons, Bool.not_false, Bool.true_and, decide_eq_false h]

theorem escapes_escape (c : Char) (us : List Char) :
    escapes ('\\' :: c :: us) = escapes us := rfl

/-- The first quote of a text that is not escaped stands between `body` and `tail`. -/
structure FirstQuote (rest body tail : List Char) : Prop where
  split : rest = body ++ '"' :: tail
  unescaped : escapes body = false
  first : ∀ b t, body = b ++ '"' :: t → escapes b = true

/-- What may stand in a string escapes nothing behind it and every quote in it. -/
theorem Quotable.escapes (h : Quotable us) :
    MatrixLang.escapes us = false
      ∧ ∀ b t, us = b ++ '"' :: t → MatrixLang.escapes b = true := by
  induction h with
  | nil => exact ⟨rfl, fun b t hsplit => by cases b <;> cases hsplit⟩
  | plain hquote hbackslash _ ih =>
      refine ⟨(escapes_plain hbackslash _).trans ih.1, fun b t hsplit => ?_⟩
      cases b with
      | nil => exact absurd (List.cons.inj hsplit).1 hquote
      | cons d b =>
          cases hsplit
          exact (escapes_plain hbackslash b).trans (ih.2 b t rfl)
  | escape c _ ih =>
      refine ⟨(escapes_escape c _).trans ih.1, fun b t hsplit => ?_⟩
      match b with
      | [] => cases hsplit
      | [_] =>
          cases hsplit
          rfl
      | _ :: _ :: b =>
          cases hsplit
          exact (escapes_escape c b).trans (ih.2 b t rfl)

/-- An open string goes to the end of the text or to a backslash there. -/
theorem stringRest_open (h : (stringRest cs).1 = false) :
    Quotable (stringRest cs).2
      ∧ (cs = (stringRest cs).2 ∨ cs = (stringRest cs).2 ++ ['\\']) := by
  induction cs using string_induct with
  | nil => exact ⟨.nil, .inl rfl⟩
  | quote cs =>
      rw [stringRest_quote] at h
      cases h
  | backslash =>
      rw [stringRest_backslash]
      exact ⟨.nil, .inr rfl⟩
  | escape c cs ih =>
      rw [stringRest_escape] at h ⊢
      obtain ⟨hquotable, hcs⟩ := ih h
      exact ⟨.escape c hquotable, hcs.imp (congrArg ('\\' :: c :: ·)) (congrArg ('\\' :: c :: ·))⟩
  | plain c cs hquote hbackslash ih =>
      rw [stringRest_plain hquote hbackslash] at h ⊢
      obtain ⟨hquotable, hcs⟩ := ih h
      exact ⟨.plain hquote hbackslash hquotable, hcs.imp (congrArg (c :: ·)) (congrArg (c :: ·))⟩

/-- A closed string goes to the first quote that is not escaped. -/
theorem stringRest_closed (h : (stringRest cs).1 = true) :
    ∃ body tail, FirstQuote cs body tail ∧ (stringRest cs).2 = body ++ ['"'] := by
  rcases stringRest_cases cs with ⟨body, hbody, hread⟩ | ⟨body, -, hread⟩
  · obtain ⟨tail, htail⟩ := stringRest_front cs
    rw [hread, List.append_assoc] at htail
    exact ⟨body, tail, ⟨htail.symm, hbody.escapes.1, hbody.escapes.2⟩, by rw [hread]⟩
  · rw [hread] at h
    cases h

/-- A quote that is not escaped closes the string, if none in front of it does. -/
theorem closed_of_unescaped {body tail : List Char} (hsplit : cs = body ++ '"' :: tail)
    (h : escapes body = false) : (stringRest cs).1 = true := by
  by_contra hopen
  obtain ⟨hquotable, hcs⟩ := stringRest_open (Bool.eq_false_iff.mpr hopen)
  -- the quote is in what was read of the string
  have hread : ∃ t, (stringRest cs).2 = body ++ '"' :: t := by
    rcases hcs with hcs | hcs
    · exact ⟨tail, hcs.symm.trans hsplit⟩
    · have hsame := hcs.symm.trans hsplit
      rcases List.eq_nil_or_concat tail with rfl | ⟨t, d, rfl⟩
      · cases (List.append_inj' hsame rfl).2
      · rw [List.concat_eq_append, ← List.cons_append, ← List.append_assoc] at hsame
        exact ⟨t, (List.append_inj' hsame rfl).1⟩
  obtain ⟨t, ht⟩ := hread
  rw [hquotable.escapes.2 body t ht] at h
  cases h

/-! ## Slices in front and behind -/

/-- A slice stays the first one as long as the text has the slice in it. -/
theorem first_of_prefix {ds : List Char} (hfront : c :: ds <+: c :: cs)
    (htext : (first c cs).text <+: c :: ds) : first c ds = first c cs := by
  have hsame : (first c ds).text = (first c cs).text
      ∧ (first c ds).pattern? = (first c cs).pattern? := by
    cases hp : (first c cs).pattern? with
    | some p =>
        have hlongest := first_longest hp
        have hshort : Longest (c :: ds) p (first c cs).text :=
          ⟨hlongest.matched, hlongest.ne_nil, htext,
            fun q v hv hvs => hlongest.longest q v hv (hvs.trans hfront), hlongest.keyword⟩
        exact ⟨hshort.eq_first.1.symm, hshort.eq_first.2⟩
    | none =>
        cases hq : (first c ds).pattern? with
        | some q =>
            exact absurd (eq_nil_of_illegal hp (first_matches hq)
              ((first_front c ds).trans hfront)) (first_ne_nil c ds)
        | none => exact ⟨(first_illegal hq).trans (first_illegal hp).symm, rfl⟩
  rw [Slice.mk.injEq, cls_eq, cls_eq (first c cs)]
  exact ⟨by rw [hsame.2], hsame.1⟩

/-- The first slice is taken as well when less text is behind it. -/
theorem slices_first_append {pre : List Char} (hrest : c :: cs = (first c cs).text ++ rest)
    (hpre : pre <+: rest) :
    slices ((first c cs).text ++ pre) = first c cs :: slices pre := by
  obtain ⟨us, hus⟩ := first_head c cs
  have hsplit : c :: (us ++ pre) = (first c cs).text ++ pre := by rw [hus, List.cons_append]
  have hsame : first c (us ++ pre) = first c cs := by
    refine first_of_prefix ?_ ?_ <;> rw [hsplit]
    · rw [hrest]
      exact (List.prefix_append_right_inj _).mpr hpre
    · exact List.prefix_append _ _
  rw [← hsplit, slices_append_first (hsame ▸ hsplit), hsame]

/-- The slices on each side of a cut are those of the text on that side. -/
theorem slices_cut (h : slices cs = fore ++ aft) :
    slices (fore.flatMap text) = fore ∧ slices (aft.flatMap text) = aft := by
  induction cs using slices_induct generalizing fore with
  | nil =>
      rw [slices_nil, eq_comm, List.append_eq_nil_iff] at h
      obtain ⟨rfl, rfl⟩ := h
      exact ⟨slices_nil, slices_nil⟩
  | cons c cs rest hrest ih =>
      cases fore with
      | nil =>
          rw [List.nil_append] at h
          rw [← h, slices_texts]
          exact ⟨slices_nil, rfl⟩
      | cons s fore =>
          rw [slices_append_first hrest, List.cons_append] at h
          obtain ⟨rfl, hbehind⟩ := List.cons.inj h
          obtain ⟨hfore, haft⟩ := ih hbehind
          have hprefix : fore.flatMap text <+: rest := by
            rw [← slices_texts rest, hbehind, List.flatMap_append]
            exact List.prefix_append _ _
          rw [List.flatMap_cons, slices_first_append hrest hprefix, hfore]
          exact ⟨rfl, haft⟩

/-- A text that begins with an open string is that string, and perhaps a backslash. -/
theorem first_open (h : (first c cs).cls = .openString) :
    c = '"' ∧ (c :: cs = (first c cs).text ∨ c :: cs = (first c cs).text ++ ['\\']) := by
  have hpattern : (first c cs).pattern? = some .openString := by simp only [pattern?, h]
  obtain ⟨body, hbody, -⟩ := mem_opened.mp (first_matches hpattern)
  obtain ⟨us, hus⟩ := first_head c cs
  obtain rfl : c = '"' := (List.cons.inj (hus.symm.trans hbody)).1
  rw [first_quote] at h ⊢
  have hopen : (stringRest cs).1 = false := by
    refine Bool.eq_false_iff.mpr fun hclosed => ?_
    simp only [string, hclosed] at h
    cases h
  obtain ⟨-, hcs⟩ := stringRest_open hopen
  exact ⟨rfl, hcs.imp (congrArg ('"' :: ·)) (congrArg ('"' :: ·))⟩

/-- Each slice is the first one of the text from its place on. -/
theorem slices_at (h : slices cs = fore ++ s :: aft) :
    ∃ c ds rest, cs = fore.flatMap text ++ c :: ds ∧ c :: ds = s.text ++ rest
      ∧ s = first c ds ∧ aft = slices rest := by
  have haft := (slices_cut h).2
  have hcs : cs = fore.flatMap text ++ (s :: aft).flatMap text := by
    rw [← List.flatMap_append, ← h, slices_texts]
  cases hbehind : (s :: aft).flatMap text with
  | nil =>
      rw [hbehind, slices_nil] at haft
      cases haft
  | cons c ds =>
      obtain ⟨rest, hrest⟩ := first_front c ds
      rw [hbehind, slices_append_first hrest.symm] at haft
      cases haft
      exact ⟨c, ds, rest, hbehind ▸ hcs, hrest.symm, rfl, rfl⟩

/-- An open string begins with a quote, and behind it is at most a backslash, at the
end of the text. -/
theorem slices_open (h : slices cs = fore ++ s :: aft) (hs : s.cls = .openString) :
    ∃ rest, cs = fore.flatMap text ++ '"' :: rest
      ∧ (aft = [] ∨ aft = [⟨.illegal, ['\\']⟩] ∧ ∃ front, cs = front ++ ['\\']) := by
  obtain ⟨c, ds, rest, hcs, hrest, rfl, rfl⟩ := slices_at h
  obtain ⟨rfl, htext⟩ := first_open hs
  refine ⟨ds, hcs, ?_⟩
  rcases htext with htext | htext
  · have hnil : rest = [] := by simpa using hrest.symm.trans htext
    exact .inl (by rw [hnil, slices_nil])
  · have hlast : rest = ['\\'] := List.append_cancel_left (hrest.symm.trans htext)
    refine .inr ⟨?_, _, hcs.trans (by rw [htext, ← List.append_assoc])⟩
    rw [hlast]
    cbv

/-- In front of an open string there is no other one. -/
theorem not_open_before (h : slices cs = fore ++ s :: aft) (hs : s.cls = .openString) :
    ∀ r ∈ fore, r.cls ≠ .openString := by
  intro r hr hopen
  obtain ⟨start, between, rfl⟩ := List.append_of_mem hr
  rw [List.append_assoc, List.cons_append] at h
  obtain ⟨-, -, hnil | ⟨hlast, -⟩⟩ := slices_open h hopen
  · exact List.append_ne_nil_of_right_ne_nil between (List.cons_ne_nil s aft) hnil
  · have hmem : s ∈ between ++ s :: aft := List.mem_append_right between List.mem_cons_self
    rw [hlast, List.mem_singleton] at hmem
    rw [hmem] at hs
    cases hs

/-! ## Scans -/

/-- Where E0003 is reported the text is cut at an open string. -/
theorem exists_open {source : String} {d : Diagnostic} (hd : d ∈ (scan source).errors)
    (hcode : d.code = .unterminatedString) :
    ∃ fore s aft, slices source.toList = fore ++ s :: aft ∧ s.cls = .openString := by
  obtain ⟨s, hs, hopen⟩ := exists_open_iff.mp ⟨d, hd, hcode⟩
  obtain ⟨fore, aft, hslices⟩ := List.append_of_mem hs
  exact ⟨fore, s, aft, hslices, hopen⟩

/-- A slice of the text begins at a quote, between `before` and `rest`. -/
structure Opens (source : String) (s : Slice) (before rest : List Char) : Prop where
  slice : (s, before) ∈ preceded [] (slices source.toList)
  quote : source.toList = before ++ '"' :: rest

/-- The scan of a text is that of the text before an open string, the open string and
perhaps a backslash behind it. -/
structure EndsOpen (source : String) (before : List Char) : Prop where
  tokens : (scan source).tokens
    = (scan (String.ofList before)).tokens.dropLast ++ [⟨.eof, lineAfter source.toList⟩]
  errors : ∃ trailing, (scan source).errors
      = (scan (String.ofList before)).errors
        ++ Problem.unterminatedString.onLine (lineAfter before) :: trailing
    ∧ (trailing = [] ∨ (∃ front, source.toList = front ++ ['\\'])
      ∧ trailing = [(Problem.illegalCharacter '\\').onLine (lineAfter source.toList)])

theorem reading_open (hs : s.cls = .openString) :
    s.reading = .problem .unterminatedString := by
  simp only [reading, hs]

theorem endsOpen {source : String} (h : slices source.toList = fore ++ s :: aft)
    (hs : s.cls = .openString) : EndsOpen source (fore.flatMap text) := by
  have hfore : slices (String.ofList (fore.flatMap text)).toList = fore := by
    rw [String.toList_ofList]
    exact (slices_cut h).1
  have hline : 1 + (fore.map newlines).sum = lineAfter (fore.flatMap text) := by
    rw [lineAfter, ← newlines_slices, (slices_cut h).1]
  -- a backslash behind the open string is on the last line
  have hend : lineAfter source.toList = lineAfter (fore.flatMap text) + s.newlines := by
    have haft : (aft.map newlines).sum = 0 := by
      obtain ⟨-, -, rfl | ⟨rfl, -⟩⟩ := slices_open h hs <;> rfl
    rw [lineAfter, ← newlines_slices, h, List.map_append, List.map_cons, List.sum_append,
      List.sum_cons, haft, ← hline]
    omega
  have hscan : scan source = ⟨(scan (String.ofList (fore.flatMap text))).tokens.dropLast
      ++ (Scan.ofSlices (lineAfter source.toList) aft).tokens,
      (scan (String.ofList (fore.flatMap text))).errors
        ++ Problem.unterminatedString.onLine (lineAfter (fore.flatMap text))
          :: (Scan.ofSlices (lineAfter source.toList) aft).errors⟩ := by
    rw [scan, scan, scanChars, scanChars, h, hfore, Scan.ofSlices_append, hline, Scan.ofSlices,
      reading_open hs, hend]
    rfl
  obtain ⟨-, -, rfl | ⟨rfl, hlast⟩⟩ := slices_open h hs
  · exact ⟨by rw [hscan]; rfl, [], by rw [hscan]; rfl, .inl rfl⟩
  · exact ⟨by rw [hscan]; rfl, _, by rw [hscan]; rfl, .inr ⟨hlast, rfl⟩⟩

/-- No open string is reported but the one at the end. -/
theorem errors_open {source : String} (h : slices source.toList = fore ++ s :: aft)
    (hs : s.cls = .openString) :
    ∃ others trailing, (scan source).errors
        = others ++ Problem.unterminatedString.onLine (lineAfter (fore.flatMap text))
          :: trailing
      ∧ ∀ d ∈ others ++ trailing, d.code ≠ .unterminatedString := by
  obtain ⟨trailing, herrors, htrailing⟩ := (endsOpen h hs).errors
  refine ⟨_, trailing, herrors, fun d hd hcode => ?_⟩
  rcases List.mem_append.mp hd with hd | hd
  · obtain ⟨start, r, between, hslices, hopen⟩ := exists_open hd hcode
    rw [String.toList_ofList, (slices_cut h).1] at hslices
    have hr : r ∈ fore := by
      rw [hslices]
      exact List.mem_append_right start List.mem_cons_self
    exact not_open_before h hs r hr hopen
  · rcases htrailing with rfl | ⟨-, rfl⟩
    · cases hd
    · rw [List.mem_singleton.mp hd] at hcode
      cases hcode

theorem Opens.eq_string {source : String} {before : List Char}
    (h : Opens source s before rest) : s = string rest := by
  obtain ⟨fore, aft, hslices, rfl⟩ := mem_preceded.mp h.slice
  obtain ⟨c, ds, -, hcs, -, rfl, -⟩ := slices_at hslices
  obtain ⟨rfl, rfl⟩ := List.cons.inj (List.append_cancel_left (hcs.symm.trans h.quote))
  exact first_quote ds

theorem reading_string (rest : List Char) :
    (∃ v, (string rest).reading = .lexeme (.str v)) ↔ (stringRest rest).1 = true := by
  cases hclosed : (stringRest rest).1 with
  | true => exact ⟨fun _ => rfl, fun _ => ⟨_, by simp only [string, hclosed]; rfl⟩⟩
  | false =>
      refine ⟨?_, fun hopen => by cases hopen⟩
      rintro ⟨v, hv⟩
      simp only [string, hclosed, reading] at hv
      cases hv

/-- **An open string ends the scan.** At most one is reported. It begins with a quote
and is reported on the line of the quote; the tokens and the other mistakes are those of
the text before it, but for a backslash at the end of the text. A quote at which a slice
begins gives a string if and only if a quote that is not escaped comes behind it, and
then the string goes to the first such quote. With fewer newlines than the largest number
of 32 bits, the scan and its lines are those of a counter of 32 bits. -/
theorem open_string_ends_scan (source : String) :
    (scan source).errors.countP (·.code = .unterminatedString) ≤ 1
      ∧ (∀ d ∈ (scan source).errors, d.code = .unterminatedString →
        ∃ s before rest, Opens source s before rest
          ∧ s.reading = .problem .unterminatedString
          ∧ d = Problem.unterminatedString.onLine (lineAfter before)
          ∧ EndsOpen source before)
      ∧ (∀ s before rest, Opens source s before rest →
        ((∃ v, s.reading = .lexeme (.str v))
          ↔ ∃ body tail, rest = body ++ '"' :: tail ∧ escapes body = false)
        ∧ ((∃ v, s.reading = .lexeme (.str v)) →
          ∃ body tail, FirstQuote rest body tail ∧ s.text = '"' :: (body ++ ['"'])))
      ∧ (source.toList.count '\n' < UInt32.size - 1 →
        Scan.counted? 1 (slices source.toList) = some (scan source)) := by
  refine ⟨?_, fun d hd hcode => ?_, fun s before rest hopens => ?_, counted?_scan⟩
  · by_cases hany : ∃ d ∈ (scan source).errors, d.code = .unterminatedString
    · obtain ⟨d, hd, hcode⟩ := hany
      obtain ⟨fore, s, aft, hslices, hopen⟩ := exists_open hd hcode
      obtain ⟨others, trailing, herrors, hothers⟩ := errors_open hslices hopen
      have hnone : (others ++ trailing).countP (·.code = .unterminatedString) = 0 :=
        List.countP_eq_zero.mpr fun d hd => by simpa using hothers d hd
      rw [herrors, List.countP_append, List.countP_cons]
      rw [List.countP_append] at hnone
      split <;> omega
    · have hnone : (scan source).errors.countP (·.code = .unterminatedString) = 0 :=
        List.countP_eq_zero.mpr fun d hd => by simpa using fun hcode => hany ⟨d, hd, hcode⟩
      omega
  · obtain ⟨fore, s, aft, hslices, hopen⟩ := exists_open hd hcode
    obtain ⟨rest, hrest, -⟩ := slices_open hslices hopen
    refine ⟨s, fore.flatMap text, rest, ⟨mem_preceded.mpr ⟨fore, aft, hslices, rfl⟩, hrest⟩,
      reading_open hopen, ?_, endsOpen hslices hopen⟩
    obtain ⟨others, trailing, herrors, hothers⟩ := errors_open hslices hopen
    rw [herrors, List.mem_append, List.mem_cons] at hd
    rcases hd with hd | rfl | hd
    · exact absurd hcode (hothers d (List.mem_append_left trailing hd))
    · rfl
    · exact absurd hcode (hothers d (List.mem_append_right others hd))
  · obtain rfl := hopens.eq_string
    have hfirst : (stringRest rest).1 = true →
        ∃ body tail, FirstQuote rest body tail ∧ (string rest).text = '"' :: (body ++ ['"']) := by
      intro hclosed
      obtain ⟨body, tail, hfirst, hread⟩ := stringRest_closed hclosed
      exact ⟨body, tail, hfirst, congrArg ('"' :: ·) hread⟩
    rw [reading_string]
    refine ⟨⟨fun hclosed => ?_, fun ⟨body, tail, hsplit, h⟩ => closed_of_unescaped hsplit h⟩,
      hfirst⟩
    obtain ⟨body, tail, hquote, -⟩ := hfirst hclosed
    exact ⟨body, tail, hquote.split, hquote.unescaped⟩

/-- The second string is open: its other quote is escaped, and the backslash at the end
of the text is not part of it. -/
example : (scan "\"b\" \"a\\\"\n\\").errors.map (fun d => (d.code, d.line))
    = [(.unterminatedString, 1), (.illegalCharacter, 2)] := by decide +kernel

end MatrixLang
