import CommandScript.Proofs.Parser.Yields
import CommandScript.Proofs.Source.Line

/-!
# Proofs/Parser/Faults — errors point into the text

A text that cannot be read as an expression is refused at a token of it, or at its end. No blank
stands there, so no carriage return that ends a line, and the character at the place is seen in the
line that is shown with the error, right above the caret (`parseExpr_error_points`).
-/

namespace CommandScript

/-- Where a token may start, no blank stands. -/
theorem Cursor.isBlank_eq_false {c : Cursor} (hc : c.toToken false = c) {ch : Char}
    {rest : List Char} (hrest : c.rest = ch :: rest) : Text.isBlank ch = false := by
  have htrivia := Scan.trivia_drop false false c.rest
  rw [← rest_skip, ← toToken, hc, hrest] at htrivia
  by_cases hline : ch = '\n'
  · rw [hline]
    rfl
  · rw [Scan.trivia_cons hline] at htrivia
    split at htrivia
    · cases htrivia
    split at htrivia
    · cases htrivia
    · next hblank => simpa using hblank

namespace Error

variable {source : String} {e : Error} {span : Span}

/-- The error is shown with the given line, and below it a caret at the column of the span. -/
def Shows (source : String) (e : Error) (span : Span) (line : String) : Prop :=
  ∀ paint : Paint, ∃ width, 0 < width ∧ e.render paint source
    = e.message ++ "\n" ++ (toString span.line ++ " | ") ++ line ++ "\n"
      ++ paint.apply (Style.strong .red) (String.ofList
        (List.replicate ((toString span.line ++ " | ").length + (span.column - 1)) ' '
          ++ List.replicate width '^'))

theorem shows_lineOf (h : e.span? = some span) : e.Shows source span (lineOf source span) := by
  intro paint
  refine ⟨min (max span.length 1) (max (lineOf source span).length 1), by omega, ?_⟩
  rw [render, h]

/-- An error with a place is one of reading. -/
theorem lex_or_parse (h : e.span? = some span) :
    (∃ fault, e = .lex fault span) ∨ ∃ fault, e = .parse fault span := by
  cases e with
  | lex fault => exact .inl ⟨fault, congrArg _ (Option.some.inj h)⟩
  | parse fault => exact .inr ⟨fault, congrArg _ (Option.some.inj h)⟩
  | _ => nomatch h

/-- A character in a line that is shown, other than a carriage return at its end, is seen. -/
theorem getElem?_lineOf {text : List Char} (h : Source.line? source.toList span.line = some text)
    {i : Nat} {ch : Char} (hch : text[i]? = some ch) (hne : ch ≠ '\r') :
    (lineOf source span).toList[i]? = some ch := by
  obtain heq | heq := lineOf_cases h
  · rwa [heq]
  · rw [heq, List.getElem?_append] at hch
    split at hch
    · exact hch
    · rw [List.getElem?_singleton] at hch
      split at hch
      · exact absurd (Option.some.inj hch).symm hne
      · nomatch hch

end Error

namespace Parser

theorem points_of_parseExpr {source : String} {e : Error} (h : parseExpr source = .error e) :
    e.Points source.toList := by
  unfold parseExpr at h
  dsimp only at h
  split at h
  · next hstart =>
    obtain rfl := Except.error.inj h
    exact points_of_readFrom (Cursor.in_start _) hstart
  · next s hstart =>
    have hwhole : Yields (Faults.pointing source.toList) (do
        let e ← expression (source.toList.length + 1) maxDepth
        skipSeparators (source.toList.length + 1)
        if (← current).isEnd then return e else unexpected "end of input") Expr.WellFormed :=
      (yields_expression _ _).bind fun e he => (yields_skipSeparators _).next fun _ =>
        yields_current.next fun _ => yields_ite (yields_pure he) (yields_unexpected _)
    have hends := hwhole (at_of_start hstart)
    split at h
    · nomatch h
    · next heq =>
      obtain rfl := Except.error.inj h
      rw [heq] at hends
      cases hends with
      | error he => exact he

/-- **Errors point into the text.** If a text cannot be read as an expression, the error is one of
reading, with a span inside the text whose line and column are those of its first character. Unless
the span starts at a line feed or at the end of the text, the line with this number is shown, up to
a carriage return at its end, and has the character at this column. -/
theorem parseExpr_error_points (source : String) (e : Error) (h : parseExpr source = .error e) :
    ∃ span, ((∃ fault, e = .lex fault span) ∨ ∃ fault, e = .parse fault span)
      ∧ span.start ≤ span.stop ∧ span.stop ≤ source.length ∧ span.Placed source.toList
      ∧ ∀ ch, source.toList[span.start]? = some ch → ch ≠ '\n' →
        ∃ line shown, Source.line? source.toList span.line = some line
          ∧ (shown.toList = line ∨ line = shown.toList ++ ['\r'])
          ∧ shown.toList[span.column - 1]? = some ch ∧ e.Shows source span shown := by
  obtain ⟨c, n, hc, htoken, hspan⟩ := points_of_parseExpr h
  have hplaced := hc.placed_spanTo (c.skip n)
  have hordered : c.offset ≤ (c.skip n).offset := by
    have := hc.offset_le
    rw [hc.offset_skip]
    omega
  refine ⟨c.spanTo (c.skip n), Error.lex_or_parse hspan, hordered, (hc.skip n).offset_le, hplaced,
    fun ch hch hne => ?_⟩
  obtain ⟨rest, hrest⟩ : ∃ rest, c.rest = ch :: rest := by
    rw [hc.rest]
    exact List.head?_eq_some_iff.1 (List.head?_drop.trans hch)
  have hreturn : ch ≠ '\r' := by
    rintro rfl
    exact absurd (c.isBlank_eq_false htoken hrest) (by decide)
  obtain ⟨line, hline, hcolumn⟩ := Source.line?_lineAt hch hne
  rw [← hplaced.1] at hline
  rw [← hplaced.2] at hcolumn
  exact ⟨line, Error.lineOf source _, hline, Error.lineOf_cases hline,
    Error.getElem?_lineOf hline hcolumn hreturn, Error.shows_lineOf hspan⟩

/-- The operator in the second line has no operand; the line ends in a carriage return. -/
theorem parseExpr_error_points_return :
    ∃ e shown, parseExpr "[1,\r\n  +\r\n]" = .error e ∧ e.span? = some ⟨7, 8, 2, 3⟩
      ∧ shown.toList[2]? = some '+' ∧ e.Shows "[1,\r\n  +\r\n]" ⟨7, 8, 2, 3⟩ shown := by
  have hplace : ((parseExpr "[1,\r\n  +\r\n]").mapError Error.span?).map (fun _ => ())
      = .error (some ⟨7, 8, 2, 3⟩) := by
    decide +kernel
  cases hparse : parseExpr "[1,\r\n  +\r\n]" with
  | ok e =>
    rw [hparse] at hplace
    cases hplace
  | error e =>
    rw [hparse] at hplace
    have hplace := Except.error.inj hplace
    obtain ⟨span, hkind, -, -, -, hshown⟩ := parseExpr_error_points _ e hparse
    obtain rfl : span = ⟨7, 8, 2, 3⟩ := by
      obtain ⟨fault, rfl⟩ | ⟨fault, rfl⟩ := hkind
      all_goals exact Option.some.inj hplace
    obtain ⟨-, shown, -, -, hcolumn, hshows⟩ := hshown '+' (by decide) (by decide)
    exact ⟨e, shown, rfl, hplace, hcolumn, hshows⟩

end Parser

end CommandScript
