import CommandScript.Proofs.Parser.Carried
import CommandScript.Proofs.Parser.Faults
import CommandScript.Proofs.Parser.Keeps

/-!
# Proofs/Parser/TooDeep — values that nest too deeply

An expression that nests deeper than the limit is refused as the value of a variable too, with the
same error further on in the line, unless it starts with a name: such a line is read again, as a
command (`parseProgram_assign_tooDeep`).

The value is read in another text than the expression alone, behind the name and the equals sign.
That makes no difference to the parser but for the places (`Likeness.moved`). Whether the second
reading finds a command line depends on the blocks that are open, and an expression, also where it
fails, leaves those as they are (`keeps_expression`).
-/

namespace CommandScript

/-! ## Places further on in a line -/

/-- The span `n` characters further on in its line. -/
def Span.after (n : Nat) (s : Span) : Span := ⟨s.start + n, s.stop + n, s.line, s.column + n⟩

namespace Cursor

/-- The cursor before the same text, `n` characters further on in its line. -/
def after (n : Nat) (c : Cursor) : Cursor := ⟨c.rest, c.offset + n, c.line, c.column + n⟩

theorem step_after {c : Cursor} (n : Nat) (hline : '\n' ∉ c.rest) :
    (c.after n).step = c.step.after n := by
  obtain ⟨rest, offset, line, column⟩ := c
  cases rest with
  | nil => rfl
  | cons ch rest =>
    have hch : ch ≠ '\n' := fun h => hline (h ▸ List.mem_cons_self)
    simp only [after, step, if_neg hch, Cursor.mk.injEq, true_and]
    omega

theorem not_mem_rest_skip {c : Cursor} (n : Nat) (hline : '\n' ∉ c.rest) :
    '\n' ∉ (c.skip n).rest := by
  rw [rest_skip]
  exact fun h => hline (List.mem_of_mem_drop h)

theorem skip_after (n : Nat) : ∀ (k : Nat) {c : Cursor}, '\n' ∉ c.rest →
    (c.after n).skip k = (c.skip k).after n
  | 0, _, _ => rfl
  | k + 1, c, hline => by
    have hstep : '\n' ∉ c.step.rest := not_mem_rest_skip 1 hline
    rw [skip_succ, step_after n hline, skip_after n k hstep, skip_succ]

end Cursor

/-- Errors of reading at two places, the second `n` characters further on in the same line. What
stands nowhere stays there. -/
inductive Error.Moved (n : Nat) : Error → Error → Prop
  | lex {s s' : Span} (fault : ScanFault) : s' = s.after n ∨ (s = .unset ∧ s' = .unset) →
    Moved n (.lex fault s) (.lex fault s')
  | parse {s s' : Span} (fault : ParseFault) : s' = s.after n ∨ (s = .unset ∧ s' = .unset) →
    Moved n (.parse fault s) (.parse fault s')

/-- An error that points into the text is moved with its place. -/
theorem Error.Moved.eq_parse {n : Nat} {fault : ParseFault} {span : Span} {e : Error}
    {source : List Char} (h : Error.Moved n (.parse fault span) e)
    (hpoints : Error.Points source (.parse fault span)) : e = .parse fault (span.after n) := by
  cases h with
  | parse _ hspan =>
    obtain rfl | ⟨rfl, -⟩ := hspan
    · rfl
    · obtain ⟨c, k, hc, -, hspan⟩ := hpoints
      have hline : (0 : Nat) = c.line := congrArg Span.line (Option.some.inj hspan)
      rw [hc.line, Source.lineAt] at hline
      omega

namespace Parser

/-- Places in lines without an end are alike if the second is `n` characters further on. -/
def Likeness.moved (n : Nat) : Likeness where
  cursor c d := d = c.after n ∧ '\n' ∉ c.rest
  span s s' := s' = s.after n ∨ (s = .unset ∧ s' = .unset)
  error := Error.Moved n
  rest h := by rw [h.1]; rfl
  skip k h := ⟨by rw [h.1, Cursor.skip_after n k h.2], Cursor.not_mem_rest_skip k h.2⟩
  spanTo h h' := .inl (by rw [h.1, h'.1]; rfl)
  unset := .inr ⟨rfl, rfl⟩
  lex fault h := .lex fault h
  parse fault h := .parse fault h

/-! ## Where the error comes from -/

section Source

variable {size : Nat} {s t : State} {e : Error}

/-- What cannot be read as a token is an error of the scanner. -/
theorem lex_of_readFrom {acrossLines : Bool} {c : Cursor} (h : s.readFrom acrossLines c = .error e) :
    ∃ fault span, e = .lex fault span := by
  have hnext := readFrom_eq_error_iff.1 h
  unfold Cursor.next at hnext
  dsimp only at hnext
  split at hnext
  · cases hnext
  · exact ⟨_, _, (Except.error.inj hnext).symm⟩

theorem lex_of_skipSeparators : ∀ {n : Nat} {s : State}, skipSeparators n s = .error e t →
    ∃ fault span, e = .lex fault span
  | 0, _, h => by cases h
  | n + 1, s, h => by
    rw [skipSeparators_succ] at h
    split at h
    · cases hread : s.readFrom (0 < s.nesting) s.cursor with
      | ok u =>
        rw [bind_eq_of_ok (a := ()) (advance_eq_ok_iff_readFrom.2 hread)] at h
        exact lex_of_skipSeparators h
      | error fault =>
        have hadvance : advance s = .error fault s := by rw [advance, hread]
        rw [bind_eq_of_error hadvance] at h
        cases h
        exact lex_of_readFrom hread
    · cases h

/-- A text that nests too deeply is refused where the expression is read, not behind it. -/
theorem expression_of_tooDeep {source : String} {span : Span} {limit : Nat}
    (h : parseExpr source = .error (.parse (.tooDeep limit) span)) :
    ∃ s t, start source.toList = .ok s ∧ expression (source.toList.length + 1) maxDepth s
      = .error (.parse (.tooDeep limit) span) t := by
  unfold parseExpr at h
  dsimp only at h
  cases hstart : start source.toList with
  | error e =>
    rw [hstart] at h
    obtain ⟨fault, place, rfl⟩ := lex_of_readFrom hstart
    cases h
  | ok s =>
    rw [hstart] at h
    dsimp only at h
    cases hexpr : expression (source.toList.length + 1) maxDepth s with
    | error e t =>
      rw [bind_eq_of_error hexpr] at h
      exact ⟨s, t, rfl, by rw [Except.error.inj h] at hexpr; exact hexpr⟩
    | ok value t =>
      -- behind an expression there are only errors of the scanner, or a token too many
      rw [bind_eq_of_ok hexpr] at h
      cases hskip : skipSeparators (source.toList.length + 1) t with
      | error e u =>
        rw [bind_eq_of_error hskip] at h
        obtain ⟨fault, place, rfl⟩ := lex_of_skipSeparators hskip
        cases h
      | ok _ u =>
        rw [bind_eq_of_ok hskip, current_bind] at h
        cases hend : u.current.token.isEnd with
        | true =>
          rw [hend] at h
          cases h
        | false =>
          rw [hend] at h
          cases h

/-- What the first operand of an expression cannot be read for, the expression cannot. -/
theorem expressionOf_of_error {p : Parser Expr} (h : p s = .error e t) :
    expressionOf size p s = .error e t :=
  have hsum : chain size sumOp? (chain size productOp? p) s = .error e t :=
    bind_eq_of_error (bind_eq_of_error h _) _
  bind_eq_of_error (bind_eq_of_error (bind_eq_of_error (bind_eq_of_error hsum _) _) _) _

theorem nested_of_error {p : Parser Expr} (h : p { s with depth := s.depth + 1 } = .error e t) :
    nested p s = .error e { t with depth := t.depth - 1 } := by
  rw [nested, h]

theorem operandOf_of_error {inner deeper : Parser Expr} (hsign : signOp? s.current.token = none)
    (h : primary size inner s = .error e t) : operandOf size inner deeper s = .error e t := by
  rw [operandOf, current_bind, hsign]
  exact bind_eq_of_error h _

/-- Of the tokens that may start a command, only a name starts an expression. -/
theorem expression_of_mayStartCommand (size levels : Nat)
    (hcommand : mayStartCommand s.current.token = true)
    (hname : ∀ name, s.current.token ≠ .identifier name) :
    ∃ t, expression size (levels + 1) s
      = .error (.parse (.expected "expression" s.current.token.text) s.current.span) t := by
  have hprimary (inner : Parser Expr) (s : State) (hcommand : mayStartCommand s.current.token = true)
      (hname : ∀ name, s.current.token ≠ .identifier name) : signOp? s.current.token = none
        ∧ primary size inner s = unexpected "expression" s := by
    rw [primary, current_bind]
    cases htok : s.current.token with
    | identifier name => exact absurd htok (hname name)
    | symbol sign =>
      rw [htok] at hcommand
      cases sign <;> first | exact ⟨rfl, rfl⟩ | cases hcommand
    | stray c => exact ⟨rfl, rfl⟩
    | _ =>
      rw [htok] at hcommand
      cases hcommand
  obtain ⟨hsign, hrefused⟩ := hprimary (expression size levels) { s with depth := s.depth + 1 }
    hcommand hname
  exact ⟨_, expressionOf_of_error (nested_of_error (operandOf_of_error hsign hrefused))⟩

end Source

/-! ## A sign too many -/

section Signs

variable {source : String} {size : Nat} {s t : State} {e : Error}

theorem operandOf_of_sign {inner deeper : Parser Expr} {op : UnaryOp} {u : State}
    (hsign : signOp? s.current.token = some op) (hadvance : advance s = .ok () u)
    (h : deeper u = .error e t) : operandOf size inner deeper s = .error e t := by
  rw [operandOf, current_bind, hsign]
  exact (bind_eq_of_ok hadvance _).trans (bind_eq_of_error h _)

/-- At a sign with a sign for every level behind it, there is no level left for the last one. -/
theorem operand_of_signs (size : Nat) : ∀ (levels : Nat) {c : Cursor} {s : State}, s.nesting = 0 →
    s.current = ⟨.symbol .minus, c.spanTo c.step⟩ → s.cursor = c.step →
    c.step.rest = List.replicate levels '-' → ∃ t, operand size levels s
      = .error (.parse (.tooDeep maxDepth) ((c.skip levels).spanTo (c.skip levels).step)) t
  | 0, c, s, _, hcurrent, _, _ => ⟨s, by rw [operand, tooDeep, hcurrent]; rfl⟩
  | levels + 1, c, s, hn, hcurrent, hcursor, hrest => by
    have hnext : s.cursor.next false
        = .ok (⟨.symbol .minus, c.step.spanTo c.step.step⟩, c.step.step) := by
      rw [hcursor]
      generalize c.step = d at hrest
      obtain ⟨rest, offset, line, column⟩ := d
      obtain rfl := hrest
      rfl
    obtain ⟨u, hadvance, hu, hcurrent', hcursor'⟩ : ∃ u : State,
        advance { s with depth := s.depth + 1 } = .ok () u ∧ u.nesting = 0
          ∧ u.current = ⟨.symbol .minus, c.step.spanTo c.step.step⟩ ∧ u.cursor = c.step.step :=
      ⟨_, advance_of_next hn hnext, hn, rfl, rfl⟩
    have hmore : c.step.step.rest = List.replicate levels '-' := by
      rw [Cursor.rest_step, hrest]
      rfl
    obtain ⟨t, ht⟩ := operand_of_signs size levels hu hcurrent' hcursor' hmore
    have hminus : signOp? s.current.token = some .negate := by rw [hcurrent]; rfl
    exact ⟨_, nested_of_error (operandOf_of_sign hminus hadvance ht)⟩

theorem parseExpr_of_error (hstart : start source.toList = .ok s)
    (h : expression (source.toList.length + 1) maxDepth s = .error e t) :
    parseExpr source = .error e := by
  unfold parseExpr
  dsimp only
  rw [hstart]
  dsimp only
  rw [bind_eq_of_error h]

theorem parseExpr_of_signs (h : source.toList = '-' :: List.replicate maxDepth '-') :
    parseExpr source = .error (.parse (.tooDeep maxDepth) ⟨256, 257, 1, 257⟩) := by
  have hspan : ((Cursor.start ('-' :: List.replicate maxDepth '-')).skip maxDepth).spanTo
      ((Cursor.start ('-' :: List.replicate maxDepth '-')).skip maxDepth).step
        = ⟨256, 257, 1, 257⟩ := by
    decide +kernel
  have hstart (cs : List Char) : start ('-' :: cs) = .ok ⟨⟨.symbol .minus, ⟨0, 1, 1, 1⟩⟩,
      .start ('-' :: cs), ⟨cs, 1, 1, 2⟩, 0, 0, 0⟩ := rfl
  obtain ⟨t, ht⟩ := operand_of_signs (source.toList.length + 1) maxDepth
    (c := .start ('-' :: List.replicate maxDepth '-'))
    (s := ⟨⟨.symbol .minus, ⟨0, 1, 1, 1⟩⟩, .start ('-' :: List.replicate maxDepth '-'),
      ⟨List.replicate maxDepth '-', 1, 1, 2⟩, 0, 0, 0⟩) rfl rfl rfl rfl
  rw [hspan] at ht
  exact parseExpr_of_error ((congrArg start h).trans (hstart _)) (expressionOf_of_error ht)

theorem parseExpr_of_exponent (h : source.toList = 'a' :: '^' :: '-' :: List.replicate 255 '-') :
    parseExpr source = .error (.parse (.tooDeep maxDepth) ⟨257, 258, 1, 258⟩) := by
  have hspan : ((⟨'-' :: List.replicate 255 '-', 2, 1, 3⟩ : Cursor).skip 255).spanTo
      ((⟨'-' :: List.replicate 255 '-', 2, 1, 3⟩ : Cursor).skip 255).step
        = ⟨257, 258, 1, 258⟩ := by
    decide +kernel
  have hstart (cs : List Char) : start ('a' :: '^' :: cs) = .ok ⟨⟨.identifier "a", ⟨0, 1, 1, 1⟩⟩,
      .start ('a' :: '^' :: cs), ⟨'^' :: cs, 1, 1, 2⟩, 0, 0, 0⟩ := rfl
  have hpower (size : Nat) (inner deeper : Parser Expr) (cs ds : List Char) :
      operandOf (size + 1) inner deeper
          ⟨⟨.identifier "a", ⟨0, 1, 1, 1⟩⟩, .start ds, ⟨'^' :: '-' :: cs, 1, 1, 2⟩, 0, 0, 1⟩
        = (deeper >>= fun exponent => pure (.binary .power (.var "a") exponent))
          ⟨⟨.symbol .minus, ⟨2, 3, 1, 3⟩⟩, ⟨'-' :: cs, 2, 1, 3⟩, ⟨cs, 3, 1, 4⟩, 0, 0, 1⟩ := rfl
  obtain ⟨t, ht⟩ := operand_of_signs (source.toList.length + 1) 255
    (c := ⟨'-' :: List.replicate 255 '-', 2, 1, 3⟩)
    (s := ⟨⟨.symbol .minus, ⟨2, 3, 1, 3⟩⟩, ⟨'-' :: List.replicate 255 '-', 2, 1, 3⟩,
      ⟨List.replicate 255 '-', 3, 1, 4⟩, 0, 0, 1⟩) rfl rfl rfl rfl
  rw [hspan] at ht
  exact parseExpr_of_error ((congrArg start h).trans (hstart _)) (expressionOf_of_error
    (nested_of_error ((hpower _ _ _ _ _).trans (bind_eq_of_error ht _))))

end Signs

/-! ## Behind the name of a variable -/

section Assign

variable {cs : List Char} {s t u : State} {name : String}

theorem readFrom_congr {acrossLines : Bool} {c d : Cursor}
    (h : c.toToken acrossLines = d.toToken acrossLines) :
    s.readFrom acrossLines c = s.readFrom acrossLines d := by
  rw [State.readFrom, State.readFrom, Cursor.next, Cursor.next, h]

/-- Where a text is read further on in a line, the parser starts alike. -/
theorem alike_of_start (n : Nat) (hline : '\n' ∉ cs) (h : start cs = .ok s) (hn : t.nesting = 0)
    (hblock : t.blockDepth = 0) (hdepth : t.depth = 0) :
    ∃ s', t.readFrom false ((Cursor.start cs).after n) = .ok s'
      ∧ (Likeness.moved n).Alike s s' := by
  have hplace : (Likeness.moved n).cursor (.start cs) ((Cursor.start cs).after n) := ⟨rfl, hline⟩
  have hbase : (Likeness.moved n).Alike
      ⟨⟨.endOfInput, .unset⟩, .start cs, .start cs, 0, 0, 0⟩
      ⟨⟨.endOfInput, .unset⟩, (Cursor.start cs).after n, (Cursor.start cs).after n, 0, 0, 0⟩ :=
    ⟨rfl, .inr ⟨rfl, rfl⟩, hplace, hplace, rfl, rfl, rfl⟩
  obtain ⟨u, u', hu, hu', halike⟩ | ⟨_, _, herror, -⟩ := Likeness.readFrom hbase hplace false
  · obtain rfl := Except.ok.inj (h.symm.trans hu)
    obtain ⟨tok, d, hnext, rfl⟩ := readFrom_eq_ok_iff.1 hu'
    refine ⟨_, readFrom_eq_ok_iff.2 ⟨tok, d, hnext, ?_⟩, halike⟩
    rw [hn, hblock, hdepth]
  · cases h.symm.trans herror

/-- The text of an assignment is read up to its value. -/
theorem start_assign (cs : List Char) :
    ∃ s u, start ('x' :: ' ' :: '=' :: ' ' :: cs) = .ok s ∧ s.nesting = 0
      ∧ s.current.token = .identifier "x" ∧ advance s = .ok () u
      ∧ u.current.token = .symbol .equals ∧ u.nesting = 0 ∧ u.blockDepth = 0 ∧ u.depth = 0
      ∧ u.readFrom false u.cursor = u.readFrom false ((Cursor.start cs).after 4) := by
  refine ⟨⟨⟨.identifier "x", ⟨0, 1, 1, 1⟩⟩, .start _, ⟨' ' :: '=' :: ' ' :: cs, 1, 1, 2⟩, 0, 0, 0⟩,
    ⟨⟨.symbol .equals, ⟨2, 3, 1, 3⟩⟩, ⟨'=' :: ' ' :: cs, 2, 1, 3⟩, ⟨' ' :: cs, 3, 1, 4⟩, 0, 0, 0⟩,
    rfl, rfl, rfl, rfl, rfl, rfl, rfl, rfl, readFrom_congr rfl⟩

/-- An assignment is read at its value. -/
theorem statement_of_assign (commands : CommandSet) (size levels : Nat) (hn : s.nesting = 0)
    (hname : s.current.token = .identifier name) (hadvance : advance s = .ok () t)
    (hequals : t.current.token = .symbol .equals) (hvalue : advance t = .ok () u) :
    statement commands size levels s = (do
      let stmt ← (do return .assign name (← action commands (expression size levels)))
      expectStatementEnd
      return stmt : Parser Stmt) u := by
  have hsimple : statement commands size levels s
      = simpleStatement (action commands (expression size levels)) s := by
    cases levels with
    | zero => rw [statement, statementOf, current_bind, hname]
    | succ levels => rw [statement, statementOf, current_bind, hname]
  rw [hsimple, simpleStatement]
  refine bind_eq_of_eq ?_ _
  rw [lineStatement_of_name hn hname, peek?_of_advance hn hadvance, hequals]
  change assignment _ name s = _
  rw [assignment, bind_eq_of_ok hadvance, bind_eq_of_ok hvalue]

/-- The program assigns what was read up to the end of the text, or has the error of reading it. -/
def Assigns (r : EStateM.Result Error State Action) (p : Except Error Program) : Prop :=
  match r with
  | .ok a t => t.current.token.isEnd = true → p = .ok [.assign "x" a]
  | .error e _ => p = .error e

/-- Of a text that is an assignment, the value is read in a state that is like the start of the
value alone, and decides what the program is. -/
theorem parseProgram_assign (commands : CommandSet) {source text : String}
    (htext : text = "x = " ++ source) (hline : '\n' ∉ source.toList)
    (hstart : start source.toList = .ok s) :
    ∃ s', (Likeness.moved 4).Alike s s' ∧ s'.At text.toList
      ∧ Assigns (action commands (expression (text.toList.length + 1) maxDepth) s')
        (parseProgram commands text) := by
  have hchars : text.toList = 'x' :: ' ' :: '=' :: ' ' :: source.toList := by
    rw [htext, String.toList_append]
    rfl
  obtain ⟨r, u, hfirst, hn, hname, hadvance, hequals, hu, hblock, hdepth, hread⟩ :=
    start_assign source.toList
  rw [← hchars] at hfirst
  obtain ⟨s', hs', halike⟩ := alike_of_start 4 hline hstart hu hblock hdepth
  rw [← hread] at hs'
  have hvalue : advance u = .ok () s' := by
    rw [advance_eq_ok_iff_readFrom, hu]
    exact hs'
  have hplace : s'.At text.toList :=
    have hequals := at_of_readFrom (at_of_start hfirst).cursor (advance_eq_ok_iff_readFrom.1 hadvance)
    at_of_readFrom hequals.cursor (advance_eq_ok_iff_readFrom.1 hvalue)
  have hprogram := programFrom_of_token (text.toList.length + 1)
    (statement commands (text.toList.length + 1) maxDepth) text.toList.length (s := r)
    (by rw [hname]; rfl) (by rw [hname]; rfl) (by rw [hname]; rfl)
  have hstatement := statement_of_assign commands (text.toList.length + 1) maxDepth hn hname
    hadvance hequals hvalue
  refine ⟨s', halike, hplace, ?_⟩
  cases haction : action commands (expression (text.toList.length + 1) maxDepth) s' with
  | error e t =>
    rw [bind_eq_of_error (bind_eq_of_error haction _)] at hstatement
    exact parseProgram_of_error hfirst (hprogram.trans (bind_eq_of_error hstatement _))
  | ok a t =>
    intro hend
    have hatEnd : t.atEnd = true := by simp [State.atEnd, hend]
    have hends : expectStatementEnd t = .ok () t := by
      rw [expectStatementEnd_eq, hatEnd, isSeparator_of_isEnd hend]
      rfl
    have hassign : (action commands (expression (text.toList.length + 1) maxDepth) >>=
        fun a => pure (.assign "x" a) : Parser Stmt) s' = .ok (.assign "x" a) t :=
      bind_eq_of_ok haction _
    rw [bind_eq_of_ok hassign, bind_eq_of_ok hends] at hstatement
    obtain ⟨m, hm⟩ : ∃ m, text.toList.length = m + 1 := ⟨_, congrArg List.length hchars⟩
    have hnothing := programFrom_of_end (text.toList.length + 1)
      (statement commands (text.toList.length + 1) maxDepth) m hend
    rw [← hm] at hnothing
    refine parseProgram_eq_ok_iff.2 ⟨r, t, hfirst, hprogram.trans ?_⟩
    exact (bind_eq_of_ok hstatement _).trans (bind_eq_of_ok hnothing _)

end Assign

/-! ## The value read again -/

section Again

variable {source : List Char} {begin t : State} {name : String}

/-- In a text of one line, only the end of the text ends a line. -/
theorem isEnd_of_endsLine {c d : Cursor} {tok : Located} (hline : '\n' ∉ source) (hc : c.In source)
    (hnext : c.next false = .ok (tok, d)) (hends : Cursor.endsLine false tok.token = true) :
    tok.token.isEnd = true := by
  cases hnewline : tok.token.isNewline with
  | false => simpa [Cursor.endsLine, hnewline] using hends
  | true =>
    have hplace : (c.toToken false).In source := hc.skip _
    have hfeed := List.mem_of_head? ((Cursor.isNewline_next hnext).1 hnewline)
    rw [hplace.rest] at hfeed
    exact absurd (List.mem_of_mem_drop hfeed) hline

/-- In a text of one line, a line that starts with a name is a command up to the end of the text,
unless a quote in it stays open. -/
theorem commandAt_of_name (hline : '\n' ∉ source) (hbegin : begin.At source)
    (hn : begin.nesting = 0) (hname : begin.current.token = .identifier name)
    (hblock : t.blockDepth = 0) :
    (∃ words u, words ≠ [] ∧ u.current.token.isEnd = true
        ∧ commandAt begin none t = .ok (.command ⟨words, none⟩) u)
      ∨ (∃ ch ∈ source, Scan.isQuoting none ch = true)
        ∧ ∃ place u, commandAt begin none t = .error (.lex .openQuote place) u := by
  have houtside : decide (0 < t.blockDepth) = false := by simp [hblock]
  have hcommand : commandAt begin none t = (commandFrom begin.origin begin.current.span >>=
    fun words => pure (.command ⟨words, none⟩) : Parser Action) { t with nesting := 0 } := by
    rw [← hn]
    rfl
  cases hwords : begin.origin.commandLine false with
  | error fault =>
    obtain ⟨⟨ch, hmem, hch⟩, place, rfl⟩ := Cursor.openQuote_of_wordsFrom hwords
    rw [hbegin.place.rest] at hmem
    refine .inr ⟨⟨ch, List.mem_of_mem_drop hmem, hch⟩, place, { t with nesting := 0 },
      hcommand.trans (bind_eq_of_error ?_ _)⟩
    rw [commandFrom_eq]
    dsimp only
    rw [houtside, hwords]
  | ok r =>
    obtain ⟨words, c⟩ := r
    -- the name is at least the start of a word
    have hfirst : Unbounded.partsOf words ≠ [] := by
      obtain ⟨-, -, tok, d, hnext, hends⟩ | ⟨parts, width, rest, -, -, rfl, -⟩ :=
        Cursor.wordsFrom_cases hwords
      · cases hbegin.stands.next.symm.trans hnext
        rw [hname] at hends
        cases hends
      · exact List.cons_ne_nil _ _
    obtain ⟨hc, -, tok, d, hnext, -, hends⟩ :=
      hbegin.place.wordsAt_wordsFrom (Nat.lt_succ_self _) hwords
    obtain ⟨u, hread, rfl⟩ : ∃ u : State,
        ({ t with nesting := 0 } : State).readFrom false c = .ok u ∧ u.current = tok :=
      ⟨_, readFrom_eq_ok_iff.2 ⟨tok, d, hnext, rfl⟩, rfl⟩
    refine .inl ⟨Unbounded.partsOf words, u, hfirst, isEnd_of_endsLine hline hc hnext hends,
      hcommand.trans (bind_eq_of_ok ?_ _)⟩
    rw [commandFrom_eq]
    dsimp only
    rw [houtside, hwords]
    dsimp only
    rw [List.isEmpty_eq_false_iff.2 hfirst, if_neg Bool.false_ne_true,
      decide_eq_false (Nat.lt_irrefl 0), hread]

end Again

/-! ## Values that nest too deeply -/

section Values

variable {source : String} {span : Span} {limit : Nat}

/-- Further on in a line an expression is refused for the same reason. -/
theorem expression_moved {cs text : List Char} {n size size' levels : Nat} {s s' t : State}
    {fault : ParseFault} (halike : (Likeness.moved n).Alike s s') (hs : s.Stands)
    (hsize : s.left < size) (hs' : s'.At text) (hsize' : s'.left < size')
    (hpoints : Error.Points cs (.parse fault span))
    (h : expression size levels s = .error (.parse fault span) t) :
    ∃ t', expression size' levels s' = .error (.parse fault (span.after n)) t' := by
  have hfollows := tracks_expression levels halike hs hsize
  rw [h, (tracks_expression levels hs'.alike hs'.stands hsize').eq_outcome] at hfollows
  cases hexpr : expression size' levels s' with
  | ok value u =>
    rw [hexpr] at hfollows
    cases hfollows
  | error e u =>
    rw [hexpr] at hfollows
    cases hfollows with
    | error herror _ => exact ⟨u, by rw [herror.eq_parse hpoints]⟩

theorem peek?_of_start {cs : List Char} {s : State} (h : start cs = .ok s) :
    (Cursor.start cs).peek? = some s.current.token := by
  obtain ⟨tok, d, hnext, rfl⟩ := readFrom_eq_ok_iff.1 h
  rw [Cursor.peek?, hnext]

/-- A line that is no expression is a command if its first token may start one, known or not. -/
theorem action_of_no_expression {expr : Parser Expr} {s t : State} {fault : Error}
    (commands : CommandSet) (hn : s.nesting = 0) (h : expr s = .error fault t) :
    action commands expr s
      = (if mayStartCommand s.current.token then commandAt s none else throw fault) t := by
  obtain hknown | ⟨name, htok, -, hknown⟩ := knownCommand?_cases commands hn
  · rw [action_of_error hknown h]
    rfl
  · rw [action_of_error hknown h, htok]
    rfl

/-- How the assignment of a value that nests too deeply is read: at the first token of the value,
after an attempt to read an expression. -/
theorem assigns_tooDeep (commands : CommandSet) (hline : '\n' ∉ source.toList)
    (hdeep : parseExpr source = .error (.parse (.tooDeep limit) span)) :
    ∃ s t : State, s.At ("x = " ++ source).toList ∧ s.nesting = 0 ∧ t.blockDepth = 0
      ∧ (Cursor.start source.toList).peek? = some s.current.token
      ∧ (mayStartCommand s.current.token = true → ∃ name, s.current.token = .identifier name)
      ∧ Assigns ((if mayStartCommand s.current.token then commandAt s none
          else throw (.parse (.tooDeep limit) (span.after 4))) t)
        (parseProgram commands ("x = " ++ source)) := by
  obtain ⟨s, t, hstart, hexpr⟩ := expression_of_tooDeep hdeep
  obtain ⟨s', halike, hs', hassigns⟩ := parseProgram_assign commands rfl hline hstart
  have hs := at_of_start hstart
  obtain ⟨t', hexpr'⟩ := expression_moved halike hs.stands (Nat.lt_succ_of_le hs.left_le) hs'
    (Nat.lt_succ_of_le hs'.left_le) (points_of_parseExpr hdeep) hexpr
  obtain ⟨_, _, -, rfl⟩ := readFrom_eq_ok_iff.1 hstart
  have hblock : t'.blockDepth = 0 := by
    have hkeeps := keeps_expression (stable_blockDepth 0) (("x = " ++ source).toList.length + 1)
      maxDepth halike.blockDepth
    rw [hexpr'] at hkeeps
    exact hkeeps
  rw [action_of_no_expression commands halike.nesting hexpr'] at hassigns
  refine ⟨s', t', hs', halike.nesting, hblock, ?_, fun hcommand => ?_, hassigns⟩
  · rw [peek?_of_start hstart, halike.token]
  · -- a dot, a slash or a stray character is refused for another reason
    by_contra hname
    rw [halike.token] at hcommand hname
    obtain ⟨u, hrefused⟩ := expression_of_mayStartCommand (source.toList.length + 1) 255 hcommand
      (not_exists.1 hname)
    cases hexpr.symm.trans hrefused

theorem parseProgram_assign_name (commands : CommandSet) (hline : '\n' ∉ source.toList)
    (hdeep : parseExpr source = .error (.parse (.tooDeep limit) span)) {name : String}
    (hname : (Cursor.start source.toList).peek? = some (.identifier name)) :
    (∃ words, words ≠ [] ∧ parseProgram commands ("x = " ++ source)
        = .ok [.assign "x" (.command ⟨words, none⟩)])
      ∨ (∃ ch ∈ source.toList, Scan.isQuoting none ch = true)
        ∧ ∃ place, parseProgram commands ("x = " ++ source) = .error (.lex .openQuote place) := by
  obtain ⟨s, t, hs, hn, hblock, hpeek, -, hassigns⟩ := assigns_tooDeep commands hline hdeep
  have htok : s.current.token = .identifier name := Option.some.inj (hpeek.symm.trans hname)
  have htext : '\n' ∉ ("x = " ++ source).toList := by
    rw [String.toList_append, List.mem_append]
    exact fun h => h.elim (by decide) hline
  rw [htok] at hassigns
  change Assigns (commandAt s none t) _ at hassigns
  obtain ⟨words, u, hwords, hend, hcommand⟩ | ⟨⟨ch, hmem, hch⟩, place, u, hcommand⟩ :=
    commandAt_of_name htext hs hn htok hblock
  · rw [hcommand] at hassigns
    exact .inl ⟨words, hwords, hassigns hend⟩
  · rw [hcommand] at hassigns
    refine .inr ⟨⟨ch, ?_, hch⟩, place, hassigns⟩
    rw [String.toList_append, List.mem_append] at hmem
    refine hmem.resolve_left fun hname => ?_
    have hplain : "x = ".toList.all (!Scan.isQuoting none ·) = true := by decide
    exact absurd hch (by simpa using List.all_eq_true.1 hplain ch hname)

/-- **A value that nests too deeply is refused like the expression alone, unless it starts with a
name.** Its error is the same, four characters further on. A line that starts with a name is read
again as a command, known or not: it is one up to its end, unless a quote in it stays open. -/
theorem parseProgram_assign_tooDeep (commands : CommandSet) (source : String) (span : Span)
    (hline : '\n' ∉ source.toList)
    (hdeep : parseExpr source = .error (.parse (.tooDeep 256) span)) :
    match (Cursor.start source.toList).peek? with
    | some (.identifier _) =>
      (∃ words, words ≠ [] ∧ parseProgram commands ("x = " ++ source)
          = .ok [.assign "x" (.command ⟨words, none⟩)])
        ∨ (∃ ch ∈ source.toList, Scan.isQuoting none ch = true)
          ∧ ∃ place, parseProgram commands ("x = " ++ source) = .error (.lex .openQuote place)
    | _ => parseProgram commands ("x = " ++ source)
        = .error (.parse (.tooDeep 256) (span.after 4)) := by
  split
  · next hname => exact parseProgram_assign_name commands hline hdeep hname
  · next hname =>
    obtain ⟨s, t, -, -, -, hpeek, hcommand, hassigns⟩ := assigns_tooDeep commands hline hdeep
    have hmay : mayStartCommand s.current.token = false := by
      rw [← Bool.not_eq_true]
      intro hmay
      obtain ⟨name, htok⟩ := hcommand hmay
      exact hname name (hpeek.trans (congrArg some htok))
    rw [hmay] at hassigns
    exact hassigns

/-- The operand of the last sign is one level too deep. -/
theorem parseProgram_assign_tooDeep_signs : ∃ source, source.toList = List.replicate 257 '-'
    ∧ parseExpr source = .error (.parse (.tooDeep 256) ⟨256, 257, 1, 257⟩)
    ∧ parseProgram .empty ("x = " ++ source)
      = .error (.parse (.tooDeep 256) ⟨260, 261, 1, 261⟩) := by
  have hchars := String.toList_ofList (l := '-' :: List.replicate maxDepth '-')
  generalize String.ofList ('-' :: List.replicate maxDepth '-') = source at hchars
  have hline : '\n' ∉ source.toList := by
    rw [hchars]
    decide +kernel
  have hassign := parseProgram_assign_tooDeep .empty source _ hline (parseExpr_of_signs hchars)
  rw [hchars] at hassign
  exact ⟨source, hchars, parseExpr_of_signs hchars, hassign⟩

/-- **A value that nests too deeply may become a command.** -/
theorem parseProgram_assign_exponent : ∃ source span, '\n' ∉ source.toList ∧ ';' ∉ source.toList
    ∧ parseExpr source = .error (.parse (.tooDeep 256) span)
    ∧ ∀ commands, ∃ words, words ≠ [] ∧ parseProgram commands ("x = " ++ source)
        = .ok [.assign "x" (.command ⟨words, none⟩)] := by
  have hchars := String.toList_ofList (l := 'a' :: '^' :: '-' :: List.replicate 255 '-')
  have hdeep := parseExpr_of_exponent hchars
  generalize String.ofList ('a' :: '^' :: '-' :: List.replicate 255 '-') = source at hchars hdeep
  have hplain : source.toList.all (!Scan.isQuoting none ·) = true := by
    rw [hchars]
    decide +kernel
  have hline : '\n' ∉ source.toList := by
    rw [hchars]
    decide +kernel
  have hsemicolon : ';' ∉ source.toList := by
    rw [hchars]
    decide +kernel
  refine ⟨source, _, hline, hsemicolon, hdeep, fun commands => ?_⟩
  have hname : (Cursor.start source.toList).peek? = some (.identifier "a") := by
    rw [hchars]
    rfl
  obtain hcommand | ⟨⟨ch, hmem, hch⟩, -⟩ := parseProgram_assign_name commands hline hdeep hname
  · exact hcommand
  · exact absurd hch (by simpa using List.all_eq_true.1 hplain ch hmem)

end Values

end Parser

end CommandScript
