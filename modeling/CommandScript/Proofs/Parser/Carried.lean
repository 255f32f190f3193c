import CommandScript.Proofs.Parser.Extension

/-!
# Proofs/Parser/Carried — statements in a text that is longer by a line

What stands within the first of two texts is read alike in both, and so are its statements if there
are no commands among them (`carriesStatement_statement`). The end of the first text is met in two
ways. A statement may be complete with it, and then the second parser moves past the end of the line
there, to the new line (`Past`). And behind a block a parser looks across ends of lines for an
`else`; here the new line matters, and it must not start with one (`Resumes`).

A block ends with its brace and parameters with their bracket, so if these are read, the end of the
first text was not met on the way (`Inside`).
-/

namespace CommandScript

namespace Parser

open Readable

/-! ## The end of the first text -/

/-- The text starts with a token, and the first that ends no line is not `else`. -/
structure Resumes (tail : List Char) : Prop where
  lexes : ∃ r, Token.scan (tail.drop (Scan.trivia false false tail)) = .ok r
  not_else : ∃ r, Token.scan (tail.drop (Scan.trivia true false tail)) = .ok r
    ∧ r.1.isKeyword .elseWord = false

/-- The first parser is at the end of its text and the second one at the first token of the new
line. -/
structure Past (tail : List Char) (o : Nat × Nat × Nat) (s s' : State) : Prop where
  isEnd : s.current.token.isEnd = true
  stands : s'.Stands
  rest : s'.origin.rest = tail.drop (Scan.trivia false false tail)
  opened : s'.opened = o

/-- The parsers correspond, or both have come past the end of the first text. -/
def Reaches (tail : List Char) (size : Nat) (o : Nat × Nat × Nat) (s s' : State) : Prop :=
  Extends tail size o s s' ∨ Past tail o s s'

section Ends

variable {tail : List Char} {size n b d : Nat} {o : Nat × Nat × Nat} {s s' t : State}

theorem Reaches.inside (h : Reaches tail size o s s') (hs : s.current.token.isEnd = false) :
    Extends tail size o s s' := by
  obtain hext | hpast := h
  · exact hext
  · rw [hpast.isEnd] at hs
    exact absurd hs (by decide)

/-- From the end of the first text the second parser gets to the new line. -/
theorem Extends.past (htail : Resumes tail) (h : Extends tail size (0, b, d) s s')
    (hend : s.current.token.isEnd = true) :
    ∃ t', advance s' = .ok () t' ∧ Past tail (0, b, d) s t' := by
  obtain ⟨r, hscan⟩ := htail.lexes
  have hrest : (s'.cursor.toToken false).rest = tail.drop (Scan.trivia false false tail) := by
    rw [Cursor.rest_toToken, (h.of_end hend).2]
  rw [← hrest] at hscan
  obtain ⟨t', hread, -⟩ := exists_readFrom s' hscan
  refine ⟨t', ?_, hend, (stands_of_readFrom hread).1, ?_,
    (opened_of_readFrom hread).trans h.opened'⟩
  · rwa [advance_eq_ok_iff_readFrom, h.nesting.2]
  · rw [origin_of_readFrom hread, hrest]

theorem carried_expectStatementEnd (htail : Resumes tail) (h : Extends tail size (0, b, d) s s') :
    Carried Any (Reaches tail size (0, b, d)) (expectStatementEnd s) (expectStatementEnd s') := by
  rw [expectStatementEnd_eq, expectStatementEnd_eq, h.atEnd]
  cases s.atEnd with
  | false => exact carried_unexpected _
  | true =>
    rw [if_pos rfl, if_pos rfl]
    cases hend : s.current.token.isEnd with
    | false =>
      rw [(h.of_token hend).1]
      cases s.current.token.isSeparator with
      | true => exact (carried_advance h hend).mono .inl
      | false => exact carried_pure (.inl h) ()
    | true =>
      rintro a t ha -
      rw [isSeparator_of_isEnd hend, if_neg Bool.false_ne_true] at ha
      obtain ⟨-, rfl⟩ := pure_eq_ok_iff.1 ha
      obtain ⟨t', hadvance, hpast⟩ := h.past htail hend
      rw [(h.of_end hend).1]
      exact ⟨t', hadvance, .inr hpast⟩

theorem skipToElse_of_not_newline (h : s.current.token.isNewline = false) :
    skipToElse s = .ok (s.current.token.isKeyword .elseWord) s := by
  unfold skipToElse
  rw [h]
  cases s.current.token.isKeyword .elseWord <;> rfl

theorem skipToElse_of_newline (h : s.current.token.isNewline = true) :
    skipToElse s = match s.readFrom true s.cursor with
      | .error e => .error e s
      | .ok t => .ok (t.current.token.isKeyword .elseWord)
          (if t.current.token.isKeyword .elseWord then t else s) := by
  have helse : s.current.token.isKeyword .elseWord = false := by
    cases htok : s.current.token with
    | keyword word =>
      rw [htok] at h
      exact absurd h Bool.false_ne_true
    | _ => rfl
  unfold skipToElse
  rw [helse, h]
  cases s.readFrom true s.cursor with
  | error e => rfl
  | ok t =>
    dsimp only
    cases t.current.token.isKeyword .elseWord <;> rfl

/-- No `else` is found in the new line. -/
theorem skipToElse_nextLine (htail : Resumes tail) (hnewline : s'.current.token.isNewline = true)
    (hrest : (s'.cursor.toToken true).rest = tail.drop (Scan.trivia true false tail)) :
    skipToElse s' = .ok false s' := by
  obtain ⟨r, hscan, hr⟩ := htail.not_else
  rw [← hrest] at hscan
  obtain ⟨t', hread, htoken⟩ := exists_readFrom s' hscan
  rw [skipToElse_of_newline hnewline, hread]
  dsimp only
  rw [htoken, hr, if_neg Bool.false_ne_true]

/-- Looking for `else` is carried, also where the first text ends before one could follow. -/
theorem carried_skipToElse (htail : Resumes tail) (h : Extends tail size (0, b, d) s s') :
    Carried Any (Extends tail size (0, b, d)) (skipToElse s) (skipToElse s') := by
  rintro found t hfound -
  cases hend : s.current.token.isEnd with
  | true =>
    rw [skipToElse_of_not_newline (isNewline_of_isEnd hend), Token.eq_endOfInput hend] at hfound
    obtain ⟨rfl, rfl⟩ := pure_eq_ok_iff.1 hfound
    obtain ⟨htoken, hrest⟩ := h.of_end hend
    refine ⟨s', skipToElse_nextLine htail (by rw [htoken]; rfl) ?_, h⟩
    rw [Cursor.rest_toToken, hrest]
  | false =>
    obtain ⟨htoken, hrest⟩ := h.of_token hend
    cases hnewline : s.current.token.isNewline with
    | false =>
      rw [skipToElse_of_not_newline hnewline] at hfound
      obtain ⟨rfl, rfl⟩ := pure_eq_ok_iff.1 hfound
      refine ⟨s', ?_, h⟩
      rw [skipToElse_of_not_newline (htoken.symm ▸ hnewline), htoken]
    | true =>
      have hnewline' : s'.current.token.isNewline = true := by rw [htoken, hnewline]
      rw [skipToElse_of_newline hnewline] at hfound
      cases hread : s.readFrom true s.cursor with
      | error e =>
        rw [hread] at hfound
        nomatch hfound
      | ok u =>
        rw [hread] at hfound
        obtain ⟨rfl, rfl⟩ := pure_eq_ok_iff.1 hfound
        cases hu : u.current.token.isEnd with
        | true =>
          refine ⟨s', ?_, by rwa [Token.eq_endOfInput hu]⟩
          rw [Token.eq_endOfInput hu, skipToElse_nextLine htail hnewline']
          · rfl
          · refine Cursor.rest_toToken_nextLine_end hrest ?_
            rw [← origin_of_readFrom hread, ← (stands_of_readFrom hread).1.isEnd_iff, hu]
        | false =>
          obtain ⟨u', hread', hext⟩ := h.readFrom hend h.opened h.opened' hread fun _ => hu
          rw [skipToElse_of_newline hnewline', hread']
          dsimp only
          rw [hext.isKeyword]
          refine ⟨_, rfl, ?_⟩
          split
          · exact hext
          · exact h

end Ends

/-! ## Lines -/

section Lines

variable {tail : List Char} {size levels b d : Nat} {commands : CommandSet} {act : Parser Action}
  {s s' t u : State}

theorem Carries.giveBack (hact : Carries tail size Commandless act) :
    Carries tail size Commandless (giveBack act) := by
  intro b d s s' h
  refine (carried_expectKeyword h _).andThen fun _ u u' h => ?_
  rw [atStatementEnd_bind, atStatementEnd_bind, h.atEnd]
  cases u.atEnd with
  | true => exact carried_pure h _
  | false =>
    exact (hact h).map fun hpure => hpure

theorem peek?_of_advance (hn : s.nesting = 0) (h : advance s = .ok () t) :
    s.cursor.peek? = some t.current.token := by
  rw [advance_eq_ok_iff_readFrom, hn] at h
  obtain ⟨tok, d, hnext, rfl⟩ := readFrom_eq_ok_iff.1 h
  rw [Cursor.peek?, show s.cursor.next false = .ok (tok, d) from hnext]

theorem Carries.assignment (hact : Carries tail size Commandless act) (name : String)
    (h : Extends tail size (0, b, d) s s') (hend : s.current.token.isEnd = false)
    (hequals : s.cursor.peek?.any (·.isSymbol .equals) = true) :
    Carried Commandless (Extends tail size (0, b, d)) (assignment act name s)
      (assignment act name s') := by
  refine (carried_advance h hend).bind (fun _ _ => trivial) fun _ u u' hu _ hext => ?_
  rw [peek?_of_advance h.nesting.1 hu] at hequals
  refine (carried_advance hext (isEnd_of_isSymbol hequals)).andThen fun _ v v' h => ?_
  exact (hact h).map fun hpure => hpure

theorem Carries.statementFrom (hact : Carries tail size Commandless act) (a : Action) :
    Carries tail size Commandless (statementFrom act a) := by
  intro b d s s' h
  cases a with
  | command c => exact carried_pure h _
  | expression e =>
    cases e with
    | index target place =>
      dsimp only [Parser.statementFrom]
      rw [check_bind, check_bind, h.isSymbol]
      cases hequals : s.current.token.isSymbol .equals with
      | false => exact carried_pure h _
      | true =>
        refine (carried_advance h (isEnd_of_isSymbol hequals)).andThen fun _ u u' h => ?_
        exact (hact h).map fun hpure => hpure
    | _ => exact carried_pure h _

/-- Only an action that is no command starts a statement without commands. -/
theorem isPure_of_statementFrom {a : Action} {stmt : Stmt} (h : statementFrom act a s = .ok stmt t)
    (hpure : isPure stmt = true) : isPure a = true := by
  cases a with
  | expression e => rfl
  | command c =>
    obtain ⟨rfl, -⟩ := pure_eq_ok_iff.1 h
    exact hpure

theorem Carries.actionStatement (hact : Carries tail size Commandless act) :
    Carries tail size Commandless (actionStatement act) := by
  intro b d s s' h
  rw [actionStatement_eq]
  exact (hact h).bind isPure_of_statementFrom fun a u u' _ _ h => hact.statementFrom a h

theorem lineStatement_of_return (h : s.current.token.isKeyword .returnWord = true) :
    lineStatement act s = giveBack act s := by
  unfold lineStatement
  rw [current_bind]
  cases htok : s.current.token with
  | keyword word =>
    rw [htok] at h
    cases word <;> first | rfl | exact absurd h (by decide)
  | _ =>
    rw [htok] at h
    exact absurd h Bool.false_ne_true

theorem lineStatement_of_name {name : String} (hn : s.nesting = 0)
    (hname : s.current.token = .identifier name) : lineStatement act s =
      if s.cursor.peek?.any (·.isSymbol .equals) then assignment act name s
      else actionStatement act s := by
  unfold lineStatement
  rw [current_bind, hname]
  dsimp only
  rw [bind_eq_of_ok (peek?_eq hn)]
  cases s.cursor.peek? with
  | none => rfl
  | some tok =>
    cases tok with
    | symbol sign => cases sign <;> rfl
    | _ => rfl

theorem lineStatement_of_not_name (hreturn : s.current.token.isKeyword .returnWord = false)
    (hname : ∀ name, s.current.token ≠ .identifier name) :
    lineStatement act s = actionStatement act s := by
  unfold lineStatement
  rw [current_bind]
  cases htok : s.current.token with
  | keyword word =>
    rw [htok] at hreturn
    cases word <;> first | rfl | exact absurd hreturn (by decide)
  | identifier name => exact absurd htok (hname name)
  | _ => rfl

/-- Behind a name that starts a line without commands there is a token. -/
theorem readFrom_of_lineStatement {name : String} {stmt : Stmt} (hn : s.nesting = 0)
    (hname : s.current.token = .identifier name)
    (h : lineStatement (action commands (expression size levels)) s = .ok stmt t)
    (hpure : isPure stmt = true) : ∃ u, s.readFrom false s.cursor = .ok u := by
  cases hnext : s.cursor.next false with
  | ok r => exact ⟨_, readFrom_eq_ok_iff.2 ⟨r.1, r.2, hnext, rfl⟩⟩
  | error e =>
    have hpeek : s.cursor.peek? = none := by rw [Cursor.peek?, hnext]
    rw [lineStatement_of_name hn hname, hpeek, Option.any_none, if_neg Bool.false_ne_true,
      actionStatement_eq] at h
    obtain ⟨a, v, ha, h⟩ := bind_eq_ok_iff.1 h
    obtain ⟨e, -, -, hexpr, -⟩ := expression_of_pure hn ha (isPure_of_statementFrom h hpure)
    exact readFrom_of_expression hn hname hexpr

theorem carries_lineStatement (commands : CommandSet) (size levels : Nat) :
    Carries tail size Commandless (lineStatement (action commands (expression size levels))) := by
  intro b d s s' h
  have hact : Carries tail size Commandless _ := carries_action commands size levels
  cases hreturn : s.current.token.isKeyword .returnWord with
  | true =>
    rw [lineStatement_of_return hreturn,
      lineStatement_of_return ((h.isKeyword .returnWord).trans hreturn)]
    exact hact.giveBack h
  | false =>
    by_cases hname : ∃ name, s.current.token = .identifier name
    · obtain ⟨name, hname⟩ := hname
      intro stmt t hstmt hpure
      have hend : s.current.token.isEnd = false := by
        rw [hname]
        rfl
      obtain ⟨hn, hn'⟩ := h.nesting
      obtain ⟨u, hread⟩ := readFrom_of_lineStatement hn hname hstmt hpure
      obtain ⟨u', hext, hpeek, hpeek'⟩ := h.peek? hend hread
      have hany : s'.cursor.peek?.any (·.isSymbol .equals)
          = s.cursor.peek?.any (·.isSymbol .equals) := by
        rw [hpeek, hpeek']
        exact hext.isSymbol .equals
      rw [lineStatement_of_name hn' ((h.of_token hend).1.trans hname), hany]
      rw [lineStatement_of_name hn hname] at hstmt
      split at hstmt
      · next hequals =>
        rw [if_pos hequals]
        exact hact.assignment name h hend hequals hstmt hpure
      · next hequals =>
        rw [if_neg hequals]
        exact hact.actionStatement h hstmt hpure
    · have hname' : ∀ name, s'.current.token ≠ .identifier name := by
        intro name hs'
        obtain htoken | ⟨-, htoken⟩ := h.cases_token
        · exact hname ⟨name, htoken.symm.trans hs'⟩
        · rw [htoken] at hs'
          nomatch hs'
      rw [lineStatement_of_not_name hreturn (not_exists.1 hname),
        lineStatement_of_not_name ((h.isKeyword .returnWord).trans hreturn) hname']
      exact hact.actionStatement h

theorem carried_simpleStatement (commands : CommandSet) (levels : Nat) (htail : Resumes tail)
    (h : Extends tail size (0, b, d) s s') :
    Carried Commandless (Reaches tail size (0, b, d))
      (simpleStatement (action commands (expression size levels)) s)
      (simpleStatement (action commands (expression size levels)) s') := by
  refine (carries_lineStatement commands size levels h).bind (fun hb hpure => ?_)
    fun stmt u u' _ _ h => (carried_expectStatementEnd htail h).andThen fun _ v v' h =>
      carried_pure h stmt
  obtain ⟨_, v, -, hb⟩ := bind_eq_ok_iff.1 hb
  obtain ⟨rfl, -⟩ := pure_eq_ok_iff.1 hb
  exact hpure

end Lines

/-! ## Parameters -/

section Parameters

variable {tail : List Char} {size b d : Nat} {s s' t : State}

theorem isSymbol_of_expect {sign : Symbol} (h : expect sign s = .ok () t) :
    s.current.token.isSymbol sign = true := by
  unfold expect at h
  rw [check_bind] at h
  split at h
  · assumption
  · exact absurd h unexpected_ne_ok

theorem isSymbol_of_closeGroup {sign : Symbol} (h : closeGroup sign s = .ok () t) :
    s.current.token.isSymbol sign = true := by
  unfold closeGroup at h
  rw [check_bind] at h
  split at h
  · assumption
  · exact absurd h unexpected_ne_ok

theorem carried_closeGroup (h : Extends tail size (1, b, d) s s') (sign : Symbol) :
    Carried Any (Extends tail size (0, b, d)) (closeGroup sign s) (closeGroup sign s') := by
  unfold closeGroup
  rw [check_bind, check_bind, h.isSymbol]
  cases hsign : s.current.token.isSymbol sign with
  | true =>
    rw [if_pos rfl, modify_bind, modify_bind]
    exact carried_advance (h.group (· - 1)) (isEnd_of_isSymbol hsign)
  | false => exact carried_unexpected _

/-- At the end of a text there is no name. -/
theorem inside_of_parametersFrom {names : List String} :
    ∀ {n : Nat} {earlier : List String}, parametersFrom n earlier s = .ok names t →
      t.current.token.isEnd = false → s.current.token.isEnd = false
  | 0, earlier, h, ht => by
    obtain ⟨-, rfl⟩ := pure_eq_ok_iff.1 h
    exact ht
  | n + 1, earlier, h, _ => by
    rw [parametersFrom, check_bind] at h
    split at h
    · next hparen => exact isEnd_of_isSymbol hparen
    · obtain ⟨name, u, hname, -⟩ := bind_eq_ok_iff.1 h
      unfold expectName at hname
      rw [current_bind] at hname
      cases htok : s.current.token with
      | endOfInput =>
        rw [htok] at hname
        exact absurd hname unexpected_ne_ok
      | _ => rfl

theorem carried_parametersFrom : ∀ (n : Nat) (earlier : List String) {s s' : State},
    Extends tail size (1, b, d) s s' → Carried Inside (Extends tail size (1, b, d))
      (parametersFrom n earlier s) (parametersFrom n earlier s')
  | 0, _, s, s', h => carried_pure h []
  | n + 1, earlier, s, s', h => by
    rw [parametersFrom, check_bind, check_bind, h.isSymbol]
    cases s.current.token.isSymbol .rightParen with
    | true => exact carried_pure h []
    | false =>
      rw [if_neg Bool.false_ne_true]
      refine (carried_expectName_group h _).bind (fun {name u names t} hnames hinside _ => ?_)
        fun name u u' _ _ h => ?_
      -- within the brackets a name is followed by more of the first text
      · split at hnames
        · cases hnames
        · rw [check_bind] at hnames
          split at hnames
          · next hcomma => exact isEnd_of_isSymbol hcomma
          · obtain ⟨-, rfl⟩ := pure_eq_ok_iff.1 hnames
            exact hinside
      cases earlier.contains name with
      | true =>
        intro _ _ hnames
        cases hnames
      | false =>
        rw [if_neg Bool.false_ne_true, check_bind, check_bind, h.isSymbol]
        cases hcomma : u.current.token.isSymbol .comma with
        | false => exact carried_pure h [name]
        | true =>
          rw [if_pos rfl]
          refine (carried_advance_group h (isEnd_of_isSymbol hcomma)).bind
            (fun hnames hinside _ => ?_) fun _ v v' _ _ h => ?_
          · obtain ⟨names, w, hmore, hnames⟩ := bind_eq_ok_iff.1 hnames
            obtain ⟨-, rfl⟩ := pure_eq_ok_iff.1 hnames
            exact inside_of_parametersFrom hmore hinside
          exact (carried_parametersFrom n (name :: earlier) h).map fun hinside => hinside

theorem inside_of_enclosed {names : List String} (hn : 0 < s.nesting)
    (h : enclosed size s.dropGroupedNewlines = .ok names t) : s.current.token.isEnd = false := by
  rw [State.dropGroupedNewlines_of_not (not_newline_of_enclosed hn h)] at h
  obtain ⟨names, v, hmore, h⟩ := bind_eq_ok_iff.1 h
  obtain ⟨_, w, hclose, -⟩ := bind_eq_ok_iff.1 h
  exact inside_of_parametersFrom hmore (isEnd_of_isSymbol (isSymbol_of_closeGroup hclose))

theorem carried_enclosed (h : Extends tail size (1, b, d) s s') (hn : 0 < s.nesting)
    (hs : s.current.token.isEnd = false) :
    Carried Any (Extends tail size (0, b, d)) (enclosed size s.dropGroupedNewlines)
      (enclosed size s'.dropGroupedNewlines) := by
  intro names t hnames hany
  have hline := not_newline_of_enclosed hn hnames
  rw [State.dropGroupedNewlines_of_not hline] at hnames
  rw [State.dropGroupedNewlines_of_not ((h.of_token hs).1 ▸ hline)]
  refine (carried_parametersFrom size [] h).bind (fun hnames _ => ?_) (fun names v v' _ hv h => ?_)
    hnames hany
  · obtain ⟨_, w, hclose, -⟩ := bind_eq_ok_iff.1 hnames
    exact isEnd_of_isSymbol (isSymbol_of_closeGroup hclose)
  · exact (carried_closeGroup h _).andThen fun _ w w' h => carried_pure h names

theorem carries_parameters (size : Nat) : Carries tail size Any (parameters size) := by
  intro b d s s' h
  refine Carried.bind (P := Inside) (fun _ _ hexpect _ => carried_expect h _ hexpect trivial)
    (fun {_ u names t} hnames _ => ?_) fun _ u u' _ hu h => ?_
  · exact inside_of_enclosed (s := { u with nesting := u.nesting + 1 }) (Nat.succ_pos _) hnames
  · exact carried_enclosed (h.group (· + 1)) (Nat.succ_pos _) hu

end Parameters

/-! ## Blocks -/

section Blocks

variable {tail : List Char} {size : Nat} {stmt : Parser Stmt} {block : Parser (List Stmt)}
  {expr : Parser Expr} {s s' t : State}

theorem Carries.nested {α : Type} [Readable α] {p : Parser α}
    (hp : Carries tail size Commandless p) : Carries tail size Commandless (nested p) := by
  intro b d s s' h a t ha hpure
  unfold Parser.nested at ha ⊢
  split at ha
  · next a u hinner =>
    obtain ⟨rfl, rfl⟩ := pure_eq_ok_iff.1 ha
    obtain ⟨u', hinner', hext⟩ := hp (h.nested (· + 1)) hinner hpure
    rw [hinner']
    exact ⟨_, rfl, hext.nested (· - 1)⟩
  · nomatch ha

/-- What a statement without commands reads is carried, past the end of the first text too. -/
def CarriesStatement (tail : List Char) (size : Nat) (stmt : Parser Stmt) : Prop :=
  ∀ ⦃b d : Nat⦄ ⦃s s' : State⦄, Extends tail size (0, b, d) s s' →
    Carried Commandless (Reaches tail size (0, b, d)) (stmt s) (stmt s')

theorem CarriesStatement.inside (hstmt : CarriesStatement tail size stmt) {b d : Nat}
    (h : Extends tail size (0, b, d) s s') :
    Carried (fun st t => Commandless st t ∧ Inside st t) (Extends tail size (0, b, d)) (stmt s)
      (stmt s') := by
  intro st t hst hcarry
  obtain ⟨t', hst', hreach⟩ := hstmt h hst hcarry.1
  exact ⟨t', hst', hreach.inside hcarry.2⟩

theorem carried_skipSeparators : ∀ (n : Nat) {b d : Nat} {s s' : State},
    Extends tail size (0, b, d) s s' → Carried Inside (Extends tail size (0, b, d))
      (skipSeparators n s) (skipSeparators n s')
  | 0, _, _, s, s', h => carried_pure h ()
  | n + 1, b, d, s, s', h => by
    rw [skipSeparators_succ, skipSeparators_succ]
    cases hend : s.current.token.isEnd with
    | false =>
      rw [(h.of_token hend).1]
      cases s.current.token.isSeparator with
      | true =>
        exact (carried_advance h hend).andThen fun _ u u' h => carried_skipSeparators n h
      | false => exact carried_pure h ()
    | true =>
      intro a t ha hinside
      rw [isSeparator_of_isEnd hend, if_neg Bool.false_ne_true] at ha
      obtain ⟨-, rfl⟩ := pure_eq_ok_iff.1 ha
      exact absurd (hinside.symm.trans hend) Bool.false_ne_true

theorem skipSeparators_of_isEnd (hend : s.current.token.isEnd = true) :
    ∀ n : Nat, skipSeparators n s = .ok () s
  | 0 => rfl
  | n + 1 => by
    rw [skipSeparators_succ, isSeparator_of_isEnd hend]
    rfl

/-- A block does not start at the end of a text, … -/
theorem inside_of_blockFrom {body : List Stmt} : ∀ {n : Nat}, blockFrom size stmt n s = .ok body t →
    t.current.token.isEnd = false → s.current.token.isEnd = false
  | 0, h, ht => by
    obtain ⟨-, rfl⟩ := pure_eq_ok_iff.1 h
    exact ht
  | n + 1, h, _ => by
    cases hend : s.current.token.isEnd with
    | false => rfl
    | true =>
      have hbrace : s.current.token.isSymbol .rightBrace = false := by
        rw [Token.eq_endOfInput hend]
        rfl
      rw [blockFrom, bind_eq_of_ok (skipSeparators_of_isEnd hend size), check_bind, hbrace,
        if_neg Bool.false_ne_true, current_bind, if_pos hend] at h
      exact absurd h unexpected_ne_ok

theorem carried_blockFrom (hstmt : CarriesStatement tail size stmt) : ∀ (n : Nat) {b d : Nat}
    {s s' : State}, Extends tail size (0, b, d) s s' →
      Carried (fun body t => Commandless body t ∧ Inside body t) (Extends tail size (0, b, d))
        (blockFrom size stmt n s) (blockFrom size stmt n s')
  | 0, _, _, s, s', h => carried_pure h []
  | n + 1, b, d, s, s', h => by
    rw [blockFrom]
    refine (carried_skipSeparators size h).bind (fun hbody _ => ?_) fun _ u u' _ hu h => ?_
    -- a block that comes to the end of the text is refused
    · rw [check_bind] at hbody
      split at hbody
      · next hbrace => exact isEnd_of_isSymbol hbrace
      · rw [current_bind] at hbody
        split at hbody
        · exact absurd hbody unexpected_ne_ok
        · next hend => exact Bool.eq_false_iff.2 hend
    · rw [check_bind, check_bind, h.isSymbol]
      cases u.current.token.isSymbol .rightBrace with
      | true => exact carried_pure h []
      | false =>
        rw [if_neg Bool.false_ne_true, current_bind, current_bind, (h.of_token hu).1]
        split
        · exact carried_unexpected _
        refine (hstmt.inside h).bind (fun hbody hcarry => ?_) fun st v v' _ _ h => ?_
        · obtain ⟨ss, w, hss, hbody⟩ := bind_eq_ok_iff.1 hbody
          obtain ⟨rfl, rfl⟩ := pure_eq_ok_iff.1 hbody
          exact ⟨(isPure_cons.1 hcarry.1).1, inside_of_blockFrom hss hcarry.2⟩
        exact (carried_blockFrom hstmt n h).map fun hcarry =>
          ⟨(isPure_cons.1 hcarry.1).2, hcarry.2⟩

/-- **A block is carried**: it ends with its brace, so within the first text. -/
theorem CarriesStatement.blockOf (hstmt : CarriesStatement tail size stmt) :
    Carries tail size Commandless (blockOf size stmt) := by
  intro b d s s' h
  refine (carried_expect h _).andThen fun _ u u' h => ?_
  rw [modify_bind, modify_bind]
  refine (carried_blockFrom hstmt size (h.block (· + 1))).bind (fun hbody hpure => ?_)
    fun body v v' _ _ h => ?_
  · rw [modify_bind] at hbody
    obtain ⟨_, w, hexpect, hbody⟩ := bind_eq_ok_iff.1 hbody
    obtain ⟨rfl, -⟩ := pure_eq_ok_iff.1 hbody
    have hbrace := isSymbol_of_expect hexpect
    exact ⟨hpure, isEnd_of_isSymbol hbrace⟩
  · rw [modify_bind, modify_bind]
    exact (carried_expect (h.block (· - 1)) _).andThen fun _ w w' h => carried_pure h body

/-- The parser only starts at an opening brace. -/
def Opens (block : Parser (List Stmt)) : Prop :=
  ∀ ⦃s t : State⦄ ⦃body : List Stmt⦄, block s = .ok body t →
    s.current.token.isSymbol .leftBrace = true

theorem opens_nested_blockOf (size : Nat) (stmt : Parser Stmt) :
    Opens (nested (blockOf size stmt)) := by
  intro s t body h
  unfold nested at h
  split at h
  · next hblock =>
    obtain ⟨_, u, hexpect, -⟩ := bind_eq_ok_iff.1 hblock
    have hbrace := isSymbol_of_expect hexpect
    exact hbrace
  · nomatch h

/-! ## Statements -/

/-- An expression, the block behind it, and what follows: the brace shows where the expression
ends. -/
theorem Carries.andBlock {β : Type} [Readable β] {f : Expr → List Stmt → Parser β} {b d : Nat}
    (hexpr : Carries tail size Unbound expr) (hblock : Carries tail size Commandless block)
    (hopens : Opens block) (h : Extends tail size (0, b, d) s s')
    (hpure : ∀ {e body u a t}, f e body u = .ok a t → isPure a = true → isPure body = true)
    (hf : ∀ e body u u', Extends tail size (0, b, d) u u' →
      Carried Commandless (Extends tail size (0, b, d)) (f e body u) (f e body u')) :
    Carried Commandless (Extends tail size (0, b, d))
      ((do let e ← expr; let body ← block; f e body) s)
      ((do let e ← expr; let body ← block; f e body) s') := by
  refine (hexpr h).bind (fun {e u a t} hb _ => ?_) fun e u u' _ _ h =>
    (hblock h).bind hpure fun body v v' _ _ h => hf e body v v' h
  obtain ⟨body, v, hbody, -⟩ := bind_eq_ok_iff.1 hb
  change u.current.token.binds = 0
  rw [Token.isSymbol_iff.1 (hopens hbody)]
  rfl

theorem carried_otherwiseFrom (htail : Resumes tail) (hexpr : Carries tail size Unbound expr)
    (hblock : Carries tail size Commandless block) (hopens : Opens block) : ∀ (n : Nat) {b d : Nat}
      {s s' : State}, Extends tail size (0, b, d) s s' →
        Carried Commandless (Extends tail size (0, b, d)) (otherwiseFrom expr block n s)
          (otherwiseFrom expr block n s')
  | 0, _, _, s, s', h => carried_pure h _
  | n + 1, b, d, s, s', h => by
    rw [otherwiseFrom]
    refine (carried_skipToElse htail h).andThen fun found u u' h => ?_
    cases found with
    | false => exact carried_pure h _
    | true =>
      refine (carried_expectKeyword h _).andThen fun _ u u' h => ?_
      rw [current_bind, current_bind, h.isKeyword]
      cases hword : u.current.token.isKeyword .ifWord with
      | false =>
        exact (hblock h).map fun hpure => hpure
      | true =>
        refine (carried_advance h (isEnd_of_isKeyword hword)).andThen fun _ u u' h => ?_
        refine hexpr.andBlock hblock hopens h (fun hb hpure => ?_) fun test body u u' h => ?_
        · obtain ⟨rest, v, -, hb⟩ := bind_eq_ok_iff.1 hb
          obtain ⟨rfl, -⟩ := pure_eq_ok_iff.1 hb
          exact (Bool.and_eq_true_iff.1 hpure).1
        exact (carried_otherwiseFrom htail hexpr hblock hopens n h).map fun hpure =>
          (Bool.and_eq_true_iff.1 hpure).2

theorem carries_conditional (htail : Resumes tail) (hexpr : Carries tail size Unbound expr)
    (hblock : Carries tail size Commandless block) (hopens : Opens block) :
    Carries tail size Commandless (conditional size expr block) := by
  intro b d s s' h
  refine (carried_expectKeyword h _).andThen fun _ u u' h => ?_
  refine hexpr.andBlock hblock hopens h (fun hb hpure => ?_) fun test body u u' h => ?_
  · obtain ⟨rest, v, -, hb⟩ := bind_eq_ok_iff.1 hb
    obtain ⟨rfl, -⟩ := pure_eq_ok_iff.1 hb
    exact (Bool.and_eq_true_iff.1 hpure).1
  exact (carried_otherwiseFrom htail hexpr hblock hopens size h).map fun hpure =>
    (Bool.and_eq_true_iff.1 hpure).2

theorem carries_loop (hexpr : Carries tail size Unbound expr)
    (hblock : Carries tail size Commandless block) (hopens : Opens block) :
    Carries tail size Commandless (loop expr block) := by
  intro b d s s' h
  refine (carried_expectKeyword h _).andThen fun _ u u' h => ?_
  refine (carried_expectName h _).andThen fun name u u' h => ?_
  refine (carried_expectKeyword h _).andThen fun _ u u' h => ?_
  refine hexpr.andBlock hblock hopens h (fun hb hpure => ?_) fun items body u u' h =>
    carried_pure h _
  obtain ⟨rfl, -⟩ := pure_eq_ok_iff.1 hb
  exact hpure

theorem carries_functionDef (hblock : Carries tail size Commandless block) :
    Carries tail size Commandless (functionDef size block) := by
  intro b d s s' h
  refine (carried_expectKeyword h _).andThen fun _ u u' h => ?_
  refine (carried_expectName h _).andThen fun name u u' h => ?_
  refine (carries_parameters size h).andThen fun params u u' h => ?_
  exact (hblock h).map fun hpure => hpure

theorem carriesStatement_statementOf (commands : CommandSet) (levels : Nat) (htail : Resumes tail)
    (hblock : Carries tail size Commandless block) (hopens : Opens block) :
    CarriesStatement tail size (statementOf size (expression size levels)
      (action commands (expression size levels)) block) := by
  intro b d s s' h
  have hexpr : Carries tail size Unbound _ := carries_expression size levels
  have hsimple := carried_simpleStatement commands levels htail h
  unfold statementOf
  rw [current_bind, current_bind]
  obtain htoken | ⟨hs, hs'⟩ := h.cases_token
  · rw [htoken]
    cases s.current.token with
    | keyword word =>
      cases word with
      | ifWord => exact (carries_conditional htail hexpr hblock hopens h).mono .inl
      | forWord => exact (carries_loop hexpr hblock hopens h).mono .inl
      | funcWord => exact (carries_functionDef hblock h).mono .inl
      | _ => exact hsimple
    | symbol sign =>
      cases sign with
      | leftBrace =>
        exact ((hblock h).mono .inl).map fun hpure => hpure
      | _ => exact hsimple
    | _ => exact hsimple
  · rw [hs, hs']
    exact hsimple

/-- **A statement without commands is carried.** -/
theorem carriesStatement_statement (commands : CommandSet) (htail : Resumes tail) :
    ∀ levels : Nat, CarriesStatement tail size (statement commands size levels)
  | 0 => carriesStatement_statementOf commands 0 htail (fun _ _ _ _ _ _ _ h => nomatch h)
      fun _ _ _ h => nomatch h
  | levels + 1 => carriesStatement_statementOf commands (levels + 1) htail
      (carriesStatement_statement commands htail levels).blockOf.nested
      (opens_nested_blockOf size _)

end Blocks

end Parser

end CommandScript
