import CommandScript.Parser.Stmt
import CommandScript.Proofs.Parser.Expression
import CommandScript.Proofs.Shell.Words

/-!
# Proofs/Parser/Action — both readings of a line

A line that an expression fills may also be led by the name of a command. It is then read twice,
once as an expression and once, from its first token, as a command line. If the line is plain, both
readings end at the same token, and the parser goes on as if there were no command of that name
(`action_of_expression`).

What is known about the text ahead of a parser is `State.Fits`: it has no semicolon, and every line
in it that a command of the set may lead is plain (`Cursor.PlainText`).
-/

namespace CommandScript

/-- The token behind a cursor, unless it cannot be read. -/
def Cursor.peek? (c : Cursor) : Option Token :=
  match c.next false with
  | .ok (t, _) => some t.token
  | .error _ => none

/-- Whether the token, which ends at the cursor, may lead a command line. -/
def CommandSet.leads (commands : CommandSet) (t : Token) (d : Cursor) : Bool :=
  match t with
  | .identifier name => commands.contains name && !Parser.marksVariable d.peek?
  | _ => false

/-- The text behind the cursor consists of tokens, and is plain from each on that may lead a command
line up to the end of that line. -/
inductive Cursor.PlainText (commands : CommandSet) : Cursor → Prop
  | done {c d : Cursor} {t : Located} : c.next false = .ok (t, d) → t.token.isEnd = true →
    PlainText commands c
  | more {c d : Cursor} {t : Located} : c.next false = .ok (t, d) → t.token.isEnd = false →
    (commands.leads t.token d = true → (c.toToken false).PlainLine) → PlainText commands d →
    PlainText commands c

namespace Cursor

variable {commands : CommandSet} {c d : Cursor} {t : Located}

/-- Whether the text behind the cursor is plain where commands may lead a line, found by reading at
most `size` tokens. -/
def isPlainText (commands : CommandSet) : (size : Nat) → Cursor → Bool
  | 0, _ => false
  | size + 1, c =>
    match c.next false with
    | .error _ => false
    | .ok (t, d) =>
      if t.token.isEnd then true
      else (!commands.leads t.token d || isPlainLine (size + 1) (c.toToken false))
        && isPlainText commands size d

theorem plainText_of_isPlainText : ∀ {size : Nat} {c : Cursor},
    isPlainText commands size c = true → c.PlainText commands
  | 0, _, h => absurd h Bool.false_ne_true
  | size + 1, c, h => by
    rw [isPlainText] at h
    split at h
    · exact absurd h Bool.false_ne_true
    · next t d hnext =>
      split at h
      · next hend => exact .done hnext hend
      · next hend =>
        obtain ⟨hline, hrest⟩ := Bool.and_eq_true_iff.1 h
        refine .more hnext (Bool.eq_false_iff.2 hend) (fun hleads => ?_)
          (plainText_of_isPlainText hrest)
        rw [hleads] at hline
        exact plainLine_of_isPlainLine hline

/-- Only the place of the next token matters. -/
theorem PlainText.congr (h : c.PlainText commands) (hplace : c.toToken false = d.toToken false) :
    d.PlainText commands := by
  have heq : d.next false = c.next false := by
    rw [← next_toToken false d, ← hplace, next_toToken]
  obtain ⟨hnext, hend⟩ | ⟨hnext, hend, hline, hrest⟩ := h
  · exact .done (heq.trans hnext) hend
  · rw [hplace] at hline
    exact .more (heq.trans hnext) hend hline hrest

theorem PlainText.toToken (h : c.PlainText commands) (acrossLines : Bool) :
    (c.toToken acrossLines).PlainText commands := by
  cases acrossLines with
  | false => exact h.congr (toToken_toToken false c).symm
  | true =>
    have hwithin : ∀ {c d : Cursor} {t : Located}, c.next false = .ok (t, d) →
        t.token.isNewline = false → c.PlainText commands → (c.toToken true).PlainText commands := by
      intro c d t hnext ht h
      rw [toToken_across_of_not_newline hnext ht]
      exact h.congr (toToken_toToken false c).symm
    induction h with
    | done hnext hend => exact hwithin hnext (Parser.isNewline_of_isEnd hend) (.done hnext hend)
    | @more c d t hnext hend hline hrest ih =>
      cases ht : t.token.isNewline with
      | false => exact hwithin hnext ht (.more hnext hend hline hrest)
      | true => rwa [toToken_across_of_newline hnext ht]

/-- Behind the end of the text there is nothing but the end of the text. -/
theorem next_of_isEnd (hnext : c.next false = .ok (t, d)) (hend : t.token.isEnd = true) :
    d.next false = c.next false := by
  obtain ⟨n, hscan, rfl, -⟩ := next_eq_ok_iff.1 hnext
  cases hrest : (c.toToken false).rest with
  | nil =>
    rw [hrest, Token.scan_nil] at hscan
    obtain ⟨-, rfl⟩ := Prod.mk.inj (Except.ok.inj hscan)
    exact next_toToken false c
  | cons ch rest =>
    rw [hrest] at hscan
    rw [(Token.scan_cons hscan).2.1] at hend
    exact absurd hend (by decide)

theorem PlainText.behind (h : c.PlainText commands) (hnext : c.next false = .ok (t, d)) :
    d.PlainText commands := by
  cases hend : t.token.isEnd with
  | true => exact .done ((next_of_isEnd hnext hend).trans hnext) hend
  | false =>
    obtain ⟨hnext', hend'⟩ | ⟨hnext', -, -, hrest⟩ := h
    · obtain ⟨rfl, -⟩ := eq_of_next hnext hnext'
      rw [hend] at hend'
      exact absurd hend' (by decide)
    · obtain ⟨-, rfl⟩ := eq_of_next hnext hnext'
      exact hrest

theorem PlainText.line (h : c.PlainText commands) (hnext : c.next false = .ok (t, d))
    (hleads : commands.leads t.token d = true) : (c.toToken false).PlainLine := by
  obtain ⟨hnext', hend⟩ | ⟨hnext', -, hline, -⟩ := h
  · obtain ⟨rfl, -⟩ := eq_of_next hnext hnext'
    rw [Token.eq_endOfInput hend] at hleads
    exact absurd hleads Bool.false_ne_true
  · obtain ⟨rfl, rfl⟩ := eq_of_next hnext hnext'
    exact hline hleads

end Cursor

/-! ## Elements

An element of something that a name leads shows by the token behind the name that no command is
meant. -/

namespace Grammar

variable {L : Lang Expr} {ops : List BinaryOp} {ts : List Token} {e left : Expr}

theorem ChainFrom.eq_or_binary (h : ChainFrom ops L left ts e) :
    (ts = [] ∧ e = left) ∨ ∃ op l r, e = .binary op l r := by
  induction h with
  | stop => exact .inl ⟨rfl, rfl⟩
  | more _ _ _ ih =>
    obtain ⟨-, rfl⟩ | hbinary := ih
    · exact .inr ⟨_, _, _, rfl⟩
    · exact .inr hbinary

theorem Chain.of_index {target place : Expr} (h : Chain ops L ts (.index target place)) :
    L ts (.index target place) := by
  obtain ⟨hleft, hrest⟩ := h
  obtain ⟨rfl, rfl⟩ | ⟨op, l, r, hbinary⟩ := hrest.eq_or_binary
  · rwa [List.append_nil]
  · cases hbinary

theorem RangeOf.of_index {target place : Expr} (h : RangeOf L ts (.index target place)) :
    L ts (.index target place) := by
  cases h with
  | single h => exact h

theorem OperandOf.of_index {deeper : Lang Expr} {target place : Expr}
    (h : OperandOf L deeper ts (.index target place)) : Suffixed L ts (.index target place) := by
  cases h with
  | plain h => exact h

theorem Suffixed.marksVariable {name : String} {target place : Expr}
    (h : Suffixed L (.identifier name :: ts) (.index target place)) :
    Parser.marksVariable ts.head? = true := by
  generalize hus : Token.identifier name :: ts = us at h
  obtain ⟨hprimary, hsuffixes⟩ := h
  cases hprimary <;> cases hus
  cases hsuffixes <;> rfl

theorem marksVariable_of_index {levels : Nat} {name : String} {target place : Expr}
    (h : ExpressionOf (Operand levels) (.identifier name :: ts) (.index target place)) :
    Parser.marksVariable ts.head? = true := by
  have hoperand := h.of_index.of_index.of_index.of_index.of_index.of_index
  cases levels with
  | zero => exact absurd hoperand id
  | succ levels => exact hoperand.of_index.marksVariable

end Grammar

namespace Parser

/-! ## The text ahead -/

/-- The state is at a token of a text that has no semicolon and is plain where commands may lead. -/
structure State.Fits (commands : CommandSet) (s : State) : Prop where
  next : s.origin.next false = .ok (s.current, s.cursor)
  origin : s.origin.toToken false = s.origin
  plain : s.origin.PlainText commands
  semicolon : ';' ∉ s.origin.rest

variable {commands : CommandSet} {s t : State}

theorem fits_of_readFrom {c : Cursor} {acrossLines : Bool} (hplain : c.PlainText commands)
    (hsemicolon : ';' ∉ c.rest) (h : s.readFrom acrossLines c = .ok t) : t.Fits commands := by
  obtain ⟨tok, d, hnext, rfl⟩ := readFrom_eq_ok_iff.1 h
  refine ⟨?_, Cursor.toToken_toToken _ _, hplain.toToken _, fun hmem => hsemicolon ?_⟩
  · rwa [Cursor.next_toToken]
  · change ';' ∈ (c.toToken acrossLines).rest at hmem
    rw [Cursor.toToken, Cursor.rest_skip] at hmem
    exact List.mem_of_mem_drop hmem

namespace State.Fits

/-- The text behind the current token is as good. -/
theorem readFrom (h : s.Fits commands) {u : State} {acrossLines : Bool}
    (hread : u.readFrom acrossLines s.cursor = .ok t) : t.Fits commands := by
  refine fits_of_readFrom (h.plain.behind h.next) (fun hmem => h.semicolon ?_) hread
  obtain ⟨n, -, hcursor, -⟩ := Cursor.next_eq_ok_iff.1 h.next
  rw [hcursor, h.origin, Cursor.rest_skip] at hmem
  exact List.mem_of_mem_drop hmem

theorem walk {ts : List Token} (h : s.Fits commands) (hwalk : Walk s ts t) : t.Fits commands := by
  induction hwalk with
  | stop => exact h
  | step hshift _ ih => exact ih (h.readFrom hshift)

theorem not_semicolon (h : s.Fits commands) : s.current.token ≠ .symbol .semicolon := by
  intro heq
  obtain ⟨n, hscan, -⟩ := Cursor.next_eq_ok_iff.1 h.next
  rw [h.origin, heq] at hscan
  cases hrest : s.origin.rest with
  | nil =>
    rw [hrest, Token.scan_nil] at hscan
    exact absurd hscan (by simp)
  | cons ch rest =>
    rw [hrest] at hscan
    obtain rfl : ';' = ch := Option.some.inj (Token.scan_symbol hscan)
    exact h.semicolon (by rw [hrest]; exact List.mem_cons_self)

end State.Fits

theorem endsLine_of_isOrdinary {tok : Token} (h : tok.isOrdinary = true) :
    Cursor.endsLine true tok = false := by
  simp only [Token.isOrdinary, Token.isSeparator, Bool.and_eq_true, Bool.not_eq_true',
    Bool.or_eq_false_iff] at h
  simp [Cursor.endsLine, h]

/-- Tokens of a line, up to one that ends it, lead to the place where the line ends. -/
theorem eq_of_walk {ts : List Token} (hwalk : Walk s ts t)
    (ht : Cursor.endsLine true t.current.token = true) :
    (∀ tok ∈ ts, tok.isOrdinary = true) → ∀ {c target : Cursor} {last : Token},
    c.next false = .ok (s.current, s.cursor) → c.toToken false = s.origin →
    c.TokensEnd s.nesting last target → last = t.current.token ∧ target = t.origin := by
  induction hwalk with
  | stop s =>
    intro _ c target last hnext horigin hline
    rw [← horigin]
    exact hline.eq_of_endsLine hnext ht
  | @step s u t ts hshift _ ih =>
    intro hts c target last hnext _ hline
    obtain ⟨htok, hts⟩ := List.forall_mem_cons.1 hts
    have hrest := hline.behind hnext (endsLine_of_isOrdinary htok)
    obtain ⟨hwithin, hplace⟩ := hrest.within
    obtain ⟨tok, d, hnext', rfl⟩ := readFrom_eq_ok_iff.1 hshift
    exact ih ht hts (hwithin.symm.trans hnext') hplace.symm hrest

/-- Read as a command line, a plain line has words and ends where its expression does. -/
theorem commandLine_of_walk {inBlock : Bool} {tok : Token} {ts : List Token}
    (hs : s.Fits commands) (hnesting : s.nesting = 0) (hwalk : Walk s (tok :: ts) t)
    (hline : s.origin.PlainLine) (hts : ∀ tok' ∈ tok :: ts, tok'.isOrdinary = true)
    (ht : Cursor.endsLine inBlock t.current.token = true) :
    ∃ parts span words c, s.origin.commandLine inBlock = .ok (⟨.word parts, span⟩ :: words, c)
      ∧ c.toToken false = t.origin := by
  obtain ⟨last, target, htokens, hwords⟩ := hline
  rw [← hnesting] at htokens
  obtain ⟨rfl, rfl⟩ := eq_of_walk hwalk (Cursor.endsLine_in_block ht) hts hs.next hs.origin htokens
  obtain ⟨words, e, hcommand, hplace⟩ := hwords inBlock ht
  obtain ⟨-, -, tok', d, hnext, hends⟩ | ⟨parts, width, rest, -, -, rfl, -⟩ :=
    Cursor.wordsFrom_cases hcommand
  · obtain ⟨rfl, -⟩ := Cursor.eq_of_next hs.next hnext
    have htok := hts tok List.mem_cons_self
    rw [hwalk.current_eq] at hends
    exact absurd (Cursor.endsLine_in_block hends) (by simp [endsLine_of_isOrdinary htok])
  · exact ⟨parts, _, rest, e, hcommand, hplace⟩

/-! ## Complete lines -/

/-- Whether the current token can end a simple statement. -/
def State.atEnd (s : State) : Bool :=
  s.current.token.isNewline || s.current.token.isSymbol .semicolon || s.current.token.isEnd
    || (s.current.token.isSymbol .rightBrace && 0 < s.blockDepth)

/-- Whether an expression just read fills its line. -/
def State.completes (s : State) : Expr → Bool
  | .index _ _ => s.atEnd || s.current.token.isSymbol .equals
  | _ => s.atEnd

theorem isComplete_eq (e : Expr) (s : State) : isComplete e s = .ok (s.completes e) s := by
  cases e <;> rfl

/-! ## Commands that lead a line -/

theorem peek?_eq (hs : s.nesting = 0) : peek? s = .ok s.cursor.peek? s := by
  unfold peek? Cursor.peek?
  rw [hs]
  cases hnext : s.cursor.next false with
  | error e => simp [hnext]
  | ok td => simp [hnext]

theorem knownCommand?_cases (commands : CommandSet) (hs : s.nesting = 0) :
    knownCommand? commands s = .ok none s ∨ ∃ name, s.current.token = .identifier name
      ∧ commands.leads s.current.token s.cursor = true
      ∧ knownCommand? commands s = .ok (some name) s := by
  unfold knownCommand?
  rw [current_bind]
  generalize s.current.token = tok
  split
  · next name =>
    cases hname : commands.contains name with
    | false => exact .inl rfl
    | true =>
      rw [if_pos rfl, bind_eq_of_ok (peek?_eq hs)]
      cases hmarks : marksVariable s.cursor.peek? with
      | true => exact .inl rfl
      | false => exact .inr ⟨name, rfl, by simp [CommandSet.leads, hname, hmarks], rfl⟩
  · exact .inl rfl

/-- Unless a command leads the line, none is known. -/
theorem knownCommand?_eq_none_iff (commands : CommandSet) (hs : s.nesting = 0) :
    knownCommand? commands s = .ok none s
      ↔ commands.leads s.current.token s.cursor = false := by
  unfold knownCommand?
  rw [current_bind]
  cases s.current.token with
  | identifier name =>
    dsimp only [CommandSet.leads]
    cases commands.contains name with
    | false => exact iff_of_true rfl rfl
    | true =>
      rw [if_pos rfl, bind_eq_of_ok (peek?_eq hs), Bool.true_and]
      cases marksVariable s.cursor.peek? with
      | true => exact iff_of_true rfl rfl
      | false => exact iff_of_false (nomatch ·) (nomatch ·)
  | _ => exact iff_of_true rfl rfl

theorem knownCommand?_empty (s : State) : knownCommand? .empty s = .ok none s := by
  unfold knownCommand?
  rw [current_bind]
  generalize s.current.token = tok
  split <;> rfl

/-! ## Actions -/

section Action

variable {expr : Parser Expr} {e : Expr}

theorem attempt_of_ok (h : expr s = .ok e t) : attempt expr s = .ok (.ok e) t := by
  rw [attempt, h]

theorem attempt_of_error {fault : Error} (h : expr s = .error fault t) :
    attempt expr s = .ok (.error fault) t := by
  rw [attempt, h]

theorem action_of_ok {known : Option String} (hknown : knownCommand? commands s = .ok known s)
    (h : expr s = .ok e t) : action commands expr s =
      match known, t.completes e with
      | some name, complete => (do commandAt s (← readingOf name (.ok e) complete)) t
      | none, true => .ok (.expression e) t
      | none, false => (if mayStartCommand s.current.token then commandAt s none
          else unexpected "end of statement") t := by
  have hget : (get : Parser State) s = .ok s s := rfl
  unfold action
  rw [bind_eq_of_ok hget, bind_eq_of_ok hknown, bind_eq_of_ok (attempt_of_ok h)]
  dsimp only
  rw [bind_eq_of_ok (isComplete_eq e t)]
  cases known <;> cases t.completes e <;> rfl

theorem action_of_error {fault : Error} {known : Option String}
    (hknown : knownCommand? commands s = .ok known s) (h : expr s = .error fault t) :
    action commands expr s =
      (if known.isSome || mayStartCommand s.current.token then commandAt s none
        else throw fault) t := by
  have hget : (get : Parser State) s = .ok s s := rfl
  unfold action
  rw [bind_eq_of_ok hget, bind_eq_of_ok hknown, bind_eq_of_ok (attempt_of_error h)]
  cases known <;> rfl

theorem commandAt_isCommand {begin : State} {reading : Option Reading} {a : Action}
    (h : commandAt begin reading s = .ok a t) : ∃ c, a = .command c := by
  obtain ⟨_, u, -, h⟩ := bind_eq_ok_iff.1 h
  obtain ⟨words, v, -, h⟩ := bind_eq_ok_iff.1 h
  obtain ⟨rfl, -⟩ := pure_eq_ok_iff.1 h
  exact ⟨_, rfl⟩

/-- A line that is no command is an expression that fills it, and no known command leads it. -/
theorem expression_of_action {known : Option String}
    (hknown : knownCommand? commands s = .ok known s)
    (h : action commands expr s = .ok (.expression e) t) :
    known = none ∧ expr s = .ok e t ∧ t.completes e = true := by
  have hcommand : ∀ {reading : Option Reading} {u : State},
      commandAt s reading u ≠ .ok (.expression e) t := by
    intro reading u hu
    obtain ⟨c, hc⟩ := commandAt_isCommand hu
    cases hc
  cases hexpr : expr s with
  | error fault u =>
    rw [action_of_error hknown hexpr] at h
    split at h
    · exact absurd h hcommand
    · cases h
  | ok e' u =>
    rw [action_of_ok hknown hexpr] at h
    cases known with
    | some name =>
      obtain ⟨reading, v, -, h⟩ := bind_eq_ok_iff.1 h
      exact absurd h hcommand
    | none =>
      cases hcomplete : u.completes e' with
      | true =>
        rw [hcomplete] at h
        cases h
        exact ⟨rfl, rfl, hcomplete⟩
      | false =>
        rw [hcomplete] at h
        dsimp only at h
        split at h
        · exact absurd h hcommand
        · exact absurd h unexpected_ne_ok

theorem readFrom_origin (ht : t.Fits commands) {c : Cursor} (hc : c.toToken false = t.origin) :
    t.readFrom false c = .ok t := by
  refine readFrom_eq_ok_iff.2 ⟨t.current, t.cursor, ?_, by rw [hc]⟩
  rw [← Cursor.next_toToken, hc]
  exact ht.next

/-- A line that has words is a command, and the token behind it the current one. -/
theorem commandAt_of_commandLine {begin : State} {parts : List Part} {span : Span}
    {words : List Located} {c : Cursor} {reading : Option Reading} (ht : t.Fits commands)
    (hbegin : begin.nesting = 0) (hnesting : t.nesting = 0)
    (hline : begin.origin.commandLine (0 < t.blockDepth) = .ok (⟨.word parts, span⟩ :: words, c))
    (hc : c.toToken false = t.origin) :
    ∃ words, commandAt begin reading t = .ok (.command ⟨words, reading⟩) t := by
  have hstate : { t with nesting := begin.nesting } = t := by rw [hbegin, ← hnesting]
  have hmodify : (modify fun s => { s with nesting := begin.nesting } : Parser PUnit) t
      = .ok ⟨⟩ { t with nesting := begin.nesting } := rfl
  have hwords : ∃ words, commandFrom begin.origin begin.current.span t = .ok words t := by
    unfold commandFrom
    rw [hline]
    simp only [List.filterMap_cons, List.isEmpty_cons, Bool.false_eq_true, if_false, hnesting]
    rw [decide_eq_false (Nat.lt_irrefl 0), readFrom_origin ht hc]
    exact ⟨_, rfl⟩
  obtain ⟨words, hwords⟩ := hwords
  refine ⟨words, ?_⟩
  unfold commandAt
  rw [bind_eq_of_ok hmodify, hstate, bind_eq_of_ok hwords, pure_apply]

theorem readingOf_of_ok {name : String} (h : t.current.token ≠ .symbol .semicolon) :
    readingOf name (.ok e) true t = .ok (some ⟨name, e⟩) t := by
  have hcheck : t.current.token.isSymbol .semicolon = false :=
    Bool.eq_false_iff.2 (mt Token.isSymbol_iff.1 h)
  unfold readingOf
  dsimp only
  rw [check_bind, hcheck]
  rfl

theorem endsLine_of_atEnd (h : t.atEnd = true) (ht : t.current.token ≠ .symbol .semicolon) :
    Cursor.endsLine (0 < t.blockDepth) t.current.token = true := by
  have hcheck : t.current.token.isSymbol .semicolon = false :=
    Bool.eq_false_iff.2 (mt Token.isSymbol_iff.1 ht)
  simp only [State.atEnd, hcheck, Bool.or_false] at h
  rw [Cursor.endsLine, Bool.or_comm t.current.token.isEnd]
  exact h

/-- Behind the name that leads a command line there is no sign of a variable. -/
theorem not_marks_of_leads {name : String} {ts : List Token} (hs : s.nesting = 0)
    (hleads : commands.leads (.identifier name) s.cursor = true)
    (hwalk : Walk s (.identifier name :: ts) t) : marksVariable ts.head? = false := by
  cases ts with
  | nil => rfl
  | cons tok ts =>
    obtain ⟨u, hstep, hrest⟩ := Walk.cons_iff.1 hwalk
    obtain ⟨htok, hshift⟩ := Walk.single_iff.1 hstep
    have hn : s.current.token.nestingAfter s.nesting = 0 := by rw [htok, hs]; rfl
    obtain ⟨tok', d, hnext, hu⟩ := readFrom_eq_ok_iff.1 hshift
    rw [hn, decide_eq_false (Nat.lt_irrefl 0)] at hnext
    have hpeek : s.cursor.peek? = some tok := by
      have hcur := hrest.current_eq
      rw [hu] at hcur
      rw [Cursor.peek?, hnext]
      exact congrArg some hcur
    simp only [CommandSet.leads, hpeek, Bool.and_eq_true, Bool.not_eq_true'] at hleads
    exact hleads.2

/-- **A plain line is read as the same expression whether a command leads it or not**, and the
reading as a command goes just as far. -/
theorem action_of_expression {size levels : Nat} (hs : s.Fits commands) (hnesting : s.nesting = 0)
    (h : action .empty (expression size levels) s = .ok (.expression e) t) :
    (t.Fits commands ∧ t.nesting = 0)
      ∧ (action commands (expression size levels) s = .ok (.expression e) t
        ∨ (∀ target place, e ≠ .index target place) ∧ ∃ words name,
          action commands (expression size levels) s
            = .ok (.command ⟨words, some ⟨name, e⟩⟩) t) := by
  obtain ⟨-, hexpr, hcomplete⟩ := expression_of_action (knownCommand?_empty s) h
  obtain ⟨ts, hwalk, hphrase⟩ := (reads_expression size levels).sound hexpr
  have hproper := (Grammar.proper_operand levels).expressionOf
  have ht := hs.walk hwalk
  have hnesting' : t.nesting = 0 := by rw [hwalk.nesting_eq, hproper.balanced hphrase, hnesting]
  refine ⟨⟨ht, hnesting'⟩, ?_⟩
  obtain hknown | ⟨name, htok, hleads, hknown⟩ := knownCommand?_cases commands hnesting
  · left
    rw [action_of_ok hknown hexpr, hcomplete]
  · right
    obtain ⟨tok, us, rfl, -⟩ := hproper.starts hphrase
    obtain rfl := hwalk.current_eq.symm.trans htok
    have hindex : ∀ target place, e ≠ .index target place := by
      rintro target place rfl
      have hmarks := Grammar.marksVariable_of_index hphrase
      rw [htok] at hleads
      rw [not_marks_of_leads hnesting hleads hwalk] at hmarks
      exact absurd hmarks (by decide)
    have hatEnd : t.atEnd = true := by
      cases e with
      | index target place => exact absurd rfl (hindex target place)
      | _ => exact hcomplete
    have hline := hs.plain.line hs.next hleads
    rw [hs.origin] at hline
    obtain ⟨parts, span, words, c, hcommand, hc⟩ := commandLine_of_walk hs hnesting hwalk hline
      (hproper.ordinary hphrase) (endsLine_of_atEnd hatEnd ht.not_semicolon)
    obtain ⟨words, hwords⟩ := commandAt_of_commandLine ht hnesting hnesting' hcommand hc
    refine ⟨hindex, words, name, ?_⟩
    rw [action_of_ok hknown hexpr, hcomplete]
    dsimp only
    rw [bind_eq_of_ok (readingOf_of_ok ht.not_semicolon), hwords]

end Action

end Parser

end CommandScript
