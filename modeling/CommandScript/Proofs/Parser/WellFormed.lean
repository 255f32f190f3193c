import CommandScript.Proofs.Parser.Yields

/-!
# Proofs/Parser/WellFormed — what is read is well formed

Every program that a text can be read as is well formed (`parseProgram_wellFormed`). The walk over
the grammar of statements is `Yields` again. The one place where the parser goes back is a command
line: it is read from the first token of its line on, and so its first word starts with the name
that stands there (`Cursor.ledBy_of_commandLine`).
-/

namespace CommandScript

/-! ## Words -/

/-- Characters put in front of some parts start the first literal. -/
theorem Part.foldr_cons (parts : List Part) : ∀ (c : Char) (text : List Char),
    ∃ s more, (c :: text).foldr cons parts = literal s :: more ∧ c :: text <+: s.toList
  | c, [] => by
    rw [List.foldr_cons, List.foldr_nil]
    unfold cons
    split
    · next s more => exact ⟨_, more, rfl, by simp⟩
    · exact ⟨_, _, rfl, by simp⟩
  | c, d :: text => by
    obtain ⟨s, more, heq, hstart⟩ := foldr_cons parts d text
    refine ⟨String.ofList (c :: s.toList), more, by rw [List.foldr_cons, heq]; rfl, ?_⟩
    rw [String.toList_ofList]
    exact List.cons_prefix_cons.2 ⟨rfl, hstart⟩

namespace Scan

variable {inBlock : Bool} {rest : List Char}

/-- A word has the characters in it that only add to it. -/
theorem foldr_of_wordFrom : ∀ {text : List Char} {position : Nat} {parts : List Part} {n : Nat},
    (∀ c ∈ text, isPlain c = true) →
    wordFrom inBlock none position 0 (text ++ rest) = .ok (parts, n) →
    ∃ more, parts = text.foldr Part.cons more
  | [], _, parts, _, _, _ => ⟨parts, rfl⟩
  | c :: text, position, parts, n, htext, h => by
    obtain ⟨hc, htext⟩ := List.forall_mem_cons.1 htext
    rw [List.cons_append, wordFrom_plain hc] at h
    obtain ⟨_, _, hword, rfl, -⟩ := exists_of_step (Part.cons c) h
    obtain ⟨more, rfl⟩ := foldr_of_wordFrom htext hword
    exact ⟨more, rfl⟩

end Scan

namespace Cursor

variable {inBlock : Bool} {c e : Cursor}

theorem wellFormed_of_wordsFrom : ∀ {n : Nat} {c : Cursor} {words : List Located},
    wordsFrom inBlock n c = .ok (words, e) →
    ∀ w ∈ words, ∃ parts, w.token = .word parts ∧ Part.WellFormed parts
  | 0, _, _, h => by
    obtain ⟨rfl, -⟩ := Prod.mk.inj (Except.ok.inj h)
    exact List.forall_mem_nil _
  | n + 1, c, words, h => by
    obtain ⟨rfl, -⟩ | ⟨parts, width, rest, hpos, hword, rfl, hrest⟩ := wordsFrom_cases h
    · exact List.forall_mem_nil _
    · have htaken := Scan.taken_of_wordFrom (Nat.zero_le _) hword
      have hparts : Part.WellFormed parts := ⟨htaken.ne_nil hpos, htaken.tight, htaken.named⟩
      exact List.forall_mem_cons.2 ⟨⟨parts, rfl, hparts⟩, wellFormed_of_wordsFrom hrest⟩

/-- **Where an identifier stands, a command line starts with it.** -/
theorem ledBy_of_commandLine {name : String} {d : Cursor} {span : Span} {words : List Located}
    (hc : c.toToken false = c) (hnext : c.next false = .ok (⟨.identifier name, span⟩, d))
    (h : c.commandLine inBlock = .ok (words, e)) :
    Command.LedBy name (Parser.Unbounded.partsOf words) := by
  obtain ⟨_, hscan, -⟩ := next_eq_ok_iff.1 hnext
  rw [hc] at hscan
  obtain ⟨hname, rest, hrest⟩ := Token.named_of_scan hscan
  rw [Scan.isIdentifier, Bool.and_eq_true] at hname
  obtain ⟨ch, text, htext, -, hchars⟩ := Scan.isName_cons hname.1
  have hplain : ∀ c ∈ name.toList, Scan.isPlain c = true := fun c hc =>
    Scan.isPlain_of_name (hchars c (htext ▸ hc))
  have hpast : c.pastBlanks = c := by
    have hrest' : c.rest = ch :: (text ++ rest) := by rw [← hrest, htext, List.cons_append]
    have hch := hplain ch (htext ▸ List.mem_cons_self)
    simp only [Scan.isPlain, Bool.not_eq_true', Bool.or_eq_false_iff] at hch
    exact pastBlanks_of_not_blank hrest' hch.1.1.1.1.1.1
  obtain ⟨-, -, t, d', ht, hends⟩ | ⟨parts, width, more, -, hword, rfl, -⟩ := wordsFrom_cases h
  · rw [hnext] at ht
    obtain ⟨rfl, -⟩ := Prod.mk.inj (Except.ok.inj ht)
    exact absurd hends (by cases inBlock <;> exact Bool.false_ne_true)
  · rw [hpast, ← hrest] at hword
    obtain ⟨parts', rfl⟩ := Scan.foldr_of_wordFrom hplain hword
    rw [htext]
    obtain ⟨s, parts, heq, hstart⟩ := Part.foldr_cons parts' ch text
    exact ⟨s, parts, Parser.Unbounded.partsOf more, by rw [← heq]; rfl, htext ▸ hstart⟩

end Cursor

namespace Parser

variable {source : List Char} {α : Type} {Q : α → Prop} {s t : State}

/-! ## Steps of statements -/

/-- Wherever in the text the parser starts, a value it gives is as wanted. -/
abbrev Gives (source : List Char) (p : Parser α) (Q : α → Prop) : Prop :=
  Yields (Faults.any source) p Q

theorem gives_throw (e : Error) : Gives source (throw e : Parser α) Q :=
  fun _ _ => .error trivial

theorem gives_currentSpan : Gives source currentSpan Anything := fun _ hs => .ok hs trivial

theorem gives_atStatementEnd : Gives source atStatementEnd Anything := fun _ hs => .ok hs trivial

theorem exists_peek? (s : State) : ∃ next, peek? s = .ok next s := by
  unfold peek?
  split
  · exact ⟨_, rfl⟩
  · exact ⟨_, rfl⟩

theorem gives_peek? : Gives source peek? Anything := by
  intro s hs
  obtain ⟨next, hnext⟩ := exists_peek? s
  rw [hnext]
  exact .ok hs trivial

theorem gives_blockDepth (f : Nat → Nat) :
    Gives source (modify fun s => { s with blockDepth := f s.blockDepth }) Anything :=
  yields_modify fun _ hs => hs.congr rfl rfl rfl

theorem gives_expectStatementEnd : Gives source expectStatementEnd Anything :=
  gives_atStatementEnd.next fun _ => yields_ite
    (yields_atSeparator.next fun _ => yields_ite yields_advance (yields_pure trivial))
    (yields_unexpected _)

theorem gives_skipToElse : Gives source skipToElse Anything := by
  intro s hs
  unfold skipToElse
  split
  · exact .ok hs trivial
  split
  · split
    · exact .error trivial
    · next hread =>
      split
      · exact .ok (at_of_readFrom hs.cursor hread) trivial
      · exact .ok hs trivial
  · exact .ok hs trivial

/-! ## Command lines -/

/-- The words of a command line are such, and the name it was found at leads them. -/
structure WordsOf (begin : State) (words : List (List Part)) : Prop where
  nonempty : words ≠ []
  wellFormed : ∀ parts ∈ words, Part.WellFormed parts
  ledBy {name : String} : begin.current.token = .identifier name → Command.LedBy name words

theorem ends_commandFrom {begin : State} (hbegin : begin.At source) (span : Span) (s : State) :
    Ends (Faults.any source) (WordsOf begin) (commandFrom begin.origin span s) := by
  rw [commandFrom_eq]
  cases hline : begin.origin.commandLine (0 < s.blockDepth) with
  | error e => exact .error trivial
  | ok r =>
    obtain ⟨words, e⟩ := r
    dsimp only
    split
    · exact .error trivial
    next hne =>
    have hplace := (hbegin.place.wordsAt_wordsFrom (Nat.lt_succ_self _) hline).1
    split
    · next hread =>
      refine .ok (at_of_readFrom hplace hread) ⟨by simpa using hne, fun parts hparts => ?_, ?_⟩
      · obtain ⟨w, hw, hparts⟩ := List.mem_filterMap.1 hparts
        obtain ⟨parts', htoken, hword⟩ := Cursor.wellFormed_of_wordsFrom hline w hw
        rw [htoken] at hparts
        exact Option.some.inj hparts ▸ hword
      · intro name hname
        have hnext := hbegin.stands.next
        rw [show begin.current = ⟨.identifier name, begin.current.span⟩ by rw [← hname]] at hnext
        exact Cursor.ledBy_of_commandLine hbegin.stands.origin hnext hline
    · exact .error trivial

/-- A command line is read from the first token of its line on, whatever was tried before. -/
theorem ends_commandAt {commands : CommandSet} {begin : State} (hbegin : begin.At source)
    {reading : Option Reading} (hreading : ∀ r ∈ reading, begin.current.token = .identifier r.name
      ∧ commands.contains r.name = true ∧ r.expression.WellFormed) (s : State) :
    Ends (Faults.any source) (Action.WellFormed commands) (commandAt begin reading s) := by
  rw [commandAt, modify_bind]
  refine (ends_commandFrom hbegin _ _).bind fun words h => ?_
  refine yields_pure (.command ⟨h.nonempty, h.wellFormed, fun r hr => ?_⟩)
  obtain ⟨hname, hknown, hexpression⟩ := hreading r hr
  have hidentifier := hbegin.named
  rw [hname] at hidentifier
  exact ⟨hknown, hidentifier.1, hexpression, h.ledBy hname⟩

/-- A command that is known is the name at the start of the line. -/
theorem exists_known (commands : CommandSet) (s : State) :
    ∃ known, knownCommand? commands s = .ok known s
      ∧ ∀ name ∈ known, s.current.token = .identifier name ∧ commands.contains name = true := by
  obtain ⟨next, hnext⟩ := exists_peek? s
  unfold knownCommand?
  rw [current_bind]
  cases s.current.token with
  | identifier name =>
    dsimp only
    cases hname : commands.contains name with
    | false => exact ⟨none, rfl, fun _ h => nomatch h⟩
    | true =>
      rw [if_pos rfl, bind_eq_of_ok hnext]
      cases marksVariable next with
      | true => exact ⟨none, rfl, fun _ h => nomatch h⟩
      | false =>
        refine ⟨some name, rfl, fun _ h => ?_⟩
        obtain rfl := Option.mem_some_iff.1 h
        exact ⟨rfl, hname⟩
  | _ => exact ⟨none, rfl, fun _ h => nomatch h⟩

/-- The other reading of a line is the expression that was read. -/
theorem exists_readingOf (name : String) (e : Expr) (complete : Bool) (s : State) :
    ∃ reading, readingOf name (.ok e) complete s = .ok reading s
      ∧ ∀ r ∈ reading, r = ⟨name, e⟩ := by
  unfold readingOf
  dsimp only
  rw [check_bind]
  split
  · exact ⟨_, rfl, fun r hr => (Option.mem_some_iff.1 hr).symm⟩
  · exact ⟨none, rfl, fun _ h => nomatch h⟩

theorem Yields.action {expr : Parser Expr} (commands : CommandSet)
    (h : Gives source expr Expr.WellFormed) :
    Gives source (action commands expr) (Action.WellFormed commands) := by
  intro s hs
  obtain ⟨known, hknown, hname⟩ := exists_known commands s
  have hplain (t : State) :
      Ends (Faults.any source) (Action.WellFormed commands) (commandAt s none t) :=
    ends_commandAt hs (fun r hr => absurd hr (Option.not_mem_none r)) t
  have hexpr := h hs
  cases hr : expr s with
  | ok e t =>
    rw [hr] at hexpr
    rw [action_of_ok hknown hr]
    cases hexpr with
    | ok ht he =>
      cases known with
      | some name =>
        obtain ⟨reading, hreading, hread⟩ := exists_readingOf name e (t.completes e) t
        dsimp only
        rw [bind_eq_of_ok hreading]
        refine ends_commandAt hs (fun r hr => ?_) t
        obtain ⟨htoken, hcontains⟩ := hname name rfl
        rw [hread r hr]
        exact ⟨htoken, hcontains, he⟩
      | none =>
        cases t.completes e with
        | true => exact .ok ht (.expression he)
        | false =>
          dsimp only
          split
          · exact hplain t
          · exact yields_unexpected _ ht
  | error e t =>
    rw [action_of_error hknown hr]
    split
    · exact hplain t
    · exact .error trivial

/-! ## Statements -/

section Statements

variable {commands : CommandSet} {size : Nat} {expr : Parser Expr} {act : Parser Action}
  {block : Parser (List Stmt)} {stmt : Parser Stmt}

theorem gives_otherwiseFrom (hexpr : Gives source expr Expr.WellFormed)
    (hblock : Gives source block (Program.WellFormed commands)) : ∀ n : Nat,
    Gives source (otherwiseFrom expr block n) (Otherwise.WellFormed commands)
  | 0 => yields_pure .nothing
  | n + 1 => by
    refine gives_skipToElse.next fun _ => yields_ite ?_ (yields_pure .nothing)
    refine (yields_expectKeyword _).next fun _ => yields_current.next fun _ => yields_ite ?_ ?_
    · refine yields_advance.next fun _ => hexpr.bind fun test htest => ?_
      refine hblock.bind fun body hbody => ?_
      exact (gives_otherwiseFrom hexpr hblock n).bind fun rest hrest =>
        yields_pure (.orIf htest hbody hrest)
    · exact hblock.bind fun body hbody => yields_pure (.orElse hbody)

theorem Yields.conditional (hexpr : Gives source expr Expr.WellFormed)
    (hblock : Gives source block (Program.WellFormed commands)) :
    Gives source (conditional size expr block) (Stmt.WellFormed commands) := by
  refine (yields_expectKeyword _).next fun _ => hexpr.bind fun test htest => ?_
  refine hblock.bind fun body hbody => ?_
  exact (gives_otherwiseFrom hexpr hblock size).bind fun rest hrest =>
    yields_pure (.choose htest hbody hrest)

theorem Yields.loop (hexpr : Gives source expr Expr.WellFormed)
    (hblock : Gives source block (Program.WellFormed commands)) :
    Gives source (loop expr block) (Stmt.WellFormed commands) := by
  refine (yields_expectKeyword _).next fun _ => (yields_expectName _).bind fun name hname => ?_
  refine (yields_expectKeyword _).next fun _ => hexpr.bind fun items hitems => ?_
  exact hblock.bind fun body hbody => yields_pure (.forEach hname hitems hbody)

/-- Parameters are told apart from one another and from those read before them. -/
theorem gives_parametersFrom : ∀ (n : Nat) (earlier : List String),
    Gives source (parametersFrom n earlier) fun names =>
      Parameters names ∧ ∀ name ∈ names, name ∉ earlier
  | 0, _ => yields_pure ⟨⟨.nil, List.forall_mem_nil _⟩, List.forall_mem_nil _⟩
  | n + 1, earlier => by
    refine (yields_check _).next fun _ => yields_ite ?_ ?_
    · exact yields_pure ⟨⟨.nil, List.forall_mem_nil _⟩, List.forall_mem_nil _⟩
    refine (yields_expectName _).bind fun name hname => ?_
    split
    · exact gives_currentSpan.next fun _ => gives_throw _
    next hnew =>
    have hnew : name ∉ earlier := by simpa using hnew
    refine (yields_check _).next fun _ => yields_ite ?_ ?_
    · refine yields_advance.next fun _ => ?_
      refine (gives_parametersFrom n (name :: earlier)).bind fun names h => ?_
      obtain ⟨⟨hdistinct, hidentifiers⟩, hothers⟩ := h
      have hfirst : name ∉ names := fun hmem => hothers name hmem List.mem_cons_self
      refine yields_pure ⟨⟨List.nodup_cons.2 ⟨hfirst, hdistinct⟩,
        List.forall_mem_cons.2 ⟨hname, hidentifiers⟩⟩, List.forall_mem_cons.2 ⟨hnew, ?_⟩⟩
      exact fun other hmem hearlier => hothers other hmem (List.mem_cons_of_mem _ hearlier)
    · exact yields_pure ⟨⟨List.pairwise_singleton _ _, List.forall_mem_singleton.2 hname⟩,
        List.forall_mem_singleton.2 hnew⟩

theorem gives_parameters : Gives source (parameters size) Parameters := by
  refine (yields_expect _).next fun _ => (yields_nesting (· + 1)).next fun _ => ?_
  intro s hs
  have henclosed : Gives source (enclosed size) Parameters :=
    (gives_parametersFrom size []).bind fun names h =>
      (yields_closeGroup _).next fun _ => yields_pure h.1
  change Ends _ _ (enclosed size s.dropGroupedNewlines)
  cases h : enclosed size s.dropGroupedNewlines with
  | error e t => exact .error trivial
  | ok names t =>
    have hdrop : s.dropGroupedNewlines = s := by
      by_cases hn : 0 < s.nesting
      · exact State.dropGroupedNewlines_of_not (not_newline_of_enclosed hn h)
      · exact if_neg hn
    rw [← h, hdrop]
    exact henclosed hs

theorem Yields.functionDef (hblock : Gives source block (Program.WellFormed commands)) :
    Gives source (functionDef size block) (Stmt.WellFormed commands) := by
  refine (yields_expectKeyword _).next fun _ => (yields_expectName _).bind fun name hname => ?_
  refine gives_parameters.bind fun params hparams => hblock.bind fun body hbody => ?_
  exact yields_pure (.function hname hparams hbody)

theorem Yields.giveBack (h : Gives source act (Action.WellFormed commands)) :
    Gives source (giveBack act) (Stmt.WellFormed commands) := by
  refine (yields_expectKeyword _).next fun _ => gives_atStatementEnd.next fun _ => yields_ite ?_ ?_
  · exact yields_pure (.giveBack fun _ ha => nomatch ha)
  · exact h.bind fun a ha => yields_pure (.giveBack fun _ hmem => Option.mem_some_iff.1 hmem ▸ ha)

theorem Yields.actionStatement (h : Gives source act (Action.WellFormed commands)) :
    Gives source (actionStatement act) (Stmt.WellFormed commands) := by
  refine h.bind fun a ha => ?_
  split
  · cases ha with
    | expression he =>
      cases he with
      | index htarget hplace =>
        refine (yields_check _).next fun _ => yields_ite ?_ ?_
        · exact yields_advance.next fun _ => h.bind fun value hvalue =>
            yields_pure (.assignAt htarget hplace hvalue)
        · exact yields_pure (.perform (.expression (.index htarget hplace)))
  · exact yields_pure (.perform ha)

theorem Yields.lineStatement (h : Gives source act (Action.WellFormed commands)) :
    Gives source (lineStatement act) (Stmt.WellFormed commands) := by
  refine yields_current.bind fun tok ⟨_, htok⟩ => ?_
  split
  · exact h.giveBack
  · refine gives_peek?.next fun _ => ?_
    split
    · exact yields_advance.next fun _ => yields_advance.next fun _ => h.bind fun value hvalue =>
        yields_pure (.assign htok.1 hvalue)
    · exact h.actionStatement
  · exact h.actionStatement

theorem Yields.simpleStatement (h : Gives source act (Action.WellFormed commands)) :
    Gives source (simpleStatement act) (Stmt.WellFormed commands) :=
  h.lineStatement.bind fun _ hs => gives_expectStatementEnd.next fun _ => yields_pure hs

theorem gives_blockFrom (h : Gives source stmt (Stmt.WellFormed commands)) : ∀ n : Nat,
    Gives source (blockFrom size stmt n) (Program.WellFormed commands)
  | 0 => yields_pure (List.forall_mem_nil _)
  | n + 1 => by
    refine (yields_skipSeparators size).next fun _ => (yields_check _).next fun _ => ?_
    refine yields_ite (yields_pure (List.forall_mem_nil _)) ?_
    refine yields_current.next fun _ => yields_ite (yields_unexpected _) ?_
    exact h.bind fun s hs => (gives_blockFrom h n).bind fun ss hss =>
      yields_pure (List.forall_mem_cons.2 ⟨hs, hss⟩)

theorem Yields.blockOf (h : Gives source stmt (Stmt.WellFormed commands)) :
    Gives source (blockOf size stmt) (Program.WellFormed commands) := by
  refine (yields_expect _).next fun _ => (gives_blockDepth (· + 1)).next fun _ => ?_
  refine (gives_blockFrom h size).bind fun body hbody => ?_
  exact (gives_blockDepth (· - 1)).next fun _ => (yields_expect _).next fun _ => yields_pure hbody

theorem Yields.statementOf (hexpr : Gives source expr Expr.WellFormed)
    (hact : Gives source act (Action.WellFormed commands))
    (hblock : Gives source block (Program.WellFormed commands)) :
    Gives source (statementOf size expr act block) (Stmt.WellFormed commands) := by
  refine yields_current.next fun _ => ?_
  split
  · exact hexpr.conditional hblock
  · exact hexpr.loop hblock
  · exact hblock.functionDef
  · exact hblock.bind fun body hbody => yields_pure (.block hbody)
  · exact hact.simpleStatement

theorem gives_statement (commands : CommandSet) (size : Nat) : ∀ levels : Nat,
    Gives source (statement commands size levels) (Stmt.WellFormed commands)
  | 0 => (yields_expression size 0).statementOf ((yields_expression size 0).action commands)
      yields_tooDeep
  | levels + 1 => (yields_expression size (levels + 1)).statementOf
      ((yields_expression size (levels + 1)).action commands)
      (gives_statement commands size levels).blockOf.nested

theorem gives_programFrom (h : Gives source stmt (Stmt.WellFormed commands)) (size : Nat) :
    ∀ n : Nat, Gives source (programFrom size stmt n) (Program.WellFormed commands)
  | 0 => yields_pure (List.forall_mem_nil _)
  | n + 1 => by
    refine (yields_skipSeparators size).next fun _ => yields_current.next fun _ => ?_
    refine yields_ite (yields_pure (List.forall_mem_nil _)) (yields_ite (yields_unexpected _) ?_)
    exact h.bind fun s hs => (gives_programFrom h size n).bind fun ss hss =>
      yields_pure (List.forall_mem_cons.2 ⟨hs, hss⟩)

end Statements

/-- **Every program that is read is well formed**, whatever the text and the known commands: its
commands have words and stand where a statement needs a value, the other readings of its lines are
led by known commands, parameters are told apart, and names are identifiers. -/
theorem parseProgram_wellFormed (commands : CommandSet) (source : String) (p : Program)
    (h : parseProgram commands source = .ok p) : p.WellFormed commands := by
  obtain ⟨s, t, hstart, hprogram⟩ := parseProgram_eq_ok_iff.1 h
  have hstmt : Gives source.toList _ _ :=
    gives_statement commands (source.toList.length + 1) maxDepth
  have hends := gives_programFrom hstmt (source.toList.length + 1) (source.toList.length + 1)
    (at_of_start hstart)
  rw [hprogram] at hends
  cases hends with
  | ok _ hp => exact hp

/-- Whether the statement is a command line that can also be read as an expression. -/
def hasReading : Stmt → Bool
  | .perform (.command c) => c.reading.isSome
  | _ => false

/-- The last line of the text is a command line and an expression. -/
theorem parseProgram_wellFormed_reading : ∃ p,
    parseProgram ⟨["ls"]⟩ "func f(a, b) \x7b return a.x(b) \x7d\necho $a\nls -l" = .ok p
      ∧ p.any hasReading = true ∧ p.WellFormed ⟨["ls"]⟩ := by
  have hany : (parseProgram ⟨["ls"]⟩
      "func f(a, b) \x7b return a.x(b) \x7d\necho $a\nls -l").toOption.any (·.any hasReading)
        = true := by
    decide +kernel
  obtain ⟨p, hparse, hreading⟩ := exists_of_any hany
  exact ⟨p, hparse, hreading, parseProgram_wellFormed _ _ p hparse⟩

end Parser

end CommandScript
