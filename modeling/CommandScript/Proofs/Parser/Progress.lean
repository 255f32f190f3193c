import CommandScript.Proofs.Parser.Likeness
import CommandScript.Proofs.Parser.Readings

/-!
# Proofs/Parser/Progress — parsing moves on and ends

Every loop of the parser takes at least one character in each round, and every statement at least
one in all: also a command line, for which the parser goes back to the first token, has a word, and
a word is not empty. So the bounds on the loops are never met. `Tracks` says so of one parser at a
time, together with what the parser without bounds does; the walk over the grammar is made once, for
any two texts that are alike (`tracks_expression`, `tracks_statement`, `follows_programFrom`). For
one text it gives that parsing ends (`parseProgram_ends`).
-/

namespace CommandScript

namespace Parser

open Unbounded (outcome)

/-- From states that are alike, with fewer than `size` characters left, the parser with bounds goes
the way of the one without and moves on. -/
def Tracks (L : Likeness) (size : Nat) {α : Type} (p : Parser α) (q : Unbounded α) : Prop :=
  ∀ ⦃s s' : State⦄, L.Alike s s' → s.Stands → s.left < size → Follows L s.left (p s) (q s')

section Expressions

variable {L : Likeness} {size : Nat} {s s' : State}

theorem Tracks.nested {α : Type} {p : Parser α} {q : Unbounded α} (h : Tracks L size p q) :
    Tracks L size (nested p) (Unbounded.nested q) := by
  intro s s' halike hs hsize
  have hinner := h (halike.nested (· + 1)) ⟨hs.next, hs.origin⟩ hsize
  unfold Parser.nested Unbounded.nested
  generalize p { s with depth := s.depth + 1 } = r at hinner
  generalize q { s' with depth := s'.depth + 1 } = r' at hinner
  cases hinner with
  | ok halike hstands hleft =>
    exact .ok (halike.nested (· - 1)) ⟨hstands.next, hstands.origin⟩ hleft
  | error herror halike => exact .error herror (halike.nested (· - 1))

section Chain

variable {op? : Token → Option BinaryOp} {operand : Parser Expr} {operand' : Unbounded Expr}

theorem follows_chainFrom (hop : op? .endOfInput = none) (h : Tracks L size operand operand') :
    ∀ (n : Nat) (left : Expr) {s s' : State}, L.Alike s s' → s.Stands → s.left < n →
      s.left < size → Follows L (s.left + 1) (chainFrom op? operand n left s)
        (Unbounded.chainFrom op? operand' left s')
  | 0, _, _, _, _, _, hn, _ => absurd hn (Nat.not_lt_zero _)
  | n + 1, left, s, s', halike, hs, hn, hsize => by
    rw [chainFrom, Unbounded.chainFrom_eq, current_bind, Unbounded.current_bind, halike.token]
    cases htok : op? s.current.token with
    | none => exact follows_pure halike hs (Nat.lt_succ_self _) left
    | some op =>
      have hend : s.current.token.isEnd = false := by
        rw [← Bool.not_eq_true]
        intro hend
        rw [Token.eq_endOfInput hend, hop] at htok
        cases htok
      refine Follows.bind (follows_advance halike hs hend) fun _ t t' halike ht htleft => ?_
      refine Follows.bind (h halike ht (by omega)) fun right u u' halike hu huleft => ?_
      exact (follows_chainFrom hop h n _ halike hu (by omega) (by omega)).mono (by omega)

theorem Tracks.chain (hop : op? .endOfInput = none) (h : Tracks L size operand operand') :
    Tracks L size (chain size op? operand) (Unbounded.chain op? operand') := by
  intro s s' halike hs hsize
  refine Follows.bind (h halike hs hsize) fun e t t' halike ht htleft => ?_
  exact (follows_chainFrom hop h size e halike ht (by omega) (by omega)).mono (by omega)

end Chain

variable {p inner deeper : Parser Expr} {q inner' deeper' : Unbounded Expr}

theorem Tracks.rangeOf (h : Tracks L size p q) :
    Tracks L size (rangeOf p) (Unbounded.rangeOf q) := by
  intro s s' halike hs hsize
  refine Follows.bind (h halike hs hsize) fun start t t' halike ht htleft => ?_
  rw [check_bind, Unbounded.check_bind, halike.token]
  cases hfirst : t.current.token.isSymbol .dotDot with
  | false => exact follows_pure halike ht htleft start
  | true =>
    refine Follows.bind (follows_advance halike ht (isEnd_of_isSymbol hfirst))
      fun _ t t' halike ht _ => ?_
    refine Follows.bind (h halike ht (by omega)) fun stop t t' halike ht _ => ?_
    rw [check_bind, Unbounded.check_bind, halike.token]
    cases hsecond : t.current.token.isSymbol .dotDot with
    | false => exact follows_pure halike ht (by omega) _
    | true =>
      refine Follows.bind (follows_advance halike ht (isEnd_of_isSymbol hsecond))
        fun _ t t' halike ht _ => ?_
      refine Follows.bind (h halike ht (by omega)) fun step t t' halike ht _ => ?_
      exact follows_pure halike ht (by omega) _

theorem Tracks.expressionOf (h : Tracks L size p q) :
    Tracks L size (expressionOf size p) (Unbounded.expressionOf q) :=
  ((((h.chain rfl).chain rfl).rangeOf.chain rfl).chain rfl).chain rfl

theorem follows_itemsFrom (h : Tracks L size inner inner') (closer : Symbol) :
    ∀ (n : Nat) {s s' : State}, L.Alike s s' → s.Stands → s.left < n → s.left < size →
      Follows L (s.left + 1) (itemsFrom inner closer n s) (Unbounded.itemsFrom inner' closer s')
  | 0, _, _, _, _, hn, _ => absurd hn (Nat.not_lt_zero _)
  | n + 1, s, s', halike, hs, hn, hsize => by
    rw [itemsFrom, Unbounded.itemsFrom_eq, check_bind, Unbounded.check_bind, halike.token]
    cases s.current.token.isSymbol closer with
    | true => exact follows_pure halike hs (Nat.lt_succ_self _) []
    | false =>
      refine Follows.bind (h halike hs hsize) fun e t t' halike ht _ => ?_
      rw [check_bind, Unbounded.check_bind, halike.token]
      cases hcomma : t.current.token.isSymbol .comma with
      | false => exact follows_pure halike ht (by omega) [e]
      | true =>
        refine Follows.bind (follows_advance halike ht (isEnd_of_isSymbol hcomma))
          fun _ t t' halike ht _ => ?_
        refine Follows.bind (follows_itemsFrom h closer n halike ht (by omega) (by omega))
          fun es t t' halike ht _ => ?_
        exact follows_pure halike ht (by omega) _

theorem follows_items (h : Tracks L size inner inner') (closer : Symbol) (halike : L.Alike s s')
    (hs : s.Stands) (hsize : s.left < size) (hend : s.current.token.isEnd = false) :
    Follows L s.left (items size inner closer s) (Unbounded.items inner' closer s') := by
  refine Follows.bind (follows_openGroup halike hs hend) fun _ t t' halike ht _ => ?_
  refine Follows.bind (follows_itemsFrom h closer size halike ht (by omega) (by omega))
    fun es t t' halike ht _ => ?_
  refine Follows.bind (follows_closeGroup halike ht closer) fun _ t t' halike ht _ => ?_
  exact follows_pure halike ht (by omega) es

theorem Tracks.primary (h : Tracks L size inner inner') :
    Tracks L size (primary size inner) (Unbounded.primary inner') := by
  intro s s' halike hs hsize
  unfold Parser.primary Unbounded.primary
  rw [current_bind, Unbounded.current_bind, halike.token]
  have hfinish (e : Expr) (hend : s.current.token.isEnd = false) :
      Follows L s.left (primary.finish e s) (outcome (primary.finish e s')) :=
    follows_finish halike hs hend e
  cases htok : s.current.token with
  | number x => exact hfinish _ (by rw [htok]; rfl)
  | string text => exact hfinish _ (by rw [htok]; rfl)
  | template parts => exact hfinish _ (by rw [htok]; rfl)
  | identifier name => exact hfinish _ (by rw [htok]; rfl)
  | keyword word =>
    cases word with
    | trueWord | falseWord | noneWord => exact hfinish _ (by rw [htok]; rfl)
    | _ => exact follows_unexpected halike _
  | symbol sign =>
    cases sign with
    | leftParen =>
      refine Follows.bind (follows_openGroup halike hs (by rw [htok]; rfl))
        fun _ t t' halike ht _ => ?_
      refine Follows.bind (h halike ht (by omega)) fun e t t' halike ht _ => ?_
      refine Follows.bind (follows_closeGroup halike ht _) fun _ t t' halike ht _ => ?_
      exact follows_pure halike ht (by omega) e
    | leftBracket =>
      refine Follows.bind (follows_items h _ halike hs hsize (by rw [htok]; rfl))
        fun es t t' halike ht _ => ?_
      exact follows_pure halike ht (by omega) _
    | _ => exact follows_unexpected halike _
  | _ => exact follows_unexpected halike _

theorem follows_suffixesFrom (h : Tracks L size inner inner') :
    ∀ (n : Nat) (e : Expr) {s s' : State}, L.Alike s s' → s.Stands → s.left < n →
      s.left < size → Follows L (s.left + 1) (suffixesFrom size inner n e s)
        (Unbounded.suffixesFrom inner' e s')
  | 0, _, _, _, _, _, hn, _ => absurd hn (Nat.not_lt_zero _)
  | n + 1, e, s, s', halike, hs, hn, hsize => by
    have hmore {t t' : State} (e : Expr) (halike : L.Alike t t') (ht : t.Stands)
        (hleft : t.left < s.left) : Follows L (s.left + 1) (suffixesFrom size inner n e t)
          (Unbounded.suffixesFrom inner' e t') :=
      (follows_suffixesFrom h n e halike ht (by omega) (by omega)).mono (by omega)
    rw [suffixesFrom, Unbounded.suffixesFrom_eq, current_bind, Unbounded.current_bind, halike.token]
    cases htok : s.current.token with
    | symbol sign =>
      have hend : s.current.token.isEnd = false := by rw [htok]; rfl
      cases sign with
      | dot =>
        refine Follows.bind (follows_advance halike hs hend) fun _ t t' halike ht _ => ?_
        refine Follows.bind (follows_expectName halike ht _) fun name t t' halike ht _ => ?_
        rw [check_bind, Unbounded.check_bind, halike.token]
        cases hparen : t.current.token.isSymbol .leftParen with
        | true =>
          refine Follows.bind
            (follows_items h _ halike ht (by omega) (isEnd_of_isSymbol hparen))
            fun args t t' halike ht _ => hmore _ halike ht (by omega)
        | false => exact hmore (.member e name []) halike ht (by omega)
      | leftBracket =>
        refine Follows.bind (follows_openGroup halike hs hend) fun _ t t' halike ht _ => ?_
        refine Follows.bind (h halike ht (by omega)) fun place t t' halike ht _ => ?_
        refine Follows.bind (follows_closeGroup halike ht _) fun _ t t' halike ht _ => ?_
        exact hmore _ halike ht (by omega)
      | leftParen =>
        refine Follows.bind (follows_items h _ halike hs hsize hend)
          fun args t t' halike ht _ => hmore _ halike ht (by omega)
      | _ => exact follows_pure halike hs (Nat.lt_succ_self _) e
    | _ => exact follows_pure halike hs (Nat.lt_succ_self _) e

theorem Tracks.operandOf (hinner : Tracks L size inner inner')
    (hdeeper : Tracks L size deeper deeper') :
    Tracks L size (operandOf size inner deeper) (Unbounded.operandOf inner' deeper') := by
  intro s s' halike hs hsize
  unfold Parser.operandOf Unbounded.operandOf
  rw [current_bind, Unbounded.current_bind, halike.token]
  cases hsign : signOp? s.current.token with
  | some op =>
    have hend : s.current.token.isEnd = false := by
      rw [← Bool.not_eq_true]
      intro hend
      rw [Token.eq_endOfInput hend] at hsign
      nomatch hsign
    refine Follows.bind (follows_advance halike hs hend) fun _ t t' halike ht _ => ?_
    refine Follows.bind (hdeeper halike ht (by omega)) fun e t t' halike ht _ => ?_
    exact follows_pure halike ht (by omega) _
  | none =>
    refine Follows.bind (hinner.primary halike hs hsize) fun e t t' halike ht _ => ?_
    refine Follows.bind (follows_suffixesFrom hinner size e halike ht (by omega) (by omega))
      fun base t t' halike ht _ => ?_
    rw [check_bind, Unbounded.check_bind, halike.token]
    cases hcaret : t.current.token.isSymbol .caret with
    | false => exact follows_pure halike ht (by omega) base
    | true =>
      refine Follows.bind (follows_advance halike ht (isEnd_of_isSymbol hcaret))
        fun _ t t' halike ht _ => ?_
      refine Follows.bind (hdeeper halike ht (by omega)) fun exponent t t' halike ht _ => ?_
      exact follows_pure halike ht (by omega) _

theorem tracks_operand : ∀ levels : Nat,
    Tracks L size (operand size levels) (Unbounded.operand levels)
  | 0 => fun _ _ halike _ _ => follows_tooDeep halike
  | levels + 1 =>
    ((tracks_operand levels).expressionOf.operandOf (tracks_operand levels)).nested

theorem tracks_expression (levels : Nat) :
    Tracks L size (expression size levels) (Unbounded.expression levels) :=
  (tracks_operand levels).expressionOf

end Expressions

/-! ## Command lines -/

section Commands

variable {L : Likeness} {size : Nat} {s s' t t' : State}

/-- How the words behind a cursor are read: the same ones, up to places that are alike, and each of
them takes a character. -/
inductive ReadWords (L : Likeness) (s : State) (c : Cursor) :
    Except Error (List Located × Cursor) →
    Option (Except Error (List Located × Cursor) × State) → Prop
  | ok {words words' : List Located} {e e' : Cursor} :
    words'.map (·.token) = words.map (·.token) → L.cursor e e' →
    e.rest.length + words.length ≤ c.rest.length →
    ReadWords L s c (.ok (words, e)) (some (.ok (words', e'), s))
  | error {err err' : Error} :
    L.error err err' → ReadWords L s c (.error err) (some (.error err', s))

/-- One word more in front. -/
theorem ReadWords.cons {c d : Cursor} {r : Except Error (List Located × Cursor)}
    {q : Unbounded (List Located × Cursor)} {tok : Token} {span span' : Span}
    (h : ReadWords L s d r (q s)) (hlt : d.rest.length < c.rest.length) :
    ReadWords L s c (do let (words, e) ← r; return (⟨tok, span⟩ :: words, e))
      ((do let (words, e) ← q; return (⟨tok, span'⟩ :: words, e) :
        Unbounded (List Located × Cursor)) s) := by
  generalize hq : q s = r' at h
  cases h with
  | ok hwords he hle =>
    rw [Unbounded.bind_of_ok hq]
    refine .ok ?_ he ?_
    · rw [List.map_cons, List.map_cons, hwords]
    · rw [List.length_cons]
      omega
  | error herror =>
    rw [Unbounded.bind_of_error hq]
    exact .error herror

theorem readWords_wordsFrom (s : State) (inBlock : Bool) : ∀ (n : Nat) {c c' : Cursor},
    L.cursor c c' → c.rest.length < n →
    ReadWords L s c (Cursor.wordsFrom inBlock n c) (Unbounded.wordsFrom inBlock c' s)
  | 0, _, _, _, hn => absurd hn (Nat.not_lt_zero _)
  | n + 1, c, c', hc, hn => by
    have hblanks : L.cursor c.pastBlanks c'.pastBlanks := by
      rw [Cursor.pastBlanks, Cursor.pastBlanks, L.rest hc]
      exact L.skip _ hc
    have hle : c.pastBlanks.rest.length ≤ c.rest.length := Cursor.length_skip_le _ _
    rw [Cursor.wordsFrom_succ, Unbounded.wordsFrom_eq]
    dsimp only
    rw [L.rest hblanks]
    cases hrest : c.pastBlanks.rest with
    | nil => exact .ok rfl hblanks hle
    | cons ch rest =>
      dsimp only
      split
      · exact .ok rfl (Likeness.toToken hblanks false) ((Cursor.length_skip_le _ _).trans hle)
      split
      · exact .ok rfl hblanks hle
      next hends =>
      cases hword : Scan.wordFrom inBlock none 0 0 (ch :: rest) with
      | error position =>
        have hplace := L.skip position hblanks
        exact .error (L.lex _ (L.spanTo hplace hplace))
      | ok r =>
        have hpos := Scan.wordFrom_pos (by simpa using hends) hword
        have hlt : (c.pastBlanks.skip r.2).rest.length < c.rest.length := by
          rw [Cursor.rest_skip, List.length_drop]
          rw [hrest, List.length_cons] at hle ⊢
          omega
        exact (readWords_wordsFrom s inBlock n (L.skip r.2 hblanks) (by omega)).cons hlt

/-- Where words stand does not matter to their parts. -/
theorem partsOf_eq_of_tokens {words words' : List Located}
    (h : words'.map (·.token) = words.map (·.token)) :
    Unbounded.partsOf words' = Unbounded.partsOf words := by
  unfold Unbounded.partsOf
  induction words generalizing words' with
  | nil => rw [List.map_eq_nil_iff.1 h]
  | cons w words ih =>
    obtain ⟨w', rest, rfl, htoken, hrest⟩ := List.map_eq_cons_iff.1 h
    rw [List.filterMap_cons, List.filterMap_cons, htoken, ih hrest]

theorem commandFrom_eq (origin : Cursor) (span : Span) (s : State) : commandFrom origin span s =
    match origin.commandLine (0 < s.blockDepth) with
    | .error e => .error e s
    | .ok (words, c) =>
      if (Unbounded.partsOf words).isEmpty then .error (.parse .noCommand span) s
      else match s.readFrom (0 < s.nesting) c with
        | .ok t => .ok (Unbounded.partsOf words) t
        | .error e => .error e s := rfl

/-- A command line has words, so less is left behind it than from its first word on. -/
theorem follows_commandFrom {origin origin' : Cursor} {span span' : Span}
    (hplace : L.cursor origin origin') (hspan : L.span span span') (halike : L.Alike s s') :
    Follows L origin.rest.length (commandFrom origin span s)
      (Unbounded.commandFrom origin' span' s') := by
  have hwords := readWords_wordsFrom s' (0 < s.blockDepth) (origin.rest.length + 1) hplace
    (Nat.lt_succ_self _)
  rw [commandFrom_eq, Cursor.commandLine, Unbounded.commandFrom, Unbounded.get_bind,
    halike.blockDepth, halike.nesting]
  generalize Cursor.wordsFrom (0 < s.blockDepth) (origin.rest.length + 1) origin = r at hwords
  generalize hrun : Unbounded.wordsFrom (0 < s.blockDepth) origin' s' = r' at hwords
  cases hwords with
  | error herror =>
    rw [Unbounded.bind_of_error hrun]
    exact .error herror halike
  | @ok words words' e e' htokens he hle =>
    rw [Unbounded.bind_of_ok hrun]
    dsimp only
    rw [partsOf_eq_of_tokens htokens]
    split
    · exact .error (L.parse _ hspan) halike
    · next hne =>
      have hpos : 0 < words.length := by
        rw [List.length_pos_iff]
        rintro rfl
        exact hne rfl
      obtain ⟨t, t', ht, ht', halike'⟩ | ⟨err, err', herr, herr', herror⟩ :=
        Likeness.readFrom halike he (0 < s.nesting)
      · obtain ⟨hstands, hleft⟩ := stands_of_readFrom ht
        rw [ht, ht']
        exact .ok halike' hstands (by omega)
      · rw [herr, herr']
        exact .error herror halike

theorem follows_commandAt {begin begin' : State} (hbegin : L.Alike begin begin')
    (halike : L.Alike s s') (reading : Option Reading) :
    Follows L begin.left (commandAt begin reading s)
      (Unbounded.commandAt begin' reading s') := by
  have hgroup : L.Alike { s with nesting := begin.nesting } { s' with nesting := begin'.nesting } :=
    halike.group hbegin.nesting
  have hwords := Follows.bind (follows_commandFrom hbegin.origin hbegin.span hgroup)
    fun words t t' halike ht hleft => follows_pure halike ht hleft (Action.command ⟨words, reading⟩)
  exact hwords

/-! ## Actions -/

theorem Unbounded.action_of_ok {commands : CommandSet} {expr : Unbounded Expr} {e : Expr}
    {known : Option String} (hknown : knownCommand? commands s = .ok known s)
    (h : expr s = some (.ok e, t)) : Unbounded.action commands expr s =
      match known, t.completes e with
      | some name, complete => (do
          Unbounded.commandAt s (← readingOf name (.ok e) complete) : Unbounded Action) t
      | none, true => some (.ok (.expression e), t)
      | none, false => (if mayStartCommand s.current.token then Unbounded.commandAt s none
          else liftM (unexpected "end of statement" : Parser Action) : Unbounded Action) t := by
  have hget : (get : Unbounded State) s = some (.ok s, s) := rfl
  have hlift : (liftM (knownCommand? commands) : Unbounded (Option String)) s
      = some (.ok known, s) := congrArg outcome hknown
  have hattempt : Unbounded.attempt expr s = some (.ok (.ok e), t) := by
    rw [Unbounded.attempt, h]
    rfl
  have hcomplete : (liftM (isComplete e) : Unbounded Bool) t = some (.ok (t.completes e), t) :=
    congrArg outcome (isComplete_eq e t)
  unfold Unbounded.action
  rw [Unbounded.bind_of_ok hget, Unbounded.bind_of_ok hlift, Unbounded.bind_of_ok hattempt]
  dsimp only
  rw [Unbounded.bind_of_ok hcomplete]
  cases known <;> cases t.completes e <;> rfl

theorem Unbounded.action_of_error {commands : CommandSet} {expr : Unbounded Expr} {fault : Error}
    {known : Option String} (hknown : knownCommand? commands s = .ok known s)
    (h : expr s = some (.error fault, t)) : Unbounded.action commands expr s =
      (if known.isSome || mayStartCommand s.current.token then Unbounded.commandAt s none
        else throw fault : Unbounded Action) t := by
  have hget : (get : Unbounded State) s = some (.ok s, s) := rfl
  have hlift : (liftM (knownCommand? commands) : Unbounded (Option String)) s
      = some (.ok known, s) := congrArg outcome hknown
  have hattempt : Unbounded.attempt expr s = some (.ok (.error fault), t) := by
    rw [Unbounded.attempt, h]
    rfl
  unfold Unbounded.action
  rw [Unbounded.bind_of_ok hget, Unbounded.bind_of_ok hlift, Unbounded.bind_of_ok hattempt]
  cases known <;> rfl

/-- The other reading of a line is the same in states that are alike, and looking for it does not
move. -/
theorem readingOf_alike (halike : L.Alike s s') (name : String) (e : Expr) (complete : Bool) :
    ∃ reading, readingOf name (.ok e) complete s = .ok reading s
      ∧ readingOf name (.ok e) complete s' = .ok reading s' := by
  unfold readingOf
  dsimp only
  rw [check_bind, check_bind, halike.token]
  cases complete && !s.current.token.isSymbol .semicolon with
  | true => exact ⟨_, rfl, rfl⟩
  | false => exact ⟨_, rfl, rfl⟩

/-- **An action moves on**, also if the line is read again from its first token as a command. -/
theorem Tracks.action {expr : Parser Expr} {expr' : Unbounded Expr} (commands : CommandSet)
    (h : Tracks L size expr expr') :
    Tracks L size (action commands expr) (Unbounded.action commands expr') := by
  intro s s' halike hs hsize
  obtain ⟨known, hknown, hknown'⟩ := knownCommand?_alike commands halike
  have hexpr := h halike hs hsize
  generalize hr : expr s = r at hexpr
  generalize hr' : expr' s' = r' at hexpr
  cases hexpr with
  | @ok e t t' halike' ht hleft =>
    rw [action_of_ok hknown hr, Unbounded.action_of_ok hknown' hr', halike'.completes]
    cases known with
    | some name =>
      obtain ⟨reading, hreading, hreading'⟩ := readingOf_alike halike' name e (t.completes e)
      dsimp only
      rw [bind_eq_of_ok hreading, Unbounded.bind_of_ok (congrArg outcome hreading')]
      exact follows_commandAt halike halike' reading
    | none =>
      cases t.completes e with
      | true => exact .ok halike' ht hleft
      | false =>
        dsimp only
        rw [halike.token]
        split
        · exact follows_commandAt halike halike' none
        · exact follows_unexpected halike' _
  | @error fault fault' t t' herror halike' =>
    rw [action_of_error hknown hr, Unbounded.action_of_error hknown' hr', halike.token]
    split
    · exact follows_commandAt halike halike' none
    · exact .error herror halike'

end Commands

/-! ## Statements -/

section Statements

variable {L : Likeness} {size : Nat} {expr : Parser Expr} {expr' : Unbounded Expr}
  {act : Parser Action} {act' : Unbounded Action} {block : Parser (List Stmt)}
  {block' : Unbounded (List Stmt)} {stmt : Parser Stmt} {stmt' : Unbounded Stmt}

theorem follows_skipSeparators : ∀ (n : Nat) {s s' : State}, L.Alike s s' → s.Stands →
    s.left < n → Follows L (s.left + 1) (skipSeparators n s) (Unbounded.skipSeparators s')
  | 0, _, _, _, _, hn => absurd hn (Nat.not_lt_zero _)
  | n + 1, s, s', halike, hs, hn => by
    have hstep : Unbounded.skipSeparators s' = if s'.current.token.isSeparator then
        (do liftM advance; Unbounded.skipSeparators : Unbounded Unit) s'
        else some (.ok (), s') := by
      conv => lhs; rw [Unbounded.skipSeparators_eq]
      change (if s'.current.token.isSeparator = true then _ else _ : Unbounded Unit) s' = _
      split <;> rfl
    rw [skipSeparators_succ, hstep, halike.token]
    cases hsep : s.current.token.isSeparator with
    | false => exact .ok halike hs (Nat.lt_succ_self _)
    | true =>
      refine Follows.bind (follows_advance halike hs (isEnd_of_isSeparator hsep))
        fun _ t t' halike ht _ => ?_
      exact (follows_skipSeparators n halike ht (by omega)).mono (by omega)

theorem follows_otherwiseFrom (hexpr : Tracks L size expr expr')
    (hblock : Tracks L size block block') : ∀ (n : Nat) {s s' : State}, L.Alike s s' → s.Stands →
      s.left < n → s.left < size → Follows L (s.left + 1) (otherwiseFrom expr block n s)
        (Unbounded.otherwiseFrom expr' block' s')
  | 0, _, _, _, _, hn, _ => absurd hn (Nat.not_lt_zero _)
  | n + 1, s, s', halike, hs, hn, hsize => by
    rw [otherwiseFrom, Unbounded.otherwiseFrom_eq]
    refine Follows.bind (follows_skipToElse halike hs) fun found t t' halike ht _ => ?_
    cases found with
    | false => exact follows_pure halike ht (by omega) _
    | true =>
      refine Follows.bind (follows_expectKeyword halike ht _) fun _ t t' halike ht _ => ?_
      rw [current_bind, Unbounded.current_bind, halike.token]
      cases hword : t.current.token.isKeyword .ifWord with
      | false =>
        refine Follows.bind (hblock halike ht (by omega)) fun body t t' halike ht _ => ?_
        exact follows_pure halike ht (by omega) _
      | true =>
        refine Follows.bind (follows_advance halike ht (isEnd_of_isKeyword hword))
          fun _ t t' halike ht _ => ?_
        refine Follows.bind (hexpr halike ht (by omega)) fun test t t' halike ht _ => ?_
        refine Follows.bind (hblock halike ht (by omega)) fun body t t' halike ht _ => ?_
        refine Follows.bind (follows_otherwiseFrom hexpr hblock n halike ht (by omega) (by omega))
          fun rest t t' halike ht _ => ?_
        exact follows_pure halike ht (by omega) _

theorem Tracks.conditional (hexpr : Tracks L size expr expr')
    (hblock : Tracks L size block block') :
    Tracks L size (conditional size expr block) (Unbounded.conditional expr' block') := by
  intro s s' halike hs hsize
  refine Follows.bind (follows_expectKeyword halike hs _) fun _ t t' halike ht _ => ?_
  refine Follows.bind (hexpr halike ht (by omega)) fun test t t' halike ht _ => ?_
  refine Follows.bind (hblock halike ht (by omega)) fun body t t' halike ht _ => ?_
  refine Follows.bind (follows_otherwiseFrom hexpr hblock size halike ht (by omega) (by omega))
    fun rest t t' halike ht _ => ?_
  exact follows_pure halike ht (by omega) _

theorem Tracks.loop (hexpr : Tracks L size expr expr') (hblock : Tracks L size block block') :
    Tracks L size (loop expr block) (Unbounded.loop expr' block') := by
  intro s s' halike hs hsize
  refine Follows.bind (follows_expectKeyword halike hs _) fun _ t t' halike ht _ => ?_
  refine Follows.bind (follows_expectName halike ht _) fun name t t' halike ht _ => ?_
  refine Follows.bind (follows_expectKeyword halike ht _) fun _ t t' halike ht _ => ?_
  refine Follows.bind (hexpr halike ht (by omega)) fun items t t' halike ht _ => ?_
  refine Follows.bind (hblock halike ht (by omega)) fun body t t' halike ht _ => ?_
  exact follows_pure halike ht (by omega) _

theorem follows_parametersFrom : ∀ (n : Nat) (earlier : List String) {s s' : State},
    L.Alike s s' → s.Stands → s.left < n → Follows L (s.left + 1) (parametersFrom n earlier s)
      (Unbounded.parametersFrom earlier s')
  | 0, _, _, _, _, _, hn => absurd hn (Nat.not_lt_zero _)
  | n + 1, earlier, s, s', halike, hs, hn => by
    rw [parametersFrom, Unbounded.parametersFrom_eq, check_bind, Unbounded.check_bind, halike.token]
    cases s.current.token.isSymbol .rightParen with
    | true => exact follows_pure halike hs (Nat.lt_succ_self _) []
    | false =>
      refine Follows.bind (follows_expectName halike hs _) fun name t t' halike ht _ => ?_
      cases earlier.contains name with
      | true => exact .error (L.parse _ halike.span) halike
      | false =>
        simp only [Bool.false_eq_true, if_false]
        rw [check_bind, Unbounded.check_bind, halike.token]
        cases hcomma : t.current.token.isSymbol .comma with
        | false => exact follows_pure halike ht (by omega) [name]
        | true =>
          refine Follows.bind (follows_advance halike ht (isEnd_of_isSymbol hcomma))
            fun _ t t' halike ht _ => ?_
          refine Follows.bind (follows_parametersFrom n (name :: earlier) halike ht (by omega))
            fun names t t' halike ht _ => ?_
          exact follows_pure halike ht (by omega) _

theorem follows_enclosed (halike : L.Alike s s') (hs : s.Stands) (hn : 0 < s.nesting)
    (hsize : s.left < size) :
    Follows L (s.left + 1) (enclosed size s.dropGroupedNewlines)
      ((do
        let names ← Unbounded.parametersFrom []
        closeGroup .rightParen
        return names : Unbounded (List String)) s'.dropGroupedNewlines) := by
  cases hline : s.current.token.isNewline with
  | true =>
    rw [State.dropGroupedNewlines_of_newline hn hline, State.dropGroupedNewlines_of_newline
      (halike.nesting ▸ hn) (halike.token ▸ hline), Unbounded.parametersFrom_eq]
    obtain ⟨n, rfl⟩ := Nat.exists_eq_add_one_of_ne_zero (Nat.ne_zero_of_lt hsize)
    exact .error (L.parse _ L.unset) halike.unread
  | false =>
    rw [State.dropGroupedNewlines_of_not hline,
      State.dropGroupedNewlines_of_not (halike.token ▸ hline)]
    refine Follows.bind (follows_parametersFrom size [] halike hs hsize)
      fun names u u' halike hu huleft => ?_
    refine Follows.bind (follows_closeGroup halike hu _) fun _ v v' halike hv _ => ?_
    exact follows_pure halike hv (by omega) names

theorem tracks_parameters : Tracks L size (parameters size) Unbounded.parameters := by
  intro s s' halike hs hsize
  refine Follows.bind (follows_expect halike hs _) fun _ t t' halike ht htleft => ?_
  have hgroup := halike.group (congrArg (· + 1) halike.nesting)
  exact (follows_enclosed hgroup ⟨ht.next, ht.origin⟩ (Nat.succ_pos _)
    (Nat.lt_trans htleft hsize)).mono htleft

theorem Tracks.functionDef (hblock : Tracks L size block block') :
    Tracks L size (functionDef size block) (Unbounded.functionDef block') := by
  intro s s' halike hs hsize
  refine Follows.bind (follows_expectKeyword halike hs _) fun _ t t' halike ht _ => ?_
  refine Follows.bind (follows_expectName halike ht _) fun name t t' halike ht _ => ?_
  refine Follows.bind (tracks_parameters halike ht (by omega)) fun params t t' halike ht _ => ?_
  refine Follows.bind (hblock halike ht (by omega)) fun body t t' halike ht _ => ?_
  exact follows_pure halike ht (by omega) _

theorem Tracks.giveBack (h : Tracks L size act act') :
    Tracks L size (giveBack act) (Unbounded.giveBack act') := by
  intro s s' halike hs hsize
  refine Follows.bind (follows_expectKeyword halike hs _) fun _ t t' halike ht _ => ?_
  rw [atStatementEnd_bind, Unbounded.atStatementEnd_bind, halike.atEnd]
  cases t.atEnd with
  | true => exact follows_pure halike ht (by omega) _
  | false =>
    refine Follows.bind (h halike ht (by omega)) fun value t t' halike ht _ => ?_
    exact follows_pure halike ht (by omega) _

theorem Tracks.actionStatement (h : Tracks L size act act') :
    Tracks L size (actionStatement act) (Unbounded.actionStatement act') := by
  intro s s' halike hs hsize
  refine Follows.bind (h halike hs hsize) fun a t t' halike ht _ => ?_
  cases a with
  | command c => exact follows_pure halike ht (by omega) _
  | expression e =>
    cases e with
    | index target place =>
      dsimp only
      rw [check_bind, Unbounded.check_bind, halike.token]
      cases hequals : t.current.token.isSymbol .equals with
      | false => exact follows_pure halike ht (by omega) _
      | true =>
        refine Follows.bind (follows_advance halike ht (isEnd_of_isSymbol hequals))
          fun _ t t' halike ht _ => ?_
        refine Follows.bind (h halike ht (by omega)) fun value t t' halike ht _ => ?_
        exact follows_pure halike ht (by omega) _
    | _ => exact follows_pure halike ht (by omega) _

theorem Tracks.assignment (h : Tracks L size act act') (name : String) {s s' : State}
    (halike : L.Alike s s') (hs : s.Stands) (hsize : s.left < size)
    (hend : s.current.token.isEnd = false) :
    Follows L s.left (assignment act name s) (Unbounded.assignment act' name s') := by
  refine Follows.bind (follows_advance halike hs hend) fun _ t t' halike ht _ => ?_
  have hle := ht.cursor_le
  refine Follows.bind (follows_readOn halike) fun _ u u' halike hu _ => ?_
  refine Follows.bind (h halike hu (by omega)) fun value t t' halike ht _ => ?_
  exact follows_pure halike ht (by omega) _

theorem Tracks.lineStatement (h : Tracks L size act act') :
    Tracks L size (lineStatement act) (Unbounded.lineStatement act') := by
  intro s s' halike hs hsize
  obtain ⟨next, hpeek, hpeek'⟩ := peek?_alike halike
  unfold Parser.lineStatement Unbounded.lineStatement
  rw [current_bind, Unbounded.current_bind, halike.token]
  cases htok : s.current.token with
  | keyword word =>
    cases word with
    | returnWord => exact h.giveBack halike hs hsize
    | _ => exact h.actionStatement halike hs hsize
  | identifier name =>
    dsimp only
    rw [bind_eq_of_ok hpeek, Unbounded.bind_of_ok (congrArg outcome hpeek')]
    have haction := h.actionStatement halike hs hsize
    cases next with
    | none => exact haction
    | some tok =>
      cases tok with
      | symbol sign =>
        cases sign with
        | equals => exact h.assignment name halike hs hsize (by rw [htok]; rfl)
        | _ => exact haction
      | _ => exact haction
  | _ => exact h.actionStatement halike hs hsize

theorem Tracks.simpleStatement (h : Tracks L size act act') :
    Tracks L size (simpleStatement act) (Unbounded.simpleStatement act') := by
  intro s s' halike hs hsize
  refine Follows.bind (h.lineStatement halike hs hsize) fun stmt t t' halike ht _ => ?_
  refine Follows.bind (follows_expectStatementEnd halike ht) fun _ t t' halike ht _ => ?_
  exact follows_pure halike ht (by omega) stmt

theorem follows_blockFrom (h : Tracks L size stmt stmt') : ∀ (n : Nat) {s s' : State},
    L.Alike s s' → s.Stands → s.left < n → s.left < size →
      Follows L (s.left + 1) (blockFrom size stmt n s) (Unbounded.blockFrom stmt' s')
  | 0, _, _, _, _, hn, _ => absurd hn (Nat.not_lt_zero _)
  | n + 1, s, s', halike, hs, hn, hsize => by
    rw [blockFrom, Unbounded.blockFrom_eq]
    refine Follows.bind (follows_skipSeparators size halike hs hsize) fun _ t t' halike ht _ => ?_
    rw [check_bind, Unbounded.check_bind, halike.token]
    cases t.current.token.isSymbol .rightBrace with
    | true => exact follows_pure halike ht (by omega) []
    | false =>
      simp only [Bool.false_eq_true, if_false]
      rw [current_bind, Unbounded.current_bind, halike.token]
      cases t.current.token.isEnd with
      | true => exact follows_unexpected halike _
      | false =>
        refine Follows.bind (h halike ht (by omega)) fun s t t' halike ht _ => ?_
        refine Follows.bind (follows_blockFrom h n halike ht (by omega) (by omega))
          fun ss t t' halike ht _ => ?_
        exact follows_pure halike ht (by omega) _

theorem Tracks.blockOf (h : Tracks L size stmt stmt') :
    Tracks L size (blockOf size stmt) (Unbounded.blockOf stmt') := by
  intro s s' halike hs hsize
  refine Follows.bind (follows_expect halike hs _) fun _ t t' halike ht htleft => ?_
  rw [modify_bind, Unbounded.modify_bind]
  refine Follows.bind (follows_blockFrom h size (halike.block (· + 1)) ⟨ht.next, ht.origin⟩
    (Nat.lt_trans htleft hsize) (Nat.lt_trans htleft hsize)) fun body u u' halike hu huleft => ?_
  rw [modify_bind, Unbounded.modify_bind]
  refine Follows.bind (follows_expect (halike.block (· - 1)) ⟨hu.next, hu.origin⟩ _)
    fun _ v v' halike hv hvleft => ?_
  refine follows_pure halike hv ?_ body
  change v.left < u.left at hvleft
  change u.left < t.left + 1 at huleft
  omega

theorem Tracks.statementOf (hexpr : Tracks L size expr expr') (hact : Tracks L size act act')
    (hblock : Tracks L size block block') : Tracks L size (statementOf size expr act block)
      (Unbounded.statementOf expr' act' block') := by
  intro s s' halike hs hsize
  have hsimple := hact.simpleStatement halike hs hsize
  unfold Parser.statementOf Unbounded.statementOf
  rw [current_bind, Unbounded.current_bind, halike.token]
  cases s.current.token with
  | keyword word =>
    cases word with
    | ifWord => exact hexpr.conditional hblock halike hs hsize
    | forWord => exact hexpr.loop hblock halike hs hsize
    | funcWord => exact hblock.functionDef halike hs hsize
    | _ => exact hsimple
  | symbol sign =>
    cases sign with
    | leftBrace =>
      refine Follows.bind (hblock halike hs hsize) fun body t t' halike ht hleft => ?_
      exact follows_pure halike ht hleft _
    | _ => exact hsimple
  | _ => exact hsimple

/-- **A statement moves on.** -/
theorem tracks_statement (commands : CommandSet) : ∀ levels : Nat,
    Tracks L size (statement commands size levels) (Unbounded.statement commands levels)
  | 0 => (tracks_expression 0).statementOf ((tracks_expression 0).action commands)
      fun _ _ halike _ _ => follows_tooDeep halike
  | levels + 1 => (tracks_expression (levels + 1)).statementOf
      ((tracks_expression (levels + 1)).action commands)
      (tracks_statement commands levels).blockOf.nested

theorem follows_programFrom (h : Tracks L size stmt stmt') : ∀ (n : Nat) {s s' : State},
    L.Alike s s' → s.Stands → s.left < n → s.left < size →
      Follows L (s.left + 1) (programFrom size stmt n s) (Unbounded.programFrom stmt' s')
  | 0, _, _, _, _, hn, _ => absurd hn (Nat.not_lt_zero _)
  | n + 1, s, s', halike, hs, hn, hsize => by
    rw [programFrom, Unbounded.programFrom_eq]
    refine Follows.bind (follows_skipSeparators size halike hs hsize) fun _ t t' halike ht _ => ?_
    rw [current_bind, Unbounded.current_bind, halike.token]
    cases t.current.token.isEnd with
    | true => exact follows_pure halike ht (by omega) []
    | false =>
      simp only [Bool.false_eq_true, if_false]
      cases t.current.token.isSymbol .rightBrace with
      | true => exact follows_unexpected halike _
      | false =>
        refine Follows.bind (h halike ht (by omega)) fun s t t' halike ht _ => ?_
        refine Follows.bind (follows_programFrom h n halike ht (by omega) (by omega))
          fun ss t t' halike ht _ => ?_
        exact follows_pure halike ht (by omega) _

end Statements

/-! ## Whole texts -/

/-- The state is at a token of the text. -/
structure State.At (source : List Char) (s : State) : Prop where
  stands : s.Stands
  place : s.origin.In source

section Places

variable {source : List Char} {size k : Nat} {s s' t : State} {α : Type} {a : α}

theorem State.At.alike (h : s.At source) : (Likeness.same source).Alike s s := by
  have hcursor : s.cursor.In source := by
    obtain ⟨n, -, hcursor, -⟩ := Cursor.next_eq_ok_iff.1 h.stands.next
    rw [hcursor, h.stands.origin]
    exact h.place.skip n
  exact ⟨rfl, rfl, ⟨rfl, h.place⟩, ⟨rfl, hcursor⟩, rfl, rfl, rfl⟩

theorem Likeness.Alike.eq (h : (Likeness.same source).Alike s s') : s' = s := by
  obtain ⟨⟨token, span⟩, origin, cursor, nesting, blockDepth, depth⟩ := s
  obtain ⟨⟨token', span'⟩, origin', cursor', nesting', blockDepth', depth'⟩ := s'
  obtain ⟨rfl, rfl, ⟨rfl, -⟩, ⟨rfl, -⟩, rfl, rfl, rfl⟩ := h
  rfl

/-- In one text the two parsers end in the same way. -/
theorem Follows.eq_outcome {r : EStateM.Result Error State α}
    {r' : Option (Except Error α × State)} (h : Follows (Likeness.same source) k r r') :
    r' = outcome r := by
  cases h with
  | ok halike => rw [halike.eq, outcome]
  | error herror halike => rw [halike.eq, herror, outcome]

theorem Follows.at {r' : Option (Except Error α × State)}
    (h : Follows (Likeness.same source) k (.ok a t) r') : t.At source ∧ t.left < k := by
  cases h with
  | ok halike hstands hleft => exact ⟨⟨hstands, halike.origin.2⟩, hleft⟩

/-- A token starts where its state is. -/
theorem State.Stands.span_start (h : s.Stands) : s.current.span.start = s.origin.offset := by
  obtain ⟨n, -, -, hspan⟩ := Cursor.next_eq_ok_iff.1 h.next
  rw [hspan, h.origin]
  rfl

/-- Where less is left, one is further on. -/
theorem State.At.span_start_lt (hs : s.At source) (ht : t.At source) (h : t.left < s.left) :
    s.current.span.start < t.current.span.start := by
  have hlength := hs.place.length_rest
  have hlength' := ht.place.length_rest
  rw [hs.stands.span_start, ht.stands.span_start]
  unfold State.left at h
  omega

theorem at_of_readFrom {c : Cursor} {acrossLines : Bool} (hc : c.In source)
    (h : s.readFrom acrossLines c = .ok t) : t.At source := by
  have hstands := (stands_of_readFrom h).1
  obtain ⟨tok, d, -, rfl⟩ := readFrom_eq_ok_iff.1 h
  exact ⟨hstands, hc.skip _⟩

theorem at_of_start (h : start source = .ok s) : s.At source :=
  at_of_readFrom (Cursor.in_start source) h

theorem State.At.left_le (h : s.At source) : s.left ≤ source.length := by
  have := h.place.length_rest
  unfold State.left
  omega

/-- Every statement of a program takes a character. -/
theorem length_programFrom {stmt : Parser Stmt} {stmt' : Unbounded Stmt}
    (h : Tracks (Likeness.same source) size stmt stmt') : ∀ (n : Nat) {s t : State} {p : Program},
      s.At source → s.left < size → programFrom size stmt n s = .ok p t → p.length ≤ s.left
  | 0, s, t, p, _, _, hp => by
    obtain ⟨rfl, -⟩ := pure_eq_ok_iff.1 hp
    exact Nat.zero_le _
  | n + 1, s, t, p, hs, hsize, hp => by
    obtain ⟨_, u, hskip, hp⟩ := bind_eq_ok_iff.1 hp
    have hfollows := follows_skipSeparators size hs.alike hs.stands hsize
    rw [hskip] at hfollows
    obtain ⟨hu, huleft⟩ := hfollows.at
    rw [current_bind] at hp
    split at hp
    · obtain ⟨rfl, -⟩ := pure_eq_ok_iff.1 hp
      exact Nat.zero_le _
    split at hp
    · exact absurd hp unexpected_ne_ok
    · obtain ⟨st, v, hst, hp⟩ := bind_eq_ok_iff.1 hp
      obtain ⟨rest, w, hrest, hp⟩ := bind_eq_ok_iff.1 hp
      obtain ⟨rfl, -⟩ := pure_eq_ok_iff.1 hp
      have hstep := h hu.alike hu.stands (by omega)
      rw [hst] at hstep
      obtain ⟨hv, hvleft⟩ := hstep.at
      have hlength := length_programFrom h n hv (by omega) hrest
      rw [List.length_cons]
      omega

end Places

/-- **Parsing moves on and ends.** Wherever in a text a statement is read, the token behind it
starts behind the start of its first token, also where the line was read again as a command. So the
parser ends on every text even if its loops have no bound, with what the bounded one gives; and a
program has no more statements than its text has characters. -/
theorem parseProgram_ends (commands : CommandSet) (source : String) :
    (∀ (levels : Nat) (s t : State) (stmt : Stmt), s.At source.toList →
        statement commands (source.toList.length + 1) levels s = .ok stmt t →
        t.At source.toList ∧ s.current.span.start < t.current.span.start)
      ∧ parseUnbounded commands source = some (parseProgram commands source)
      ∧ ∀ p, parseProgram commands source = .ok p → p.length ≤ source.toList.length := by
  refine ⟨fun levels s t stmt hs hstmt => ?_, ?_, fun p hp => ?_⟩
  · have hstep := tracks_statement commands levels hs.alike hs.stands (Nat.lt_succ_of_le hs.left_le)
    rw [hstmt] at hstep
    obtain ⟨ht, hlt⟩ := hstep.at
    exact ⟨ht, hs.span_start_lt ht hlt⟩
  · unfold parseUnbounded parseProgram
    dsimp only
    cases hstart : start source.toList with
    | error e => rfl
    | ok s =>
      have hs := at_of_start hstart
      have hfollows := follows_programFrom (tracks_statement commands maxDepth)
        (source.toList.length + 1) hs.alike hs.stands (Nat.lt_succ_of_le hs.left_le)
        (Nat.lt_succ_of_le hs.left_le)
      dsimp only
      rw [hfollows.eq_outcome]
      cases programFrom (source.toList.length + 1)
        (statement commands (source.toList.length + 1) maxDepth) (source.toList.length + 1) s with
      | ok p t => rfl
      | error e t => rfl
  · obtain ⟨s, t, hstart, hprogram⟩ := parseProgram_eq_ok_iff.1 hp
    have hs := at_of_start hstart
    exact (length_programFrom (tracks_statement commands maxDepth) _ hs
      (Nat.lt_succ_of_le hs.left_le) hprogram).trans hs.left_le

theorem exists_of_parseStatement {commands : CommandSet} {source : String}
    (h : (parseStatement commands source).toOption.isSome = true) :
    ∃ s t stmt, start source.toList = .ok s
      ∧ statement commands (source.toList.length + 1) maxDepth s = .ok stmt t := by
  unfold parseStatement at h
  dsimp only at h
  cases hstart : start source.toList with
  | error e => simp [hstart, Except.toOption] at h
  | ok s =>
    cases hstmt : statement commands (source.toList.length + 1) maxDepth s with
    | error e t => simp [hstart, hstmt, Except.toOption] at h
    | ok stmt t => exact ⟨s, t, stmt, rfl, hstmt⟩

/-- The first line of the text is read as an expression, and again as a command. -/
theorem parseProgram_ends_command : ∃ s t stmt p, start "ls -l\ny".toList = .ok s
      ∧ statement ⟨["ls"]⟩ ("ls -l\ny".toList.length + 1) maxDepth s = .ok stmt t
      ∧ s.current.span.start < t.current.span.start
      ∧ parseUnbounded ⟨["ls"]⟩ "ls -l\ny" = some (.ok p)
      ∧ p.length ≤ "ls -l\ny".toList.length := by
  have hfirst : (parseStatement ⟨["ls"]⟩ "ls -l\ny").toOption.isSome = true := by decide +kernel
  have hall : (parseProgram ⟨["ls"]⟩ "ls -l\ny").toOption.isSome = true := by decide +kernel
  obtain ⟨hstep, hends, hlength⟩ := parseProgram_ends ⟨["ls"]⟩ "ls -l\ny"
  obtain ⟨s, t, stmt, hstart, hstmt⟩ := exists_of_parseStatement hfirst
  have hlt := (hstep _ s t stmt (at_of_start hstart) hstmt).2
  cases hparse : parseProgram ⟨["ls"]⟩ "ls -l\ny" with
  | error e => simp [hparse, Except.toOption] at hall
  | ok p =>
    exact ⟨s, t, stmt, p, hstart, hstmt, hlt, hends.trans (congrArg some hparse), hlength p hparse⟩

end Parser

end CommandScript
