import CommandScript.Proofs.Parser.Carried

/-!
# Proofs/Parser/Append — a program and another one on the lines behind it

A program without commands and any other program, written on the lines behind it, are together the
statements of the one and then those of the other (`parseProgram_append`). The statements of the
first text are carried to the longer text. Where only separators are left in it, they and the end of
the line belong to what follows (`programFrom_past`). From the new line on the parser is as at the
start of the second text, and it finds no `else` there, for no program starts with one
(`resumes_of_programFrom`). That the longer text allows the loops more rounds changes nothing
(`programFrom_of_alike`).
-/

namespace CommandScript

namespace Parser

open Readable

/-! ## Separators -/

section Separators

variable {tail : List Char} {size : Nat} {stmt : Parser Stmt} {s s' t u : State}

theorem left_of_advance (hs : s.Stands) (hend : s.current.token.isEnd = false)
    (h : advance s = .ok () t) : t.Stands ∧ t.left < s.left := by
  obtain ⟨hstands, hleft⟩ := stands_of_readFrom (advance_eq_ok_iff_readFrom.1 h)
  exact ⟨hstands, Nat.lt_of_le_of_lt hleft (hs.cursor_lt hend)⟩

theorem skipSeparators_of_left_lt : ∀ {n : Nat} {s : State}, s.Stands → s.left < n →
    skipSeparators (n + 1) s = skipSeparators n s
  | 0, _, _, hn => absurd hn (Nat.not_lt_zero _)
  | n + 1, s, hs, hn => by
    rw [skipSeparators_succ, skipSeparators_succ]
    split
    · next hsep =>
      cases hadvance : advance s with
      | error e t => rw [bind_eq_of_error hadvance, bind_eq_of_error hadvance]
      | ok _ t =>
        obtain ⟨ht, hleft⟩ := left_of_advance hs (isEnd_of_isSeparator hsep) hadvance
        rw [bind_eq_of_ok hadvance, bind_eq_of_ok hadvance,
          skipSeparators_of_left_lt ht (by omega)]
    · rfl

/-- A program may as well start behind a separator. -/
theorem programFrom_of_separator (hs : s.Stands) (hsize : s.left < size)
    (hsep : s.current.token.isSeparator = true) (hadvance : advance s = .ok () t) (n : Nat) :
    programFrom size stmt (n + 1) s = programFrom size stmt (n + 1) t := by
  obtain ⟨ht, hleft⟩ := left_of_advance hs (isEnd_of_isSeparator hsep) hadvance
  have hskip : skipSeparators size s = skipSeparators size t := by
    obtain ⟨size, rfl⟩ := Nat.exists_eq_succ_of_ne_zero (Nat.ne_zero_of_lt hsize)
    rw [skipSeparators_succ, if_pos hsep, bind_eq_of_ok hadvance,
      skipSeparators_of_left_lt ht (by omega)]
  rw [programFrom]
  cases hresult : skipSeparators size t with
  | ok a u => rw [bind_eq_of_ok (hskip.trans hresult), bind_eq_of_ok hresult]
  | error e u => rw [bind_eq_of_error (hskip.trans hresult), bind_eq_of_error hresult]

/-- Where only separators are left in the first text, the second parser comes past them to the new
line. -/
theorem programFrom_past (htail : Resumes tail) (m : Nat) : ∀ {n b d : Nat} {s s' u : State},
    Extends tail size (0, b, d) s s' → s'.left < size → skipSeparators n s = .ok () u →
      u.current.token.isEnd = true → ∃ v', Past tail (0, b, d) u v'
        ∧ programFrom size stmt (m + 1) s' = programFrom size stmt (m + 1) v' := by
  have hdone {b d : Nat} {s s' : State} (h : Extends tail size (0, b, d) s s')
      (hsize : s'.left < size) (hend : s.current.token.isEnd = true) :
      ∃ v', Past tail (0, b, d) s v'
        ∧ programFrom size stmt (m + 1) s' = programFrom size stmt (m + 1) v' := by
    obtain ⟨v', hadvance, hpast⟩ := h.past htail hend
    refine ⟨v', hpast, programFrom_of_separator h.stands' hsize ?_ hadvance m⟩
    rw [(h.of_end hend).1]
    rfl
  intro n
  induction n with
  | zero =>
    intro b d s s' u h hsize hskip hend
    obtain ⟨-, rfl⟩ := pure_eq_ok_iff.1 hskip
    exact hdone h hsize hend
  | succ n ih =>
    intro b d s s' u h hsize hskip hend
    rw [skipSeparators_succ] at hskip
    split at hskip
    · next hsep =>
      obtain ⟨_, w, hadvance, hskip⟩ := bind_eq_ok_iff.1 hskip
      have hs := isEnd_of_isSeparator hsep
      obtain ⟨w', hadvance', hext⟩ := carried_advance h hs hadvance trivial
      have htoken := (h.of_token hs).1
      rw [← htoken] at hsep hs
      have hleft := (left_of_advance h.stands' hs hadvance').2
      obtain ⟨v', hpast, hprogram⟩ := ih hext (Nat.lt_trans hleft hsize) hskip hend
      exact ⟨v', hpast,
        (programFrom_of_separator h.stands' hsize hsep hadvance' m).trans hprogram⟩
    · obtain ⟨-, rfl⟩ := pure_eq_ok_iff.1 hskip
      exact hdone h hsize hend

end Separators

/-! ## The second text -/

section Second

variable {commands : CommandSet} {size levels : Nat} {s t u : State}

/-- No statement starts with `else`. -/
theorem not_else_of_statement {st : Stmt} (h : statement commands size levels s = .ok st t) :
    s.current.token.isKeyword .elseWord = false := by
  cases helse : s.current.token.isKeyword .elseWord with
  | false => rfl
  | true =>
    have htok : s.current.token = .keyword .elseWord := Token.isKeyword_iff.1 helse
    have hsimple : simpleStatement (action commands (expression size levels)) s = .ok st t := by
      cases levels <;>
      · unfold statement statementOf at h
        rw [current_bind, htok] at h
        exact h
    obtain ⟨_, u, hline, -⟩ := bind_eq_ok_iff.1 hsimple
    rw [lineStatement_of_not_name (by rw [htok]; rfl) (by rw [htok]; exact fun _ => nofun),
      actionStatement_eq] at hline
    obtain ⟨a, v, haction, -⟩ := bind_eq_ok_iff.1 hline
    have hknown : knownCommand? commands s = .ok none s := by
      unfold knownCommand?
      rw [current_bind, htok]
      rfl
    cases hexpr : expression size levels s with
    | ok e w =>
      obtain ⟨ts, hwalk, hphrase⟩ := (reads_expression size levels).sound hexpr
      obtain ⟨tok, us, rfl, hstarts⟩ := (Grammar.proper_operand levels).expressionOf.starts hphrase
      rw [← hwalk.current_eq, htok] at hstarts
      exact absurd hstarts (by decide)
    | error e w =>
      rw [action_of_error hknown hexpr, htok] at haction
      nomatch haction

/-- The first token that ends no line is a separator or the one that separators are skipped to. -/
theorem not_else_of_skipSeparators : ∀ {n : Nat} {s : State}, s.Stands → s.nesting = 0 →
    s.left < n → skipSeparators n s = .ok () u → u.current.token.isKeyword .elseWord = false →
      ∃ r, Token.scan (s.origin.toToken true).rest = .ok r ∧ r.1.isKeyword .elseWord = false
  | 0, _, _, _, hn, _, _ => absurd hn (Nat.not_lt_zero _)
  | n + 1, s, hs, hnesting, hn, hskip, hu => by
    rw [skipSeparators_succ] at hskip
    cases hnewline : s.current.token.isNewline with
    | true =>
      have hsep : s.current.token.isSeparator = true := by rw [Token.isSeparator, hnewline]; rfl
      rw [if_pos hsep] at hskip
      obtain ⟨_, v, hadvance, hskip⟩ := bind_eq_ok_iff.1 hskip
      obtain ⟨hv, hleft⟩ := left_of_advance hs (isEnd_of_isSeparator hsep) hadvance
      have hread := advance_eq_ok_iff_readFrom.1 hadvance
      rw [hnesting, decide_eq_false (Nat.lt_irrefl 0)] at hread
      have hscan := not_else_of_skipSeparators hv ((readFrom_fields hread).1.trans hnesting)
        (by omega) hskip hu
      rwa [origin_of_readFrom hread, Cursor.toToken_across_toToken,
        ← Cursor.toToken_across_of_newline hs.next hnewline] at hscan
    | false =>
      obtain ⟨m, hscan, -⟩ := hs.scan
      rw [Cursor.toToken_across_of_not_newline hs.next hnewline, hs.origin]
      refine ⟨_, hscan, ?_⟩
      split at hskip
      · next hsep =>
        rw [Token.isSeparator, hnewline, Bool.false_or] at hsep
        rw [Token.isSymbol_iff.1 hsep]
        rfl
      · obtain ⟨-, rfl⟩ := pure_eq_ok_iff.1 hskip
        exact hu

theorem resumes_of_programFrom {source : List Char} {n : Nat} {p : Program}
    (hstart : start source = .ok s) (hsize : s.left < size)
    (h : programFrom size (statement commands size levels) (n + 1) s = .ok p t) :
    Resumes source := by
  obtain ⟨hs, -⟩ := stands_of_readFrom hstart
  have horigin := origin_of_readFrom hstart
  constructor
  · obtain ⟨m, hscan, -⟩ := hs.scan
    rw [horigin, Cursor.rest_toToken] at hscan
    exact ⟨_, hscan⟩
  · obtain ⟨_, u, hskip, h⟩ := bind_eq_ok_iff.1 h
    have hnesting : s.nesting = 0 := (readFrom_fields hstart).1
    have hu : u.current.token.isKeyword .elseWord = false := by
      rw [current_bind] at h
      split at h
      · next hend =>
        rw [Token.eq_endOfInput hend]
        rfl
      split at h
      · exact absurd h unexpected_ne_ok
      · obtain ⟨st, v, hst, -⟩ := bind_eq_ok_iff.1 h
        exact not_else_of_statement hst
    have hscan := not_else_of_skipSeparators hs hnesting hsize hskip hu
    rwa [horigin, Cursor.toToken_across_toToken, Cursor.rest_toToken] at hscan

end Second

/-! ## Programs -/

section Programs

variable {commands : CommandSet} {tail : List Char} {size levels : Nat} {s s' t : State}

/-- Behind the same text parsers are alike. -/
theorem alike_of_rest (hs : s.Stands) (hs' : s'.Stands) (hrest : s'.origin.rest = s.origin.rest)
    (hopened : s'.opened = s.opened) : Likeness.ahead.Alike s s' := by
  obtain ⟨n, hscan, hcursor⟩ := hs.scan
  obtain ⟨n', hscan', hcursor'⟩ := hs'.scan
  rw [hrest, hscan] at hscan'
  obtain ⟨htoken, rfl⟩ := Prod.mk.inj (Except.ok.inj hscan')
  refine ⟨htoken.symm, trivial, hrest, ?_, congrArg (·.1) hopened, congrArg (·.2.1) hopened,
    congrArg (·.2.2) hopened⟩
  change s'.cursor.rest = s.cursor.rest
  rw [hcursor, hcursor', hrest]

/-- The same text ahead is the same program, whatever the bounds, if they are large enough. -/
theorem programFrom_of_alike {size' n n' : Nat} {p : Program} (halike : Likeness.ahead.Alike s s')
    (hs : s.Stands) (hs' : s'.Stands) (hsize : s.left < size) (hn : s.left < n)
    (hsize' : s.left < size') (hn' : s.left < n')
    (h : programFrom size (statement commands size levels) n s = .ok p t) :
    ∃ t', programFrom size' (statement commands size' levels) n' s' = .ok p t' := by
  have hleft : s'.left = s.left := congrArg List.length halike.origin
  have hfollows := follows_programFrom (tracks_statement commands levels) n halike hs hn hsize
  have hfollows' := follows_programFrom (tracks_statement commands levels) n'
    (alike_of_rest hs' hs' rfl rfl) hs' (hleft ▸ hn') (hleft ▸ hsize')
  rw [h] at hfollows
  generalize Unbounded.programFrom (Unbounded.statement commands levels) s' = r
    at hfollows hfollows'
  cases hfollows
  generalize programFrom size' (statement commands size' levels) n' s' = r' at hfollows' ⊢
  cases hfollows'
  exact ⟨_, rfl⟩

theorem Follows.left {L : Likeness} {α : Type} {k : Nat} {a : α}
    {r' : Option (Except Error α × State)} (h : Follows L k (.ok a t) r') :
    t.Stands ∧ t.left < k := by
  cases h with
  | ok _ hstands hleft => exact ⟨hstands, hleft⟩

theorem left_of_statement {st : Stmt} (hs : s.Stands) (hsize : s.left < size)
    (h : statement commands size levels s = .ok st t) : t.Stands ∧ t.left < s.left := by
  have hfollows := tracks_statement commands levels (alike_of_rest hs hs rfl rfl) hs hsize
  rw [h] at hfollows
  exact hfollows.left

theorem left_of_skipSeparators (hs : s.Stands) (hsize : s.left < size)
    (h : skipSeparators size s = .ok () t) : t.left ≤ s.left := by
  have hfollows := follows_skipSeparators size (alike_of_rest hs hs rfl rfl) hs hsize
  rw [h] at hfollows
  exact Nat.le_of_lt_succ hfollows.left.2

/-- Where `q` is read from the new line on, it is read behind the statements of the first text. -/
theorem programFrom_append {q : Program} {k : Nat} (htail : Resumes tail)
    (hq : ∀ {n : Nat} {s s' : State}, k ≤ n → Past tail (0, 0, 0) s s' →
      ∃ t', programFrom size (statement commands size levels) n s' = .ok q t') :
    ∀ {n : Nat} {s s' t : State} {p : Program}, Reaches tail size (0, 0, 0) s s' →
      s.Stands → s.left < n → s.left < size → s'.left < size →
      programFrom size (statement commands size levels) n s = .ok p t → isPure p = true →
        ∃ t', programFrom size (statement commands size levels) (n + k) s' = .ok (p ++ q) t' := by
  -- the second parser takes a round for each of the first one's, and then has `k` left for `q`
  intro n
  induction n with
  | zero => exact fun _ _ hn => absurd hn (Nat.not_lt_zero _)
  | succ n ih =>
    intro s s' t p hreach hs hn hsize hsize' hp hpure
    obtain ⟨_, u, hskip, hp⟩ := bind_eq_ok_iff.1 hp
    rw [current_bind] at hp
    rw [Nat.add_right_comm]
    cases hend : u.current.token.isEnd with
    | true =>
      rw [if_pos hend] at hp
      obtain ⟨rfl, -⟩ := pure_eq_ok_iff.1 hp
      have hle : k ≤ n + k + 1 := by omega
      obtain h | hpast := hreach
      · obtain ⟨v', hpast, hprogram⟩ := programFrom_past htail (n + k) h hsize' hskip hend
        rw [hprogram]
        exact hq hle hpast
      · exact hq hle hpast
    | false =>
      have h : Extends tail size (0, 0, 0) s s' := by
        refine hreach.inside ?_
        cases hs : s.current.token.isEnd with
        | false => rfl
        | true =>
          rw [skipSeparators_of_isEnd hs] at hskip
          obtain ⟨-, rfl⟩ := pure_eq_ok_iff.1 hskip
          rw [← hs, hend]
      rw [hend, if_neg Bool.false_ne_true] at hp
      split at hp
      · exact absurd hp unexpected_ne_ok
      next hbrace =>
      obtain ⟨st, v, hst, hp⟩ := bind_eq_ok_iff.1 hp
      obtain ⟨ss, w, hss, hp⟩ := bind_eq_ok_iff.1 hp
      obtain ⟨rfl, -⟩ := pure_eq_ok_iff.1 hp
      obtain ⟨hst_pure, hss_pure⟩ := isPure_cons.1 hpure
      obtain ⟨u', hskip', hext⟩ := carried_skipSeparators size h hskip hend
      obtain ⟨v', hst', hreach⟩ :=
        carriesStatement_statement commands htail levels hext hst hst_pure
      have hu := left_of_skipSeparators hs hsize hskip
      have hu' := left_of_skipSeparators h.stands' hsize' hskip'
      obtain ⟨hv, hleft⟩ := left_of_statement hext.stands (by omega) hst
      obtain ⟨-, hleft'⟩ := left_of_statement hext.stands' (by omega) hst'
      obtain ⟨t', hss'⟩ := ih hreach hv (by omega) (by omega) (by omega) hss hss_pure
      refine ⟨t', ?_⟩
      rw [programFrom, bind_eq_of_ok hskip', current_bind, (hext.of_token hend).1, hend,
        if_neg Bool.false_ne_true, if_neg hbrace, bind_eq_of_ok hst', bind_eq_of_ok hss']
      rfl

theorem extends_start {source : List Char} (tail : List Char) (hstart : start source = .ok s)
    (hsize : source.length < size) : ∃ s', start (source ++ '\n' :: tail) = .ok s'
      ∧ Extends tail size (0, 0, 0) s s' :=
  Extends.of_readFrom rfl hsize rfl rfl hstart (absurd · Bool.false_ne_true)

/-- At the first token of the new line the parser is as at the start of the second text. -/
theorem alike_of_past {source : List Char} {u u' : State} (hstart : start source = .ok s)
    (h : Past source (0, 0, 0) u u') : Likeness.ahead.Alike s u' := by
  refine alike_of_rest (stands_of_readFrom hstart).1 h.stands ?_ ?_
  · rw [h.rest, origin_of_readFrom hstart, Cursor.rest_toToken]
    rfl
  · rw [h.opened, opened_of_readFrom hstart]
    rfl

/-- **A program without commands, then another on the next line**: together they are the statements
of the one and then those of the other. -/
theorem parseProgram_append (commands : CommandSet) (first second : String) (p q : Program)
    (hfirst : parseProgram commands first = .ok p) (hpure : isPure p = true)
    (hsecond : parseProgram commands second = .ok q) :
    parseProgram commands (first ++ "\n" ++ second) = .ok (p ++ q) := by
  obtain ⟨s, t, hstart, hp⟩ := parseProgram_eq_ok_iff.1 hfirst
  obtain ⟨v, w, hstart₂, hq⟩ := parseProgram_eq_ok_iff.1 hsecond
  have htext : (first ++ "\n" ++ second).toList = first.toList ++ '\n' :: second.toList := by
    rw [String.toList_append, String.toList_append, List.append_assoc]
    rfl
  rw [parseProgram_eq_ok_iff, htext]
  generalize first.toList = cs at hstart hp ⊢
  generalize second.toList = ds at hstart₂ hq ⊢
  have hlength : (cs ++ '\n' :: ds).length + 1 = cs.length + 1 + (ds.length + 1) := by
    rw [List.length_append, List.length_cons]
    omega
  have hs := (at_of_start hstart).left_le
  have hv := (at_of_start hstart₂).left_le
  obtain ⟨s', hstart', hext⟩ := extends_start ds hstart
    (show cs.length < (cs ++ '\n' :: ds).length + 1 by omega)
  have hs' := (at_of_start hstart').left_le
  -- with the bounds of the longer text both texts are read as before
  have hthen : ∀ {n : Nat} {u u' : State}, ds.length + 1 ≤ n → Past ds (0, 0, 0) u u' → ∃ t',
      programFrom ((cs ++ '\n' :: ds).length + 1)
        (statement commands ((cs ++ '\n' :: ds).length + 1) maxDepth) n u' = .ok q t' :=
    fun hle hpast => programFrom_of_alike (alike_of_past hstart₂ hpast)
      (at_of_start hstart₂).stands hpast.stands (by omega) (by omega) (by omega) (by omega) hq
  obtain ⟨t₁, hp⟩ := programFrom_of_alike (alike_of_rest hext.stands hext.stands rfl rfl)
    hext.stands hext.stands (by omega) (by omega) hext.left
    (show s.left < cs.length + 1 from Nat.lt_succ_of_le hs) hp
  obtain ⟨t', happend⟩ := programFrom_append (resumes_of_programFrom hstart₂ (by omega) hq) hthen
    (.inl hext) hext.stands (Nat.lt_succ_of_le hs) hext.left (Nat.lt_succ_of_le hs') hp hpure
  rw [← hlength] at happend
  exact ⟨s', t', hstart', happend⟩

/-- The first text ends with a conditional without `else`; the second one starts with an empty line
and a command. -/
theorem parseProgram_append_conditional :
    ∃ p q, parseProgram ⟨["ls"]⟩ "x = [1,\n2]\nif x == 1 \x7b\n\x7d" = .ok p ∧ isPure p = true
      ∧ parseProgram ⟨["ls"]⟩ "\nls -l # all\ny = x;" = .ok q
      ∧ parseProgram ⟨["ls"]⟩
          ("x = [1,\n2]\nif x == 1 \x7b\n\x7d" ++ "\n" ++ "\nls -l # all\ny = x;")
        = .ok (p ++ q) := by
  have hsome : (parseProgram ⟨["ls"]⟩
      "x = [1,\n2]\nif x == 1 \x7b\n\x7d").toOption.any isPure = true := by
    decide +kernel
  have hsome₂ : (parseProgram ⟨["ls"]⟩ "\nls -l # all\ny = x;").toOption.isSome = true := by
    decide +kernel
  obtain ⟨p, hp, hpure⟩ := exists_of_any hsome
  cases hq : parseProgram ⟨["ls"]⟩ "\nls -l # all\ny = x;" with
  | error e => simp [hq, Except.toOption] at hsome₂
  | ok q => exact ⟨p, q, hp, hpure, rfl, parseProgram_append ⟨["ls"]⟩ _ _ p q hp hpure hq⟩

/-- Two commands on two lines may together be one expression. -/
example : (parseProgram .empty "f (").toOption.map List.length = some 1
    ∧ (parseProgram .empty "x )").toOption.map List.length = some 1
    ∧ (parseProgram .empty "f (\nx )").toOption.any
        (fun p => isPure p && p.length == 1) = true := by
  decide +kernel

end Programs

end Parser

end CommandScript
