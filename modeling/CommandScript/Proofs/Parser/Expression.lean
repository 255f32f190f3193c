import CommandScript.Proofs.Parser.Reads

/-!
# Proofs/Parser/Expression — which texts are expressions

A text is read as an expression exactly if it consists of tokens and those that matter,
`significant`, are a phrase of the grammar; the phrase then means what is read
(`parseExpr_eq_ok_iff`). The parser reads tokens only as it needs them and stops at the first that
does not fit, so both directions go through the walk over the whole text.
-/

namespace CommandScript

namespace Parser

open Grammar

/-! ## Separators -/

@[simp] theorem atSeparator_bind {β : Type} (f : Bool → Parser β) (s : State) :
    (atSeparator >>= f) s = f s.current.token.isSeparator s := rfl

theorem skipSeparators_succ (n : Nat) (s : State) : skipSeparators (n + 1) s =
    if s.current.token.isSeparator then (do advance; skipSeparators n) s else .ok () s := by
  rw [skipSeparators, atSeparator_bind]
  split <;> rfl

theorem skipSeparators_of_not {s : State} (hs : s.current.token.isSeparator = false) :
    ∀ n : Nat, skipSeparators n s = .ok () s
  | 0 => rfl
  | n + 1 => by
    rw [skipSeparators_succ, hs]
    rfl

theorem advance_of_separator {s t : State} (h : s.current.token.isSeparator = true) :
    advance s = .ok () t ↔ Walk s [s.current.token] t := by
  generalize hs : s.current.token = tok at h
  have hbracket : tok.opens = false ∧ tok.closes = false := by
    unfold Token.opens Token.closes
    constructor <;> split <;> first | rfl | exact absurd h (by decide)
  exact advance_eq_ok_iff hs hbracket.1 hbracket.2

theorem skipSeparators_sound : ∀ {n : Nat} {s t : State}, skipSeparators n s = .ok () t →
    ∃ ts, Walk s ts t ∧ ∀ tok ∈ ts, tok.isSeparator = true
  | 0, s, t, h => by
    obtain ⟨-, rfl⟩ := pure_eq_ok_iff.1 h
    exact ⟨[], .stop s, List.forall_mem_nil _⟩
  | n + 1, s, t, h => by
    rw [skipSeparators_succ] at h
    split at h
    · next hs =>
      obtain ⟨_, u, hadvance, h⟩ := bind_eq_ok_iff.1 h
      obtain ⟨ts, hts, hall⟩ := skipSeparators_sound h
      have hstep := (advance_of_separator hs).1 hadvance
      exact ⟨_, Walk.cons_iff.2 ⟨u, hstep, hts⟩, List.forall_mem_cons.2 ⟨hs, hall⟩⟩
    · obtain rfl : s = t := by simpa using h
      exact ⟨[], .stop s, List.forall_mem_nil _⟩

theorem skipSeparators_complete {s t : State} {ts : List Token} (hwalk : Walk s ts t) :
    ∀ {n : Nat}, ts.length ≤ n → (∀ tok ∈ ts, tok.isSeparator = true) →
      t.current.token.isSeparator = false → skipSeparators n s = .ok () t := by
  induction hwalk with
  | stop s =>
    rintro (_ | n) - - hs
    · rfl
    · rw [skipSeparators_succ, hs]
      rfl
  | @step s t u ts hshift _ ih =>
    rintro (_ | n) hn hall hu
    · exact absurd hn (Nat.not_succ_le_zero _)
    · obtain ⟨hs, hall⟩ := List.forall_mem_cons.1 hall
      rw [skipSeparators_succ, if_pos hs,
        bind_eq_of_ok ((advance_of_separator hs).2 (Walk.single hshift))]
      exact ih (Nat.le_of_succ_le_succ hn) hall hu

/-! ## Whole texts -/

theorem reads_expression (size levels : Nat) :
    Reads (expression size levels) (ExpressionOf (Operand levels)) size 1 :=
  (reads_operand levels).expressionOf

/-- Of a phrase and the separators behind it, the phrase is left. -/
theorem rdropWhile_phrase {us vs : List Token} (hus : ∀ tok ∈ us, tok.isOrdinary = true)
    (hvs : ∀ tok ∈ vs, tok.isSeparator = true) : (us ++ vs).rdropWhile Token.isSeparator = us := by
  have hlast : us.rdropWhile Token.isSeparator = us := by
    rw [List.rdropWhile_eq_self_iff]
    intro hne hsep
    have hlast := hus _ (List.getLast_mem hne)
    simp [Token.isOrdinary, hsep] at hlast
  rw [List.rdropWhile, List.reverse_append,
    List.dropWhile_append_of_pos fun tok htok => hvs tok (List.mem_reverse.1 htok)]
  exact hlast

theorem exists_separators (ts : List Token) : ∃ vs, ts = ts.rdropWhile Token.isSeparator ++ vs
    ∧ ∀ tok ∈ vs, tok.isSeparator = true := by
  refine ⟨(ts.reverse.takeWhile Token.isSeparator).reverse, ?_, fun tok htok => ?_⟩
  · rw [List.rdropWhile, ← List.reverse_append, List.takeWhile_append_dropWhile,
      List.reverse_reverse]
  · exact List.mem_takeWhile_imp (List.mem_reverse.1 htok)

theorem binds_of_separator {tok : Token} (h : tok.isSeparator = true ∨ tok.isEnd = true) :
    tok.binds = 0 := by
  unfold Token.binds
  split <;> first | rfl | exact absurd h (by decide)

/-- Where only separators are left, no operator follows. -/
theorem binds_of_separators {s t : State} {ts : List Token} (h : Walk s ts t)
    (hts : ∀ tok ∈ ts, tok.isSeparator = true) (ht : t.current.token.isEnd = true) :
    s.current.token.binds = 0 := by
  cases h with
  | stop => exact binds_of_separator (.inr ht)
  | step => exact binds_of_separator (.inl (hts _ List.mem_cons_self))

theorem isEnd_of_isSeparator {tok : Token} (h : tok.isSeparator = true) : tok.isEnd = false := by
  cases hend : tok.isEnd with
  | false => rfl
  | true =>
    rw [Token.eq_endOfInput hend] at h
    exact absurd h (by decide)

theorem isEnd_of_isOrdinary {tok : Token} (h : tok.isOrdinary = true) : tok.isEnd = false := by
  simp only [Token.isOrdinary, Bool.and_eq_true, Bool.not_eq_true'] at h
  exact h.1.2

theorem isSeparator_of_isEnd {tok : Token} (h : tok.isEnd = true) : tok.isSeparator = false := by
  rw [Token.eq_endOfInput h]
  rfl

/-- Reading a text: an expression, separators, the end. -/
theorem parseExpr_eq_ok_iff_steps {source : String} {e : Expr} :
    parseExpr source = .ok e ↔ ∃ s t u, start source.toList = .ok s
      ∧ expression (source.toList.length + 1) maxDepth s = .ok e t
      ∧ skipSeparators (source.toList.length + 1) t = .ok () u ∧ u.current.token.isEnd = true := by
  unfold parseExpr
  dsimp only
  cases start source.toList with
  | error err => simp
  | ok s =>
    dsimp only
    constructor
    · intro h
      split at h
      · next e' v hwhole =>
        obtain rfl := Except.ok.inj h
        obtain ⟨e', t, hexpr, hwhole⟩ := bind_eq_ok_iff.1 hwhole
        obtain ⟨_, u, hskip, hwhole⟩ := bind_eq_ok_iff.1 hwhole
        rw [current_bind] at hwhole
        split at hwhole
        · next hend =>
          obtain ⟨rfl, -⟩ := pure_eq_ok_iff.1 hwhole
          exact ⟨s, t, u, rfl, hexpr, hskip, hend⟩
        · exact absurd hwhole unexpected_ne_ok
      · exact absurd h (by simp)
    · rintro ⟨_, t, u, ⟨⟩, hexpr, hskip, hend⟩
      rw [bind_eq_of_ok hexpr, bind_eq_of_ok hskip, current_bind, if_pos hend, pure_apply]

/-- From the start of a text a parser can walk over all its tokens but the ends of lines in
groups. -/
theorem walk_from_start_iff {source : String} {ts : List Token} :
    (∃ s t, start source.toList = .ok s ∧ Walk s ts t ∧ t.current.token.isEnd = true
        ∧ ∀ tok ∈ ts, tok.isEnd = false)
      ↔ ∃ all, (Cursor.start source.toList).Lexes all ∧ ts = Token.dropGrouped 0 all :=
  walk_to_end_iff rfl

/-- A text that is read as an expression consists of tokens that are a phrase. -/
theorem phrase_of_parseExpr {source : String} {e : Expr} (h : parseExpr source = .ok e) :
    ∃ all, (Cursor.start source.toList).Lexes all
      ∧ Expression (Token.significant (all ++ [.endOfInput])) e := by
  obtain ⟨s, t, u, hstart, hexpr, hskip, hend⟩ := parseExpr_eq_ok_iff_steps.1 h
  obtain ⟨us, hus, hphrase⟩ := (reads_expression _ _).sound hexpr
  obtain ⟨vs, hvs, hsep⟩ := skipSeparators_sound hskip
  have hord := (proper_operand maxDepth).expressionOf.ordinary hphrase
  have hnotEnd : ∀ tok ∈ us ++ vs, tok.isEnd = false :=
    List.forall_mem_append.2
      ⟨fun tok htok => isEnd_of_isOrdinary (hord tok htok),
        fun tok htok => isEnd_of_isSeparator (hsep tok htok)⟩
  obtain ⟨all, hlex, heq⟩ := walk_from_start_iff.1 ⟨s, u, hstart, hus.append hvs, hend, hnotEnd⟩
  refine ⟨all, hlex, ?_⟩
  rw [Token.significant, List.dropLast_concat, ← heq, rdropWhile_phrase hord hsep]
  exact hphrase

/-- A text that consists of tokens that are a phrase is read as an expression. -/
theorem parseExpr_of_phrase {source : String} {e : Expr} {all : List Token}
    (hlex : (Cursor.start source.toList).Lexes all)
    (hphrase : Expression (Token.significant (all ++ [.endOfInput])) e) :
    parseExpr source = .ok e := by
  rw [Token.significant, List.dropLast_concat] at hphrase
  obtain ⟨s, u, hstart, hwalk, hend, -⟩ := walk_from_start_iff.2 ⟨all, hlex, rfl⟩
  have hlen := (Token.length_dropGrouped_le 0 all).trans hlex.length_le
  -- the separators behind the phrase are walked over on their own
  obtain ⟨vs, hsplit, hsep⟩ := exists_separators (Token.dropGrouped 0 all)
  rw [hsplit] at hwalk hlen
  obtain ⟨t, hus, hvs⟩ := Walk.append_iff.1 hwalk
  rw [List.length_append] at hlen
  have hbinds := binds_of_separators hvs hsep hend
  refine parseExpr_eq_ok_iff_steps.2 ⟨s, t, u, hstart,
    (reads_expression _ _).complete hphrase hus (Nat.le_succ_of_le ?_) (by omega),
    skipSeparators_complete hvs (Nat.le_succ_of_le ?_) hsep (isSeparator_of_isEnd hend), hend⟩
  · exact (Nat.le_add_right _ _).trans hlen
  · exact (Nat.le_add_left _ _).trans hlen

/-- **A text is an expression exactly if its tokens are a phrase of the grammar**, less the end, the
separators before it and the ends of lines in groups. -/
theorem parseExpr_eq_ok_iff (source : String) (e : Expr) :
    parseExpr source = .ok e ↔ ∃ ts, tokenize source = .ok ts
      ∧ Expression (Token.significant (ts.map (·.token))) e := by
  constructor
  · intro h
    obtain ⟨all, hlex, hphrase⟩ := phrase_of_parseExpr h
    obtain ⟨located, htokens, hmap⟩ := tokenize_of_lexes hlex
    exact ⟨located, htokens, by rwa [hmap]⟩
  · rintro ⟨located, htokens, hphrase⟩
    obtain ⟨all, hlex, hmap⟩ := lexes_of_tokenize htokens
    exact parseExpr_of_phrase hlex (by rwa [hmap] at hphrase)

end Parser

end CommandScript
