import CommandScript.Proofs.Parser.Likeness
import CommandScript.Proofs.Parser.Readings

/-!
# Proofs/Parser/Parameters — ends of lines in a list of parameters

Between the brackets of a list of parameters ends of lines mean nothing, in all places but one: right
behind the opening bracket the definition is refused, with an error that stands nowhere
(`parseProgram_definition`).

A definition is given as it is written (`DefinitionText`), with blanks and ends of lines around its
parameters. Inside the brackets the parser walks over the tokens less the ends of lines, as
everywhere in groups. But the token behind the opening bracket is read before the group counts as
open (`parameters_of_shift`, `parameters_of_newline`).
-/

namespace CommandScript

open Scan

/-! ## Blanks and ends of lines -/

/-- Whether a character may stand between the tokens of a group. -/
def Text.isSpacing (c : Char) : Bool := isBlank c || c == '\n'

namespace Token

/-- The ends of lines among the characters. -/
def lineEnds (cs : List Char) : List Token := (cs.filter (· == '\n')).map fun _ => .newline

@[simp] theorem lineEnds_append (cs ds : List Char) :
    lineEnds (cs ++ ds) = lineEnds cs ++ lineEnds ds := by
  simp [lineEnds]

theorem lineEnds_of_not_mem {cs : List Char} (h : '\n' ∉ cs) : lineEnds cs = [] := by
  rw [lineEnds, List.map_eq_nil_iff, List.filter_eq_nil_iff]
  intro c hc heq
  exact h (beq_iff_eq.1 heq ▸ hc)

theorem lineEnds_of_mem {cs : List Char} (h : '\n' ∈ cs) :
    ∃ ts, lineEnds cs = .newline :: ts := by
  have hmem : '\n' ∈ cs.filter (· == '\n') := List.mem_filter.2 ⟨h, rfl⟩
  obtain ⟨c, rest, hfilter⟩ := List.exists_cons_of_ne_nil (List.ne_nil_of_mem hmem)
  exact ⟨rest.map fun _ => .newline, by rw [lineEnds, hfilter]; rfl⟩

/-- In a group, ends of lines are dropped. -/
theorem dropGrouped_lineEnds (n : Nat) (cs : List Char) (ts : List Token) :
    dropGrouped (n + 1) (lineEnds cs ++ ts) = dropGrouped (n + 1) ts := by
  unfold lineEnds
  induction cs.filter (· == '\n') with
  | nil => rfl
  | cons c rest ih =>
    rw [List.map_cons, List.cons_append, dropGrouped]
    exact ih

end Token

theorem Lexed.newline {cs : List Char} {ts : List Token} (h : Lexed cs ts) :
    Lexed ('\n' :: cs) (.newline :: ts) :=
  @Lexed.scanned .newline ['\n'] cs ts rfl rfl rfl h

/-- Of blanks and ends of lines, the latter are tokens. -/
theorem Lexed.spacing {rest : List Char} {ts : List Token} (h : Lexed rest ts) :
    ∀ {cs : List Char}, cs.all Text.isSpacing = true → Lexed (cs ++ rest) (Token.lineEnds cs ++ ts)
  | [], _ => h
  | c :: cs, hcs => by
    obtain ⟨hc, hcs⟩ := Bool.and_eq_true_iff.1 hcs
    by_cases hfeed : c = '\n'
    · rw [hfeed]
      exact (h.spacing hcs).newline
    · have hblank : Text.isBlank c = true := by simpa [Text.isSpacing, hfeed] using hc
      have hends : Token.lineEnds (c :: cs) = Token.lineEnds cs := by simp [Token.lineEnds, hfeed]
      rw [hends]
      exact (h.spacing hcs).skip hblank

theorem not_isNameChar_of_isSpacing {c : Char} (h : Text.isSpacing c = true) :
    isNameChar c = false := by
  simp only [Text.isSpacing, Text.isBlank, Bool.or_eq_true, beq_iff_eq] at h
  obtain ((rfl | rfl) | rfl) | rfl := h
  all_goals decide

/-! ## Definitions as they are written -/

/-- A parameter with what stands before and behind it, up to the next comma or bracket. -/
structure ParameterText where
  before : List Char
  name : String
  after : List Char
  before_spacing : before.all Text.isSpacing = true
  name_identifier : isIdentifier name = true
  after_spacing : after.all Text.isSpacing = true

namespace ParameterText

/-- The characters of the parameter. -/
def chars (p : ParameterText) : List Char := p.before ++ (p.name.toList ++ p.after)

/-- The tokens of the parameter. -/
def tokens (p : ParameterText) : List Token :=
  Token.lineEnds p.before ++ .identifier p.name :: Token.lineEnds p.after

theorem lexed (p : ParameterText) {c : Char} {rest : List Char} {ts : List Token}
    (hc : isNameChar c = false) (h : Lexed (c :: rest) ts) :
    Lexed (p.chars ++ c :: rest) (p.tokens ++ ts) := by
  have hclear : (Token.identifier p.name).isClear (p.after ++ c :: rest) = true := by
    have hafter := p.after_spacing
    cases hchars : p.after with
    | nil => simp [Token.isClear, hc]
    | cons a as =>
      rw [hchars, List.all_cons, Bool.and_eq_true] at hafter
      simp [Token.isClear, not_isNameChar_of_isSpacing hafter.1]
  have hname : Lexed ((Token.identifier p.name).text.toList ++ (p.after ++ c :: rest))
      (.identifier p.name :: (Token.lineEnds p.after ++ ts)) :=
    (h.spacing p.after_spacing).token p.name_identifier (fun _ hx => by cases hx) hclear
  rw [chars, tokens, List.append_assoc, List.append_assoc, List.append_assoc]
  exact hname.spacing p.before_spacing

/-- The tokens of a list of parameters. -/
def tokensOf (ps : List ParameterText) : List Token :=
  [.symbol .comma].intercalate (ps.map tokens)

theorem lexed_all {rest : List Char} {ts : List Token} (h : Lexed (')' :: rest) ts) :
    ∀ ps : List ParameterText,
      Lexed ([','].intercalate (ps.map chars) ++ ')' :: rest) (tokensOf ps ++ ts)
  | [] => h
  | [p] => by
    simp only [tokensOf, List.map_cons, List.map_nil, List.intercalate_singleton]
    exact p.lexed (by decide) h
  | p :: q :: ps => by
    have hcomma := (lexed_all h (q :: ps)).symbol .comma rfl
    have hp := p.lexed (by decide) hcomma
    simp only [tokensOf, List.map_cons, List.intercalate_cons_cons, List.append_assoc] at hp ⊢
    exact hp

theorem tokensOf_cons (p : ParameterText) (ps : List ParameterText) :
    ∃ ts, tokensOf (p :: ps) = Token.lineEnds p.before ++ .identifier p.name :: ts := by
  cases ps with
  | nil => exact ⟨Token.lineEnds p.after, by simp [tokensOf, tokens]⟩
  | cons q ps =>
    exact ⟨Token.lineEnds p.after ++ .symbol .comma :: tokensOf (q :: ps), by
      simp [tokensOf, tokens]⟩

/-- The names alone, with commas between them. -/
def separated (names : List String) : List Token :=
  [.symbol .comma].intercalate (names.map fun name => [.identifier name])

theorem length_le_separated : ∀ names : List String, names.length ≤ (separated names).length
  | [] => Nat.le_refl _
  | [_] => Nat.le_refl _
  | _ :: name :: names => Nat.le_succ_of_le (Nat.succ_le_succ (length_le_separated (name :: names)))

/-- Of the tokens in the brackets, the names and commas are left. -/
theorem dropGrouped_tokensOf (ts : List Token) : ∀ ps : List ParameterText,
    Token.dropGrouped 1 (tokensOf ps ++ .symbol .rightParen :: ts)
      = separated (ps.map (·.name)) ++ .symbol .rightParen :: Token.dropGrouped 0 ts
  | [] => rfl
  | [p] => by
    simp only [tokensOf, separated, tokens, List.map_cons, List.map_nil,
      List.intercalate_singleton, List.append_assoc, List.cons_append, Token.dropGrouped_lineEnds]
    rw [Token.dropGrouped]
    change _ :: Token.dropGrouped 1 _ = _
    rw [Token.dropGrouped_lineEnds]
    rfl
  | p :: q :: ps => by
    have ih := dropGrouped_tokensOf ts (q :: ps)
    simp only [tokensOf, separated, tokens, List.map_cons, List.intercalate_cons_cons,
      List.append_assoc, List.cons_append, List.nil_append, Token.dropGrouped_lineEnds] at ih ⊢
    rw [Token.dropGrouped]
    change _ :: Token.dropGrouped 1 _ = _
    rw [Token.dropGrouped_lineEnds, Token.dropGrouped]
    change _ :: _ :: Token.dropGrouped 1 _ = _
    rw [ih]

end ParameterText

/-- A definition with an empty body: the name of the function, what stands right behind the opening
bracket, and the parameters, no two of the same name. -/
structure DefinitionText where
  name : String
  lead : List Char
  params : List ParameterText
  name_identifier : isIdentifier name = true
  lead_spacing : lead.all Text.isSpacing = true
  names_nodup : (params.map (·.name)).Nodup

namespace DefinitionText

/-- The names of the parameters. -/
def names (d : DefinitionText) : List String := d.params.map (·.name)

/-- What stands between the opening bracket and the next token that ends no line. -/
def opening (d : DefinitionText) : List Char :=
  d.lead ++ (d.params.head?.map (·.before)).getD []

/-- The definition as it is written. -/
def text (d : DefinitionText) : String :=
  "func " ++ d.name ++ "("
    ++ String.ofList (d.lead ++ [','].intercalate (d.params.map ParameterText.chars)) ++ ") \x7b\x7d"

/-- The tokens behind the opening bracket. -/
def tokensInside (d : DefinitionText) : List Token :=
  Token.lineEnds d.lead ++ (ParameterText.tokensOf d.params
    ++ [.symbol .rightParen, .symbol .leftBrace, .symbol .rightBrace])

theorem lexed (d : DefinitionText) : Lexed d.text.toList
    (.keyword .funcWord :: .identifier d.name :: .symbol .leftParen :: d.tokensInside) := by
  have hbody := (((lexed_nil.symbol .rightBrace rfl).symbol .leftBrace rfl).blank).symbol
    .rightParen rfl
  have hparams := (ParameterText.lexed_all hbody d.params).spacing d.lead_spacing
  have hopen := hparams.symbol .leftParen rfl
  have hname := hopen.token (t := .identifier d.name) d.name_identifier (fun _ hx => by cases hx) rfl
  have hfunc := hname.blank.token (t := .keyword .funcWord) rfl (fun _ hx => by cases hx) rfl
  have htext : d.text.toList = (Token.keyword .funcWord).text.toList
      ++ ' ' :: ((Token.identifier d.name).text.toList ++ (Symbol.leftParen.text.toList
        ++ (d.lead ++ ([','].intercalate (d.params.map ParameterText.chars)
          ++ ')' :: ' ' :: (Symbol.leftBrace.text.toList
            ++ (Symbol.rightBrace.text.toList ++ [])))))) := by
    simp only [text, String.toList_append, String.toList_ofList, List.append_assoc]
    rfl
  rw [htext]
  exact hfunc

/-- The first token behind the opening bracket shows whether a line ends there. -/
theorem tokensInside_eq (d : DefinitionText) : ∃ tok ts, tok.isNewline = false
    ∧ d.tokensInside = Token.lineEnds d.opening ++ tok :: ts := by
  unfold tokensInside opening
  cases d.params with
  | nil =>
    refine ⟨.symbol .rightParen, [.symbol .leftBrace, .symbol .rightBrace], rfl, ?_⟩
    rw [Token.lineEnds_append, List.append_assoc]
    rfl
  | cons p ps =>
    obtain ⟨ts, hts⟩ := ParameterText.tokensOf_cons p ps
    refine ⟨.identifier p.name, ts ++ [.symbol .rightParen, .symbol .leftBrace, .symbol .rightBrace],
      rfl, ?_⟩
    rw [hts, Token.lineEnds_append, List.append_assoc, List.append_assoc]
    rfl

/-- Less the ends of lines, the tokens behind the opening bracket are those of a plain list. -/
theorem dropGrouped_tokensInside (d : DefinitionText) : Token.dropGrouped 1 d.tokensInside
    = ParameterText.separated d.names
      ++ [.symbol .rightParen, .symbol .leftBrace, .symbol .rightBrace] := by
  rw [tokensInside, Token.dropGrouped_lineEnds, ParameterText.dropGrouped_tokensOf]
  rfl

/-- There are fewer parameters than characters. -/
theorem length_names_lt (d : DefinitionText) : d.names.length < d.text.toList.length := by
  have hchars := (d.lexed (.start d.text.toList) rfl).length_le
  have hinside := Token.length_dropGrouped_le 1 d.tokensInside
  have hnames := ParameterText.length_le_separated d.names
  rw [dropGrouped_tokensInside, List.length_append] at hinside
  simp only [List.length_cons, Cursor.start] at hchars
  omega

end DefinitionText

/-! ## The parser -/

namespace Parser

open ParameterText (separated)

/-- Outside of groups the parser stands at a token, and behind it the text consists of the given
ones. -/
structure Faces (s : State) (tok : Token) (ts : List Token) : Prop where
  current : s.current.token = tok
  behind : s.cursor.Lexes ts
  nesting : s.nesting = 0

theorem faces_of_lexes {s : State} {c : Cursor} {tok : Token} {ts : List Token}
    (hs : s.nesting = 0) (h : c.Lexes (tok :: ts)) :
    ∃ t, s.readFrom false c = .ok t ∧ Faces t tok ts := by
  cases h with
  | more hnext _ hrest => exact ⟨_, readFrom_eq_ok_iff.2 ⟨_, _, hnext, rfl⟩, rfl, hrest, hs⟩

theorem Faces.advance {s : State} {tok tok' : Token} {ts : List Token}
    (h : Faces s tok (tok' :: ts)) : ∃ t, advance s = .ok () t ∧ Faces t tok' ts := by
  obtain ⟨t, hread, ht⟩ := faces_of_lexes h.nesting h.behind
  refine ⟨t, advance_eq_ok_iff_readFrom.2 ?_, ht⟩
  rw [h.nesting]
  exact hread

/-- Names with commas between them are read up to the closing bracket. -/
theorem parametersFrom_of_walk {us : List Token} {u : State} :
    ∀ {names : List String} {size : Nat} {earlier : List String} {s : State},
      Walk s (separated names ++ .symbol .rightParen :: us) u → names.length < size →
      names.Nodup → (∀ name ∈ names, name ∉ earlier) →
      ∃ t, parametersFrom size earlier s = .ok names t ∧ Walk t (.symbol .rightParen :: us) u
  | _, 0, _, _, _, hsize, _, _ => absurd hsize (Nat.not_lt_zero _)
  | [], size + 1, earlier, s, h, _, _, _ => by
    refine ⟨s, ?_, h⟩
    rw [parametersFrom, check_ite_pos h.current_eq]
    rfl
  | [name], size + 1, earlier, s, h, _, _, hearlier => by
    obtain ⟨t, hname, hrest⟩ := Walk.cons_iff.1 h
    refine ⟨t, ?_, hrest⟩
    have hnew : ¬ earlier.contains name = true := by
      simpa using hearlier name List.mem_cons_self
    rw [parametersFrom, check_ite_neg (by rw [h.current_eq]; simp),
      bind_eq_of_ok (expectName_eq_ok_iff.2 hname), if_neg hnew,
      check_ite_neg (by rw [hrest.current_eq]; simp)]
    rfl
  | name :: name' :: names, size + 1, earlier, s, h, hsize, hnodup, hearlier => by
    obtain ⟨t, hname, hrest⟩ := Walk.cons_iff.1 h
    obtain ⟨v, hcomma, hrest'⟩ := Walk.cons_iff.1 hrest
    have hnew : ¬ earlier.contains name = true := by
      simpa using hearlier name List.mem_cons_self
    obtain ⟨hnot, hnodup⟩ := List.nodup_cons.1 hnodup
    have hfresh : ∀ other ∈ name' :: names, other ∉ name :: earlier := by
      intro other hother hmem
      obtain rfl | hmem := List.mem_cons.1 hmem
      · exact hnot hother
      · exact hearlier other (List.mem_cons_of_mem _ hother) hmem
    obtain ⟨w, hparams, hw⟩ := parametersFrom_of_walk hrest' (Nat.lt_of_succ_lt_succ hsize) hnodup
      hfresh
    refine ⟨w, ?_, hw⟩
    have hadvance := (advance_eq_ok_iff hrest.current_eq rfl rfl).2 hcomma
    rw [parametersFrom, check_ite_neg (by rw [h.current_eq]; simp),
      bind_eq_of_ok (expectName_eq_ok_iff.2 hname), if_neg hnew, check_ite_pos hrest.current_eq,
      bind_eq_of_ok hadvance, bind_eq_of_ok hparams]
    rfl

variable {s t : State} {size : Nat}

/-- Where no line ends behind the opening bracket, the group might as well be open there. -/
theorem parameters_of_shift {tok : Located} {d : Cursor} (hs : s.current.token = .symbol .leftParen)
    (hn : s.nesting = 0) (hnext : s.cursor.next false = .ok (tok, d))
    (htok : tok.token.isNewline = false) (hshift : s.shift = .ok t) :
    parameters size s = enclosed size t := by
  have hnesting : s.current.token.nestingAfter s.nesting = s.nesting + 1 := by rw [hs]; rfl
  have hread : State.readFrom { s with nesting := s.nesting + 1 } true s.cursor = .ok t := by
    rw [← hshift, State.shift, hnesting]
    rfl
  obtain ⟨tok', d', hnext', rfl⟩ := readFrom_eq_ok_iff.1 hread
  obtain ⟨rfl, rfl⟩ := Prod.mk.inj
    (Except.ok.inj ((Cursor.next_across_of_not_newline hnext htok).symm.trans hnext'))
  rw [Cursor.toToken_across_of_not_newline hnext htok, parameters,
    bind_eq_of_ok ((expect_of_current hs).trans (advance_of_next hn hnext)), modify_bind,
    modify_bind, State.dropGroupedNewlines_of_not htok, enclosed]

/-- Where a line ends behind the opening bracket, the list is refused. -/
theorem parameters_of_newline {tok : Located} {d : Cursor}
    (hs : s.current.token = .symbol .leftParen) (hn : s.nesting = 0)
    (hnext : s.cursor.next false = .ok (tok, d)) (htok : tok.token.isNewline = true) :
    ∃ t, parameters (size + 1) s
      = .error (.parse (.expected "parameter name" Token.endOfInput.text) Span.unset) t := by
  refine ⟨{ s with
    current := front [], origin := s.cursor.toToken false, cursor := d, nesting := s.nesting + 1 },
    ?_⟩
  rw [parameters, bind_eq_of_ok ((expect_of_current hs).trans (advance_of_next hn hnext)),
    modify_bind, modify_bind, State.dropGroupedNewlines_of_newline (Nat.succ_pos _) htok]
  rfl

theorem blockFrom_of_brace (bound : Nat) (statement : Parser Stmt) (n : Nat)
    (hs : s.current.token = .symbol .rightBrace) :
    blockFrom bound statement (n + 1) s = .ok [] s := by
  have hskip := skipSeparators_of_not (s := s) (by rw [hs]; rfl) bound
  rw [blockFrom, bind_eq_of_ok hskip, check_ite_pos hs]
  rfl

/-- A block without statements. -/
theorem block_of_walk (statement : Parser Stmt)
    (h : Walk s [.symbol .leftBrace, .symbol .rightBrace] t) :
    nested (blockOf (size + 1) statement) s = .ok [] t := by
  have hdepth := h.fields.2
  obtain ⟨u, hopen, hclose⟩ := Walk.cons_iff.1 (h.withDepth (s.depth + 1))
  have hleft := (advance_eq_ok_iff hopen.current_eq rfl rfl).2 hopen
  have hright := (advance_eq_ok_iff hclose.current_eq rfl rfl).2 hclose
  have hbody := blockFrom_of_brace (size + 1) statement size
    (s := { u with blockDepth := u.blockDepth + 1 }) hclose.current_eq
  have hblock : blockOf (size + 1) statement { s with depth := s.depth + 1 }
      = .ok [] { t with depth := s.depth + 1 } := by
    rw [blockOf, bind_eq_of_ok ((expect_of_current hopen.current_eq).trans hleft), modify_bind,
      bind_eq_of_ok hbody, modify_bind]
    change (expect .rightBrace >>= fun _ => pure []) u = _
    rw [bind_eq_of_ok ((expect_of_current hclose.current_eq).trans hright)]
    rfl
  rw [nested, hblock]
  dsimp only
  rw [Nat.add_sub_cancel, ← hdepth]

/-- **What follows the opening bracket decides how a list of parameters is read.** -/
theorem parameters_of_faces {d : DefinitionText} (h : Faces s (.symbol .leftParen) d.tokensInside)
    (hsize : d.names.length < size) :
    if '\n' ∈ d.opening then ∃ t, parameters size s
      = .error (.parse (.expected "parameter name" Token.endOfInput.text) Span.unset) t
    else ∃ t u, parameters size s = .ok d.names t
      ∧ Walk t [.symbol .leftBrace, .symbol .rightBrace] u ∧ u.current.token.isEnd = true := by
  obtain ⟨tok, ts, htok, hinside⟩ := d.tokensInside_eq
  have hbehind := h.behind
  rw [hinside] at hbehind
  split
  · next hline =>
    obtain ⟨ends, hends⟩ := Token.lineEnds_of_mem hline
    rw [hends] at hbehind
    generalize hfirst : Token.newline = first at hbehind
    cases hbehind with
    | more hnext _ _ =>
      obtain ⟨n, rfl⟩ := Nat.exists_eq_add_one_of_ne_zero (Nat.ne_zero_of_lt hsize)
      exact parameters_of_newline h.current h.nesting hnext (by rw [← hfirst]; rfl)
  · next hline =>
    rw [Token.lineEnds_of_not_mem hline, List.nil_append] at hbehind
    obtain ⟨t, u, hread, hwalk, hu⟩ := walk_of_lexes h.behind { s with nesting := s.nesting + 1 }
    have hshift : s.shift = .ok t := by
      rw [← hread, State.shift, h.current]
      rfl
    rw [h.nesting, d.dropGrouped_tokensInside] at hwalk
    obtain ⟨v, hnames, hrest⟩ := parametersFrom_of_walk hwalk hsize d.names_nodup
      fun _ _ => List.not_mem_nil
    obtain ⟨w, hclose, hbraces⟩ := Walk.cons_iff.1 hrest
    refine ⟨w, u, ?_, hbraces, hu⟩
    cases hbehind with
    | more hnext _ _ =>
      rw [parameters_of_shift h.current h.nesting hnext htok hshift, enclosed, bind_eq_of_ok hnames,
        bind_eq_of_ok ((closeGroup_eq_ok_iff rfl rfl).2 hclose)]
      rfl

/-- A definition is read up to its parameters, and on from there. -/
theorem functionDef_of_faces {name : String} {ts : List Token} (block : Parser (List Stmt))
    (h : Faces s (.keyword .funcWord) (.identifier name :: .symbol .leftParen :: ts)) :
    ∃ t, Faces t (.symbol .leftParen) ts ∧ functionDef size block s = (do
      let params ← parameters size
      let body ← block
      return Stmt.function name params body) t := by
  obtain ⟨t, hfunc, ht⟩ := h.advance
  obtain ⟨u, hname, hu⟩ := ht.advance
  have hkeyword : expectKeyword .funcWord s = .ok () t := by
    rw [expectKeyword, current_bind, h.current]
    exact hfunc
  have hexpect : expectName "function name" t = .ok name u :=
    expectName_eq_ok_iff.2 ((advance_eq_ok_iff ht.current rfl rfl).1 hname)
  refine ⟨u, hu, ?_⟩
  rw [functionDef, bind_eq_of_ok hkeyword, bind_eq_of_ok hexpect]

theorem statement_of_func {ts : List Token} (commands : CommandSet)
    (h : Faces s (.keyword .funcWord) ts) : statement commands size maxDepth s
      = functionDef size (nested (blockOf size (statement commands size 255))) s := by
  have hunfold : statement commands size maxDepth = statementOf size (expression size maxDepth)
      (action commands (expression size maxDepth))
      (nested (blockOf size (statement commands size 255))) := rfl
  rw [hunfold, statementOf, current_bind, h.current]

/-- **Ends of lines in a list of parameters are ignored, but for one right behind the opening
bracket.** -/
theorem parseProgram_definition (commands : CommandSet) (d : DefinitionText) :
    parseProgram commands d.text = if '\n' ∈ d.opening
      then .error (.parse (.expected "parameter name" "EOF") Span.unset)
      else .ok [.function d.name d.names []] := by
  obtain ⟨s, hstart, hs⟩ : ∃ s, start d.text.toList = .ok s ∧ Faces s (.keyword .funcWord) _ :=
    faces_of_lexes rfl (d.lexed (.start d.text.toList) rfl)
  obtain ⟨size, hsize⟩ : ∃ size, d.text.toList.length = size + 1 :=
    Nat.exists_eq_add_one.2 (Nat.zero_lt_of_lt d.length_names_lt)
  obtain ⟨t, ht, hfunction⟩ := functionDef_of_faces
    (nested (blockOf (size + 2) (statement commands (size + 2) 255))) hs
  have hparams := parameters_of_faces ht (Nat.lt_succ_of_lt d.length_names_lt)
  have hprogram := programFrom_of_token (size + 2) (statement commands (size + 2) maxDepth)
    (size + 1) (s := s) (by rw [hs.current]; rfl) (by rw [hs.current]; rfl) (by rw [hs.current]; rfl)
  rw [hsize] at hparams
  split at hparams
  · next hline =>
    obtain ⟨u, herror⟩ := hparams
    have hstatement : statement commands (size + 2) maxDepth s = .error _ u :=
      (statement_of_func commands hs).trans (hfunction.trans (bind_eq_of_error herror _))
    rw [if_pos hline]
    refine parseProgram_of_error (t := u) hstart ?_
    rw [hsize, hprogram, bind_eq_of_error hstatement]
    rfl
  · next hline =>
    obtain ⟨u, v, hnames, hbraces, hend⟩ := hparams
    have hstatement : statement commands (size + 2) maxDepth s
        = .ok (.function d.name d.names []) v := by
      rw [statement_of_func commands hs, hfunction, bind_eq_of_ok hnames,
        bind_eq_of_ok (block_of_walk _ hbraces)]
      rfl
    rw [if_neg hline]
    refine parseProgram_eq_ok_iff.2 ⟨s, v, hstart, ?_⟩
    rw [hsize, hprogram, bind_eq_of_ok hstatement, bind_eq_of_ok (programFrom_of_end _ _ _ hend)]
    rfl

example : (parseProgram .empty "func f( a\n, b\n) \x7b\x7d").toOption.isSome = true := by decide +kernel

/-- **A definition whose parameters start on a line of their own is refused.** -/
theorem parseProgram_parameter_line : ∃ d : DefinitionText,
    d.text = "func f(\na) \x7b\x7d" ∧ ∀ p, parseProgram .empty d.text ≠ .ok p := by
  refine ⟨⟨"f", ['\n'], [⟨[], "a", [], rfl, by decide, rfl⟩], by decide, rfl, by decide⟩,
    by decide +kernel, fun p hp => ?_⟩
  have hnone : (parseProgram .empty "func f(\na) \x7b\x7d").toOption.isNone = true := by
    decide +kernel
  have htext : parseProgram .empty "func f(\na) \x7b\x7d" = .ok p := hp
  rw [htext] at hnone
  exact absurd hnone Bool.false_ne_true

end Parser

end CommandScript
