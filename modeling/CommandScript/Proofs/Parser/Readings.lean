import CommandScript.Proofs.Parser.Action

/-!
# Proofs/Parser/Readings — known commands leave code over variables alone

Let a text without semicolons be read as a program without commands if no command is known, and let
it be plain where commands may lead a line. Then it is read with any commands known, and the program
is the same once every command line is replaced by its other reading (`parseProgram_withReadings`).
The parsers with and without commands go through the same states (`Agree`), so nothing behind a line
depends on how it was read.

A line that is not plain is read differently (`parseProgram_not_plain`).
-/

namespace CommandScript

/-! ## Programs without commands -/

/-- Something that commands may occur in. -/
class Readable (α : Type) where
  /-- Whether no command occurs. -/
  isPure : α → Bool
  /-- Take the other reading of every command that has one. -/
  withReadings : α → α

open Readable

namespace Action

instance : Readable Action where
  isPure
    | expression _ => true
    | command _ => false
  withReadings
    | command ⟨_, some reading⟩ => expression reading.expression
    | a => a

theorem eq_expression_of_isPure {a : Action} (h : isPure a = true) : ∃ e, a = expression e := by
  cases a with
  | expression e => exact ⟨e, rfl⟩
  | command c => exact absurd h Bool.false_ne_true

end Action

mutual
/-- Whether no command occurs in a statement. -/
def Stmt.isPure : Stmt → Bool
  | .assign _ value => Readable.isPure value
  | .assignAt _ _ value => Readable.isPure value
  | .perform action => Readable.isPure action
  | .choose _ body rest => Stmt.allPure body && rest.isPure
  | .forEach _ _ body => Stmt.allPure body
  | .function _ _ body => Stmt.allPure body
  | .giveBack none => true
  | .giveBack (some value) => Readable.isPure value
  | .block body => Stmt.allPure body

/-- Whether no command occurs in what follows the block of a conditional. -/
def Otherwise.isPure : Otherwise → Bool
  | .nothing => true
  | .orElse body => Stmt.allPure body
  | .orIf _ body rest => Stmt.allPure body && rest.isPure

/-- Whether no command occurs in any of the statements. -/
def Stmt.allPure : List Stmt → Bool
  | [] => true
  | s :: ss => s.isPure && Stmt.allPure ss
end

mutual
/-- The statement with the other reading of every command that has one. -/
def Stmt.withReadings : Stmt → Stmt
  | .assign name value => .assign name (Readable.withReadings value)
  | .assignAt target index value => .assignAt target index (Readable.withReadings value)
  | .perform action => .perform (Readable.withReadings action)
  | .choose test body rest => .choose test (Stmt.allWithReadings body) rest.withReadings
  | .forEach name items body => .forEach name items (Stmt.allWithReadings body)
  | .function name params body => .function name params (Stmt.allWithReadings body)
  | .giveBack none => .giveBack none
  | .giveBack (some value) => .giveBack (some (Readable.withReadings value))
  | .block body => .block (Stmt.allWithReadings body)

/-- What follows the block of a conditional, with the other readings. -/
def Otherwise.withReadings : Otherwise → Otherwise
  | .nothing => .nothing
  | .orElse body => .orElse (Stmt.allWithReadings body)
  | .orIf test body rest => .orIf test (Stmt.allWithReadings body) rest.withReadings

/-- The statements with the other readings. -/
def Stmt.allWithReadings : List Stmt → List Stmt
  | [] => []
  | s :: ss => s.withReadings :: Stmt.allWithReadings ss
end

instance : Readable Stmt := ⟨Stmt.isPure, Stmt.withReadings⟩
instance : Readable Otherwise := ⟨Otherwise.isPure, Otherwise.withReadings⟩
instance : Readable (List Stmt) := ⟨Stmt.allPure, Stmt.allWithReadings⟩

namespace Parser

/-! ## Parsers that stay in the text -/

section Moves

variable {α β : Type} {commands : CommandSet} {n m k : Nat}

/-- The parser leads from a state with `n` open groups to one with `m`, in the text ahead. -/
def Moves (commands : CommandSet) (n m : Nat) (p : Parser α) : Prop :=
  ∀ ⦃s t : State⦄ ⦃a : α⦄, s.Fits commands → s.nesting = n → p s = .ok a t →
    t.Fits commands ∧ t.nesting = m

theorem Moves.bind {p : Parser α} {f : α → Parser β} (hp : Moves commands n m p)
    (hf : ∀ a, Moves commands m k (f a)) : Moves commands n k (p >>= f) := by
  intro s t b hs hn h
  obtain ⟨a, u, ha, hb⟩ := bind_eq_ok_iff.1 h
  obtain ⟨hu, hm⟩ := hp hs hn ha
  exact hf a hu hm hb

theorem moves_pure (a : α) : Moves commands n n (pure a) := by
  intro s t b hs hn h
  obtain ⟨-, rfl⟩ := pure_eq_ok_iff.1 h
  exact ⟨hs, hn⟩

theorem moves_current : Moves commands n n current := fun s t a hs hn h => by
  cases h
  exact ⟨hs, hn⟩

theorem moves_currentSpan : Moves commands n n currentSpan := fun s t a hs hn h => by
  cases h
  exact ⟨hs, hn⟩

theorem moves_check (sign : Symbol) : Moves commands n n (check sign) := fun s t a hs hn h => by
  cases h
  exact ⟨hs, hn⟩

theorem moves_unexpected (wanted : String) :
    Moves commands n m (unexpected wanted : Parser α) :=
  fun _ _ _ _ _ h => absurd h unexpected_ne_ok

theorem moves_throw (fault : Error) : Moves commands n m (throw fault : Parser α) :=
  fun _ _ _ _ _ h => nomatch h

theorem moves_advance : Moves commands n n advance := by
  intro s t a hs hn h
  have hread := advance_eq_ok_iff_readFrom.1 h
  exact ⟨hs.readFrom hread, (readFrom_fields hread).1.trans hn⟩

theorem moves_ite {c : Prop} [Decidable c] {p q : Parser α} (hp : Moves commands n m p)
    (hq : Moves commands n m q) : Moves commands n m (if c then p else q) := by
  split
  · exact hp
  · exact hq

theorem moves_expect (sign : Symbol) : Moves commands n n (expect sign) :=
  (moves_check sign).bind fun _ => moves_ite moves_advance (moves_unexpected _)

theorem moves_expectKeyword (word : Keyword) : Moves commands n n (expectKeyword word) :=
  moves_current.bind fun _ => moves_ite moves_advance (moves_unexpected _)

theorem moves_expectName (wanted : String) : Moves commands n n (expectName wanted) := by
  refine moves_current.bind fun tok => ?_
  split
  · exact moves_advance.bind fun _ => moves_pure _
  · exact moves_unexpected _

theorem moves_skipSeparators : ∀ size : Nat, Moves commands n n (skipSeparators size)
  | 0 => moves_pure ()
  | size + 1 => (moves_current.bind fun _ => moves_pure _).bind fun _ =>
    moves_ite (moves_advance.bind fun _ => moves_skipSeparators size) (moves_pure ())

theorem moves_nesting (f : Nat → Nat) :
    Moves commands n (f n) (modify fun s => { s with nesting := f s.nesting }) := by
  rintro s t a hs rfl h
  cases h
  exact ⟨⟨hs.next, hs.origin, hs.plain, hs.semicolon⟩, rfl⟩

theorem moves_closeGroup (sign : Symbol) : Moves commands (n + 1) n (closeGroup sign) :=
  (moves_check sign).bind fun _ =>
    moves_ite ((moves_nesting (· - 1)).bind fun _ => moves_advance) (moves_unexpected _)

theorem moves_expression (size levels : Nat) : Moves commands n n (expression size levels) := by
  intro s t e hs hn h
  obtain ⟨ts, hwalk, hphrase⟩ := (reads_expression size levels).sound h
  refine ⟨hs.walk hwalk, ?_⟩
  rw [hwalk.nesting_eq, (Grammar.proper_operand levels).expressionOf.balanced hphrase, hn]

theorem moves_atStatementEnd : Moves commands n n atStatementEnd := fun s t a hs hn h => by
  cases h
  exact ⟨hs, hn⟩

theorem moves_expectStatementEnd : Moves commands n n expectStatementEnd :=
  moves_atStatementEnd.bind fun _ => moves_ite
    ((moves_current.bind fun _ => moves_pure _).bind fun _ =>
      moves_ite moves_advance (moves_pure _))
    (moves_unexpected _)

theorem moves_skipToElse : Moves commands n n skipToElse := by
  intro s t a hs hn h
  unfold skipToElse at h
  split at h
  · cases h
    exact ⟨hs, hn⟩
  split at h
  · split at h
    · cases h
    · next u hread =>
      split at h
      · cases h
        exact ⟨hs.readFrom hread, (readFrom_fields hread).1.trans hn⟩
      · cases h
        exact ⟨hs, hn⟩
  · cases h
    exact ⟨hs, hn⟩

/-- The parameters behind an opening bracket, with the closing one. -/
def enclosed (size : Nat) : Parser (List String) := do
  let names ← parametersFrom size []
  closeGroup .rightParen
  return names

/-- Where a line end was given up, no parameters are read. -/
theorem not_newline_of_enclosed {size : Nat} {s t : State} {names : List String}
    (hn : 0 < s.nesting) (h : enclosed size s.dropGroupedNewlines = .ok names t) :
    s.current.token.isNewline = false := by
  cases hline : s.current.token.isNewline with
  | false => rfl
  | true =>
    rw [State.dropGroupedNewlines_of_newline hn hline] at h
    cases size <;> cases h

theorem moves_parametersFrom : ∀ (size : Nat) (earlier : List String),
    Moves commands n n (parametersFrom size earlier)
  | 0, _ => moves_pure _
  | size + 1, earlier => by
    refine (moves_check _).bind fun _ => moves_ite (moves_pure _) ?_
    refine (moves_expectName _).bind fun name => moves_ite ?_ ?_
    · exact moves_currentSpan.bind fun _ => moves_throw _
    refine (moves_check _).bind fun _ => moves_ite ?_ (moves_pure _)
    exact moves_advance.bind fun _ =>
      (moves_parametersFrom size (name :: earlier)).bind fun _ => moves_pure _

theorem moves_parameters (size : Nat) : Moves commands n n (parameters size) := by
  refine (moves_expect _).bind fun _ => (moves_nesting (· + 1)).bind fun _ => ?_
  intro s t names hs hn h
  have hlisted : enclosed size s.dropGroupedNewlines = .ok names t := h
  rw [State.dropGroupedNewlines_of_not (not_newline_of_enclosed (by omega) hlisted)] at hlisted
  refine Moves.bind (moves_parametersFrom size []) (fun _ => ?_) hs hn hlisted
  exact (moves_closeGroup _).bind fun _ => moves_pure _

end Moves

/-! ## Parsers with and without commands -/

section Agree

variable {α β : Type} [Readable α] [Readable β] {commands : CommandSet}

/-- If the parser `p` reads something without commands, then `q` does too and comes to the same
state, up to commands whose other reading is what `p` reads. -/
def Agree (commands : CommandSet) (p q : Parser α) : Prop :=
  ∀ ⦃s t : State⦄ ⦃a : α⦄, s.Fits commands → s.nesting = 0 → p s = .ok a t → isPure a = true →
    (t.Fits commands ∧ t.nesting = 0) ∧ ∃ b, q s = .ok b t ∧ withReadings b = a

theorem agree_pure {a b : α} (h : withReadings b = a) : Agree commands (pure a) (pure b) := by
  intro s t a' hs hn ha _
  obtain ⟨rfl, rfl⟩ := pure_eq_ok_iff.1 ha
  exact ⟨⟨hs, hn⟩, b, rfl, h⟩

/-- First something that both read alike. -/
theorem Moves.agree {γ : Type} {p : Parser γ} {f g : γ → Parser α} (hp : Moves commands 0 0 p)
    (hf : ∀ c, Agree commands (f c) (g c)) : Agree commands (p >>= f) (p >>= g) := by
  intro s t a hs hn h hpure
  obtain ⟨c, u, hc, h⟩ := bind_eq_ok_iff.1 h
  obtain ⟨hu, hn⟩ := hp hs hn hc
  obtain ⟨ht, b, hb, hfill⟩ := hf c hu hn h hpure
  exact ⟨ht, b, by rw [bind_eq_of_ok hc, hb], hfill⟩

/-- First something with commands, which is part of the whole. -/
theorem Agree.bind {p q : Parser α} {f g : α → Parser β} (hp : Agree commands p q)
    (hpure : ∀ {s t : State} {a : α} {b : β}, f a s = .ok b t → isPure b = true → isPure a = true)
    (hf : ∀ a, Agree commands (f (withReadings a)) (g a)) :
    Agree commands (p >>= f) (q >>= g) := by
  intro s t b hs hn h hb
  obtain ⟨a, u, ha, h⟩ := bind_eq_ok_iff.1 h
  obtain ⟨⟨hu, hn⟩, a', ha', rfl⟩ := hp hs hn ha (hpure h hb)
  obtain ⟨ht, b', hb', hfill⟩ := hf a' hu hn h hb
  exact ⟨ht, b', by rw [bind_eq_of_ok ha', hb'], hfill⟩

theorem agree_ite {c : Prop} [Decidable c] {p p' q q' : Parser α} (hp : Agree commands p p')
    (hq : Agree commands q q') : Agree commands (if c then p else q) (if c then p' else q') := by
  split
  · exact hp
  · exact hq

theorem agree_unexpected {wanted : String} {q : Parser α} :
    Agree commands (unexpected wanted) q := fun _ _ _ _ _ h => absurd h unexpected_ne_ok

theorem Agree.nested {p q : Parser α} (h : Agree commands p q) :
    Agree commands (nested p) (nested q) := by
  intro s t a hs hn ha hpure
  unfold Parser.nested at ha
  split at ha
  · next a' u hp =>
    cases ha
    obtain ⟨⟨hu, hn'⟩, b, hb, hfill⟩ := h (s := { s with depth := s.depth + 1 })
      ⟨hs.next, hs.origin, hs.plain, hs.semicolon⟩ hn hp hpure
    refine ⟨⟨⟨hu.next, hu.origin, hu.plain, hu.semicolon⟩, hn'⟩, b, ?_, hfill⟩
    unfold Parser.nested
    rw [hb]
  · cases ha

end Agree

/-! ## Statements -/

section Statements

variable {commands : CommandSet} {size levels : Nat}

theorem agree_action : Agree commands (action .empty (expression size levels))
    (action commands (expression size levels)) := by
  intro s t a hs hn h hpure
  obtain ⟨e, rfl⟩ := Action.eq_expression_of_isPure hpure
  obtain ⟨ht, hexpr | ⟨-, words, name, hcommand⟩⟩ := action_of_expression hs hn h
  · exact ⟨ht, _, hexpr, rfl⟩
  · exact ⟨ht, _, hcommand, rfl⟩

theorem moves_peek? {n : Nat} : Moves commands n n peek? := by
  intro s t a hs hn h
  unfold peek? at h
  split at h <;> cases h <;> exact ⟨hs, hn⟩

variable {act act' : Parser Action} {expr : Parser Expr} {block block' : Parser (List Stmt)}
  {stmt stmt' : Parser Stmt}

theorem agree_giveBack (h : Agree commands act act') :
    Agree commands (giveBack act) (giveBack act') := by
  refine (moves_expectKeyword _).agree fun _ => moves_atStatementEnd.agree fun _ => agree_ite ?_ ?_
  · exact agree_pure rfl
  · refine h.bind (fun hb hpure => ?_) fun a => agree_pure rfl
    obtain ⟨rfl, -⟩ := pure_eq_ok_iff.1 hb
    exact hpure

theorem agree_assignment (h : Agree commands act act') (name : String) :
    Agree commands (assignment act name) (assignment act' name) := by
  refine moves_advance.agree fun _ => moves_advance.agree fun _ => ?_
  refine h.bind (fun hb hpure => ?_) fun a => agree_pure rfl
  obtain ⟨rfl, -⟩ := pure_eq_ok_iff.1 hb
  exact hpure

theorem agree_lineStatement (h : Agree commands act act')
    (hstmt : Agree commands (actionStatement act) (actionStatement act')) :
    Agree commands (lineStatement act) (lineStatement act') := by
  refine moves_current.agree fun tok => ?_
  split
  · exact agree_giveBack h
  · refine moves_peek?.agree fun next => ?_
    split
    · exact agree_assignment h _
    · exact hstmt
  · exact hstmt

/-- A statement behind the action it starts with. -/
def statementFrom (act : Parser Action) : Action → Parser Stmt
  | .expression (.index target place) => do
    if ← check .equals then
      advance
      return .assignAt target place (← act)
    else return .perform (.expression (.index target place))
  | a => return .perform a

theorem actionStatement_eq (act : Parser Action) :
    actionStatement act = act >>= statementFrom act :=
  rfl

theorem statementFrom_of_ne_index {e : Expr} (he : ∀ target place, e ≠ .index target place) :
    statementFrom act (.expression e) = pure (.perform (.expression e)) := by
  cases e with
  | index target place => exact absurd rfl (he target place)
  | _ => rfl

theorem agree_statementFrom (h : Agree commands act act') (e : Expr) :
    Agree commands (statementFrom act (.expression e)) (statementFrom act' (.expression e)) := by
  cases e with
  | index target place =>
    refine (moves_check _).agree fun _ => agree_ite ?_ (agree_pure rfl)
    refine moves_advance.agree fun _ => h.bind (fun hb hpure => ?_) fun a => agree_pure rfl
    obtain ⟨rfl, -⟩ := pure_eq_ok_iff.1 hb
    exact hpure
  | _ => exact agree_pure rfl

theorem agree_actionStatement :
    Agree commands (actionStatement (action .empty (expression size levels)))
      (actionStatement (action commands (expression size levels))) := by
  intro s t stmt hs hn h hpure
  rw [actionStatement_eq] at h ⊢
  obtain ⟨a, u, ha, h⟩ := bind_eq_ok_iff.1 h
  cases a with
  | command c =>
    obtain ⟨rfl, -⟩ := pure_eq_ok_iff.1 h
    exact absurd hpure Bool.false_ne_true
  | expression e =>
    obtain ⟨⟨hu, hn⟩, hexpr | ⟨hindex, words, name, hcommand⟩⟩ := action_of_expression hs hn ha
    · obtain ⟨ht, b, hb, hfill⟩ := agree_statementFrom agree_action e hu hn h hpure
      exact ⟨ht, b, by rw [bind_eq_of_ok hexpr, hb], hfill⟩
    · rw [statementFrom_of_ne_index hindex] at h
      obtain ⟨rfl, rfl⟩ := pure_eq_ok_iff.1 h
      exact ⟨⟨hu, hn⟩, .perform (.command ⟨words, some ⟨name, e⟩⟩), bind_eq_of_ok hcommand _, rfl⟩

theorem agree_simpleStatement (h : Agree commands (lineStatement act) (lineStatement act')) :
    Agree commands (simpleStatement act) (simpleStatement act') := by
  refine h.bind (fun hb hpure => ?_) fun stmt =>
    moves_expectStatementEnd.agree fun _ => agree_pure rfl
  obtain ⟨_, u, -, hb⟩ := bind_eq_ok_iff.1 hb
  obtain ⟨rfl, -⟩ := pure_eq_ok_iff.1 hb
  exact hpure

theorem isPure_cons {s : Stmt} {ss : List Stmt} :
    isPure (s :: ss) = true ↔ isPure s = true ∧ isPure ss = true := by
  change (s.isPure && Stmt.allPure ss) = true ↔ _
  rw [Bool.and_eq_true]
  rfl

/-- One statement, then the others. -/
theorem agree_cons {rest rest' : Parser (List Stmt)} (h : Agree commands stmt stmt')
    (hrest : Agree commands rest rest') :
    Agree commands (do let s ← stmt; let ss ← rest; return s :: ss)
      (do let s ← stmt'; let ss ← rest'; return s :: ss) := by
  refine h.bind (fun hb hpure => ?_) fun s =>
    hrest.bind (fun hb hpure => ?_) fun ss => agree_pure rfl
  · obtain ⟨ss, u, -, hb⟩ := bind_eq_ok_iff.1 hb
    obtain ⟨rfl, -⟩ := pure_eq_ok_iff.1 hb
    exact (isPure_cons.1 hpure).1
  · obtain ⟨rfl, -⟩ := pure_eq_ok_iff.1 hb
    exact (isPure_cons.1 hpure).2

theorem agree_blockFrom (h : Agree commands stmt stmt') (bound : Nat) :
    ∀ size : Nat, Agree commands (blockFrom bound stmt size) (blockFrom bound stmt' size)
  | 0 => agree_pure rfl
  | size + 1 => by
    refine (moves_skipSeparators bound).agree fun _ => (moves_check _).agree fun _ =>
      agree_ite (agree_pure rfl) ?_
    exact moves_current.agree fun _ => agree_ite agree_unexpected
      (agree_cons h (agree_blockFrom h bound size))

theorem agree_programFrom (h : Agree commands stmt stmt') (bound : Nat) :
    ∀ size : Nat, Agree commands (programFrom bound stmt size) (programFrom bound stmt' size)
  | 0 => agree_pure rfl
  | size + 1 => by
    refine (moves_skipSeparators bound).agree fun _ => moves_current.agree fun _ =>
      agree_ite (agree_pure rfl) (agree_ite agree_unexpected ?_)
    exact agree_cons h (agree_programFrom h bound size)

theorem moves_blockDepth (f : Nat → Nat) {n : Nat} :
    Moves commands n n (modify fun s => { s with blockDepth := f s.blockDepth }) := by
  intro s t a hs hn h
  cases h
  exact ⟨⟨hs.next, hs.origin, hs.plain, hs.semicolon⟩, hn⟩

theorem agree_blockOf (h : Agree commands stmt stmt') :
    Agree commands (blockOf size stmt) (blockOf size stmt') := by
  refine (moves_expect _).agree fun _ => (moves_blockDepth (· + 1)).agree fun _ => ?_
  refine (agree_blockFrom h size size).bind (fun hb hpure => ?_) fun body =>
    (moves_blockDepth (· - 1)).agree fun _ => (moves_expect _).agree fun _ => agree_pure rfl
  obtain ⟨_, u, -, hb⟩ := bind_eq_ok_iff.1 hb
  obtain ⟨_, v, -, hb⟩ := bind_eq_ok_iff.1 hb
  obtain ⟨rfl, -⟩ := pure_eq_ok_iff.1 hb
  exact hpure

theorem agree_otherwiseFrom (hexpr : Moves commands 0 0 expr) (h : Agree commands block block') :
    ∀ size : Nat, Agree commands (otherwiseFrom expr block size) (otherwiseFrom expr block' size)
  | 0 => agree_pure rfl
  | size + 1 => by
    refine moves_skipToElse.agree fun _ => agree_ite ?_ (agree_pure rfl)
    refine (moves_expectKeyword _).agree fun _ => moves_current.agree fun _ => agree_ite ?_ ?_
    · refine moves_advance.agree fun _ => hexpr.agree fun test => ?_
      refine h.bind (fun hb hpure => ?_) fun body =>
        (agree_otherwiseFrom hexpr h size).bind (fun hb hpure => ?_) fun rest => agree_pure rfl
      · obtain ⟨rest, u, -, hb⟩ := bind_eq_ok_iff.1 hb
        obtain ⟨rfl, -⟩ := pure_eq_ok_iff.1 hb
        exact (Bool.and_eq_true_iff.1 hpure).1
      · obtain ⟨rfl, -⟩ := pure_eq_ok_iff.1 hb
        exact (Bool.and_eq_true_iff.1 hpure).2
    · refine h.bind (fun hb hpure => ?_) fun body => agree_pure rfl
      obtain ⟨rfl, -⟩ := pure_eq_ok_iff.1 hb
      exact hpure

theorem agree_conditional (hexpr : Moves commands 0 0 expr) (h : Agree commands block block') :
    Agree commands (conditional size expr block) (conditional size expr block') := by
  refine (moves_expectKeyword _).agree fun _ => hexpr.agree fun test => ?_
  refine h.bind (fun hb hpure => ?_) fun body =>
    (agree_otherwiseFrom hexpr h size).bind (fun hb hpure => ?_) fun rest => agree_pure rfl
  · obtain ⟨rest, u, -, hb⟩ := bind_eq_ok_iff.1 hb
    obtain ⟨rfl, -⟩ := pure_eq_ok_iff.1 hb
    exact (Bool.and_eq_true_iff.1 hpure).1
  · obtain ⟨rfl, -⟩ := pure_eq_ok_iff.1 hb
    exact (Bool.and_eq_true_iff.1 hpure).2

theorem agree_loop (hexpr : Moves commands 0 0 expr) (h : Agree commands block block') :
    Agree commands (loop expr block) (loop expr block') := by
  refine (moves_expectKeyword _).agree fun _ => (moves_expectName _).agree fun name =>
    (moves_expectKeyword _).agree fun _ => hexpr.agree fun items => ?_
  refine h.bind (fun hb hpure => ?_) fun body => agree_pure rfl
  obtain ⟨rfl, -⟩ := pure_eq_ok_iff.1 hb
  exact hpure

theorem agree_functionDef (h : Agree commands block block') :
    Agree commands (functionDef size block) (functionDef size block') := by
  refine (moves_expectKeyword _).agree fun _ => (moves_expectName _).agree fun name =>
    (moves_parameters size).agree fun params => ?_
  refine h.bind (fun hb hpure => ?_) fun body => agree_pure rfl
  obtain ⟨rfl, -⟩ := pure_eq_ok_iff.1 hb
  exact hpure

theorem agree_statementOf (hexpr : Moves commands 0 0 expr) (hblock : Agree commands block block')
    (hsimple : Agree commands (simpleStatement act) (simpleStatement act')) :
    Agree commands (statementOf size expr act block) (statementOf size expr act' block') := by
  refine moves_current.agree fun tok => ?_
  split
  · exact agree_conditional hexpr hblock
  · exact agree_loop hexpr hblock
  · exact agree_functionDef hblock
  · refine hblock.bind (fun hb hpure => ?_) fun body => agree_pure rfl
    obtain ⟨rfl, -⟩ := pure_eq_ok_iff.1 hb
    exact hpure
  · exact hsimple

theorem agree_statement : ∀ levels : Nat,
    Agree commands (statement .empty size levels) (statement commands size levels)
  | 0 => agree_statementOf (moves_expression size 0) (fun _ _ _ _ _ h => nomatch h)
      (agree_simpleStatement (agree_lineStatement agree_action agree_actionStatement))
  | levels + 1 => agree_statementOf (moves_expression size (levels + 1))
      (agree_blockOf (agree_statement levels)).nested
      (agree_simpleStatement (agree_lineStatement agree_action agree_actionStatement))

end Statements

/-! ## Programs -/

theorem programFrom_of_end {s : State} (bound : Nat) (statement : Parser Stmt) (n : Nat)
    (hs : s.current.token.isEnd = true) : programFrom bound statement (n + 1) s = .ok [] s := by
  have hskip := skipSeparators_of_not (isSeparator_of_isEnd hs) bound
  rw [programFrom, bind_eq_of_ok hskip, current_bind, if_pos hs]
  rfl

/-- A token that neither separates statements nor ends the text or a block starts a statement. -/
theorem programFrom_of_token {s : State} (bound : Nat) (statement : Parser Stmt) (n : Nat)
    (hsep : s.current.token.isSeparator = false) (hend : s.current.token.isEnd = false)
    (hbrace : s.current.token.isSymbol .rightBrace = false) :
    programFrom bound statement (n + 1) s = (do
      let first ← statement
      let rest ← programFrom bound statement n
      return first :: rest) s := by
  rw [programFrom, bind_eq_of_ok (skipSeparators_of_not hsep bound), current_bind, hend, hbrace]
  rfl

theorem parseProgram_eq_ok_iff {commands : CommandSet} {source : String} {p : Program} :
    parseProgram commands source = .ok p ↔ ∃ s t, start source.toList = .ok s
      ∧ programFrom (source.toList.length + 1)
        (statement commands (source.toList.length + 1) maxDepth) (source.toList.length + 1) s
        = .ok p t := by
  unfold parseProgram
  dsimp only
  cases start source.toList with
  | error fault => simp
  | ok s =>
    dsimp only
    split
    · next q t h => simp [h]
    · next fault t h => simp [h]

theorem parseProgram_of_error {commands : CommandSet} {source : String} {s t : State} {e : Error}
    (hstart : start source.toList = .ok s) (h : programFrom (source.toList.length + 1)
      (statement commands (source.toList.length + 1) maxDepth) (source.toList.length + 1) s
      = .error e t) : parseProgram commands source = .error e := by
  unfold parseProgram
  dsimp only
  rw [hstart]
  dsimp only
  rw [h]

/-- **Known commands do not change how code over variables is read**: a text without semicolons that
is a program without commands as long as no command is known, and that is plain where the commands
of a set may lead a line, is read with that set too; and with the other reading of every command it
is the same program. -/
theorem parseProgram_withReadings (commands : CommandSet) (source : String) (p : Program)
    (hsemicolon : ';' ∉ source.toList) (hplain : (Cursor.start source.toList).PlainText commands)
    (hparse : parseProgram .empty source = .ok p) (hpure : isPure p = true) :
    ∃ q, parseProgram commands source = .ok q ∧ withReadings q = p := by
  obtain ⟨s, t, hstart, hprogram⟩ := parseProgram_eq_ok_iff.1 hparse
  have hs : s.Fits commands := fits_of_readFrom hplain hsemicolon hstart
  have hn : s.nesting = 0 := (readFrom_fields hstart).1
  obtain ⟨-, q, hq, hfill⟩ := agree_programFrom (agree_statement maxDepth) _ _ hs hn hprogram hpure
  exact ⟨q, parseProgram_eq_ok_iff.2 ⟨s, t, hstart, hq⟩, hfill⟩

theorem exists_of_any {commands : CommandSet} {source : String} {f : Program → Bool}
    (h : (parseProgram commands source).toOption.any f = true) :
    ∃ p, parseProgram commands source = .ok p ∧ f p = true := by
  cases hparse : parseProgram commands source with
  | error fault => simp [hparse, Except.toOption] at h
  | ok p => exact ⟨p, rfl, by simpa [hparse, Except.toOption] using h⟩

/-- A text with lines that a command may lead, with a comment and a list that goes over two
lines. -/
theorem parseProgram_withReadings_lines :
    ∃ p q, parseProgram .empty "return ls + 'a b' # it's\nx = max([y,\nz], ls)" = .ok p
      ∧ isPure p = true
      ∧ parseProgram ⟨["ls"]⟩ "return ls + 'a b' # it's\nx = max([y,\nz], ls)" = .ok q
      ∧ withReadings q = p := by
  have hsome : (parseProgram .empty
      "return ls + 'a b' # it's\nx = max([y,\nz], ls)").toOption.any isPure = true := by
    decide +kernel
  have hplain : (Cursor.start "return ls + 'a b' # it's\nx = max([y,\nz], ls)".toList).isPlainText
      ⟨["ls"]⟩ 20 = true := by
    decide +kernel
  obtain ⟨p, hparse, hpure⟩ := exists_of_any hsome
  obtain ⟨q, hq, hfill⟩ := parseProgram_withReadings ⟨["ls"]⟩ _ p (by decide +kernel)
    (Cursor.plainText_of_isPlainText hplain) hparse hpure
  exact ⟨p, q, hparse, hpure, hq, hfill⟩

-- A comment close behind a token becomes part of a word, and so does what two raw strings that end
-- in backslashes have between them. As long as the word ends with the line, the line is plain.
example : (Cursor.start "ls + a#b\nls + 'a\\' + '\\'".toList).isPlainText ⟨["ls"]⟩ 20 = true := by
  decide +kernel

/-- The text has no semicolon and is a program without commands as long as no command is known, but
it cannot be read if these are. -/
def LostTo (commands : CommandSet) (source : String) : Prop :=
  ';' ∉ source.toList ∧ (∃ p, parseProgram .empty source = .ok p ∧ isPure p = true)
    ∧ ∀ q, parseProgram commands source ≠ .ok q

theorem lostTo_of_isNone {commands : CommandSet} {source : String}
    (hsemicolon : ';' ∉ source.toList)
    (hpure : (parseProgram .empty source).toOption.any isPure = true)
    (hnone : (parseProgram commands source).toOption.isNone = true) : LostTo commands source := by
  refine ⟨hsemicolon, exists_of_any hpure, fun q hq => ?_⟩
  rw [hq] at hnone
  exact absurd hnone Bool.false_ne_true

/-- **A line that is not plain is read differently**: where it goes on in brackets, and where the
backslash at the end of a raw string or a comment close behind a token leaves a quote open. -/
theorem parseProgram_not_plain : LostTo ⟨["ls"]⟩ "ls + (a\n)" ∧ LostTo ⟨["ls"]⟩ "ls == 'a\\'"
    ∧ LostTo ⟨["ls"]⟩ "ls + a# it's" := by
  refine ⟨lostTo_of_isNone ?_ ?_ ?_, lostTo_of_isNone ?_ ?_ ?_, lostTo_of_isNone ?_ ?_ ?_⟩
  all_goals decide +kernel

end Parser

end CommandScript
