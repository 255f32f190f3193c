import CommandScript.Parser.Expr
import Mathlib.Data.List.DropRight

/-!
# Proofs/Parser/Grammar — the grammar of expressions, without a parser

A language relates phrases, which are lists of tokens, to what they mean. From loosest to tightest:

    expression  chain of `||`, over chains of `&&`, over chains of comparisons, over
    range       a | a..b | a..b..c                      of
    sum         chain of `+` and `-`, over chains of `*` and `/`, over
    operand     sign operand | suffixed | suffixed ^ operand
    suffixed    primary, then any of  .name  .name(items)  [expression]  (items)

Chains group to the left. What stands in brackets, after a sign or as exponent is one level deeper,
and an operand is found only on the first `maxDepth` levels: `Operand n` are the operands of a place
where `n` levels are left.
-/

namespace CommandScript

/-- The symbol that writes an operator between operands. -/
def BinaryOp.sign : BinaryOp → Symbol
  | add => .plus
  | subtract => .minus
  | multiply => .star
  | divide => .slash
  | power => .caret
  | equal => .equalEqual
  | notEqual => .notEqual
  | less => .less
  | greater => .greater
  | lessEqual => .lessEqual
  | greaterEqual => .greaterEqual
  | and => .andAnd
  | or => .orOr

/-- The symbol that writes an operator before an operand. -/
def UnaryOp.sign : UnaryOp → Symbol
  | negate => .minus
  | not => .bang

@[simp] theorem BinaryOp.text_sign (op : BinaryOp) : op.sign.text = op.text := by cases op <;> rfl

@[simp] theorem UnaryOp.text_sign (op : UnaryOp) : op.sign.text = op.text := by cases op <;> rfl

namespace Token

theorem isSymbol_iff {t : Token} {sign : Symbol} : t.isSymbol sign = true ↔ t = .symbol sign := by
  cases t <;> simp [isSymbol]

theorem isKeyword_iff {t : Token} {word : Keyword} :
    t.isKeyword word = true ↔ t = .keyword word := by
  cases t <;> simp [isKeyword]

/-- Whether the token opens a group. -/
def opens : Token → Bool
  | symbol .leftParen | symbol .leftBracket => true
  | _ => false

/-- Whether the token closes a group. -/
def closes : Token → Bool
  | symbol .rightParen | symbol .rightBracket => true
  | _ => false

/-- How many groups are open behind the token, if `n` are open before it. -/
def nestingAfter (t : Token) (n : Nat) : Nat :=
  if t.opens then n + 1 else if t.closes then n - 1 else n

/-- Whether the token separates statements. -/
def isSeparator (t : Token) : Bool := t.isNewline || t.isSymbol .semicolon

/-- The tokens without the ends of lines that lie in a group, if `n` groups are open before them. -/
def dropGrouped : (n : Nat) → List Token → List Token
  | _, [] => []
  | n, t :: ts =>
    if t.isNewline && decide (0 < n) then dropGrouped n ts
    else t :: dropGrouped (t.nestingAfter n) ts

/-- The tokens of a text that matter to an expression: not the end, not the separators before it and
no ends of lines in groups. -/
def significant (ts : List Token) : List Token := (dropGrouped 0 ts.dropLast).rdropWhile isSeparator

theorem length_dropGrouped_le : ∀ (n : Nat) (ts : List Token), (dropGrouped n ts).length ≤ ts.length
  | _, [] => Nat.le_refl _
  | n, t :: ts => by
    rw [dropGrouped]
    split
    · exact Nat.le_succ_of_le (length_dropGrouped_le n ts)
    · exact Nat.succ_le_succ (length_dropGrouped_le _ ts)

theorem mem_of_mem_dropGrouped {tok : Token} :
    ∀ {n : Nat} {ts : List Token}, tok ∈ dropGrouped n ts → tok ∈ ts
  | _, [], h => h
  | n, t :: ts, h => by
    rw [dropGrouped] at h
    split at h
    · exact List.mem_cons_of_mem _ (mem_of_mem_dropGrouped h)
    · obtain rfl | h := List.mem_cons.1 h
      · exact List.mem_cons_self
      · exact List.mem_cons_of_mem _ (mem_of_mem_dropGrouped h)

/-- Whether a phrase can start with the token. -/
def starts : Token → Bool
  | number _ | string _ | template _ | identifier _ => true
  | keyword .trueWord | keyword .falseWord | keyword .noneWord => true
  | symbol .leftParen | symbol .leftBracket | symbol .minus | symbol .bang => true
  | _ => false

/-- Whether the token can stand in a phrase: it neither separates statements nor ends the text or a
block. -/
def isOrdinary (t : Token) : Bool := !t.isSeparator && !t.isEnd && !t.isSymbol .rightBrace

/-- How many groups are open behind the tokens, if `n` are open before them. -/
def nestingAfterAll (ts : List Token) (n : Nat) : Nat := ts.foldl (fun n t => t.nestingAfter n) n

@[simp] theorem nestingAfterAll_nil (n : Nat) : nestingAfterAll [] n = n := rfl

@[simp] theorem nestingAfterAll_cons (t : Token) (ts : List Token) (n : Nat) :
    nestingAfterAll (t :: ts) n = nestingAfterAll ts (t.nestingAfter n) := rfl

@[simp] theorem nestingAfterAll_append (ts us : List Token) (n : Nat) :
    nestingAfterAll (ts ++ us) n = nestingAfterAll us (nestingAfterAll ts n) := List.foldl_append

@[simp] theorem nestingAfter_binarySign (op : BinaryOp) (n : Nat) :
    (symbol op.sign).nestingAfter n = n := by
  cases op <;> rfl

@[simp] theorem nestingAfter_unarySign (op : UnaryOp) (n : Nat) :
    (symbol op.sign).nestingAfter n = n := by
  cases op <;> rfl

@[simp] theorem isOrdinary_binarySign (op : BinaryOp) : (symbol op.sign).isOrdinary = true := by
  cases op <;> rfl

@[simp] theorem isOrdinary_unarySign (op : UnaryOp) : (symbol op.sign).isOrdinary = true := by
  cases op <;> rfl

@[simp] theorem starts_unarySign (op : UnaryOp) : (symbol op.sign).starts = true := by
  cases op <;> rfl

end Token

namespace Grammar

/-- The phrases of a language, and what they mean. -/
abbrev Lang (α : Type) := List Token → α → Prop

/-! ## Operators between operands -/

/-- Further operands of a chain behind `left`, each with an operator before it. -/
inductive ChainFrom (ops : List BinaryOp) (operand : Lang Expr) : Expr → Lang Expr
  | stop (left : Expr) : ChainFrom ops operand left [] left
  | more {op : BinaryOp} {left right e : Expr} {us vs : List Token} : op ∈ ops → operand us right →
    ChainFrom ops operand (.binary op left right) vs e →
    ChainFrom ops operand left (.symbol op.sign :: (us ++ vs)) e

/-- Operands with operators between them, grouped to the left. -/
inductive Chain (ops : List BinaryOp) (operand : Lang Expr) : Lang Expr
  | intro {left e : Expr} {us vs : List Token} : operand us left → ChainFrom ops operand left vs e →
    Chain ops operand (us ++ vs) e

/-- `a`, `a..b` or `a..b..c`. -/
inductive RangeOf (bound : Lang Expr) : Lang Expr
  | single {e : Expr} {ts : List Token} : bound ts e → RangeOf bound ts e
  | between {start stop : Expr} {us vs : List Token} : bound us start → bound vs stop →
    RangeOf bound (us ++ .symbol .dotDot :: vs) (.range start stop none)
  | stepped {start stop step : Expr} {us vs ws : List Token} : bound us start → bound vs stop →
    bound ws step →
    RangeOf bound (us ++ .symbol .dotDot :: (vs ++ .symbol .dotDot :: ws))
      (.range start stop (some step))

/-! The operators of each kind of chain, from the loosest. -/

def disjunction : List BinaryOp := [.or]
def conjunction : List BinaryOp := [.and]
def comparison : List BinaryOp := [.equal, .notEqual, .less, .greater, .lessEqual, .greaterEqual]
def sum : List BinaryOp := [.add, .subtract]
def product : List BinaryOp := [.multiply, .divide]

/-- Sums of products of operands. -/
def SumOf (operand : Lang Expr) : Lang Expr := Chain sum (Chain product operand)

/-- Expressions over the given operands. -/
def ExpressionOf (operand : Lang Expr) : Lang Expr :=
  Chain disjunction (Chain conjunction (Chain comparison (RangeOf (SumOf operand))))

/-! ## Operands -/

/-- Items separated by commas; a comma may stand behind the last. -/
inductive Items (item : Lang Expr) : Lang (List Expr)
  | none : Items item [] []
  | last {e : Expr} {ts : List Token} : item ts e → Items item ts [e]
  | more {e : Expr} {es : List Expr} {us vs : List Token} : item us e → Items item vs es →
    Items item (us ++ .symbol .comma :: vs) (e :: es)

/-- What stands alone. -/
inductive Primary (inner : Lang Expr) : Lang Expr
  | number (x : Float) : Primary inner [.number x] (.number x)
  | string (s : String) : Primary inner [.string s] (.string s)
  | template (parts : List Part) : Primary inner [.template parts] (.template parts)
  | trueWord : Primary inner [.keyword .trueWord] (.boolean true)
  | falseWord : Primary inner [.keyword .falseWord] (.boolean false)
  | noneWord : Primary inner [.keyword .noneWord] .none
  | var (name : String) : Primary inner [.identifier name] (.var name)
  | group {e : Expr} {ts : List Token} : inner ts e →
    Primary inner (.symbol .leftParen :: (ts ++ [.symbol .rightParen])) e
  | list {es : List Expr} {ts : List Token} : Items inner ts es →
    Primary inner (.symbol .leftBracket :: (ts ++ [.symbol .rightBracket])) (.list es)

/-- Members, indices and calls behind an expression. A member that can take arguments does. -/
inductive SuffixesFrom (inner : Lang Expr) : Expr → Lang Expr
  | stop (e : Expr) : SuffixesFrom inner e [] e
  | member {e e' : Expr} {name : String} {ts : List Token} :
    ts.head? ≠ some (.symbol .leftParen) → SuffixesFrom inner (.member e name []) ts e' →
    SuffixesFrom inner e (.symbol .dot :: .identifier name :: ts) e'
  | memberCall {e e' : Expr} {name : String} {args : List Expr} {us vs : List Token} :
    Items inner us args → SuffixesFrom inner (.member e name args) vs e' →
    SuffixesFrom inner e (.symbol .dot :: .identifier name :: .symbol .leftParen ::
      (us ++ .symbol .rightParen :: vs)) e'
  | index {e e' place : Expr} {us vs : List Token} : inner us place →
    SuffixesFrom inner (.index e place) vs e' →
    SuffixesFrom inner e (.symbol .leftBracket :: (us ++ .symbol .rightBracket :: vs)) e'
  | call {e e' : Expr} {args : List Expr} {us vs : List Token} : Items inner us args →
    SuffixesFrom inner (.call e args) vs e' →
    SuffixesFrom inner e (.symbol .leftParen :: (us ++ .symbol .rightParen :: vs)) e'

/-- A primary expression with what is taken from it. -/
inductive Suffixed (inner : Lang Expr) : Lang Expr
  | intro {p e : Expr} {us vs : List Token} : Primary inner us p → SuffixesFrom inner p vs e →
    Suffixed inner (us ++ vs) e

/-- Operands, over the expressions in brackets and the operands after a sign or as exponent. -/
inductive OperandOf (inner deeper : Lang Expr) : Lang Expr
  | sign {op : UnaryOp} {e : Expr} {ts : List Token} : deeper ts e →
    OperandOf inner deeper (.symbol op.sign :: ts) (.unary op e)
  | plain {e : Expr} {ts : List Token} : Suffixed inner ts e → OperandOf inner deeper ts e
  | power {base exponent : Expr} {us vs : List Token} : Suffixed inner us base →
    deeper vs exponent →
    OperandOf inner deeper (us ++ .symbol .caret :: vs) (.binary .power base exponent)

/-- Operands where the given number of levels is left. -/
def Operand : (levels : Nat) → Lang Expr
  | 0 => fun _ _ => False
  | levels + 1 => OperandOf (ExpressionOf (Operand levels)) (Operand levels)

/-- The expressions of the language. -/
def Expression : Lang Expr := ExpressionOf (Operand maxDepth)

/-! ## The tokens of a phrase -/

/-- Phrases start with a token that can start one, hold no separators, and close the groups they
open. -/
structure Proper (L : Lang Expr) : Prop where
  starts {ts : List Token} {e : Expr} : L ts e → ∃ t us, ts = t :: us ∧ t.starts = true
  ordinary {ts : List Token} {e : Expr} : L ts e → ∀ t ∈ ts, t.isOrdinary = true
  balanced {ts : List Token} {e : Expr} : L ts e → ∀ n, Token.nestingAfterAll ts n = n

section Tokens

variable {L inner deeper : Lang Expr} {ops : List BinaryOp} {ts us vs : List Token} {e left : Expr}

theorem Proper.starts_append (hL : Proper L) (h : L us e) :
    ∃ t ts, us ++ vs = t :: ts ∧ t.starts = true := by
  obtain ⟨t, ts, rfl, ht⟩ := hL.starts h
  exact ⟨t, ts ++ vs, rfl, ht⟩

theorem ChainFrom.ordinary (hL : Proper L) (h : ChainFrom ops L left ts e) :
    ∀ t ∈ ts, t.isOrdinary = true := by
  induction h with
  | stop => exact List.forall_mem_nil _
  | more _ hright _ ih => simpa using List.forall_mem_append.2 ⟨hL.ordinary hright, ih⟩

theorem ChainFrom.balanced (hL : Proper L) (h : ChainFrom ops L left ts e) :
    ∀ n, Token.nestingAfterAll ts n = n := by
  induction h with
  | stop => exact fun _ => rfl
  | more _ hright _ ih => simp [hL.balanced hright, ih]

theorem Proper.chain (hL : Proper L) : Proper (Chain ops L) where
  starts := by
    rintro _ _ ⟨hleft, -⟩
    exact hL.starts_append hleft
  ordinary := by
    rintro _ _ ⟨hleft, hrest⟩
    exact List.forall_mem_append.2 ⟨hL.ordinary hleft, hrest.ordinary hL⟩
  balanced := by
    rintro _ _ ⟨hleft, hrest⟩
    simp [hL.balanced hleft, hrest.balanced hL]

theorem Proper.rangeOf (hL : Proper L) : Proper (RangeOf L) where
  starts := by
    rintro _ _ (h | ⟨h, -⟩ | ⟨h, -, -⟩)
    · exact hL.starts h
    · exact hL.starts_append h
    · exact hL.starts_append h
  ordinary := by
    have hdots : (Token.symbol .dotDot).isOrdinary = true := rfl
    rintro _ _ (h | ⟨hstart, hstop⟩ | ⟨hstart, hstop, hstep⟩)
    · exact hL.ordinary h
    · exact List.forall_mem_append.2
        ⟨hL.ordinary hstart, List.forall_mem_cons.2 ⟨hdots, hL.ordinary hstop⟩⟩
    · exact List.forall_mem_append.2 ⟨hL.ordinary hstart, List.forall_mem_cons.2 ⟨hdots,
        List.forall_mem_append.2
          ⟨hL.ordinary hstop, List.forall_mem_cons.2 ⟨hdots, hL.ordinary hstep⟩⟩⟩⟩
  balanced := by
    have hdots : ∀ n, (Token.symbol .dotDot).nestingAfter n = n := fun _ => rfl
    rintro _ _ (h | ⟨hstart, hstop⟩ | ⟨hstart, hstop, hstep⟩)
    · exact hL.balanced h
    · simp [hL.balanced hstart, hL.balanced hstop, hdots]
    · simp [hL.balanced hstart, hL.balanced hstop, hL.balanced hstep, hdots]

theorem Proper.expressionOf (hL : Proper L) : Proper (ExpressionOf L) :=
  hL.chain.chain.rangeOf.chain.chain.chain

theorem Items.ordinary (hL : Proper L) {es : List Expr} (h : Items L ts es) :
    ∀ t ∈ ts, t.isOrdinary = true := by
  induction h with
  | none => exact List.forall_mem_nil _
  | last h => exact hL.ordinary h
  | more h _ ih =>
    exact List.forall_mem_append.2 ⟨hL.ordinary h, List.forall_mem_cons.2 ⟨rfl, ih⟩⟩

theorem Items.balanced (hL : Proper L) {es : List Expr} (h : Items L ts es) :
    ∀ n, Token.nestingAfterAll ts n = n := by
  have hcomma : ∀ n, (Token.symbol .comma).nestingAfter n = n := fun _ => rfl
  induction h with
  | none => exact fun _ => rfl
  | last h => exact hL.balanced h
  | more h _ ih => simp [hL.balanced h, ih, hcomma]

/-- Tokens in brackets. -/
theorem forall_mem_group {p : Token → Prop} {opener closer : Token} (hopener : p opener)
    (hcloser : p closer) (hus : ∀ t ∈ us, p t) (hvs : ∀ t ∈ vs, p t) :
    ∀ t ∈ opener :: (us ++ closer :: vs), p t :=
  List.forall_mem_cons.2
    ⟨hopener, List.forall_mem_append.2 ⟨hus, List.forall_mem_cons.2 ⟨hcloser, hvs⟩⟩⟩

theorem Primary.ordinary (hinner : Proper inner) (h : Primary inner ts e) :
    ∀ t ∈ ts, t.isOrdinary = true := by
  cases h with
  | group h => exact forall_mem_group rfl rfl (hinner.ordinary h) (List.forall_mem_nil _)
  | list h => exact forall_mem_group rfl rfl (h.ordinary hinner) (List.forall_mem_nil _)
  | _ => exact List.forall_mem_singleton.2 rfl

theorem nestingAfterAll_group {opener closer : Token} (hopener : opener.opens = true)
    (hcloser : closer.opens = false ∧ closer.closes = true)
    (hus : ∀ n, Token.nestingAfterAll us n = n) (n : Nat) :
    Token.nestingAfterAll (opener :: (us ++ closer :: vs)) n = Token.nestingAfterAll vs n := by
  simp [Token.nestingAfter, hopener, hcloser, hus]

theorem Primary.balanced (hinner : Proper inner) (h : Primary inner ts e) :
    ∀ n, Token.nestingAfterAll ts n = n := by
  cases h with
  | group h => exact nestingAfterAll_group rfl ⟨rfl, rfl⟩ (hinner.balanced h)
  | list h => exact nestingAfterAll_group rfl ⟨rfl, rfl⟩ (h.balanced hinner)
  | _ => exact fun _ => rfl

/-- A primary expression starts with a token that is no sign. -/
theorem Primary.starts (h : Primary inner ts e) :
    ∃ t us, ts = t :: us ∧ t.starts = true ∧ Parser.signOp? t = none := by
  cases h <;> exact ⟨_, _, rfl, rfl, rfl⟩

theorem SuffixesFrom.ordinary (hinner : Proper inner) (h : SuffixesFrom inner left ts e) :
    ∀ t ∈ ts, t.isOrdinary = true := by
  induction h with
  | stop => exact List.forall_mem_nil _
  | member _ _ ih => exact List.forall_mem_cons.2 ⟨rfl, List.forall_mem_cons.2 ⟨rfl, ih⟩⟩
  | memberCall h _ ih =>
    exact List.forall_mem_cons.2 ⟨rfl, List.forall_mem_cons.2
      ⟨rfl, forall_mem_group rfl rfl (h.ordinary hinner) ih⟩⟩
  | index h _ ih => exact forall_mem_group rfl rfl (hinner.ordinary h) ih
  | call h _ ih => exact forall_mem_group rfl rfl (h.ordinary hinner) ih

theorem SuffixesFrom.balanced (hinner : Proper inner) (h : SuffixesFrom inner left ts e) :
    ∀ n, Token.nestingAfterAll ts n = n := by
  intro n
  induction h with
  | stop => rfl
  | member _ _ ih => exact ih
  | memberCall h _ ih =>
    exact (nestingAfterAll_group rfl ⟨rfl, rfl⟩ (h.balanced hinner) n).trans ih
  | index h _ ih => exact (nestingAfterAll_group rfl ⟨rfl, rfl⟩ (hinner.balanced h) n).trans ih
  | call h _ ih => exact (nestingAfterAll_group rfl ⟨rfl, rfl⟩ (h.balanced hinner) n).trans ih

theorem Suffixed.starts (h : Suffixed inner ts e) :
    ∃ t us, ts = t :: us ∧ t.starts = true ∧ Parser.signOp? t = none := by
  obtain ⟨hprimary, -⟩ := h
  obtain ⟨t, us, rfl, ht⟩ := hprimary.starts
  exact ⟨t, _, rfl, ht⟩

theorem Suffixed.ordinary (hinner : Proper inner) (h : Suffixed inner ts e) :
    ∀ t ∈ ts, t.isOrdinary = true := by
  obtain ⟨hprimary, hsuffixes⟩ := h
  exact List.forall_mem_append.2 ⟨hprimary.ordinary hinner, hsuffixes.ordinary hinner⟩

theorem Suffixed.balanced (hinner : Proper inner) (h : Suffixed inner ts e) :
    ∀ n, Token.nestingAfterAll ts n = n := by
  obtain ⟨hprimary, hsuffixes⟩ := h
  simp [hprimary.balanced hinner, hsuffixes.balanced hinner]

theorem Proper.operandOf (hinner : Proper inner) (hdeeper : Proper deeper) :
    Proper (OperandOf inner deeper) where
  starts := by
    rintro _ _ (_ | h | ⟨h, -⟩)
    · exact ⟨_, _, rfl, Token.starts_unarySign _⟩
    · obtain ⟨t, us, rfl, ht, -⟩ := h.starts
      exact ⟨t, us, rfl, ht⟩
    · obtain ⟨t, us, rfl, ht, -⟩ := h.starts
      exact ⟨t, _, rfl, ht⟩
  ordinary := by
    rintro _ _ (h | h | ⟨h, hexponent⟩)
    · exact List.forall_mem_cons.2 ⟨Token.isOrdinary_unarySign _, hdeeper.ordinary h⟩
    · exact h.ordinary hinner
    · exact List.forall_mem_append.2
        ⟨h.ordinary hinner, List.forall_mem_cons.2 ⟨rfl, hdeeper.ordinary hexponent⟩⟩
  balanced := by
    have hcaret : ∀ n, (Token.symbol .caret).nestingAfter n = n := fun _ => rfl
    rintro _ _ (h | h | ⟨h, hexponent⟩)
    · simp [hdeeper.balanced h]
    · exact h.balanced hinner
    · simp [h.balanced hinner, hdeeper.balanced hexponent, hcaret]

theorem proper_operand : ∀ levels : Nat, Proper (Operand levels)
  | 0 => ⟨False.elim, False.elim, False.elim⟩
  | levels + 1 => (proper_operand levels).expressionOf.operandOf (proper_operand levels)

end Tokens

end Grammar

end CommandScript
