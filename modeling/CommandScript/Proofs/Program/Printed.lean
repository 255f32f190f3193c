import CommandScript.Program.Printer
import CommandScript.Proofs.Parser.Grammar
import CommandScript.Proofs.Token.Text

/-!
# Proofs/Program/Printed — the tokens of a printed expression

`Expr.text` writes operators between brackets, but neither ranges nor signs, so not every expression
can be read back from its text. `Expr.isPrintable` says which can: every literal and name has a
token it is written as, and a range or a sign stands only where it needs no brackets. The text of
such an expression consists of `Expr.tokens` (`Expr.spelt`), whatever follows it, as long as
this does not go on with its last token.
-/

namespace CommandScript

open Scan

/-! ## Which expressions can be printed -/

/-- Whether the operator computes with numbers. -/
def BinaryOp.isArithmetic : BinaryOp → Bool
  | add | subtract | multiply | divide | power => true
  | _ => false

namespace Expr

/-- Whether the expression is a range. -/
def isRange : Expr → Bool
  | range .. => true
  | _ => false

/-- Whether the expression is a sign and its operand. -/
def isUnary : Expr → Bool
  | unary .. => true
  | _ => false

/-- Whether a call or an index can be written behind the expression. -/
def isClosed (e : Expr) : Bool := !e.isUnary && !e.isRange

/-- Whether a member can be written behind the expression. Behind a number, the point would be taken
for its own. -/
def hasMembers : Expr → Bool
  | number _ => false
  | e => e.isClosed

theorem isClosed_of_hasMembers {e : Expr} (h : e.hasMembers = true) : e.isClosed = true := by
  unfold hasMembers at h
  split at h
  · exact absurd h Bool.false_ne_true
  · exact h

mutual
/-- Whether the expression can be read back from its text. -/
def isPrintable : Expr → Bool
  | number x => Number.isUnsigned x
  | string s => !s.toList.contains '\''
  | template parts => Part.isCanonical parts
  | boolean _ | none => true
  | var name => isIdentifier name
  | list items => arePrintable items
  | range start stop .none =>
    !start.isRange && !stop.isRange && start.isPrintable && stop.isPrintable
  | range start stop (.some step) =>
    !start.isRange && !stop.isRange && !step.isRange && start.isPrintable && stop.isPrintable
      && step.isPrintable
  | binary op left right =>
    !(op.isArithmetic && (left.isRange || right.isRange)) && !(op == .power && left.isUnary)
      && left.isPrintable && right.isPrintable
  | unary _ operand => !operand.isRange && operand.isPrintable
  | call callee args => callee.isClosed && callee.isPrintable && arePrintable args
  | member receiver name args =>
    receiver.hasMembers && isIdentifier name && receiver.isPrintable && arePrintable args
  | index target place => target.isClosed && target.isPrintable && place.isPrintable

/-- Whether all of the expressions can be read back from their texts. -/
def arePrintable : List Expr → Bool
  | [] => true
  | e :: es => e.isPrintable && arePrintable es
end

mutual
/-- How many constructors lie above the lowest. -/
def height : Expr → Nat
  | number _ | string _ | template _ | boolean _ | none | var _ => 0
  | list items => heights items + 1
  | range start stop .none => max start.height stop.height + 1
  | range start stop (.some step) => max (max start.height stop.height) step.height + 1
  | binary _ left right => max left.height right.height + 1
  | unary _ operand => operand.height + 1
  | call callee args => max callee.height (heights args) + 1
  | member receiver _ args => max receiver.height (heights args) + 1
  | index target place => max target.height place.height + 1

/-- The height of the highest. -/
def heights : List Expr → Nat
  | [] => 0
  | e :: es => max e.height (heights es)
end

mutual
/-- The numbers written in the expression. -/
def numbers : Expr → List Float
  | number x => [x]
  | string _ | template _ | boolean _ | none | var _ => []
  | list items => numbersOf items
  | range start stop .none => start.numbers ++ stop.numbers
  | range start stop (.some step) => start.numbers ++ stop.numbers ++ step.numbers
  | binary _ left right => left.numbers ++ right.numbers
  | unary _ operand => operand.numbers
  | call callee args => callee.numbers ++ numbersOf args
  | member receiver _ args => receiver.numbers ++ numbersOf args
  | index target place => target.numbers ++ place.numbers

/-- The numbers written in the expressions. -/
def numbersOf : List Expr → List Float
  | [] => []
  | e :: es => e.numbers ++ numbersOf es
end

/-! ## The tokens of the text -/

mutual
/-- The tokens of the text of the expression. -/
def tokens : Expr → List Token
  | number x => [.number x]
  | string s => [.string s]
  | template parts => [.template parts]
  | boolean b => [.keyword (if b then .trueWord else .falseWord)]
  | none => [.keyword .noneWord]
  | var name => [.identifier name]
  | list items => .symbol .leftBracket :: (itemTokens items ++ [.symbol .rightBracket])
  | range start stop .none => start.tokens ++ .symbol .dotDot :: stop.tokens
  | range start stop (.some step) =>
    start.tokens ++ .symbol .dotDot :: (stop.tokens ++ .symbol .dotDot :: step.tokens)
  | binary op left right =>
    .symbol .leftParen :: (left.tokens ++ .symbol op.sign :: right.tokens ++ [.symbol .rightParen])
  | unary op operand => .symbol op.sign :: operand.tokens
  | call callee args =>
    callee.tokens ++ .symbol .leftParen :: (itemTokens args ++ [.symbol .rightParen])
  | member receiver name args =>
    receiver.tokens ++ .symbol .dot :: .identifier name :: .symbol .leftParen
      :: (itemTokens args ++ [.symbol .rightParen])
  | index target place =>
    target.tokens ++ .symbol .leftBracket :: (place.tokens ++ [.symbol .rightBracket])

/-- The tokens of the expressions with commas between them. -/
def itemTokens : List Expr → List Token
  | [] => []
  | [e] => e.tokens
  | e :: e' :: es => e.tokens ++ .symbol .comma :: itemTokens (e' :: es)
end

attribute [local simp] text texts height heights tokens itemTokens

theorem tokens_starts : ∀ e : Expr, ∃ t ts, e.tokens = t :: ts ∧ t.starts = true
  | number _ | string _ | template _ | none | var _ | list _ | binary .. => ⟨_, _, rfl, rfl⟩
  | boolean b => ⟨_, _, rfl, by cases b <;> rfl⟩
  | unary op _ => ⟨_, _, rfl, Token.starts_unarySign op⟩
  | range start _ .none | range start _ (.some _) | call start _ | member start _ _
  | index start _ => by
    obtain ⟨t, ts, htokens, ht⟩ := tokens_starts start
    rw [tokens, htokens]
    exact ⟨t, _, rfl, ht⟩

/-- Whether the text of the expression ends where the text goes on as given. -/
def isClear (e : Expr) (cs : List Char) : Bool := isApart cs || e.hasMembers && cs.head? == some '.'

theorem isClear_of_isApart {cs : List Char} (h : isApart cs = true) (e : Expr) :
    e.isClear cs = true := by
  rw [isClear, h, Bool.true_or]

/-- Where no member can be taken, no point follows. -/
theorem isApart_of_isClear {e : Expr} {cs : List Char} (he : e.hasMembers = false)
    (h : e.isClear cs = true) : isApart cs = true := by
  simpa [isClear, he] using h

theorem not_isNameChar_of_isClear {e : Expr} {cs : List Char} (h : e.isClear cs = true) :
    cs.head?.any isNameChar = false := by
  simp only [isClear, isApart, Bool.or_eq_true, Bool.and_eq_true, Bool.not_eq_true',
    beq_iff_eq] at h
  obtain ⟨hname, -⟩ | ⟨-, hdot⟩ := h
  · exact hname
  · rw [hdot]
    rfl

/-- A phrase does not start with a sign of equality. -/
theorem head_ne_of_starts {cs : List Char} {t : Token} {ts : List Token} (h : Lexed cs (t :: ts))
    (ht : t.starts = true) : cs.head? ≠ some '=' := by
  intro hhead
  obtain ⟨rest, rfl⟩ := List.head?_eq_some_iff.1 hhead
  generalize hall : t :: ts = all at h
  cases h (.start _) rfl with
  | done => cases hall
  | more hnext =>
    obtain ⟨rfl, rfl⟩ := List.cons.inj hall
    obtain ⟨n, hscan, -, -⟩ := Cursor.next_eq_ok_iff.1 hnext
    have hpair := Except.ok.inj hscan
    rcases pair_cases rest '=' (.symbol .equalEqual) (.symbol .equals) with heq | heq
    all_goals
      rw [show pair rest '=' (.symbol .equalEqual) (.symbol .equals) = _ from hpair] at heq
      rw [(Prod.mk.inj heq).1] at ht
      exact absurd ht (by decide)

theorem isClear_binarySign (op : BinaryOp) (cs : List Char) :
    (Token.symbol op.sign).isClear (' ' :: cs) = true := by
  cases op <;> rfl

theorem isClear_unarySign (op : UnaryOp) {cs : List Char} (h : cs.head? ≠ some '=') :
    (Token.symbol op.sign).isClear cs = true := by
  cases op with
  | negate => rfl
  | not => exact bne_iff_ne.2 h

theorem isClear_dot {name : String} (h : isIdentifier name = true) (cs : List Char) :
    (Token.symbol .dot).isClear (name.toList ++ cs) = true := by
  simp only [isIdentifier, Bool.and_eq_true] at h
  obtain ⟨c, rest, hname, hstart, -⟩ := isName_cons h.1
  rw [hname, Token.isClear, List.cons_append, List.head?_cons, bne_iff_ne, Ne, Option.some.injEq]
  rintro rfl
  exact absurd hstart (by decide)

/-! ## Spelling

One lemma for each kind of expression: it is spelt with its tokens if its parts are. -/

/-- Wherever the text of the expression stands and ends, it consists of the tokens. -/
def Spelt (e : Expr) : Prop := ∀ ⦃rest : List Char⦄ ⦃us : List Token⦄, e.isClear rest = true →
  Lexed rest us → Lexed (e.text.toList ++ rest) (e.tokens ++ us)

/-- The same of several, with commas between them. -/
def SpeltItems (es : List Expr) : Prop := ∀ ⦃rest : List Char⦄ ⦃us : List Token⦄,
  isApart rest = true → Lexed rest us →
    Lexed ((", ".intercalate (texts es)).toList ++ rest) (itemTokens es ++ us)

namespace Spelt

variable {e start stop step left right receiver place : Expr} {args : List Expr} {name : String}

/-- Before a text that no name or number goes on with, any expression ends. -/
theorem apart (h : e.Spelt) {rest : List Char} {us : List Token} (hrest : isApart rest = true)
    (hus : Lexed rest us) : Lexed (e.text.toList ++ rest) (e.tokens ++ us) :=
  h (e.isClear_of_isApart hrest) hus

/-- An expression of one token is spelt with it. -/
theorem token {t : Token} (htext : e.text = t.text) (htokens : e.tokens = [t])
    (hwritable : t.isWritable = true) (hnumber : ∀ x, t = .number x → Number.ReadsBack x)
    (hclear : ∀ rest, e.isClear rest = true → t.isClear rest = true) : e.Spelt := by
  intro rest us hrest hus
  rw [htext, htokens, List.singleton_append]
  exact hus.token hwritable hnumber (hclear rest hrest)

theorem list (hitems : SpeltItems args) : (list args).Spelt := by
  intro rest us _ hus
  have hopen := (hitems rfl (hus.symbol .rightBracket rfl)).symbol .leftBracket rfl
  simpa [text, tokens, String.toList_append, Symbol.text] using hopen

theorem between (hstart : start.Spelt) (hstop : stop.Spelt) : (range start stop .none).Spelt := by
  intro rest us hrest hus
  have hstop := hstop.apart (isApart_of_isClear rfl hrest) hus
  have hstart := hstart.apart rfl (hstop.symbol .dotDot rfl)
  simpa [text, tokens, String.toList_append, Symbol.text] using hstart

theorem stepped (hstart : start.Spelt) (hstop : stop.Spelt) (hstep : step.Spelt) :
    (range start stop (.some step)).Spelt := by
  intro rest us hrest hus
  have hstep := hstep.apart (isApart_of_isClear rfl hrest) hus
  have hstop := hstop.apart rfl (hstep.symbol .dotDot rfl)
  have hstart := hstart.apart rfl (hstop.symbol .dotDot rfl)
  simpa [text, tokens, String.toList_append, Symbol.text] using hstart

theorem binary (op : BinaryOp) (hleft : left.Spelt) (hright : right.Spelt) :
    (binary op left right).Spelt := by
  intro rest us _ hus
  have hright := hright.apart rfl (hus.symbol .rightParen rfl)
  have hsign := hright.blank.symbol op.sign (isClear_binarySign op _)
  rw [BinaryOp.text_sign] at hsign
  have hleft := (hleft.apart rfl hsign.blank).symbol .leftParen rfl
  simpa [text, tokens, String.toList_append, Symbol.text] using hleft

theorem unary (op : UnaryOp) (he : e.Spelt) : (unary op e).Spelt := by
  intro rest us hrest hus
  have hoperand := he.apart (isApart_of_isClear rfl hrest) hus
  obtain ⟨t, ts, htokens, ht⟩ := e.tokens_starts
  have hhead : (e.text.toList ++ rest).head? ≠ some '=' := by
    rw [htokens] at hoperand
    exact head_ne_of_starts hoperand ht
  have hsign := hoperand.symbol op.sign (isClear_unarySign op hhead)
  simpa [text, tokens, String.toList_append] using hsign

theorem call (he : e.Spelt) (hargs : SpeltItems args) : (call e args).Spelt := by
  intro rest us _ hus
  have hargs := hargs rfl (hus.symbol .rightParen rfl)
  have hcallee := he.apart rfl (hargs.symbol .leftParen rfl)
  simpa [text, tokens, String.toList_append, Symbol.text] using hcallee

theorem member (hmembers : receiver.hasMembers = true) (hname : isIdentifier name = true)
    (hreceiver : receiver.Spelt) (hargs : SpeltItems args) : (member receiver name args).Spelt := by
  intro rest us _ hus
  have hargs := (hargs rfl (hus.symbol .rightParen rfl)).symbol .leftParen rfl
  have hword := hargs.token (t := .identifier name) hname (fun _ => nofun) rfl
  have hdot := hword.symbol .dot (isClear_dot hname _)
  -- a point behind a number would be taken for a part of it
  have hreceiver := hreceiver (by simp [isClear, hmembers, Symbol.text]) hdot
  simpa [text, tokens, String.toList_append, Symbol.text, Token.text] using hreceiver

theorem index (he : e.Spelt) (hplace : place.Spelt) : (index e place).Spelt := by
  intro rest us _ hus
  have hplace := hplace.apart rfl (hus.symbol .rightBracket rfl)
  have htarget := he.apart rfl (hplace.symbol .leftBracket rfl)
  simpa [text, tokens, String.toList_append, Symbol.text] using htarget

end Spelt

theorem SpeltItems.of_forall : ∀ {es : List Expr}, (∀ e ∈ es, e.Spelt) → SpeltItems es
  | [], _ => fun _ _ _ hus => hus
  | [e], h => by
    intro rest us hrest hus
    have he := (h e List.mem_cons_self).apart hrest hus
    simpa [texts, itemTokens, String.toList_intercalate] using he
  | e :: e' :: es, h => by
    intro rest us hrest hus
    obtain ⟨he, hes⟩ := List.forall_mem_cons.1 h
    have hes := of_forall hes hrest hus
    have he := he.apart rfl (hes.blank.symbol .comma rfl)
    simpa [texts, itemTokens, String.toList_intercalate, List.intercalate_cons_cons, Symbol.text]
      using he

/-- Words end where an expression does. -/
theorem isClear_word {e : Expr} {t : Token}
    (ht : ∀ rest, t.isClear rest = !rest.head?.any isNameChar) (rest : List Char)
    (h : e.isClear rest = true) : t.isClear rest = true := by
  rw [ht, not_isNameChar_of_isClear h, Bool.not_false]

mutual
/-- **The text of a printable expression consists of its tokens.** -/
theorem spelt : ∀ e : Expr, e.isPrintable = true → (∀ x ∈ e.numbers, Number.ReadsBack x) → e.Spelt
  | number x, hp, hx => by
    refine .token rfl rfl hp ?_ fun rest => isApart_of_isClear rfl
    rintro _ ⟨⟩
    exact hx x List.mem_cons_self
  | string _, hp, _ => .token rfl rfl hp (fun _ => nofun) fun _ _ => rfl
  | template _, hp, _ => .token rfl rfl hp (fun _ => nofun) fun _ _ => rfl
  | boolean true, _, _ => .token rfl rfl rfl (fun _ => nofun) (isClear_word fun _ => rfl)
  | boolean false, _, _ => .token rfl rfl rfl (fun _ => nofun) (isClear_word fun _ => rfl)
  | none, _, _ => .token rfl rfl rfl (fun _ => nofun) (isClear_word fun _ => rfl)
  | var _, hp, _ => .token rfl rfl hp (fun _ => nofun) (isClear_word fun _ => rfl)
  | list items, hp, hx => .list (.of_forall (spelt_items items hp hx))
  | range start stop .none, hp, hx => by
    simp only [isPrintable, Bool.and_eq_true] at hp
    obtain ⟨hstart, hstop⟩ := List.forall_mem_append.1 hx
    exact .between (spelt start hp.1.2 hstart) (spelt stop hp.2 hstop)
  | range start stop (.some step), hp, hx => by
    simp only [isPrintable, Bool.and_eq_true] at hp
    obtain ⟨hx, hstep⟩ := List.forall_mem_append.1 hx
    obtain ⟨hstart, hstop⟩ := List.forall_mem_append.1 hx
    exact .stepped (spelt start hp.1.1.2 hstart) (spelt stop hp.1.2 hstop) (spelt step hp.2 hstep)
  | binary op left right, hp, hx => by
    simp only [isPrintable, Bool.and_eq_true] at hp
    obtain ⟨hleft, hright⟩ := List.forall_mem_append.1 hx
    exact .binary op (spelt left hp.1.2 hleft) (spelt right hp.2 hright)
  | unary op operand, hp, hx => by
    simp only [isPrintable, Bool.and_eq_true] at hp
    exact .unary op (spelt operand hp.2 hx)
  | call callee args, hp, hx => by
    simp only [isPrintable, Bool.and_eq_true] at hp
    obtain ⟨hcallee, hargs⟩ := List.forall_mem_append.1 hx
    exact .call (spelt callee hp.1.2 hcallee) (.of_forall (spelt_items args hp.2 hargs))
  | member receiver name args, hp, hx => by
    simp only [isPrintable, Bool.and_eq_true] at hp
    obtain ⟨⟨⟨hmembers, hname⟩, hprintable⟩, hargsPrintable⟩ := hp
    obtain ⟨hreceiver, hargs⟩ := List.forall_mem_append.1 hx
    exact .member hmembers hname (spelt receiver hprintable hreceiver)
      (.of_forall (spelt_items args hargsPrintable hargs))
  | index target place, hp, hx => by
    simp only [isPrintable, Bool.and_eq_true] at hp
    obtain ⟨htarget, hplace⟩ := List.forall_mem_append.1 hx
    exact .index (spelt target hp.1.2 htarget) (spelt place hp.2 hplace)

theorem spelt_items : ∀ es : List Expr, arePrintable es = true →
    (∀ x ∈ numbersOf es, Number.ReadsBack x) → ∀ e ∈ es, e.Spelt
  | [], _, _ => List.forall_mem_nil _
  | e :: es, hp, hx => by
    simp only [arePrintable, Bool.and_eq_true] at hp
    obtain ⟨he, hes⟩ := List.forall_mem_append.1 hx
    exact List.forall_mem_cons.2 ⟨spelt e hp.1 he, spelt_items es hp.2 hes⟩
end

end Expr

end CommandScript
