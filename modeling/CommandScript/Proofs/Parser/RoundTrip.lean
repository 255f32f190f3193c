import CommandScript.Proofs.Parser.Expression
import CommandScript.Proofs.Program.Printed

/-!
# Proofs/Parser/RoundTrip — printed expressions are read back

The tokens of a printable expression are a phrase that means the expression (`Grammar.phrase`), so
its text is read back as it (`Parser.parseExpr_text`). An expression is found in the grammar in up
to four ways, as something that suffixes can follow, as an operand, as a bound of a range and as an
expression; which of them are open to it is what `isPrintable` asks of the place it stands in.

Brackets go one level deeper and so does an exponent, so that a power in brackets takes two levels
and an expression is read if there are more than twice as many as it is high.
-/

namespace CommandScript

namespace Grammar

open CommandScript.Expr

/-! ## Chains of one and of two -/

section Chains

variable {L : Lang Expr} {ops : List BinaryOp} {ts us vs : List Token} {e left right : Expr}

theorem Chain.single (h : L ts e) : Chain ops L ts e := by
  have hchain : Chain ops L (ts ++ []) e := .intro h (.stop e)
  rwa [List.append_nil] at hchain

theorem Chain.pair {op : BinaryOp} (hop : op ∈ ops) (hleft : L us left) (hright : L vs right) :
    Chain ops L (us ++ .symbol op.sign :: vs) (.binary op left right) := by
  have hchain : Chain ops L (us ++ .symbol op.sign :: (vs ++ [])) (.binary op left right) :=
    .intro hleft (.more hop hright (.stop _))
  rwa [List.append_nil] at hchain

theorem RangeOf.of_operand (h : L ts e) : RangeOf (SumOf L) ts e :=
  .single (.single (.single h))

theorem ExpressionOf.of_range (h : RangeOf (SumOf L) ts e) : ExpressionOf L ts e :=
  .single (.single (.single h))

end Chains

/-! ## Expressions as phrases -/

/-- The places of the grammar where the tokens of an expression are found, given enough levels. -/
structure Phrase (e : Expr) : Prop where
  /-- What can be taken from it follows it. -/
  suffixed : e.isClosed = true → ∀ {n : Nat} {us : List Token} {e' : Expr}, 2 * e.height ≤ n →
    SuffixesFrom (ExpressionOf (Operand n)) e us e' →
    Suffixed (ExpressionOf (Operand n)) (e.tokens ++ us) e'
  operand : e.isRange = false → ∀ {n : Nat}, 2 * e.height < n → Operand n e.tokens e
  range : ∀ {n : Nat}, 2 * e.height < n → RangeOf (SumOf (Operand n)) e.tokens e

namespace Phrase

variable {e start stop step left right place : Expr} {args : List Expr} {n : Nat}

theorem expression (h : Phrase e) (hn : 2 * e.height < n) :
    ExpressionOf (Operand n) e.tokens e :=
  .of_range (h.range hn)

theorem sum (h : Phrase e) (he : e.isRange = false) (hn : 2 * e.height < n) :
    SumOf (Operand n) e.tokens e :=
  .single (.single (h.operand he hn))

theorem of_range (hrange : e.isRange = true)
    (h : ∀ {n : Nat}, 2 * e.height < n → RangeOf (SumOf (Operand n)) e.tokens e) : Phrase e where
  suffixed he := by simp [isClosed, hrange] at he
  operand he := by simp [hrange] at he
  range := h

/-- An operand is a range of one. -/
theorem of_operand (hclosed : e.isClosed = false)
    (h : ∀ {n : Nat}, 2 * e.height < n → Operand n e.tokens e) : Phrase e where
  suffixed he := by
    rw [hclosed] at he
    exact absurd he Bool.false_ne_true
  operand _ _ hn := h hn
  range hn := .of_operand (h hn)

/-- What suffixes can follow is an operand if none do. -/
theorem of_suffixed (h : ∀ {n : Nat} {us : List Token} {e' : Expr}, 2 * e.height ≤ n →
    SuffixesFrom (ExpressionOf (Operand n)) e us e' →
    Suffixed (ExpressionOf (Operand n)) (e.tokens ++ us) e') : Phrase e := by
  have hoperand : ∀ {n : Nat}, 2 * e.height < n → Operand n e.tokens e := by
    intro n hn
    obtain ⟨n, rfl⟩ := Nat.exists_eq_succ_of_ne_zero (Nat.ne_zero_of_lt hn)
    have hplain := h (Nat.le_of_lt_succ hn) (.stop e)
    rw [List.append_nil] at hplain
    exact .plain hplain
  exact ⟨fun _ => h, fun _ _ => hoperand, fun hn => .of_operand (hoperand hn)⟩

theorem of_primary (h : ∀ {n : Nat}, 2 * e.height ≤ n →
    Primary (ExpressionOf (Operand n)) e.tokens e) : Phrase e :=
  of_suffixed fun hn hsuffixes => .intro (h hn) hsuffixes

/-- Two operands with the operator between them are an expression. -/
theorem operation {op : BinaryOp} (hleft : Phrase left) (hright : Phrase right)
    (harithmetic : op.isArithmetic = true → left.isRange = false ∧ right.isRange = false)
    (hpower : op = .power → left.isUnary = false)
    (hn : 2 * (Expr.binary op left right).height ≤ n) :
    ExpressionOf (Operand n) (left.tokens ++ .symbol op.sign :: right.tokens)
      (.binary op left right) := by
  rw [height] at hn
  have hleftLevels : 2 * left.height + 1 < n := by omega
  have hrightLevels : 2 * right.height + 1 < n := by omega
  have hleftRange := hleft.range (Nat.lt_of_succ_lt hleftLevels)
  have hrightRange := hright.range (Nat.lt_of_succ_lt hrightLevels)
  have hleftOperand (hop : op.isArithmetic = true) : Operand n left.tokens left :=
    hleft.operand (harithmetic hop).1 (Nat.lt_of_succ_lt hleftLevels)
  have hrightOperand (hop : op.isArithmetic = true) : Operand n right.tokens right :=
    hright.operand (harithmetic hop).2 (Nat.lt_of_succ_lt hrightLevels)
  cases op with
  | or =>
    exact .pair List.mem_cons_self (.single (.single hleftRange)) (.single (.single hrightRange))
  | and =>
    exact .single (.pair List.mem_cons_self (.single hleftRange) (.single hrightRange))
  | equal | notEqual | less | greater | lessEqual | greaterEqual =>
    exact .single (.single (.pair (by decide) hleftRange hrightRange))
  | add | subtract =>
    exact .of_range (.single (.pair (by decide) (.single (hleftOperand rfl))
      (.single (hrightOperand rfl))))
  | multiply | divide =>
    exact .of_range (.single (.single (.pair (by decide) (hleftOperand rfl) (hrightOperand rfl))))
  | power =>
    -- the exponent is one level deeper
    obtain ⟨n, rfl⟩ := Nat.exists_eq_succ_of_ne_zero (Nat.ne_zero_of_lt hleftLevels)
    obtain ⟨hleftPlain, hrightPlain⟩ := harithmetic rfl
    have hclosed : left.isClosed = true := by simp [isClosed, hleftPlain, hpower rfl]
    have hbase := hleft.suffixed hclosed (by omega : 2 * left.height ≤ n) (.stop left)
    rw [List.append_nil] at hbase
    have hexponent := hright.operand hrightPlain (Nat.lt_of_succ_lt_succ hrightLevels)
    exact .of_range (.of_operand (.power hbase hexponent))

theorem binary {op : BinaryOp} (hleft : Phrase left) (hright : Phrase right)
    (harithmetic : op.isArithmetic = true → left.isRange = false ∧ right.isRange = false)
    (hpower : op = .power → left.isUnary = false) : Phrase (.binary op left right) := by
  refine of_primary fun {n} hn => ?_
  rw [tokens]
  exact .group (hleft.operation hright harithmetic hpower hn)

/-- The tokens of items are items. -/
theorem items : ∀ {es : List Expr}, (∀ e ∈ es, Phrase e) → 2 * heights es < n →
    Items (ExpressionOf (Operand n)) (itemTokens es) es
  | [], _, _ => .none
  | [e], h, hn => by
    rw [heights] at hn
    rw [itemTokens]
    exact .last ((h e List.mem_cons_self).expression (by omega))
  | e :: e' :: es, h, hn => by
    rw [heights] at hn
    obtain ⟨he, hes⟩ := List.forall_mem_cons.1 h
    rw [itemTokens]
    exact .more (he.expression (by omega)) (items hes (by omega))

theorem list (hitems : ∀ e ∈ args, Phrase e) : Phrase (.list args) := by
  refine of_primary fun {n} hn => ?_
  rw [height] at hn
  rw [tokens]
  exact .list (items hitems (by omega))

theorem between (hstart : Phrase start) (hstop : Phrase stop) (hstartPlain : start.isRange = false)
    (hstopPlain : stop.isRange = false) : Phrase (.range start stop .none) := by
  refine of_range rfl fun {n} hn => ?_
  rw [height] at hn
  rw [tokens]
  exact .between (hstart.sum hstartPlain (by omega)) (hstop.sum hstopPlain (by omega))

theorem stepped (hstart : Phrase start) (hstop : Phrase stop) (hstep : Phrase step)
    (hstartPlain : start.isRange = false) (hstopPlain : stop.isRange = false)
    (hstepPlain : step.isRange = false) : Phrase (.range start stop (some step)) := by
  refine of_range rfl fun {n} hn => ?_
  rw [height] at hn
  rw [tokens]
  exact .stepped (hstart.sum hstartPlain (by omega)) (hstop.sum hstopPlain (by omega))
    (hstep.sum hstepPlain (by omega))

theorem unary (op : UnaryOp) (he : Phrase e) (hplain : e.isRange = false) :
    Phrase (.unary op e) := by
  refine of_operand rfl fun {n} hn => ?_
  rw [height] at hn
  obtain ⟨n, rfl⟩ := Nat.exists_eq_succ_of_ne_zero (Nat.ne_zero_of_lt hn)
  rw [tokens]
  exact .sign (he.operand hplain (by omega))

theorem call (he : Phrase e) (hclosed : e.isClosed = true) (hargs : ∀ a ∈ args, Phrase a) :
    Phrase (.call e args) := by
  refine of_suffixed fun {n us e'} hn hsuffixes => ?_
  rw [height] at hn
  have hitems : Items (ExpressionOf (Operand n)) (itemTokens args) args := items hargs (by omega)
  have hall := he.suffixed hclosed (by omega) (.call hitems hsuffixes)
  simpa [tokens] using hall

theorem member (he : Phrase e) (hclosed : e.isClosed = true) (name : String)
    (hargs : ∀ a ∈ args, Phrase a) : Phrase (.member e name args) := by
  refine of_suffixed fun {n us e'} hn hsuffixes => ?_
  rw [height] at hn
  have hitems : Items (ExpressionOf (Operand n)) (itemTokens args) args := items hargs (by omega)
  have hall := he.suffixed hclosed (by omega) (.memberCall hitems hsuffixes)
  simpa [tokens] using hall

theorem index (he : Phrase e) (hclosed : e.isClosed = true) (hplace : Phrase place) :
    Phrase (.index e place) := by
  refine of_suffixed fun {n us e'} hn hsuffixes => ?_
  rw [height] at hn
  have hinner : ExpressionOf (Operand n) place.tokens place := hplace.expression (by omega)
  have hall := he.suffixed hclosed (by omega) (.index hinner hsuffixes)
  simpa [tokens] using hall

end Phrase

mutual
/-- **The tokens of a printable expression are a phrase that means it.** -/
theorem phrase : ∀ e : Expr, e.isPrintable = true → Phrase e
  | number x, _ => .of_primary fun _ => .number x
  | string s, _ => .of_primary fun _ => .string s
  | template parts, _ => .of_primary fun _ => .template parts
  | boolean true, _ => .of_primary fun _ => .trueWord
  | boolean false, _ => .of_primary fun _ => .falseWord
  | .none, _ => .of_primary fun _ => .noneWord
  | var name, _ => .of_primary fun _ => .var name
  | list items, hp => .list (phrases items hp)
  | range start stop .none, hp => by
    simp only [isPrintable, Bool.and_eq_true, Bool.not_eq_true'] at hp
    obtain ⟨⟨⟨hstart, hstop⟩, hstartPrintable⟩, hstopPrintable⟩ := hp
    exact .between (phrase start hstartPrintable) (phrase stop hstopPrintable) hstart hstop
  | range start stop (.some step), hp => by
    simp only [isPrintable, Bool.and_eq_true, Bool.not_eq_true'] at hp
    obtain ⟨⟨⟨⟨⟨hstart, hstop⟩, hstep⟩, hstartPrintable⟩, hstopPrintable⟩, hstepPrintable⟩ := hp
    exact .stepped (phrase start hstartPrintable) (phrase stop hstopPrintable)
      (phrase step hstepPrintable) hstart hstop hstep
  | binary op left right, hp => by
    simp only [isPrintable, Bool.and_eq_true] at hp
    obtain ⟨⟨⟨harithmetic, hpower⟩, hleft⟩, hright⟩ := hp
    refine .binary (phrase left hleft) (phrase right hright) ?_ ?_
    · intro hop
      simpa [hop] using harithmetic
    · rintro rfl
      simpa using hpower
  | unary op operand, hp => by
    simp only [isPrintable, Bool.and_eq_true, Bool.not_eq_true'] at hp
    exact .unary op (phrase operand hp.2) hp.1
  | call callee args, hp => by
    simp only [isPrintable, Bool.and_eq_true] at hp
    obtain ⟨⟨hclosed, hcallee⟩, hargs⟩ := hp
    exact .call (phrase callee hcallee) hclosed (phrases args hargs)
  | member receiver name args, hp => by
    simp only [isPrintable, Bool.and_eq_true] at hp
    obtain ⟨⟨⟨hmembers, -⟩, hreceiver⟩, hargs⟩ := hp
    exact .member (phrase receiver hreceiver) (isClosed_of_hasMembers hmembers) name
      (phrases args hargs)
  | index target place, hp => by
    simp only [isPrintable, Bool.and_eq_true] at hp
    obtain ⟨⟨hclosed, htarget⟩, hplace⟩ := hp
    exact .index (phrase target htarget) hclosed (phrase place hplace)

theorem phrases : ∀ es : List Expr, arePrintable es = true → ∀ e ∈ es, Phrase e
  | [], _ => List.forall_mem_nil _
  | e :: es, hp => by
    simp only [arePrintable, Bool.and_eq_true] at hp
    exact List.forall_mem_cons.2 ⟨phrase e hp.1, phrases es hp.2⟩
end

end Grammar

namespace Token

/-- Where no line ends, nothing is dropped. -/
theorem dropGrouped_of_ordinary : ∀ {n : Nat} {ts : List Token},
    (∀ t ∈ ts, t.isOrdinary = true) → dropGrouped n ts = ts
  | _, [], _ => rfl
  | n, t :: ts, h => by
    obtain ⟨ht, hts⟩ := List.forall_mem_cons.1 h
    have hline : t.isNewline = false := by
      simp only [isOrdinary, isSeparator, Bool.and_eq_true, Bool.not_eq_true',
        Bool.or_eq_false_iff] at ht
      exact ht.1.1.1
    rw [dropGrouped, hline, Bool.false_and, if_neg Bool.false_ne_true, dropGrouped_of_ordinary hts]

end Token

namespace Parser

open Grammar

/-- A text is read as what its tokens are a phrase of. -/
theorem parseExpr_of_lexed {source : String} {ts : List Token} {e : Expr}
    (hlex : Lexed source.toList ts) (hphrase : Expression ts e) : parseExpr source = .ok e := by
  have hordinary := (proper_operand maxDepth).expressionOf.ordinary hphrase
  refine parseExpr_of_phrase (hlex (.start _) rfl) ?_
  have hlast := rdropWhile_phrase hordinary (List.forall_mem_nil _)
  rw [List.append_nil] at hlast
  rw [Token.significant, List.dropLast_concat, Token.dropGrouped_of_ordinary hordinary, hlast]
  exact hphrase

/-- **A printable expression is read back from its text**, if there are more than twice as many
levels as it is high and the numbers in it are read back from theirs. -/
theorem parseExpr_text (e : Expr) (hheight : 2 * e.height < maxDepth)
    (hprintable : e.isPrintable = true) (hnumbers : ∀ x ∈ e.numbers, Number.ReadsBack x) :
    parseExpr e.text = .ok e := by
  have hphrase : Expression e.tokens e := (phrase e hprintable).expression hheight
  have hlex : Lexed e.text.toList e.tokens := by
    simpa using (e.spelt hprintable hnumbers).apart rfl lexed_nil
  exact parseExpr_of_lexed hlex hphrase

/-- A comparison with a range before and a member of a list behind, and a power of a sign. -/
def sampleExpr : Expr :=
  .binary .less (.range (.number 1.5) (.unary .negate (.var "x")) (some (.number 2)))
    (.index
      (.member (.list [.string "it", .template [.literal "a ", .hole "b", .literal "."]]) "get"
        [.boolean true, .none])
      (.binary .power (.call (.var "y") []) (.unary .not (.number 0.1))))

theorem parseExpr_text_sampleExpr :
    sampleExpr.text = "(1.5..-x..2 < ['it', \"a $b.\"].get(true, none)[(y() ^ !0.1)])"
      ∧ parseExpr sampleExpr.text = .ok sampleExpr :=
  ⟨by decide +kernel, parseExpr_text sampleExpr (by decide +kernel) (by decide +kernel)
    (by decide +kernel)⟩

end Parser

end CommandScript
