import CommandScript.Proofs.Parser.Expression
import Mathlib.Algebra.BigOperators.Group.List.Basic
import Mathlib.Algebra.Order.Group.Int
import Mathlib.Algebra.Ring.Int.Defs

/-!
# Proofs/Parser/Brackets — the brackets of an expression

A token weighs `1` if it is an opening bracket and `-1` if it is a closing one; the balance of a
list of tokens, the sum of their weights, is how many more brackets it opens than it closes
(`Token.balance_eq`). The phrases of the grammar close what they open and hold no character without
meaning (`Token.Level`), and what a text has beside its phrase weighs nothing. So the tokens of a
text that is read as an expression are level (`Parser.level_of_parseExpr`).
-/

namespace CommandScript

namespace Token

/-- Whether the token is an opening bracket. -/
def isOpener : Token → Bool
  | symbol .leftParen | symbol .leftBracket | symbol .leftBrace => true
  | _ => false

/-- Whether the token is a closing bracket. -/
def isCloser : Token → Bool
  | symbol .rightParen | symbol .rightBracket | symbol .rightBrace => true
  | _ => false

/-- What the token adds to the number of open brackets. -/
def weight (t : Token) : Int := if t.isOpener then 1 else if t.isCloser then -1 else 0

/-- Opened less closed brackets. -/
def balance (ts : List Token) : Int := (ts.map weight).sum

@[simp] theorem balance_nil : balance [] = 0 := rfl

@[simp] theorem balance_cons (t : Token) (ts : List Token) :
    balance (t :: ts) = t.weight + balance ts := List.sum_cons

@[simp] theorem balance_append (ts us : List Token) :
    balance (ts ++ us) = balance ts + balance us := by
  rw [balance, List.map_append, List.sum_append, balance, balance]

theorem isCloser_of_isOpener {t : Token} (h : t.isOpener = true) : t.isCloser = false := by
  unfold isOpener at h
  split at h
  all_goals first | rfl | exact absurd h Bool.false_ne_true

/-- **The balance counts brackets.** -/
theorem balance_eq (ts : List Token) : balance ts = ts.countP isOpener - ts.countP isCloser := by
  induction ts with
  | nil => rfl
  | cons t ts ih =>
    rw [balance_cons, ih, weight, List.countP_cons, List.countP_cons]
    cases hopener : t.isOpener with
    | true =>
      simp only [isCloser_of_isOpener hopener, Bool.false_eq_true, if_true, if_false]
      omega
    | false =>
      cases t.isCloser <;> simp only [Bool.false_eq_true, if_true, if_false] <;> omega

/-- Whether the token is no bracket and not without meaning. -/
def isFlat : Token → Bool
  | stray _ => false
  | t => !t.isOpener && !t.isCloser

theorem weight_of_isFlat {t : Token} (h : t.isFlat = true) : t.weight = 0 := by
  unfold isFlat at h
  split at h
  · exact absurd h Bool.false_ne_true
  · simp only [Bool.and_eq_true, Bool.not_eq_true'] at h
    simp [weight, h]

/-- As many brackets are closed as are opened, and every token means something. -/
structure Level (ts : List Token) : Prop where
  balance_eq_zero : balance ts = 0
  stray_not_mem (c : Char) : stray c ∉ ts

namespace Level

variable {t opener closer : Token} {ts us vs : List Token}

theorem nil : Level [] := ⟨rfl, fun _ => List.not_mem_nil⟩

theorem append (hts : Level ts) (hus : Level us) : Level (ts ++ us) where
  balance_eq_zero := by rw [balance_append, hts.balance_eq_zero, hus.balance_eq_zero, add_zero]
  stray_not_mem c hmem :=
    (List.mem_append.1 hmem).elim (hts.stray_not_mem c) (hus.stray_not_mem c)

theorem cons (ht : t.isFlat = true) (hts : Level ts) : Level (t :: ts) where
  balance_eq_zero := by rw [balance_cons, weight_of_isFlat ht, hts.balance_eq_zero, add_zero]
  stray_not_mem c := by
    rw [List.mem_cons, not_or]
    refine ⟨?_, hts.stray_not_mem c⟩
    rintro rfl
    exact absurd ht Bool.false_ne_true

theorem of_isFlat (hts : ∀ t ∈ ts, t.isFlat = true) : Level ts := by
  induction ts with
  | nil => exact nil
  | cons t ts ih =>
    obtain ⟨ht, hts⟩ := List.forall_mem_cons.1 hts
    exact (ih hts).cons ht

/-- What stands in brackets, and what follows. -/
theorem group (hopener : opener.isOpener = true) (hcloser : closer.isCloser = true)
    (hus : Level us) (hvs : Level vs) : Level (opener :: (us ++ closer :: vs)) where
  balance_eq_zero := by
    have hboth : closer.isOpener = false := by
      cases h : closer.isOpener with
      | false => rfl
      | true => exact absurd (isCloser_of_isOpener h) (by simp [hcloser])
    simp [weight, hopener, hcloser, hboth, hus.balance_eq_zero, hvs.balance_eq_zero]
  stray_not_mem c hmem := by
    obtain rfl | hmem := List.mem_cons.1 hmem
    · exact absurd hopener Bool.false_ne_true
    obtain hmem | hmem := List.mem_append.1 hmem
    · exact hus.stray_not_mem c hmem
    obtain rfl | hmem := List.mem_cons.1 hmem
    · exact absurd hcloser Bool.false_ne_true
    · exact hvs.stray_not_mem c hmem

end Level

@[simp] theorem isFlat_binarySign (op : BinaryOp) : (symbol op.sign).isFlat = true := by
  cases op <;> rfl

@[simp] theorem isFlat_unarySign (op : UnaryOp) : (symbol op.sign).isFlat = true := by
  cases op <;> rfl

end Token

/-! ## Phrases -/

namespace Grammar

open Token (Level)

/-- The phrases of the language are level. -/
def Leveled {α : Type} (L : Lang α) : Prop := ∀ ⦃ts : List Token⦄ ⦃a : α⦄, L ts a → Level ts

variable {L inner deeper : Lang Expr} {ops : List BinaryOp}

theorem Leveled.chainFrom (hL : Leveled L) (left : Expr) : Leveled (ChainFrom ops L left) := by
  intro ts e h
  induction h with
  | stop => exact .nil
  | more _ hright _ ih => exact ((hL hright).append ih).cons (Token.isFlat_binarySign _)

theorem Leveled.chain (hL : Leveled L) : Leveled (Chain ops L) := by
  rintro _ _ ⟨hleft, hrest⟩
  exact (hL hleft).append (hL.chainFrom _ hrest)

theorem Leveled.rangeOf (hL : Leveled L) : Leveled (RangeOf L) := by
  rintro _ _ (h | ⟨hstart, hstop⟩ | ⟨hstart, hstop, hstep⟩)
  · exact hL h
  · exact (hL hstart).append ((hL hstop).cons rfl)
  · exact (hL hstart).append (((hL hstop).append ((hL hstep).cons rfl)).cons rfl)

theorem Leveled.expressionOf (hL : Leveled L) : Leveled (ExpressionOf L) :=
  hL.chain.chain.rangeOf.chain.chain.chain

theorem Leveled.items (hL : Leveled L) : Leveled (Items L) := by
  intro ts es h
  induction h with
  | none => exact .nil
  | last h => exact hL h
  | more h _ ih => exact (hL h).append (ih.cons rfl)

theorem Leveled.primary (hinner : Leveled inner) : Leveled (Primary inner) := by
  intro ts e h
  cases h with
  | group h => exact (hinner h).group rfl rfl .nil
  | list h => exact (hinner.items h).group rfl rfl .nil
  | _ => exact Level.nil.cons rfl

theorem Leveled.suffixesFrom (hinner : Leveled inner) (left : Expr) :
    Leveled (SuffixesFrom inner left) := by
  intro ts e h
  induction h with
  | stop => exact .nil
  | member _ _ ih => exact (ih.cons rfl).cons rfl
  | memberCall h _ ih => exact (((hinner.items h).group rfl rfl ih).cons rfl).cons rfl
  | index h _ ih => exact (hinner h).group rfl rfl ih
  | call h _ ih => exact (hinner.items h).group rfl rfl ih

theorem Leveled.suffixed (hinner : Leveled inner) : Leveled (Suffixed inner) := by
  rintro _ _ ⟨hprimary, hsuffixes⟩
  exact (hinner.primary hprimary).append (hinner.suffixesFrom _ hsuffixes)

theorem Leveled.operandOf (hinner : Leveled inner) (hdeeper : Leveled deeper) :
    Leveled (OperandOf inner deeper) := by
  rintro _ _ (h | h | ⟨h, hexponent⟩)
  · exact (hdeeper h).cons (Token.isFlat_unarySign _)
  · exact hinner.suffixed h
  · exact (hinner.suffixed h).append ((hdeeper hexponent).cons rfl)

theorem leveled_operand : ∀ levels : Nat, Leveled (Operand levels)
  | 0 => fun _ _ => False.elim
  | levels + 1 => (leveled_operand levels).expressionOf.operandOf (leveled_operand levels)

/-- **The phrases of the grammar are level.** -/
theorem leveled_expression : Leveled Expression := (leveled_operand maxDepth).expressionOf

end Grammar

/-! ## Texts -/

namespace Token

theorem isFlat_of_isNewline {t : Token} (h : t.isNewline = true) : t.isFlat = true := by
  unfold isNewline at h
  split at h
  · rfl
  · exact absurd h Bool.false_ne_true

theorem isFlat_of_isSeparator {t : Token} (h : t.isSeparator = true) : t.isFlat = true := by
  obtain h | h := (Bool.or_eq_true _ _).mp h
  · exact isFlat_of_isNewline h
  · rw [isSymbol_iff.1 h]
    rfl

/-- Ends of lines weigh nothing. -/
theorem balance_dropGrouped : ∀ (n : Nat) (ts : List Token),
    balance (dropGrouped n ts) = balance ts
  | _, [] => rfl
  | n, t :: ts => by
    rw [dropGrouped, balance_cons]
    split
    · next hgroup =>
      have hnewline : t.isNewline = true := (Bool.and_eq_true_iff.1 hgroup).1
      rw [weight_of_isFlat (isFlat_of_isNewline hnewline), zero_add]
      exact balance_dropGrouped n ts
    · rw [balance_cons, balance_dropGrouped]

theorem mem_dropGrouped {tok : Token} (htok : tok.isNewline = false) :
    ∀ (n : Nat) {ts : List Token}, tok ∈ ts → tok ∈ dropGrouped n ts
  | _, [], h => h
  | n, t :: ts, h => by
    rw [dropGrouped]
    obtain rfl | h := List.mem_cons.1 h
    · rw [htok]
      exact List.mem_cons_self
    · split
      · exact mem_dropGrouped htok n h
      · exact List.mem_cons_of_mem _ (mem_dropGrouped htok _ h)

theorem Level.of_dropGrouped {n : Nat} {ts : List Token} (h : Level (dropGrouped n ts)) :
    Level ts where
  balance_eq_zero := by
    rw [← balance_dropGrouped n]
    exact h.balance_eq_zero
  stray_not_mem c hmem := h.stray_not_mem c (mem_dropGrouped rfl n hmem)

end Token

/-- **The tokens of a text that is read as an expression are level.** -/
theorem Parser.level_of_parseExpr {source : String} {e : Expr} (h : parseExpr source = .ok e) :
    ∃ ts, (Cursor.start source.toList).Lexes ts ∧ Token.Level ts := by
  obtain ⟨all, hlex, hphrase⟩ := phrase_of_parseExpr h
  rw [Token.significant, List.dropLast_concat] at hphrase
  obtain ⟨separators, hsplit, hseparators⟩ := exists_separators (Token.dropGrouped 0 all)
  have hlevel : Token.Level (Token.dropGrouped 0 all) := by
    rw [hsplit]
    exact (Grammar.leveled_expression hphrase).append
      (.of_isFlat fun t ht => Token.isFlat_of_isSeparator (hseparators t ht))
  exact ⟨all, hlex, hlevel.of_dropGrouped⟩

end CommandScript
