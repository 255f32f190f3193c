import CommandScript.Source.Cursor
import Mathlib.Data.List.DropRight

/-!
# Proofs/Source/Place — lines and columns

The line and the column of a character are functions of the text before it (`Source.lineAt`,
`Source.columnAt`). A cursor counts them up one character at a time; `Cursor.In source c` says that
the cursor stands in a text, with the right rest, line and column. The start of a text does, and
moving keeps it (`Cursor.In.skip`), whatever is moved over.
-/

namespace CommandScript

namespace Source

/-- One more than the number of line feeds before the character. -/
def lineAt (source : List Char) (offset : Nat) : Nat := 1 + (source.take offset).count '\n'

/-- One more than the number of characters since the last line feed before the character. -/
def columnAt (source : List Char) (offset : Nat) : Nat :=
  1 + ((source.take offset).rtakeWhile (· != '\n')).length

variable {source : List Char} {offset : Nat} {ch : Char}

theorem lineAt_succ (h : source[offset]? = some ch) :
    lineAt source (offset + 1) = lineAt source offset + if ch = '\n' then 1 else 0 := by
  rw [lineAt, lineAt, List.take_add_one, h, Option.toList_some, List.count_append,
    List.count_singleton, ← Nat.add_assoc]
  simp only [beq_iff_eq]

theorem columnAt_succ (h : source[offset]? = some ch) :
    columnAt source (offset + 1) = if ch = '\n' then 1 else columnAt source offset + 1 := by
  rw [columnAt, columnAt, List.take_add_one, h, Option.toList_some, List.rtakeWhile_concat]
  by_cases hch : ch = '\n'
  · simp [hch]
  · simp [hch, Nat.add_assoc]

end Source

/-- Line and column of a span are those of its first character. -/
def Span.Placed (source : List Char) (s : Span) : Prop :=
  s.line = Source.lineAt source s.start ∧ s.column = Source.columnAt source s.start

namespace Cursor

/-- The cursor stands in the text. -/
structure In (source : List Char) (c : Cursor) : Prop where
  rest : c.rest = source.drop c.offset
  offset_le : c.offset ≤ source.length
  line : c.line = Source.lineAt source c.offset
  column : c.column = Source.columnAt source c.offset

variable {source : List Char} {c : Cursor}

theorem in_start (source : List Char) : (start source).In source :=
  ⟨rfl, Nat.zero_le _, rfl, rfl⟩

/-- What is ahead of a cursor are the characters not yet passed. -/
theorem In.length_rest (h : c.In source) : c.offset + c.rest.length = source.length := by
  have := h.offset_le
  rw [h.rest, List.length_drop]
  omega

theorem In.step (h : c.In source) : c.step.In source := by
  unfold Cursor.step
  split
  · exact h
  · next ch rest hrest =>
    have hlength := h.length_rest
    rw [hrest, List.length_cons] at hlength
    have hdrop : source.drop c.offset = ch :: rest := h.rest.symm.trans hrest
    have hch : source[c.offset]? = some ch := by
      rw [← List.head?_drop, hdrop, List.head?_cons]
    have hahead : rest = source.drop (c.offset + 1) := by
      rw [← List.drop_drop, hdrop, List.drop_one, List.tail_cons]
    have hline := Source.lineAt_succ hch
    have hcolumn := Source.columnAt_succ hch
    split
    · next hfeed =>
      rw [if_pos hfeed, ← h.line] at hline
      rw [if_pos hfeed] at hcolumn
      exact ⟨hahead, by simp only; omega, hline.symm, hcolumn.symm⟩
    · next hfeed =>
      rw [if_neg hfeed, ← h.line] at hline
      rw [if_neg hfeed, ← h.column] at hcolumn
      exact ⟨hahead, by simp only; omega, hline.symm, hcolumn.symm⟩

/-- **Wherever a cursor is moved to, its line and column are right.** -/
theorem In.skip : ∀ (n : Nat) {c : Cursor}, c.In source → (c.skip n).In source
  | 0, _, h => h
  | n + 1, _, h => In.skip n h.step

/-- A cursor is moved as far as it is told to, at most to the end of the text. -/
theorem In.offset_skip (h : c.In source) (n : Nat) :
    (c.skip n).offset = min (c.offset + n) source.length := by
  have hbefore := h.length_rest
  have hafter := (h.skip n).length_rest
  rw [rest_skip, List.length_drop] at hafter
  omega

theorem In.placed_spanTo (h : c.In source) (d : Cursor) : (c.spanTo d).Placed source :=
  ⟨h.line, h.column⟩

/-- **Going back to the start of a span finds the cursor that was there.** -/
theorem In.atSpan_spanTo (h : c.In source) (d : Cursor) : atSpan source (c.spanTo d) = c := by
  obtain ⟨rest, offset, line, column⟩ := c
  exact congrArg (Cursor.mk · offset line column) h.rest.symm

end Cursor

end CommandScript
