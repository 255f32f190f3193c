/-!
# Source/Cursor — places and stretches of source text

A span is a stretch of text. Its offsets count characters from zero; line and column count from one and
name the first character. The stretch that was never set is all zeros.

A cursor is the text that lies ahead and the place where it starts. `skip` moves it over characters;
every span of the language is the stretch between two cursors (`Cursor.spanTo`), so line and column
are counted in one place only, `Cursor.step`.
-/

namespace CommandScript

/-- A stretch of source text: the characters `start ≤ i < stop`, and where the first one stands. -/
structure Span where
  start : Nat
  stop : Nat
  line : Nat
  column : Nat
deriving DecidableEq

namespace Span

/-- The span of something that stands nowhere in the source. -/
def unset : Span := ⟨0, 0, 0, 0⟩

/-- Number of characters. -/
def length (s : Span) : Nat := s.stop - s.start

/-- `line:column`, as messages name a place. -/
def text (s : Span) : String := toString s.line ++ ":" ++ toString s.column

end Span

/-- A place in a source text, with the text from there on. -/
structure Cursor where
  rest : List Char
  offset : Nat
  line : Nat
  column : Nat
deriving DecidableEq

namespace Cursor

/-- The start of a text. -/
def start (source : List Char) : Cursor := ⟨source, 0, 1, 1⟩

/-- The place where a span of the text starts. -/
def atSpan (source : List Char) (span : Span) : Cursor :=
  ⟨source.drop span.start, span.start, span.line, span.column⟩

/-- Move over one character. A line feed starts the next line. -/
def step (c : Cursor) : Cursor :=
  match c.rest with
  | [] => c
  | ch :: rest =>
    if ch = '\n' then ⟨rest, c.offset + 1, c.line + 1, 1⟩
    else ⟨rest, c.offset + 1, c.line, c.column + 1⟩

/-- Move over `n` characters. -/
def skip : Nat → Cursor → Cursor
  | 0, c => c
  | n + 1, c => skip n c.step

/-- The stretch from one cursor to a later one. -/
def spanTo (c d : Cursor) : Span := ⟨c.offset, d.offset, c.line, c.column⟩

/-- The empty stretch at a cursor. -/
def here (c : Cursor) : Span := c.spanTo c

@[simp] theorem skip_zero (c : Cursor) : c.skip 0 = c := rfl

@[simp] theorem skip_succ (n : Nat) (c : Cursor) : c.skip (n + 1) = c.step.skip n := rfl

/-- **Skipping twice is skipping the sum.** -/
theorem skip_add : ∀ (m n : Nat) (c : Cursor), c.skip (m + n) = (c.skip m).skip n
  | 0, n, c => by simp
  | m + 1, n, c => by
    rw [Nat.add_right_comm]
    exact skip_add m n c.step

theorem rest_step (c : Cursor) : c.step.rest = c.rest.drop 1 := by
  unfold step
  split
  · simp [*]
  · split <;> simp [*]

theorem rest_skip : ∀ (n : Nat) (c : Cursor), (c.skip n).rest = c.rest.drop n
  | 0, c => rfl
  | n + 1, c => by
    rw [skip_succ, rest_skip n, rest_step, List.drop_drop, Nat.add_comm]

end Cursor

end CommandScript
