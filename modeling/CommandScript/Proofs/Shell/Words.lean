import CommandScript.Proofs.Shell.PlainLine
import CommandScript.Proofs.Token.Names
import CommandScript.Proofs.Token.Tiling

/-!
# Proofs/Shell/Words — command lines lose nothing

The words of a command line lie in the text one behind the other, with blanks between them, and
behind the last one at most a comment up to the token that ends the line (`Source.WordsAt`). Each
word is the text it was read from: its parts, written out with every name as `$name` or `${name}`,
are the characters of its span (`Part.Spells`). The scanner may have accounted for some of the
characters ahead (an escaped one, a name), so what it knows of the word is about the rest of them
(`Scan.Taken`).
-/

namespace CommandScript

namespace Part

/-- The characters are the parts written out, literals as they are and names behind a dollar sign,
perhaps in braces. -/
inductive Spells : List Part → List Char → Prop
  | nil : Spells [] []
  | literal {parts : List Part} {cs : List Char} (s : String) : Spells parts cs →
    Spells (literal s :: parts) (s.toList ++ cs)
  | hole {parts : List Part} {cs : List Char} (name : String) : Spells parts cs →
    Spells (hole name :: parts) ('$' :: (name.toList ++ cs))
  | braced {parts : List Part} {cs : List Char} (name : String) : Spells parts cs →
    Spells (hole name :: parts) ('$' :: '\x7b' :: (name.toList ++ '\x7d' :: cs))

/-- Whether the part is literal text. -/
def isLiteral : Part → Bool
  | literal _ => true
  | hole _ => false

/-- No literal is empty, and no two of them adjoin. -/
structure Tight (parts : List Part) : Prop where
  nonempty : literal "" ∉ parts
  apart : parts.IsChain fun a b => a.isLiteral = false ∨ b.isLiteral = false

variable {parts : List Part} {cs : List Char}

theorem spells_cons (c : Char) (h : Spells parts cs) : Spells (cons c parts) (c :: cs) := by
  have hsingle : Spells (.literal (String.ofList [c]) :: parts) (c :: cs) := by
    simpa using Spells.literal (String.ofList [c]) h
  cases h with
  | nil => exact hsingle
  | @literal _ cs s h =>
    have hlonger := Spells.literal (String.ofList (c :: s.toList)) h
    rw [String.toList_ofList] at hlonger
    exact hlonger
  | hole => exact hsingle
  | braced => exact hsingle

theorem Spells.ne_nil (h : Spells parts cs) (hcs : cs ≠ []) : parts ≠ [] := by
  rintro rfl
  cases h
  exact hcs rfl

theorem tight_nil : Tight [] := ⟨List.not_mem_nil, .nil⟩

theorem Tight.hole (name : String) (h : Tight parts) : Tight (.hole name :: parts) where
  nonempty := by simpa using h.nonempty
  apart := by
    cases parts with
    | nil => exact .singleton _
    | cons => exact .cons_cons (.inl rfl) h.apart

/-- A character in front makes a literal longer or a new one. -/
theorem Tight.cons (c : Char) (h : Tight parts) : Tight (cons c parts) := by
  rcases parts with _ | ⟨⟨s⟩ | ⟨name⟩, parts⟩
  · exact ⟨by simp [Part.cons], .singleton _⟩
  · obtain ⟨hnonempty, hapart⟩ := h
    have hrest : literal "" ∉ parts := fun hmem => hnonempty (List.mem_cons_of_mem _ hmem)
    refine ⟨by simpa [Part.cons] using hrest, ?_⟩
    cases hapart with
    | singleton => exact .singleton _
    | cons_cons hfirst hapart => exact .cons_cons hfirst hapart
  · exact ⟨by simpa [Part.cons] using h.nonempty, .cons_cons (.inr rfl) h.apart⟩

end Part

/-! ## One word -/

namespace Scan

variable {inBlock : Bool} {quote : Option OpenQuote} {c : Char} {cs : List Char}
  {parts : List Part} {k n : Nat}

/-- The parts are what is written in the first `n` characters behind the first `k` of them. -/
structure Taken (k : Nat) (cs : List Char) (parts : List Part) (n : Nat) : Prop where
  skips : k ≤ n
  within : n ≤ cs.length
  spells : Part.Spells parts ((cs.take n).drop k)
  tight : Part.Tight parts
  named : Part.Named parts

theorem taken_nothing (cs : List Char) : Taken 0 cs [] 0 :=
  ⟨Nat.le_refl 0, Nat.zero_le _, .nil, Part.tight_nil, Part.named_nil⟩

theorem taken_cons_iff : Taken (k + 1) (c :: cs) parts (n + 1) ↔ Taken k cs parts n :=
  ⟨fun ⟨hskips, hwithin, hspells, htight, hnamed⟩ =>
      ⟨Nat.le_of_succ_le_succ hskips, Nat.le_of_succ_le_succ hwithin, hspells, htight, hnamed⟩,
    fun ⟨hskips, hwithin, hspells, htight, hnamed⟩ =>
      ⟨Nat.succ_le_succ hskips, Nat.succ_le_succ hwithin, hspells, htight, hnamed⟩⟩

theorem Taken.char (c : Char) (h : Taken 0 cs parts n) :
    Taken 0 (c :: cs) (Part.cons c parts) (n + 1) where
  skips := Nat.zero_le _
  within := Nat.succ_le_succ h.within
  spells := Part.spells_cons c h.spells
  tight := h.tight.cons c
  named := h.named.cons c

/-- A backslash and the character behind it are both part of the word. -/
theorem Taken.escape {next : Char} (c : Char) (hnext : cs.head? = some next)
    (h : Taken 1 cs parts n) :
    Taken 0 (c :: cs) (Part.cons c (Part.cons next parts)) (n + 1) := by
  obtain ⟨rest, rfl⟩ := List.head?_eq_some_iff.1 hnext
  cases n with
  | zero => exact absurd h.skips (by decide)
  | succ n => exact ((taken_cons_iff.1 h).char next).char c

theorem Taken.hole {name : String} {width : Nat} (hhole : holeAt? cs = some (name, width))
    (h : Taken (width - 1) cs parts n) : Taken 0 ('$' :: cs) (.hole name :: parts) (n + 1) where
  skips := Nat.zero_le _
  within := Nat.succ_le_succ h.within
  spells := by
    have hsplit : cs.take n = cs.take (width - 1) ++ (cs.take n).drop (width - 1) := by
      conv => lhs; rw [← List.take_append_drop (width - 1) (cs.take n), List.take_take,
        Nat.min_eq_left h.skips]
    have hspells := h.spells
    rw [List.take_succ_cons, List.drop_zero, hsplit]
    generalize (cs.take n).drop (width - 1) = text at hspells
    obtain ⟨rest, rfl, rfl⟩ | ⟨rest, rfl, rfl⟩ := (holeAt?_cases hhole).2
    · simpa using Part.Spells.hole name hspells
    · have htake : ('\x7b' :: (name.toList ++ '\x7d' :: rest)).take (name.toList.length + 3 - 1)
          = '\x7b' :: (name.toList ++ ['\x7d']) := by
        rw [Nat.add_sub_assoc (by decide), List.take_succ_cons]
        exact congrArg _ (List.take_length_add_append 1)
      rw [htake]
      simpa using Part.Spells.braced name hspells
  tight := h.tight.hole name
  named := h.named.hole (isName_of_holeAt? hhole)

/-- A step that adds to the word behind it. -/
theorem exists_of_step (f : List Part → List Part) {r : Except Nat (List Part × Nat)}
    (h : (do let (parts, n) ← r; return (f parts, n + 1)) = .ok (parts, n)) :
    ∃ parts' m, r = .ok (parts', m) ∧ parts = f parts' ∧ n = m + 1 := by
  cases r with
  | error e => nomatch h
  | ok r =>
    obtain ⟨rfl, rfl⟩ := Prod.mk.inj (Except.ok.inj h)
    exact ⟨r.1, r.2, rfl, rfl, rfl⟩

/-- A word is what it was read from. -/
theorem taken_of_wordFrom : ∀ {quote : Option OpenQuote} {position k : Nat} {cs : List Char}
    {parts : List Part} {n : Nat}, k ≤ cs.length →
    wordFrom inBlock quote position k cs = .ok (parts, n) → Taken k cs parts n
  | none, _, k, [], _, _, hk, h => by
    obtain rfl := Nat.le_zero.1 hk
    obtain ⟨rfl, rfl⟩ := Prod.mk.inj (Except.ok.inj h)
    exact taken_nothing []
  | some q, _, _, [], _, _, _, h => nomatch h
  | quote, position, k + 1, c :: cs, parts, n, hk, h => by
    rw [wordFrom] at h
    obtain ⟨_, _, hrest, rfl, rfl⟩ := exists_of_step id h
    exact taken_cons_iff.2 (taken_of_wordFrom (Nat.le_of_succ_le_succ hk) hrest)
  | quote, position, 0, c :: cs, parts, n, _, h => by
    rw [wordFrom] at h
    split at h
    · obtain ⟨rfl, rfl⟩ := Prod.mk.inj (Except.ok.inj h)
      exact taken_nothing _
    split at h
    · obtain ⟨_, _, hrest, rfl, rfl⟩ := exists_of_step (Part.cons c) h
      exact (taken_of_wordFrom (Nat.zero_le _) hrest).char c
    split at h
    · split at h
      · obtain ⟨_, _, hrest, rfl, rfl⟩ := exists_of_step (Part.cons c) h
        exact (taken_of_wordFrom (Nat.zero_le _) hrest).char c
      · next next hnext =>
        obtain ⟨_, _, hrest, rfl, rfl⟩ := exists_of_step (Part.cons c <| Part.cons next ·) h
        have hlength : 1 ≤ cs.length := by
          obtain ⟨rest, rfl⟩ := List.head?_eq_some_iff.1 hnext
          exact Nat.succ_pos _
        exact (taken_of_wordFrom hlength hrest).escape c hnext
    split at h
    · next hdollar =>
      subst hdollar
      split at h
      · next name width hhole =>
        obtain ⟨_, _, hrest, rfl, rfl⟩ := exists_of_step (.hole name :: ·) h
        exact (taken_of_wordFrom (holeAt?_chars hhole).1 hrest).hole hhole
      · obtain ⟨_, _, hrest, rfl, rfl⟩ := exists_of_step (Part.cons '$') h
        exact (taken_of_wordFrom (Nat.zero_le _) hrest).char '$'
    · obtain ⟨_, _, hrest, rfl, rfl⟩ := exists_of_step (Part.cons c) h
      exact (taken_of_wordFrom (Nat.zero_le _) hrest).char c

theorem Taken.ne_nil (h : Taken 0 cs parts n) (hn : 0 < n) : parts ≠ [] := by
  refine h.spells.ne_nil ?_
  rw [List.drop_zero, ← List.length_pos_iff, List.length_take]
  exact Nat.lt_min.2 ⟨hn, Nat.lt_of_lt_of_le hn h.within⟩

/-- A character that does not end a word starts one. -/
theorem wordFrom_pos {position : Nat} (hc : endsWord inBlock c = false)
    (h : wordFrom inBlock none position 0 (c :: cs) = .ok (parts, n)) : 0 < n := by
  have hstep (f : List Part → List Part) (r : Except Nat (List Part × Nat))
      (h : (do let (parts, n) ← r; return (f parts, n + 1)) = .ok (parts, n)) : 0 < n := by
    obtain ⟨_, _, -, -, rfl⟩ := exists_of_step f h
    exact Nat.succ_pos _
  rw [wordFrom, hc] at h
  split at h
  · contradiction
  split at h
  · exact hstep (Part.cons c) _ h
  split at h
  · split at h
    · exact hstep (Part.cons c) _ h
    · next next _ => exact hstep (Part.cons c <| Part.cons next ·) _ h
  split at h
  · split at h
    · next name _ _ => exact hstep (.hole name :: ·) _ h
    · exact hstep (Part.cons c) _ h
  · exact hstep (Part.cons c) _ h

theorem error_of_step (f : List Part → List Part) {r : Except Nat (List Part × Nat)} {m : Nat}
    (h : (do let (parts, n) ← r; return (f parts, n + 1)) = .error m) : r = .error m := by
  cases r with
  | error e => exact h
  | ok r => cases h

/-- A word fails at a quote that is open already, or at one in it. -/
theorem quote_of_wordFrom : ∀ {quote : Option OpenQuote} {position k : Nat} {cs : List Char}
    {m : Nat}, wordFrom inBlock quote position k cs = .error m →
    quote.isSome = true ∨ ∃ ch ∈ cs, isQuoting none ch = true
  | none, _, _, [], _, h => by cases h
  | some q, _, _, [], _, _ => .inl rfl
  | quote, position, k + 1, c :: cs, m, h => by
    rw [wordFrom] at h
    exact (quote_of_wordFrom (error_of_step id h)).imp_right List.exists_mem_cons_of_exists
  | quote, position, 0, c :: cs, m, h => by
    -- behind a character that is no quote, the same one is open
    have hstep {k : Nat} (h : wordFrom inBlock quote (position + 1) k cs = .error m) :
        quote.isSome = true ∨ ∃ ch ∈ c :: cs, isQuoting none ch = true :=
      (quote_of_wordFrom h).imp_right List.exists_mem_cons_of_exists
    rw [wordFrom] at h
    split at h
    · cases h
    split at h
    · next hquoting =>
      cases quote with
      | some q => exact .inl rfl
      | none => exact .inr ⟨c, List.mem_cons_self, hquoting⟩
    split at h
    · split at h
      · exact hstep (error_of_step (Part.cons c) h)
      · next next _ => exact hstep (error_of_step (Part.cons c <| Part.cons next ·) h)
    split at h
    · split at h
      · next name _ _ => exact hstep (error_of_step (.hole name :: ·) h)
      · exact hstep (error_of_step (Part.cons c) h)
    · exact hstep (error_of_step (Part.cons c) h)

end Scan

/-! ## A line -/

namespace Source

/-- The characters of a span. -/
def slice (source : List Char) (span : Span) : List Char :=
  (source.drop span.start).take span.length

/-- Between the two offsets there are only blanks. -/
structure Blanks (source : List Char) (first last : Nat) : Prop where
  ordered : first ≤ last
  blank : ∀ i, first ≤ i → i < last → ∃ ch, source[i]? = some ch ∧ Text.isBlank ch = true

/-- A word with the given parts, written in the characters of its span. -/
structure WordAt (source : List Char) (w : Located) (parts : List Part) : Prop where
  token : w.token = .word parts
  nonempty : parts ≠ []
  tight : Part.Tight parts
  takes : w.span.start < w.span.stop
  within : w.span.stop ≤ source.length
  spells : Part.Spells parts (slice source w.span)

/-- From the first offset to the last the text consists of the words, with blanks before each of
them and behind the last one perhaps a comment. -/
inductive WordsAt (source : List Char) : Nat → List Located → Nat → Prop
  | done {first last : Nat} : first ≤ last → Gap source first last → WordsAt source first [] last
  | word {first last : Nat} {w : Located} {parts : List Part} {ws : List Located} :
    Blanks source first w.span.start → WordAt source w parts →
    WordsAt source w.span.stop ws last → WordsAt source first (w :: ws) last

end Source

namespace Cursor

variable {source : List Char} {c e : Cursor} {inBlock : Bool} {words : List Located}

theorem In.blanks_pastBlanks (h : c.In source) :
    Source.Blanks source c.offset c.pastBlanks.offset := by
  have hlength : (c.rest.takeWhile Text.isBlank).length ≤ c.rest.length :=
    (List.takeWhile_prefix _).length_le
  have hoffset : c.pastBlanks.offset = c.offset + (c.rest.takeWhile Text.isBlank).length := by
    have := h.length_rest
    rw [pastBlanks, h.offset_skip]
    omega
  rw [hoffset]
  refine ⟨Nat.le_add_right _ _, fun i hi hlt => ?_⟩
  obtain ⟨j, rfl⟩ := Nat.exists_eq_add_of_le hi
  have hj : j < (c.rest.takeWhile Text.isBlank).length := by omega
  have hget : source[c.offset + j]? = (c.rest.takeWhile Text.isBlank)[j]? := by
    rw [← List.getElem?_drop, ← h.rest]
    conv => lhs; rw [← Scan.take_length_takeWhile Text.isBlank c.rest]
    exact List.getElem?_append_left hj
  rw [hget, List.getElem?_eq_getElem hj]
  exact ⟨_, rfl, List.mem_takeWhile_imp (List.getElem_mem hj)⟩

/-- Where the text ends, or a line feed stands, or in a block a closing brace, the next token ends
the line. -/
theorem next_of_lineEnd (h : (c.toToken false).rest = []
      ∨ (c.toToken false).rest.head? = some '\n'
      ∨ inBlock = true ∧ (c.toToken false).rest.head? = some '\x7d') :
    ∃ t d, c.next false = .ok (t, d) ∧ endsLine inBlock t.token = true := by
  obtain ⟨tok, n, hscan, htok⟩ : ∃ tok n, Token.scan (c.toToken false).rest = .ok (tok, n)
      ∧ endsLine inBlock tok = true := by
    obtain hnil | hline | ⟨rfl, hbrace⟩ := h
    · exact ⟨.endOfInput, 0, by rw [hnil]; rfl, rfl⟩
    · obtain ⟨rest, hrest⟩ := List.head?_eq_some_iff.1 hline
      exact ⟨.newline, 1, by rw [hrest]; rfl, rfl⟩
    · obtain ⟨rest, hrest⟩ := List.head?_eq_some_iff.1 hbrace
      exact ⟨.symbol .rightBrace, 1, by rw [hrest]; rfl, rfl⟩
  exact ⟨⟨tok, _⟩, _, next_eq_ok_iff.2 ⟨n, hscan, rfl, rfl⟩, htok⟩

/-- Reading words ends at the next token, which ends the line, or finds a word. -/
theorem wordsFrom_cases {n : Nat} (h : wordsFrom inBlock (n + 1) c = .ok (words, e)) :
    (words = [] ∧ e = c.toToken false
        ∧ ∃ t d, c.next false = .ok (t, d) ∧ endsLine inBlock t.token = true)
      ∨ ∃ parts width rest, 0 < width
        ∧ Scan.wordFrom inBlock none 0 0 c.pastBlanks.rest = .ok (parts, width)
        ∧ words = ⟨.word parts, c.pastBlanks.spanTo (c.pastBlanks.skip width)⟩ :: rest
        ∧ wordsFrom inBlock n (c.pastBlanks.skip width) = .ok (rest, e) := by
  rw [wordsFrom_succ] at h
  cases hrest : c.pastBlanks.rest with
  | nil =>
    rw [hrest] at h
    obtain ⟨rfl, rfl⟩ := Prod.mk.inj (Except.ok.inj h)
    have hplace : c.toToken false = c.pastBlanks := toToken_eq_pastBlanks (by simp [hrest])
    exact .inl ⟨rfl, hplace.symm, next_of_lineEnd (.inl (by rw [hplace, hrest]))⟩
  | cons ch rest =>
    rw [hrest] at h
    dsimp only at h
    split at h
    · next hcomment =>
      subst hcomment
      obtain ⟨rfl, rfl⟩ := Prod.mk.inj (Except.ok.inj h)
      refine .inl ⟨rfl, toToken_pastBlanks c, next_of_lineEnd ?_⟩
      rw [← toToken_pastBlanks, toToken, rest_skip, hrest]
      exact (Scan.trivia_comment rest).imp_right .inl
    next hcomment =>
    have hplace : c.toToken false = c.pastBlanks :=
      toToken_eq_pastBlanks (by simpa [hrest] using hcomment)
    have hblank : Text.isBlank ch = false := by
      have := List.head?_dropWhile_not Text.isBlank c.rest
      rw [← rest_pastBlanks, hrest] at this
      simpa using this
    split at h
    · next hends =>
      obtain ⟨rfl, rfl⟩ := Prod.mk.inj (Except.ok.inj h)
      refine .inl ⟨rfl, hplace.symm, next_of_lineEnd (.inr ?_)⟩
      rw [hplace, hrest, List.head?_cons]
      simpa [Scan.endsWord, hblank] using hends
    · next hends =>
      split at h
      · cases h
      · next parts width hword =>
        cases hmore : wordsFrom inBlock n (c.pastBlanks.skip width) with
        | error err =>
          rw [hmore] at h
          cases h
        | ok r =>
          rw [hmore] at h
          obtain ⟨rfl, rfl⟩ := Prod.mk.inj (Except.ok.inj h)
          exact .inr ⟨parts, width, r.1, Scan.wordFrom_pos (by simpa using hends) hword,
            hword, rfl, hmore⟩

/-- The only fault of a command line is a quote in it that is never closed. -/
theorem openQuote_of_wordsFrom : ∀ {n : Nat} {c : Cursor} {err : Error},
    c.wordsFrom inBlock n = .error err →
      (∃ ch ∈ c.rest, Scan.isQuoting none ch = true) ∧ ∃ place, err = .lex .openQuote place
  | 0, _, _, h => by cases h
  | n + 1, c, err, h => by
    have hahead (k : Nat) {ch : Char} (hmem : ch ∈ (c.pastBlanks.skip k).rest) : ch ∈ c.rest := by
      rw [rest_skip, pastBlanks, rest_skip] at hmem
      exact List.mem_of_mem_drop (List.mem_of_mem_drop hmem)
    rw [wordsFrom_succ] at h
    split at h
    · cases h
    split at h
    · cases h
    split at h
    · cases h
    split at h
    · next hword =>
      obtain hopen | ⟨ch, hmem, hch⟩ := Scan.quote_of_wordFrom hword
      · cases hopen
      · exact ⟨⟨ch, hahead 0 hmem, hch⟩, _, (Except.error.inj h).symm⟩
    · next parts width _ =>
      dsimp only at h
      cases hmore : (c.pastBlanks.skip width).wordsFrom inBlock n with
      | ok r =>
        rw [hmore] at h
        cases h
      | error fault =>
        rw [hmore] at h
        cases h
        obtain ⟨⟨ch, hmem, hch⟩, hplace⟩ := openQuote_of_wordsFrom hmore
        exact ⟨⟨ch, hahead width hmem, hch⟩, hplace⟩

/-- What was taken from the text at a cursor is a word there. -/
theorem In.wordAt (h : c.In source) {parts : List Part} {width : Nat} (hpos : 0 < width)
    (htaken : Scan.Taken 0 c.rest parts width) :
    Source.WordAt source ⟨.word parts, c.spanTo (c.skip width)⟩ parts := by
  have hwithin := htaken.within
  have hlength := h.length_rest
  have hstop : (c.skip width).offset = c.offset + width := by
    rw [h.offset_skip]
    omega
  have hslice : Source.slice source (c.spanTo (c.skip width)) = c.rest.take width := by
    rw [Source.slice, Span.length, spanTo, hstop, Nat.add_sub_cancel_left, ← h.rest]
  refine ⟨rfl, htaken.ne_nil hpos, htaken.tight, ?_, ?_, by rw [hslice]; exact htaken.spells⟩
  · change c.offset < (c.skip width).offset
    omega
  · exact (h.skip width).offset_le

/-- Every word takes a character, so reading words ends before it runs out of rounds, at a token
that ends the line. -/
theorem In.wordsAt_wordsFrom : ∀ {n : Nat} {c : Cursor} {words : List Located}, c.In source →
    c.rest.length < n → wordsFrom inBlock n c = .ok (words, e) →
    e.In source ∧ Source.WordsAt source c.offset words e.offset
      ∧ ∃ t d, e.next false = .ok (t, d) ∧ t.span.start = e.offset
        ∧ endsLine inBlock t.token = true
  | 0, _, _, _, hn, _ => absurd hn (Nat.not_lt_zero _)
  | n + 1, c, words, hc, hn, h => by
    obtain ⟨rfl, rfl, t, d, hnext, ht⟩ | ⟨parts, width, rest, hpos, hword, rfl, hmore⟩ :=
      wordsFrom_cases h
    · have hle : c.offset ≤ (c.toToken false).offset := by
        rw [hc.offset_toToken]
        exact Nat.le_add_right _ _
      refine ⟨hc.skip _, .done hle hc.gap_toToken, t, d, (next_toToken _ _).trans hnext, ?_, ht⟩
      obtain ⟨_, -, -, hspan⟩ := next_eq_ok_iff.1 hnext
      rw [hspan]
      rfl
    · have htaken := Scan.taken_of_wordFrom (Nat.zero_le _) hword
      have hplace : c.pastBlanks.In source := hc.skip _
      have hshort : (c.pastBlanks.skip width).rest.length < n := by
        have hlong : c.pastBlanks.rest.length ≤ c.rest.length := by
          rw [pastBlanks, rest_skip, List.length_drop]
          exact Nat.sub_le _ _
        have := htaken.within
        rw [rest_skip, List.length_drop]
        omega
      obtain ⟨hin, hwords, hend⟩ := In.wordsAt_wordsFrom (hplace.skip width) hshort hmore
      exact ⟨hin, .word hc.blanks_pastBlanks (hplace.wordAt hpos htaken) hwords, hend⟩

/-- **Reading a command line loses nothing.** Wherever in a text it is read, inside a block or not,
the words found are written in their spans, part by part, with only blanks before them; behind the
last one there are only blanks and perhaps a comment, and then comes the end of the line, of the
text, or, inside a block, its closing brace. -/
theorem wordsAt_commandLine (source : List Char) (c e : Cursor) (inBlock : Bool)
    (words : List Located) (hc : c.In source) (h : c.commandLine inBlock = .ok (words, e)) :
    Source.WordsAt source c.offset words e.offset
      ∧ ∃ t d, e.next false = .ok (t, d) ∧ t.span.start = e.offset
        ∧ endsLine inBlock t.token = true :=
  (hc.wordsAt_wordsFrom (Nat.lt_succ_self _) h).2

/-- Behind the token `a` of `a $x# #` the word `$x#` follows, and then a comment. -/
theorem wordsAt_commandLine_name :
    Source.WordsAt ['a', ' ', '$', 'x', '#', ' ', '#'] 1
      [⟨.word [.hole "x", .literal "#"], ⟨2, 5, 1, 3⟩⟩] 7 :=
  (wordsAt_commandLine _ ((start ['a', ' ', '$', 'x', '#', ' ', '#']).skip 1) ⟨[], 7, 1, 8⟩ false _
    ((in_start _).skip 1) rfl).1

end Cursor

end CommandScript
