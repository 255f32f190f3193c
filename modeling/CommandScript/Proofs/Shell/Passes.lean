import CommandScript.Proofs.Token.Scan
import CommandScript.Shell.Line

/-!
# Proofs/Shell/Passes — words of a command line over tokens

A command line is scanned by rules of its own: a word goes on to a blank, and inside quotes past any
character, where a backslash takes the next character with it. `Passes inBlock quote skip n cs` says
that a word being read takes the first `n` characters of the text and is then outside quotes. It
passes every token of an expression (`passes_of_scan`) but a raw string that ends in a backslash
which itself escapes: there the closing quote is taken with it (`endsEscaped`).
-/

namespace CommandScript

namespace Scan

/-- Whether a backslash at the end of the text is itself not escaped. -/
def endsEscaped : List Char → Bool
  | [] => false
  | [c] => c == '\\'
  | c :: next :: cs => if c = '\\' then endsEscaped cs else endsEscaped (next :: cs)

end Scan

/-- Whether a word of a command line goes on past the token: it does not end the line or a block, is
not without meaning and, if it is a raw string, ends where the quotes do. -/
def Token.fitsWord : Token → Bool
  | string text => !Scan.endsEscaped text.toList
  | newline | endOfInput | word _ | stray _ | symbol .rightBrace => false
  | _ => true

namespace Scan

/-- The word being read takes the next `n` characters, and is then outside quotes. -/
def Passes (inBlock : Bool) (quote : Option OpenQuote) (skip n : Nat) (cs : List Char) : Prop :=
  ∀ (position : Nat) (parts : List Part) (m : Nat),
    wordFrom inBlock none (position + n) 0 (cs.drop n) = .ok (parts, m) →
    ∃ parts', wordFrom inBlock quote position skip cs = .ok (parts', n + m)

section Passes

variable {inBlock : Bool} {quote : Option OpenQuote} {q : OpenQuote} {k n : Nat} {c : Char}
  {cs : List Char}

attribute [local simp] wordFrom

theorem passes_zero : Passes inBlock none 0 0 cs := fun position parts m h =>
  ⟨parts, by simpa using h⟩

/-- A character is passed if reading goes on behind it. -/
theorem Passes.step {quote' : Nat → Option OpenQuote} {k' : Nat} {f : List Part → List Part}
    (heq : ∀ position, wordFrom inBlock quote position k (c :: cs) =
      (do
        let (parts, n) ← wordFrom inBlock (quote' position) (position + 1) k' cs
        return (f parts, n + 1)))
    (h : ∀ position, Passes inBlock (quote' position) k' n cs) :
    Passes inBlock quote k (n + 1) (c :: cs) := by
  intro position parts m hrest
  rw [List.drop_succ_cons, show position + (n + 1) = position + 1 + n by omega] at hrest
  obtain ⟨parts', hparts⟩ := h position (position + 1) parts m hrest
  refine ⟨f parts', ?_⟩
  rw [heq, hparts]
  simp only [bind, Except.bind, pure, Except.pure]
  congr 2
  omega

/-- What is already accounted for is passed. -/
theorem Passes.skipped (h : Passes inBlock quote k n cs) :
    Passes inBlock quote (k + 1) (n + 1) (c :: cs) :=
  Passes.step (f := id) (fun position => by simp) fun _ => h

/-! ## Outside quotes -/

/-- Whether an unquoted character only adds to the word. -/
def isPlain (c : Char) : Bool :=
  !(Text.isBlank c || c == '\n' || c == '\x7d' || c == '\'' || c == '"' || c == '\\' || c == '$')

theorem wordFrom_plain (hc : isPlain c = true) (position : Nat) :
    wordFrom inBlock none position 0 (c :: cs) = (do
      let (parts, n) ← wordFrom inBlock none (position + 1) 0 cs
      return (Part.cons c parts, n + 1)) := by
  simp only [isPlain, Bool.not_eq_true', Bool.or_eq_false_iff, beq_eq_false_iff_ne] at hc
  obtain ⟨⟨⟨⟨⟨⟨hblank, hline⟩, hbrace⟩, hraw⟩, htemplate⟩, hslash⟩, hdollar⟩ := hc
  have hend : endsWord inBlock c = false := by simp [endsWord, hblank, hline, hbrace]
  have hquote : isQuoting none c = false := by simp [isQuoting, hraw, htemplate]
  rw [wordFrom]
  simp [hend, hquote, hslash, hdollar]

theorem Passes.plain (hc : isPlain c = true) (h : Passes inBlock none 0 n cs) :
    Passes inBlock none 0 (n + 1) (c :: cs) :=
  Passes.step (f := Part.cons c) (wordFrom_plain hc) fun _ => h

theorem passes_of_plain {rest : List Char} : ∀ {text : List Char},
    (∀ c ∈ text, isPlain c = true) → Passes inBlock none 0 text.length (text ++ rest)
  | [], _ => passes_zero
  | _ :: _, h => by
    obtain ⟨hc, hcs⟩ := List.forall_mem_cons.1 h
    exact (passes_of_plain hcs).plain hc

/-! ## Inside quotes -/

theorem Passes.open (hc : c = '\'' ∨ c = '"')
    (h : ∀ position, Passes inBlock (some ⟨c, position⟩) 0 n cs) :
    Passes inBlock none 0 (n + 1) (c :: cs) := by
  have hend : endsWord inBlock c = false := by
    obtain rfl | rfl := hc
    all_goals simp [endsWord, Text.isBlank]
  have hquote : isQuoting none c = true := by simpa [isQuoting] using hc
  refine Passes.step (f := Part.cons c) (fun position => ?_) h
  rw [wordFrom]
  simp [hend, hquote, quoteAfter, hc]

theorem Passes.close (h : Passes inBlock none 0 n cs) :
    Passes inBlock (some q) 0 (n + 1) (q.char :: cs) := by
  refine Passes.step (f := Part.cons q.char) (fun position => ?_) fun _ => h
  rw [wordFrom]
  simp [isQuoting, quoteAfter]

theorem Passes.escape {next : Char} (hc : '\\' ≠ q.char)
    (h : Passes inBlock (some q) 1 n (next :: cs)) :
    Passes inBlock (some q) 0 (n + 1) ('\\' :: next :: cs) := by
  refine Passes.step (f := fun parts => Part.cons '\\' (Part.cons next parts))
    (fun position => ?_) fun _ => h
  conv => lhs; rw [wordFrom]
  simp [isQuoting, hc]

theorem Passes.hole {name : String} {width : Nat} (hc : '$' ≠ q.char)
    (hhole : holeAt? cs = some (name, width)) (h : Passes inBlock (some q) (width - 1) n cs) :
    Passes inBlock (some q) 0 (n + 1) ('$' :: cs) := by
  refine Passes.step (f := fun parts => .hole name :: parts) (fun position => ?_) fun _ => h
  rw [wordFrom]
  simp [isQuoting, hc, hhole]

theorem Passes.dollar (hc : '$' ≠ q.char) (hhole : holeAt? cs = none)
    (h : Passes inBlock (some q) 0 n cs) : Passes inBlock (some q) 0 (n + 1) ('$' :: cs) := by
  refine Passes.step (f := Part.cons '$') (fun position => ?_) fun _ => h
  rw [wordFrom]
  simp [isQuoting, hc, hhole]

/-- Whether a quoted character only adds to the word. -/
def isQuoted (q : OpenQuote) (c : Char) : Bool := !(c == q.char || c == '\\' || c == '$')

theorem wordFrom_quoted (hc : isQuoted q c = true) (position : Nat) :
    wordFrom inBlock (some q) position 0 (c :: cs) = (do
      let (parts, n) ← wordFrom inBlock (some q) (position + 1) 0 cs
      return (Part.cons c parts, n + 1)) := by
  simp only [isQuoted, Bool.not_eq_true', Bool.or_eq_false_iff, beq_eq_false_iff_ne] at hc
  obtain ⟨⟨hquote, hslash⟩, hdollar⟩ := hc
  rw [wordFrom]
  simp [isQuoting, hquote, hslash, hdollar]

theorem Passes.quoted (hc : isQuoted q c = true) (h : Passes inBlock (some q) 0 n cs) :
    Passes inBlock (some q) 0 (n + 1) (c :: cs) :=
  Passes.step (f := Part.cons c) (wordFrom_quoted hc) fun _ => h

/-- Quoted characters that only add to the word may as well be skipped. -/
theorem wordFrom_skip : ∀ {k N position : Nat} {cs : List Char} {parts : List Part}, k ≤ cs.length →
    (∀ c ∈ cs.take k, isQuoted q c = true) →
    wordFrom inBlock (some q) position 0 cs = .ok (parts, N) →
    ∃ parts', wordFrom inBlock (some q) position k cs = .ok (parts', N)
  | 0, _, _, _, parts, _, _, h => ⟨parts, h⟩
  | k + 1, _, _, [], _, hk, _, _ => absurd hk (Nat.not_succ_le_zero _)
  | k + 1, N, position, c :: cs, parts, hk, hcs, h => by
    rw [List.take_succ_cons] at hcs
    obtain ⟨hc, hcs⟩ := List.forall_mem_cons.1 hcs
    rw [wordFrom_quoted hc] at h
    cases hrest : wordFrom inBlock (some q) (position + 1) 0 cs with
    | error e => simp [hrest, bind, Except.bind] at h
    | ok r =>
      obtain ⟨parts', hparts⟩ := wordFrom_skip (Nat.le_of_succ_le_succ hk) hcs hrest
      simp only [hrest, bind, Except.bind, pure, Except.pure, Except.ok.injEq, Prod.mk.injEq] at h
      refine ⟨parts', ?_⟩
      rw [wordFrom, hparts]
      simp only [bind, Except.bind, pure, Except.pure, h.2]

theorem Passes.of_quoted (hk : k ≤ cs.length) (hcs : ∀ c ∈ cs.take k, isQuoted q c = true)
    (h : Passes inBlock (some q) 0 n cs) : Passes inBlock (some q) k n cs := by
  intro position parts m hrest
  obtain ⟨parts', hparts⟩ := h position parts m hrest
  exact wordFrom_skip hk hcs hparts

/-- A name to fill in consists of characters of names, and of braces around it. -/
theorem holeAt?_chars {name : String} {width : Nat} (h : holeAt? cs = some (name, width)) :
    width - 1 ≤ cs.length
      ∧ ∀ c ∈ cs.take (width - 1), isNameChar c = true ∨ c = '\x7b' ∨ c = '\x7d' := by
  obtain ⟨hname, hcs⟩ := holeAt?_cases h
  obtain ⟨taken, rest, rfl, hwidth, htaken⟩ :
      ∃ taken rest, cs = taken ++ rest ∧ width - 1 = taken.length
        ∧ ∀ c ∈ taken, isNameChar c = true ∨ c = '\x7b' ∨ c = '\x7d' := by
    obtain ⟨rest, rfl, rfl⟩ | ⟨rest, rfl, rfl⟩ := hcs
    · exact ⟨name.toList, rest, rfl, rfl, fun c hc => .inl (hname c hc)⟩
    · refine ⟨'\x7b' :: (name.toList ++ ['\x7d']), rest, by simp, by simp, ?_⟩
      exact List.forall_mem_cons.2 ⟨.inr (.inl rfl), List.forall_mem_append.2
        ⟨fun c hc => .inl (hname c hc), List.forall_mem_singleton.2 (.inr (.inr rfl))⟩⟩
  rw [hwidth, List.take_left]
  exact ⟨by simp, htaken⟩

theorem ne_of_isNameChar {x : Char} (hc : isNameChar c = true) (hx : isNameChar x = false) :
    c ≠ x := by
  rintro rfl
  rw [hc] at hx
  exact absurd hx (by decide)

theorem isQuoted_of_name (hq : q.char = '\'' ∨ q.char = '"')
    (hc : isNameChar c = true ∨ c = '\x7b' ∨ c = '\x7d') : isQuoted q c = true := by
  have hne : c ≠ '\'' ∧ c ≠ '"' ∧ c ≠ '\\' ∧ c ≠ '$' := by
    obtain hc | rfl | rfl := hc
    · exact ⟨ne_of_isNameChar hc rfl, ne_of_isNameChar hc rfl, ne_of_isNameChar hc rfl,
        ne_of_isNameChar hc rfl⟩
    · decide
    · decide
  obtain hq | hq := hq
  · simp [isQuoted, hq, hne]
  · simp [isQuoted, hq, hne]

theorem Passes.name {name : String} {width : Nat} (hq : q.char = '\'' ∨ q.char = '"')
    (hhole : holeAt? cs = some (name, width)) (h : Passes inBlock (some q) 0 n cs) :
    Passes inBlock (some q) 0 (n + 1) ('$' :: cs) := by
  obtain ⟨hwidth, hcs⟩ := holeAt?_chars hhole
  have hc : '$' ≠ q.char := by obtain hq | hq := hq <;> rw [hq] <;> decide
  exact .hole hc hhole (h.of_quoted hwidth fun c hc => isQuoted_of_name hq (hcs c hc))

/-! ## Strings -/

theorem endsEscaped_cons (hc : c ≠ '\\') : endsEscaped (c :: cs) = endsEscaped cs := by
  cases cs with
  | nil => simp [endsEscaped, hc]
  | cons next cs => rw [endsEscaped, if_neg hc]

/-- A raw string is passed, unless its closing quote is escaped. -/
theorem passes_rawBody (hq : q.char = '\'') (rest : List Char) : ∀ {body : List Char},
    endsEscaped body = false → (∀ c ∈ body, c ≠ '\'') →
    Passes inBlock (some q) 0 (body.length + 1) (body ++ '\'' :: rest)
  | [], _, _ => by
    rw [← hq]
    exact passes_zero.close
  | c :: body, hbody, hquote => by
    obtain ⟨hc, hrest⟩ := List.forall_mem_cons.1 hquote
    by_cases hslash : c = '\\'
    · subst hslash
      cases body with
      | nil => exact absurd hbody (by decide)
      | cons next body =>
        rw [endsEscaped, if_pos rfl] at hbody
        have ih := passes_rawBody hq rest hbody (List.forall_mem_cons.1 hrest).2
        exact ih.skipped.escape (by rw [hq]; decide)
    · rw [endsEscaped_cons hslash] at hbody
      have ih := passes_rawBody hq rest hbody hrest
      by_cases hdollar : c = '$'
      · subst hdollar
        cases hhole : holeAt? (body ++ '\'' :: rest) with
        | some hole => exact ih.name (.inl hq) hhole
        | none => exact ih.dollar (by rw [hq]; decide) hhole
      · exact ih.quoted (by simp [isQuoted, hq, hc, hslash, hdollar])

/-- Whether a character stands for itself behind a backslash in a template string. -/
theorem isQuoted_of_not_escaped (hq : q.char = '"') (hc : escaped? c = none) :
    isQuoted q c = true := by
  unfold escaped? at hc
  split at hc
  · exact absurd hc (by simp)
  · next hne =>
    simp only [Bool.or_eq_true, decide_eq_true_eq, not_or] at hne
    simp [isQuoted, hq, hne]

theorem exists_of_map_succ {f : List Part → List Part} {r : Option (List Part × Nat)}
    {parts : List Part} (h : (r.map fun (parts, n) => (f parts, n + 1)) = some (parts, n)) :
    ∃ parts' m, r = some (parts', m) ∧ n = m + 1 := by
  obtain ⟨⟨parts', m⟩, hr, heq⟩ := Option.map_eq_some_iff.1 h
  exact ⟨parts', m, hr, (Prod.mk.inj heq).2.symm⟩

/-- A template string is passed: both scanners take the same characters for escapes and names. -/
theorem passes_of_templateFrom (hq : q.char = '"') : ∀ {k n : Nat} {cs : List Char}
    {parts : List Part}, templateFrom k cs = some (parts, n) → Passes inBlock (some q) k n cs
  | _, _, [], _, h => by simp [templateFrom] at h
  | k + 1, n, c :: cs, parts, h => by
    rw [templateFrom] at h
    obtain ⟨parts', m, hrest, rfl⟩ := exists_of_map_succ (f := id) h
    exact (passes_of_templateFrom hq hrest).skipped
  | 0, n, c :: cs, parts, h => by
    rw [templateFrom] at h
    by_cases hquote : c = '"'
    · rw [if_pos hquote] at h
      obtain ⟨-, rfl⟩ := Prod.mk.inj (Option.some.inj h)
      rw [hquote, ← hq]
      exact passes_zero.close
    rw [if_neg hquote] at h
    by_cases hslash : c = '\\'
    · subst hslash
      rw [if_pos rfl] at h
      have hne : '\\' ≠ q.char := by rw [hq]; decide
      cases cs with
      | nil => simp [templateFrom] at h
      | cons next cs =>
        rw [List.head?_cons, Option.bind_some] at h
        cases hescaped : escaped? next with
        | some e =>
          rw [hescaped] at h
          obtain ⟨parts', m, hrest, rfl⟩ := exists_of_map_succ h
          exact (passes_of_templateFrom hq hrest).escape hne
        | none =>
          rw [hescaped] at h
          obtain ⟨parts', m, hrest, rfl⟩ := exists_of_map_succ h
          have hnext : ∀ c ∈ (next :: cs).take 1, isQuoted q c = true := by
            simpa using isQuoted_of_not_escaped hq hescaped
          exact ((passes_of_templateFrom hq hrest).of_quoted (by simp) hnext).escape hne
    rw [if_neg hslash] at h
    by_cases hdollar : c = '$'
    · subst hdollar
      rw [if_pos rfl] at h
      cases hhole : holeAt? cs with
      | some hole =>
        rw [hhole] at h
        obtain ⟨parts', m, hrest, rfl⟩ := exists_of_map_succ h
        exact (passes_of_templateFrom hq hrest).hole (by rw [hq]; decide) hhole
      | none =>
        rw [hhole] at h
        obtain ⟨parts', m, hrest, rfl⟩ := exists_of_map_succ h
        exact (passes_of_templateFrom hq hrest).dollar (by rw [hq]; decide) hhole
    · rw [if_neg hdollar] at h
      obtain ⟨parts', m, hrest, rfl⟩ := exists_of_map_succ h
      have hquoted : isQuoted q c = true := by simp [isQuoted, hq, hquote, hslash, hdollar]
      exact (passes_of_templateFrom hq hrest).quoted hquoted

/-! ## Tokens -/

theorem isPlain_of_name (hc : isNameChar c = true) : isPlain c = true := by
  have hne : ∀ x, isNameChar x = false → c ≠ x := fun x => ne_of_isNameChar hc
  simp [isPlain, Text.isBlank, hne ' ' rfl, hne '\t' rfl, hne '\r' rfl, hne '\n' rfl,
    hne '\x7d' rfl, hne '\'' rfl, hne '"' rfl, hne '\\' rfl, hne '$' rfl]

theorem passes_of_number {t : Token} (h : number cs = .ok (t, n)) : Passes inBlock none 0 n cs := by
  obtain ⟨text, rest, rfl, rfl, htext⟩ := number_text h
  refine passes_of_plain fun c hc => ?_
  obtain hdigit | rfl := htext c hc
  · exact isPlain_of_name (isNameChar_of_isDigit hdigit)
  · rfl

theorem passes_of_name : Passes inBlock none 0 (name cs).2 cs := by
  have h : Passes inBlock none 0 (cs.takeWhile isNameChar).length
      (cs.takeWhile isNameChar ++ cs.drop (cs.takeWhile isNameChar).length) :=
    passes_of_plain fun c hc => isPlain_of_name (List.mem_takeWhile_imp hc)
  rwa [take_length_takeWhile] at h

theorem passes_of_rawString {text : String} (h : rawString cs = .ok (.string text, n))
    (htext : endsEscaped text.toList = false) : Passes inBlock none 0 n ('\'' :: cs) := by
  obtain ⟨body, rest, rfl, hbody, rfl, hquote⟩ := rawString_text h
  rw [Token.string.inj hbody, String.toList_ofList] at htext
  exact Passes.open (.inl rfl) fun position => passes_rawBody rfl rest htext hquote

theorem passes_of_pair {second : Char} {long short : Token} (hc : isPlain c = true)
    (hsecond : isPlain second = true) :
    Passes inBlock none 0 (pair cs second long short).2 (c :: cs) := by
  unfold pair
  split
  · next hhead =>
    obtain ⟨rest, rfl⟩ := List.head?_eq_some_iff.1 hhead
    exact (passes_zero.plain hsecond).plain hc
  · exact passes_zero.plain hc

theorem isPlain_of_single (h : (single c).fitsWord = true) : isPlain c = true := by
  unfold single at h
  split at h <;> first | rfl | exact absurd h (by simp [Token.fitsWord])

theorem passes_of_sign (h : (sign c cs).1.fitsWord = true) :
    Passes inBlock none 0 (sign c cs).2 (c :: cs) := by
  unfold sign at h ⊢
  split at h
  case h_8 => exact passes_zero.plain (isPlain_of_single h)
  all_goals exact passes_of_pair rfl rfl

/-- **A word passes the tokens of a line**, whatever they are. -/
theorem passes_of_scan {t : Token} (h : Token.scan cs = .ok (t, n)) (ht : t.fitsWord = true) :
    Passes inBlock none 0 n cs := by
  cases cs with
  | nil =>
    rw [Token.scan_nil] at h
    obtain ⟨rfl, -⟩ := Prod.mk.inj (Except.ok.inj h)
    exact absurd ht (by decide)
  | cons c cs =>
    rw [Token.scan_cons_eq] at h
    split at h
    · exact passes_of_number h
    split at h
    · have hname : Passes inBlock none 0 (name (c :: cs)).2 (c :: cs) := passes_of_name
      rwa [Except.ok.inj h] at hname
    split at h
    · next hc =>
      subst hc
      obtain ⟨⟨text, rfl⟩, -⟩ := rawString_ok h
      exact passes_of_rawString h (by simpa [Token.fitsWord] using ht)
    split at h
    · next hc =>
      subst hc
      split at h
      · next parts m htemplate =>
        obtain ⟨-, rfl⟩ := Prod.mk.inj (Except.ok.inj h)
        exact Passes.open (.inr rfl) fun position => passes_of_templateFrom rfl htemplate
      · exact absurd h (by simp)
    · have hsign : (sign c cs).1.fitsWord = true → Passes inBlock none 0 (sign c cs).2 (c :: cs) :=
        passes_of_sign
      rw [Except.ok.inj h] at hsign
      exact hsign ht

end Passes

end Scan

end CommandScript
