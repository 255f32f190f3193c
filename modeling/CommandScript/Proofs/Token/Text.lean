import CommandScript.Proofs.Token.Lexes

/-!
# Proofs/Token/Text — tokens are read back from their text

`Token.text` prints a token and `Token.scan` reads one. Reading finds the printed token again
(`Token.scan_text`) if two things hold: the token can be written at all (`Token.isWritable`), and
what stands behind it does not go on with it (`Token.isClear`): a name behind `12`, a letter behind
a name, `=` behind `<`.

The text of a number needs most work. It is shown to be a plain decimal, digits with at most one
point between them (`Number.exists_plain`); that these digits stand for the number they were made
from, `Number.ReadsBack`, is a property of decimal conversion and kept apart.
-/

namespace CommandScript

open Scan

theorem takeWhile_append_of_stop {p : Char → Bool} {cs rest : List Char}
    (hcs : ∀ c ∈ cs, p c = true) (hrest : rest.head?.any p = false) :
    (cs ++ rest).takeWhile p = cs := by
  rw [List.takeWhile_append_of_pos hcs]
  cases rest with
  | nil => simp
  | cons c rest => rw [List.takeWhile_cons_of_neg (by simpa using hrest), List.append_nil]

/-! ## Numbers -/

/-- A decimal as it is written: digits, and behind a point further digits if there are any. -/
structure PlainDecimal where
  whole : List Char
  fraction : List Char
  whole_ne_nil : whole ≠ []
  whole_digits : ∀ c ∈ whole, c.isDigit = true
  fraction_digits : ∀ c ∈ fraction, c.isDigit = true

namespace PlainDecimal

/-- The characters of the decimal. -/
def chars (d : PlainDecimal) : List Char :=
  d.whole ++ if d.fraction.isEmpty then [] else '.' :: d.fraction

/-- The number the decimal stands for. -/
def value (d : PlainDecimal) : Float := Number.ofLiteral d.whole d.fraction

end PlainDecimal

/-- A decimal prints as a plain one. -/
theorem Decimal.exists_plain (d : Decimal) : ∃ p : PlainDecimal, d.text.toList = p.chars := by
  have hdigits : ∀ c ∈ Nat.toDigits 10 d.digits, c.isDigit = true := fun c hc =>
    Nat.isDigit_of_mem_toDigits (by decide) (by decide) hc
  have hzeros : ∀ k, ∀ c ∈ List.replicate k '0', c.isDigit = true := fun k c hc => by
    rw [List.eq_of_mem_replicate hc]
    rfl
  unfold text
  dsimp only
  split
  · refine ⟨⟨Nat.toDigits 10 d.digits ++ List.replicate d.power.toNat '0', [], ?_, ?_, ?_⟩, ?_⟩
    · exact List.append_ne_nil_of_left_ne_nil Nat.toDigits_ne_nil _
    · exact List.forall_mem_append.2 ⟨hdigits, hzeros _⟩
    · exact List.forall_mem_nil _
    · simp [PlainDecimal.chars]
  · generalize hpadded : List.replicate (d.power.natAbs + 1 - (Nat.toDigits 10 d.digits).length) '0'
      ++ Nat.toDigits 10 d.digits = padded
    have hpaddedDigits : ∀ c ∈ padded, c.isDigit = true := by
      rw [← hpadded]
      exact List.forall_mem_append.2 ⟨hzeros _, hdigits⟩
    have hlength : d.power.natAbs < padded.length := by
      rw [← hpadded, List.length_append, List.length_replicate]
      omega
    have hfraction : padded.drop (padded.length - d.power.natAbs) ≠ [] := by
      rw [Ne, List.drop_eq_nil_iff]
      omega
    refine ⟨⟨padded.take (padded.length - d.power.natAbs),
      padded.drop (padded.length - d.power.natAbs), ?_, ?_, ?_⟩, ?_⟩
    · rw [Ne, List.take_eq_nil_iff, ← List.length_eq_zero_iff]
      omega
    · exact fun c hc => hpaddedDigits c (List.mem_of_mem_take hc)
    · exact fun c hc => hpaddedDigits c (List.mem_of_mem_drop hc)
    · rw [PlainDecimal.chars, if_neg (by simpa using hfraction), String.toList_ofList]

namespace Number

/-- Whether a number is finite and its sign bit clear. -/
def isUnsigned (x : Float) : Bool := (Exact.of? x).any fun e => !e.negative

/-- The number that a plain decimal stands for. -/
def ofText (cs : List Char) : Float :=
  let whole := cs.takeWhile Char.isDigit
  ofLiteral whole (cs.drop (whole.length + 1))

/-- Whether the text of the number, read as a plain decimal, is the number. -/
def ReadsBack (x : Float) : Prop := ofText (text x).toList = x

instance (x : Float) : Decidable (ReadsBack x) := inferInstanceAs (Decidable (_ = _))

/-- **The text of a number without a sign is a plain decimal.** -/
theorem exists_plain {x : Float} (h : isUnsigned x = true) :
    ∃ p : PlainDecimal, (text x).toList = p.chars := by
  unfold isUnsigned at h
  unfold text
  cases hexact : Exact.of? x with
  | none => simp [hexact] at h
  | some e =>
    have hsign : e.negative = false := by simpa [hexact] using h
    simp only [hsign, Bool.false_eq_true, if_false, String.empty_append]
    split
    · have hzero : ∀ c ∈ ['0'], c.isDigit = true := List.forall_mem_singleton.2 rfl
      exact ⟨⟨['0'], [], List.cons_ne_nil _ _, hzero, List.forall_mem_nil _⟩, rfl⟩
    · exact Decimal.exists_plain _

theorem ofText_chars (p : PlainDecimal) : ofText p.chars = p.value := by
  have hstop : (if p.fraction.isEmpty then [] else '.' :: p.fraction).head?.any Char.isDigit
      = false := by
    split <;> rfl
  have hrest : p.chars.drop (p.whole.length + 1) = p.fraction := by
    rw [PlainDecimal.chars, List.drop_append, List.drop_eq_nil_of_le (Nat.le_succ _),
      Nat.add_sub_cancel_left, List.nil_append]
    split
    · next h => rw [List.isEmpty_iff.1 h, List.drop_nil]
    · rfl
  unfold ofText
  dsimp only
  rw [PlainDecimal.chars, takeWhile_append_of_stop p.whole_digits hstop, ← PlainDecimal.chars,
    hrest]
  rfl

end Number

/-! ## What may stand behind a token -/

/-- Whether neither a number nor a name goes on with the text: it starts with no character of a name
and with no point, unless with the two points of a range. -/
def Scan.isApart (cs : List Char) : Bool :=
  !cs.head?.any isNameChar && (cs.head? != some '.' || cs.tail.head? == some '.')

namespace Token

/-- Whether the token ends where the text goes on as given. -/
def isClear (t : Token) (cs : List Char) : Bool :=
  match t with
  | number _ => isApart cs
  | identifier _ | keyword _ => !cs.head?.any isNameChar
  | symbol .equals | symbol .bang | symbol .less | symbol .greater => cs.head? != some '='
  | symbol .dot => cs.head? != some '.'
  | _ => true

end Token

theorem any_head_eq_false {p q : Char → Bool} (hpq : ∀ {c}, p c = true → q c = true)
    {cs : List Char} (h : cs.head?.any q = false) : cs.head?.any p = false := by
  rw [Option.any_eq_false] at h ⊢
  intro c hc
  rw [← Bool.not_eq_true]
  exact fun hp => absurd (hpq hp) (by simp [h c hc])

theorem finish_of_clear {whole fraction text rest : List Char}
    (h : rest.head?.any isNameChar = false) : number.finish whole fraction text rest
      = .ok (.number (Number.ofLiteral whole fraction), text.length) := by
  have hstart : rest.head?.filter isNameStart = none := by
    rw [Option.filter_eq_none_iff]
    intro c hc hstart
    have hname := (Option.any_eq_false _ _).1 h c hc
    rw [isNameChar_of_isNameStart hstart] at hname
    exact absurd hname (by decide)
  rw [number.finish, hstart]

/-- A plain decimal is read as the number it stands for. -/
theorem number_plain {p : PlainDecimal} {rest : List Char} (h : isApart rest = true) :
    number (p.chars ++ rest) = .ok (.number p.value, p.chars.length) := by
  simp only [isApart, Bool.and_eq_true, Bool.not_eq_true'] at h
  obtain ⟨hname, hdot⟩ := h
  have hdigit := any_head_eq_false isNameChar_of_isDigit hname
  obtain ⟨whole, fraction, hne, hwhole, hfraction⟩ := p
  cases fraction with
  | nil =>
    have htake := takeWhile_append_of_stop hwhole hdigit
    simp only [PlainDecimal.chars, PlainDecimal.value, List.isEmpty_nil, if_true, List.append_nil,
      number, htake, List.drop_left]
    split
    · rfl
    · next next hnot =>
      -- a point that is not the first of two does not follow
      obtain ⟨next, rfl⟩ : ∃ cs, next = '.' :: cs := List.head?_eq_some_iff.1 (by simpa using hdot)
      exact absurd rfl (hnot next)
    · exact finish_of_clear hname
  | cons c cs =>
    have htake : (whole ++ '.' :: (c :: cs ++ rest)).takeWhile Char.isDigit = whole :=
      takeWhile_append_of_stop hwhole rfl
    have hchars : PlainDecimal.chars ⟨whole, c :: cs, hne, hwhole, hfraction⟩ ++ rest
        = whole ++ '.' :: (c :: cs ++ rest) := by
      simp [PlainDecimal.chars]
    have hfractionTake := takeWhile_append_of_stop hfraction hdigit
    rw [hchars, number]
    dsimp only
    rw [htake, List.drop_left]
    split
    · next heq =>
      obtain rfl : c = '.' := by simpa using congrArg (fun l => l.tail.head?) heq
      exact absurd (hfraction '.' List.mem_cons_self) (by decide)
    · next next _ heq =>
      obtain rfl : c :: cs ++ rest = next := by simpa using heq
      rw [hfractionTake, if_neg (by simp), List.drop_left, finish_of_clear hname]
      rfl
    · next hnot => exact absurd rfl (hnot (c :: cs ++ rest))

/-! ## Names and strings -/

theorem Scan.isName_cons {word : String} (h : isName word = true) :
    ∃ c cs, word.toList = c :: cs ∧ isNameStart c = true ∧ ∀ d ∈ c :: cs, isNameChar d = true := by
  unfold isName at h
  split at h
  · exact absurd h (by decide)
  · next c cs hword =>
    simp only [Bool.and_eq_true, List.all_eq_true] at h
    exact ⟨c, cs, hword, h.1, List.forall_mem_cons.2 ⟨isNameChar_of_isNameStart h.1, h.2⟩⟩

theorem takeWhile_name {word : String} {rest : List Char} (h : isName word = true)
    (hrest : rest.head?.any isNameChar = false) :
    (word.toList ++ rest).takeWhile isNameChar = word.toList := by
  obtain ⟨c, cs, hword, -, hchars⟩ := isName_cons h
  rw [hword]
  exact takeWhile_append_of_stop hchars hrest

theorem not_isDigit_of_isNameStart {c : Char} (h : isNameStart c = true) : c.isDigit = false := by
  rw [← Bool.not_eq_true]
  intro hdigit
  delta isNameStart Char.isAlpha Char.isUpper Char.isLower at h
  simp only [Char.isDigit, Bool.or_eq_true, Bool.and_eq_true, decide_eq_true_eq,
    beq_iff_eq, ge_iff_le, UInt32.le_iff_toNat_le] at h hdigit
  obtain ⟨-, hle⟩ := hdigit
  obtain (⟨hge, -⟩ | ⟨hge, -⟩) | rfl := h
  · exact absurd (Nat.le_trans hge hle) (by decide)
  · exact absurd (Nat.le_trans hge hle) (by decide)
  · exact absurd hle (by decide)

theorem Token.scan_name {word : String} {rest : List Char} (h : isName word = true)
    (hrest : rest.head?.any isNameChar = false) : Token.scan (word.toList ++ rest)
      = .ok ((Keyword.of? word).elim (.identifier word) .keyword, word.toList.length) := by
  have htake := takeWhile_name h hrest
  obtain ⟨c, cs, hword, hstart, -⟩ := isName_cons h
  have hscan : Token.scan (word.toList ++ rest) = .ok (name (word.toList ++ rest)) := by
    rw [hword, List.cons_append, Token.scan_cons_eq, not_isDigit_of_isNameStart hstart,
      if_neg Bool.false_ne_true, if_pos hstart]
  rw [hscan, name, htake, String.ofList_toList]
  cases Keyword.of? word <;> rfl

theorem rawString_text {text : String} (h : text.toList.contains '\'' = false) (rest : List Char) :
    rawString (text.toList ++ '\'' :: rest) = .ok (.string text, text.toList.length + 2) := by
  have hbody : ∀ c ∈ text.toList, (c != '\'') = true := by
    intro c hc
    rw [bne_iff_ne]
    rintro rfl
    rw [List.contains_iff_mem.2 hc] at h
    exact absurd h (by decide)
  rw [rawString, takeWhile_append_of_stop hbody rfl]
  simp

/-! ## Templates -/

/-- Whether a character of a literal stands for itself in front of the given text: it does not end
the template, and what follows it makes it neither an escape nor a name to fill in. -/
def Scan.standsBefore (cs : List Char) (c : Char) : Bool :=
  c != '"' && (c != '\\' || (cs.head?.bind escaped?).isNone) && (c != '$' || (holeAt? cs).isNone)

/-- Whether so does each of them, with the next ones and then the given text behind it. -/
def Scan.allStandBefore (rest : List Char) : List Char → Bool
  | [] => true
  | c :: cs => standsBefore (cs ++ rest) c && allStandBefore rest cs

/-- The text of the part that comes first, if it is a literal. -/
def Part.leading : List Part → List Char
  | literal s :: _ => s.toList
  | _ => []

/-- Whether the parts are those that their own text reads as. Literals are not empty and do not
adjoin, each of their characters stands for itself, and no name goes on in the text behind it. -/
def Part.isReadBack : List Part → Bool
  | [] => true
  | literal s :: parts =>
    !s.toList.isEmpty && allStandBefore ((textOf parts).toList ++ ['"']) s.toList
      && (leading parts).isEmpty && isReadBack parts
  | hole name :: parts =>
    isName name && !(textOf parts).toList.head?.any isNameChar && isReadBack parts

theorem templateFrom_cons {c : Char} {cs : List Char} (hc : standsBefore cs c = true) :
    templateFrom 0 (c :: cs)
      = (templateFrom 0 cs).map fun (parts, n) => (Part.cons c parts, n + 1) := by
  simp only [standsBefore, Bool.and_eq_true, bne_iff_ne, Bool.or_eq_true,
    Option.isNone_iff_eq_none] at hc
  obtain ⟨⟨hquote, hslash⟩, hdollar⟩ := hc
  rw [templateFrom, if_neg hquote]
  split
  · next h => rw [hslash.resolve_left (absurd h)]
  split
  · next h => rw [hdollar.resolve_left (absurd h)]
  · rfl

theorem templateFrom_skip {cs rest : List Char} {parts : List Part} {n : Nat}
    (h : templateFrom 0 rest = some (parts, n)) :
    templateFrom cs.length (cs ++ rest) = some (parts, cs.length + n) := by
  induction cs with
  | nil => simpa using h
  | cons c cs ih =>
    rw [List.length_cons, List.cons_append, templateFrom, ih]
    simp [Nat.add_right_comm]

/-- A literal is read up to a part that is none. -/
theorem templateFrom_literal {cs rest : List Char} {parts : List Part} {n : Nat} (hne : cs ≠ [])
    (hcs : allStandBefore rest cs = true) (hparts : Part.leading parts = [])
    (hreadBack : Part.isReadBack parts = true) (h : templateFrom 0 rest = some (parts, n)) :
    templateFrom 0 (cs ++ rest) = some (.literal (String.ofList cs) :: parts, cs.length + n) := by
  induction cs with
  | nil => exact absurd rfl hne
  | cons c cs ih =>
    obtain ⟨hc, hcs⟩ := Bool.and_eq_true_iff.1 hcs
    rw [List.cons_append, templateFrom_cons hc]
    cases cs with
    | nil =>
      rw [List.nil_append, h]
      rcases parts with _ | ⟨⟨s⟩ | ⟨name⟩, parts⟩
      · simp [Part.cons, Nat.add_comm]
      · simp only [Part.leading] at hparts
        simp [Part.isReadBack, hparts] at hreadBack
      · simp [Part.cons, Nat.add_comm]
    | cons d cs =>
      rw [ih (List.cons_ne_nil _ _) hcs]
      simp [Part.cons]
      omega

/-- A name behind a dollar sign is read up to where it cannot go on. -/
theorem templateFrom_hole {name : String} {rest : List Char} {parts : List Part} {n : Nat}
    (hname : isName name = true) (hrest : rest.head?.any isNameChar = false)
    (h : templateFrom 0 rest = some (parts, n)) : templateFrom 0 ('$' :: (name.toList ++ rest))
      = some (.hole name :: parts, name.toList.length + 1 + n) := by
  have htake := takeWhile_name hname hrest
  have hhole : holeAt? (name.toList ++ rest) = some (name, name.toList.length + 1) := by
    obtain ⟨c, cs, hword, hstart, -⟩ := isName_cons hname
    rw [hword, List.cons_append] at htake ⊢
    rw [holeAt?, if_pos hstart, htake, ← hword]
    dsimp only
    rw [String.ofList_toList]
  rw [templateFrom, if_neg (by decide), if_neg (by decide), if_pos rfl, hhole]
  simp only [Nat.add_sub_cancel, templateFrom_skip h, Option.map_some]
  congr 2
  omega

theorem toList_textOf_cons (part : Part) (parts : List Part) :
    (Part.textOf (part :: parts)).toList = part.text.toList ++ (Part.textOf parts).toList := by
  simp [Part.textOf, String.toList_join]

theorem toList_text_hole (name : String) : (Part.hole name).text.toList = '$' :: name.toList := by
  simp [Part.text, String.toList_append]

/-- Of what stands behind the quote that ends a template, nothing is seen before it. -/
theorem allStandBefore_quote (cs rest : List Char) : ∀ ds : List Char,
    allStandBefore (cs ++ '"' :: rest) ds = allStandBefore (cs ++ ['"']) ds
  | [] => rfl
  | d :: ds => by
    have hhead : ((ds ++ cs) ++ '"' :: rest).head? = ((ds ++ cs) ++ ['"']).head? := by
      cases ds ++ cs <;> rfl
    rw [allStandBefore, allStandBefore, allStandBefore_quote cs rest ds, standsBefore, standsBefore,
      ← List.append_assoc, ← List.append_assoc, hhead,
      holeAt?_stop rfl (by decide) (by decide) (ds ++ cs) rest,
      holeAt?_stop rfl (by decide) (by decide) (ds ++ cs) []]

/-- **A template is read back from its text**, if its parts are those that it reads as. -/
theorem templateFrom_text {rest : List Char} : ∀ {parts : List Part},
    Part.isReadBack parts = true → templateFrom 0 ((Part.textOf parts).toList ++ '"' :: rest)
      = some (parts, (Part.textOf parts).toList.length + 1)
  | [], _ => rfl
  | .literal s :: parts, h => by
    simp only [Part.isReadBack, Bool.and_eq_true, Bool.not_eq_true', List.isEmpty_iff,
      List.isEmpty_eq_false_iff] at h
    obtain ⟨⟨⟨hne, hstand⟩, hleading⟩, hparts⟩ := h
    rw [← allStandBefore_quote _ rest] at hstand
    rw [toList_textOf_cons, Part.text, List.append_assoc,
      templateFrom_literal hne hstand hleading hparts (templateFrom_text hparts),
      String.ofList_toList, List.length_append, Nat.add_assoc]
  | .hole name :: parts, h => by
    simp only [Part.isReadBack, Bool.and_eq_true, Bool.not_eq_true'] at h
    obtain ⟨⟨hname, hhead⟩, hparts⟩ := h
    have hrest : ((Part.textOf parts).toList ++ '"' :: rest).head?.any isNameChar = false := by
      cases htext : (Part.textOf parts).toList with
      | nil => rfl
      | cons c cs => rwa [htext] at hhead
    rw [toList_textOf_cons, toList_text_hole, List.cons_append, List.cons_append, List.append_assoc,
      templateFrom_hole hname hrest (templateFrom_text hparts)]
    congr 2
    simp only [List.length_cons, List.length_append]
    omega

/-- Whether a character stands for itself in a template, whatever follows. -/
def isLiteral (c : Char) : Bool := c != '"' && c != '\\' && c != '$'

/-- Whether the parts can be written down as they are: literals are not empty, hold only characters
that stand for themselves, do not adjoin, and do not go on with a name before them. -/
def Part.isCanonical : List Part → Bool
  | [] => true
  | literal s :: parts =>
    !s.toList.isEmpty && s.toList.all isLiteral && (leading parts).isEmpty && isCanonical parts
  | hole name :: parts =>
    isName name && !(leading parts).head?.any isNameChar && isCanonical parts

theorem allStandBefore_of_isLiteral (rest : List Char) : ∀ {cs : List Char},
    (∀ c ∈ cs, isLiteral c = true) → allStandBefore rest cs = true
  | [], _ => rfl
  | c :: cs, h => by
    obtain ⟨hc, hcs⟩ := List.forall_mem_cons.1 h
    simp only [isLiteral, Bool.and_eq_true] at hc
    obtain ⟨⟨hquote, hslash⟩, hdollar⟩ := hc
    simp [allStandBefore, standsBefore, hquote, hslash, hdollar, allStandBefore_of_isLiteral rest hcs]

/-- What follows a name in the text of canonical parts does not go on with it. -/
theorem head_textOf {parts : List Part} (hparts : (Part.leading parts).head?.any isNameChar = false)
    (hcanonical : Part.isCanonical parts = true) :
    (Part.textOf parts).toList.head?.any isNameChar = false := by
  rcases parts with _ | ⟨⟨s⟩ | ⟨name⟩, parts⟩
  · rfl
  · rw [toList_textOf_cons, Part.text]
    cases hs : s.toList with
    | nil => simp [Part.isCanonical, hs] at hcanonical
    | cons c cs => simpa [Part.leading, hs] using hparts
  · rw [toList_textOf_cons, toList_text_hole]
    rfl

theorem isReadBack_of_isCanonical : ∀ {parts : List Part},
    Part.isCanonical parts = true → Part.isReadBack parts = true
  | [], _ => rfl
  | .literal s :: parts, h => by
    simp only [Part.isCanonical, Bool.and_eq_true, List.all_eq_true] at h
    obtain ⟨⟨⟨hne, hliteral⟩, hleading⟩, hcanonical⟩ := h
    simp [Part.isReadBack, hne, hleading, allStandBefore_of_isLiteral _ hliteral,
      isReadBack_of_isCanonical hcanonical]
  | .hole name :: parts, h => by
    simp only [Part.isCanonical, Bool.and_eq_true, Bool.not_eq_true'] at h
    obtain ⟨⟨hname, hleading⟩, hcanonical⟩ := h
    simp [Part.isReadBack, hname, head_textOf hleading hcanonical,
      isReadBack_of_isCanonical hcanonical]

/-! ## Tokens -/

/-- Whether a text is a name that is not reserved. -/
def Scan.isIdentifier (word : String) : Bool := isName word && (Keyword.of? word).isNone

namespace Token

/-- Whether the token has a text it is read back from. A number also has to be the one its digits
stand for. -/
def isWritable : Token → Bool
  | number x => Number.isUnsigned x
  | string text => !text.toList.contains '\''
  | template parts => Part.isCanonical parts
  | identifier name => isIdentifier name
  | keyword _ | symbol _ => true
  | newline | word _ | stray _ | endOfInput => false

theorem scan_keyword (k : Keyword) {rest : List Char} (h : (keyword k).isClear rest = true) :
    scan (k.text.toList ++ rest) = .ok (.keyword k, k.text.toList.length) := by
  have hname : isName k.text = true := by cases k <;> decide
  have hof : Keyword.of? k.text = some k := by cases k <;> decide
  rw [scan_name hname (by simpa [isClear] using h), hof, Option.elim_some]

theorem pair_of_clear {cs : List Char} {second : Char} (h : (cs.head? != some second) = true)
    (long short : Token) : pair cs second long short = (short, 1) :=
  if_neg (by simpa using h)

theorem scan_symbol_text (s : Symbol) {rest : List Char} (h : (symbol s).isClear rest = true) :
    scan (s.text.toList ++ rest) = .ok (.symbol s, s.text.toList.length) := by
  cases s with
  | equals | bang | less | greater | dot => exact congrArg Except.ok (pair_of_clear h _ _)
  | _ => rfl

theorem scan_template {cs : List Char} {parts : List Part} {n : Nat}
    (h : Scan.templateFrom 0 cs = some (parts, n)) :
    scan ('"' :: cs) = .ok (.template parts, n + 1) := by
  rw [scan_cons_eq, if_neg (by decide), if_neg (by decide), if_neg (by decide), if_pos rfl, h]

/-- **A token is read back from its text**, if what stands behind it does not go on with it. -/
theorem scan_text {t : Token} {rest : List Char} (hwritable : t.isWritable = true)
    (hnumber : ∀ x, t = .number x → Number.ReadsBack x) (hclear : t.isClear rest = true) :
    scan (t.text.toList ++ rest) = .ok (t, t.text.toList.length) := by
  cases t with
  | number x =>
    obtain ⟨p, hp⟩ := Number.exists_plain hwritable
    have hvalue : p.value = x := by
      rw [← Number.ofText_chars, ← hp]
      exact hnumber x rfl
    obtain ⟨c, cs, hwhole⟩ := List.exists_cons_of_ne_nil p.whole_ne_nil
    have hdigit : c.isDigit = true := p.whole_digits c (by rw [hwhole]; exact List.mem_cons_self)
    have hscan : scan (p.chars ++ rest) = Scan.number (p.chars ++ rest) := by
      rw [PlainDecimal.chars, hwhole, List.cons_append, List.cons_append, scan_cons_eq,
        if_pos hdigit]
    rw [text, hp, hscan, number_plain hclear, hvalue]
  | string s =>
    have htext : (string s).text.toList = '\'' :: (s.toList ++ ['\'']) := by
      simp [text, String.toList_append]
    have hraw := rawString_text (by simpa [isWritable] using hwritable) rest
    rw [htext, List.cons_append, List.append_assoc, List.singleton_append]
    refine hraw.trans ?_
    simp
  | template parts =>
    have htext : (template parts).text.toList = '"' :: ((Part.textOf parts).toList ++ ['"']) := by
      simp [text, String.toList_append]
    rw [htext, List.cons_append, List.append_assoc, List.singleton_append,
      scan_template (templateFrom_text (isReadBack_of_isCanonical hwritable))]
    simp
  | identifier name =>
    simp only [isWritable, isIdentifier, Bool.and_eq_true, Option.isNone_iff_eq_none] at hwritable
    rw [text, scan_name hwritable.1 (by simpa [isClear] using hclear), hwritable.2,
      Option.elim_none]
  | keyword k => exact scan_keyword k hclear
  | symbol s => exact scan_symbol_text s hclear
  | newline | word _ | stray _ | endOfInput => exact absurd hwritable Bool.false_ne_true

end Token

/-! ## Texts of several tokens -/

/-- Wherever the text stands ahead, it consists of the given tokens. -/
def Lexed (cs : List Char) (ts : List Token) : Prop := ∀ c : Cursor, c.rest = cs → c.Lexes ts

theorem lexed_nil : Lexed [] [] := by
  intro c hc
  have htoken : c.toToken false = c := by
    rw [Cursor.toToken, hc]
    rfl
  refine Cursor.Lexes.done (t := ⟨.endOfInput, c.spanTo c⟩) (d := c)
    (Cursor.next_eq_ok_iff.2 ⟨0, ?_, ?_, ?_⟩) rfl
  · rw [htoken, hc, Token.scan_nil]
  · rw [htoken, Cursor.skip_zero]
  · rw [htoken]

/-- A blank in front changes nothing. -/
theorem Lexed.skip {b : Char} (hb : Text.isBlank b = true) {cs : List Char} {ts : List Token}
    (h : Lexed cs ts) : Lexed (b :: cs) ts := by
  intro c hc
  have hstep : c.step.rest = cs := by
    rw [Cursor.rest_step, hc]
    rfl
  have hfeed : b ≠ '\n' := by
    rintro rfl
    exact absurd hb (by decide)
  have hhash : b ≠ '#' := by
    rintro rfl
    exact absurd hb (by decide)
  have htoken : c.toToken false = c.step.toToken false := by
    rw [Cursor.toToken, Cursor.toToken, hc, hstep, ← Cursor.skip_succ, trivia_cons hfeed,
      if_neg (by simpa using hhash), if_pos hb]
  exact (h c.step hstep).of_toToken htoken

theorem Lexed.blank {cs : List Char} {ts : List Token} (h : Lexed cs ts) : Lexed (' ' :: cs) ts :=
  h.skip rfl

/-- No blank, comment or end of a line stands where a token does. -/
theorem trivia_of_scan {cs : List Char} {t : Token} {n : Nat} (h : Token.scan cs = .ok (t, n))
    (ht : t.isWritable = true) : trivia false false cs = 0 := by
  cases cs with
  | nil => rfl
  | cons c cs =>
    have hne : ∀ d, (∃ m, ∀ cs, ∃ u, Token.scan (d :: cs) = .ok (u, m) ∧ u.isWritable = false) →
        c ≠ d := by
      rintro _ ⟨m, hd⟩ rfl
      obtain ⟨u, hu, hwritable⟩ := hd cs
      rw [hu] at h
      obtain ⟨rfl, -⟩ := Prod.mk.inj (Except.ok.inj h)
      rw [ht] at hwritable
      exact absurd hwritable (by decide)
    have hline := hne '\n' ⟨1, fun _ => ⟨_, rfl, rfl⟩⟩
    have hcomment := hne '#' ⟨1, fun _ => ⟨_, rfl, rfl⟩⟩
    have hblank : Text.isBlank c = false := by
      simp [Text.isBlank, hne ' ' ⟨1, fun _ => ⟨_, rfl, rfl⟩⟩, hne '\t' ⟨1, fun _ => ⟨_, rfl, rfl⟩⟩,
        hne '\r' ⟨1, fun _ => ⟨_, rfl, rfl⟩⟩]
    rw [trivia_cons hline]
    simp [hcomment, hblank]

/-- A token that starts the text is the first of its tokens. -/
theorem Lexed.scanned {t : Token} {text cs : List Char} {ts : List Token}
    (htrivia : trivia false false (text ++ cs) = 0)
    (hscan : Token.scan (text ++ cs) = .ok (t, text.length)) (hend : t.isEnd = false)
    (h : Lexed cs ts) : Lexed (text ++ cs) (t :: ts) := by
  intro c hc
  have htoken : c.toToken false = c := by
    rw [Cursor.toToken, hc, htrivia, Cursor.skip_zero]
  have hnext : c.next false = .ok (⟨t, c.spanTo (c.skip text.length)⟩, c.skip text.length) :=
    Cursor.next_eq_ok_iff.2 ⟨_, by rw [htoken, hc, hscan], by rw [htoken], by rw [htoken]⟩
  refine .more hnext hend (h _ ?_)
  rw [Cursor.rest_skip, hc, List.drop_left]

/-- A token is read where its text stands, if it is read back from it. -/
theorem Lexed.cons {t : Token} {cs : List Char} {ts : List Token} (hwritable : t.isWritable = true)
    (hscan : Token.scan (t.text.toList ++ cs) = .ok (t, t.text.toList.length)) (h : Lexed cs ts) :
    Lexed (t.text.toList ++ cs) (t :: ts) := by
  have hend : t.isEnd = false := by
    cases t with
    | endOfInput => exact absurd hwritable Bool.false_ne_true
    | _ => rfl
  exact h.scanned (trivia_of_scan hscan hwritable) hscan hend

/-- **Tokens are read back from their texts**, each where the text behind it does not go on with
it. -/
theorem Lexed.token {t : Token} {cs : List Char} {ts : List Token} (hwritable : t.isWritable = true)
    (hnumber : ∀ x, t = .number x → Number.ReadsBack x) (hclear : t.isClear cs = true)
    (h : Lexed cs ts) : Lexed (t.text.toList ++ cs) (t :: ts) :=
  h.cons hwritable (Token.scan_text hwritable hnumber hclear)

theorem Lexed.symbol {cs : List Char} {ts : List Token} (s : Symbol)
    (hclear : (Token.symbol s).isClear cs = true) (h : Lexed cs ts) :
    Lexed (s.text.toList ++ cs) (.symbol s :: ts) :=
  h.token (t := .symbol s) rfl (fun _ hx => nomatch hx) hclear

end CommandScript
