import CommandScript.Proofs.Parser.Brackets
import CommandScript.Proofs.Shell.Passes
import CommandScript.Repl.Basic

/-!
# Proofs/Repl/Continuation — an entry goes on while a bracket token is open

Whether an entry goes on is decided without tokens, by one walk over its characters that knows only
quotes, comments and backslashes. The walk passes over whatever stands before a token, and over a
token it counts what the token weighs (`Continuation.balance_of_scan`): it agrees with the reader of
tokens on where strings and comments end, although it takes any backslash in a template string for
an escape. Only a backslash outside strings parts the two, which is no token of the language. So the
walk finds the balance of the tokens (`Continuation.balance_of_lexes`).
-/

namespace CommandScript

namespace Continuation

open Scan (trivia)

/-! ## Characters that change nothing -/

/-- The character changes neither the count nor what the characters behind it belong to. -/
structure Neutral (mode : Mode) (c : Char) : Prop where
  hides : hidesNext mode c = false
  stays : modeAfter mode c = mode
  weighs : mode = .code → weight c = 0

variable {mode : Mode} {c : Char} {cs text rest : List Char}

theorem Neutral.balance_cons (h : Neutral mode c) (cs : List Char) :
    balance false mode (c :: cs) = balance false mode cs := by
  rw [balance, if_neg (by simp [h.hides]), h.stays]
  split
  · next hmode => rw [h.weighs hmode, zero_add]
  · rw [zero_add]

theorem balance_append_of_neutral (h : ∀ c ∈ text, Neutral mode c) :
    balance false mode (text ++ rest) = balance false mode rest := by
  induction text with
  | nil => rfl
  | cons c text ih =>
    obtain ⟨hc, htext⟩ := List.forall_mem_cons.1 h
    rw [List.cons_append, hc.balance_cons, ih htext]

/-- A hidden character is as good as not there. -/
theorem balance_hidden (mode : Mode) (cs : List Char) :
    balance true mode cs = balance false mode (cs.drop 1) := by
  cases cs <;> rfl

/-- The characters that are not neutral outside quotes and comments. -/
def marks : List Char := ['\'', '"', '#', '\\', '(', '[', '\x7b', ')', ']', '\x7d']

theorem neutral_code (hc : c ∉ marks) : Neutral .code c := by
  simp only [marks, List.mem_cons, List.not_mem_nil, or_false, not_or] at hc
  refine ⟨?_, ?_, fun _ => ?_⟩
  · simp [hidesNext, hc]
  · simp [modeAfter, hc]
  · simp [weight, hc]

/-- Characters of a class without marks are neutral. -/
theorem neutral_of_class {p : Char → Bool} (hp : marks.all (!p ·) = true) (hc : p c = true) :
    Neutral .code c := by
  refine neutral_code fun hmem => ?_
  have hnot := List.all_eq_true.1 hp c hmem
  rw [hc] at hnot
  exact absurd hnot Bool.false_ne_true

theorem neutral_of_isNameChar (hc : Scan.isNameChar c = true) : Neutral .code c :=
  neutral_of_class (by decide) hc

theorem neutral_of_isBlank (hc : Text.isBlank c = true) : Neutral .code c :=
  neutral_of_class (by decide) hc

theorem neutral_quoted {quote : Char} (hquote : c ≠ quote) (hslash : c ≠ '\\') :
    Neutral (.quoted quote) c := by
  refine ⟨?_, ?_, fun h => nomatch h⟩
  · simp [hidesNext, hslash]
  · simp [modeAfter, hquote]

theorem neutral_of_isQuoted {q : Scan.OpenQuote} (hc : Scan.isQuoted q c = true) :
    Neutral (.quoted q.char) c := by
  simp only [Scan.isQuoted, Bool.not_eq_true', Bool.or_eq_false_iff, beq_eq_false_iff_ne] at hc
  exact neutral_quoted hc.1.1 hc.1.2

theorem neutral_comment (hc : c ≠ '\n') : Neutral .comment c := by
  refine ⟨rfl, ?_, fun h => nomatch h⟩
  simp [modeAfter, hc]

/-! ## Blanks and comments -/

theorem balance_comment : ∀ cs : List Char,
    balance false .comment cs = balance false .code (cs.drop (trivia false true cs))
  | [] => rfl
  | c :: cs => by
    by_cases hc : c = '\n'
    · subst hc
      have hfeed : balance false .comment ('\n' :: cs) = balance false .code cs := zero_add _
      rw [hfeed]
      exact ((neutral_code (by decide)).balance_cons cs).symm
    · rw [(neutral_comment hc).balance_cons, balance_comment cs, Scan.trivia_cons hc,
        if_pos (by simp), List.drop_succ_cons]

/-- What may stand before a token changes nothing. -/
theorem balance_trivia : ∀ cs : List Char,
    balance false .code cs = balance false .code (cs.drop (trivia false false cs))
  | [] => rfl
  | c :: cs => by
    by_cases hfeed : c = '\n'
    · subst hfeed
      rfl
    rw [Scan.trivia_cons hfeed]
    split_ifs with hcomment hblank
    · obtain rfl : c = '#' := by simpa using hcomment
      have hopen : balance false .code ('#' :: cs) = balance false .comment cs := zero_add _
      rw [hopen, balance_comment, List.drop_succ_cons]
    · rw [(neutral_of_isBlank hblank).balance_cons, balance_trivia cs, List.drop_succ_cons]
    · rfl

/-! ## Strings -/

/-- Between double quotes: an escape is skipped by both readers, and of a backslash that escapes
nothing the walk hides a character that has no meaning there. -/
theorem balance_of_templateFrom : ∀ {k n : Nat} {cs : List Char} {parts : List Part},
    Scan.templateFrom k cs = some (parts, n) →
    balance false (.quoted '"') (cs.drop k) = balance false .code (cs.drop n)
  | _, _, [], _, h => by simp [Scan.templateFrom] at h
  | k + 1, n, c :: cs, parts, h => by
    rw [Scan.templateFrom] at h
    obtain ⟨_, m, hrest, rfl⟩ := Scan.exists_of_map_succ (f := id) h
    rw [List.drop_succ_cons, List.drop_succ_cons]
    exact balance_of_templateFrom hrest
  | 0, n, c :: cs, parts, h => by
    rw [Scan.templateFrom] at h
    rw [List.drop_zero]
    split at h
    · next hquote =>
      subst hquote
      obtain ⟨-, rfl⟩ := Prod.mk.inj (Option.some.inj h)
      exact zero_add _
    next hquote =>
    split at h
    · next hslash =>
      subst hslash
      have hescape : balance false (.quoted '"') ('\\' :: cs)
          = balance false (.quoted '"') (cs.drop 1) := balance_hidden _ cs
      rw [hescape]
      split at h
      · obtain ⟨_, m, hrest, rfl⟩ := Scan.exists_of_map_succ h
        exact balance_of_templateFrom hrest
      · next hnone =>
        obtain ⟨_, m, hrest, rfl⟩ := Scan.exists_of_map_succ h
        rw [List.drop_succ_cons, ← balance_of_templateFrom hrest, List.drop_zero]
        cases cs with
        | nil => rfl
        | cons next cs =>
          have hnext : Scan.isQuoted ⟨'"', 0⟩ next = true :=
            Scan.isQuoted_of_not_escaped rfl hnone
          exact ((neutral_of_isQuoted hnext).balance_cons cs).symm
    next hslash =>
    have hc : balance false (.quoted '"') (c :: cs) = balance false (.quoted '"') cs :=
      (neutral_quoted hquote hslash).balance_cons cs
    rw [hc]
    split at h
    · split at h
      · next name width hhole =>
        obtain ⟨_, m, hrest, rfl⟩ := Scan.exists_of_map_succ h
        obtain ⟨-, hchars⟩ := Scan.holeAt?_chars hhole
        have hname : balance false (.quoted '"') cs
            = balance false (.quoted '"') (cs.drop (width - 1)) := by
          conv => lhs; rw [← List.take_append_drop (width - 1) cs]
          exact balance_append_of_neutral fun c hc =>
            neutral_of_isQuoted (@Scan.isQuoted_of_name ⟨'"', 0⟩ c (.inr rfl) (hchars c hc))
        rw [hname]
        exact balance_of_templateFrom hrest
      · obtain ⟨_, m, hrest, rfl⟩ := Scan.exists_of_map_succ h
        exact balance_of_templateFrom hrest
    · obtain ⟨_, m, hrest, rfl⟩ := Scan.exists_of_map_succ h
      exact balance_of_templateFrom hrest

/-- Between single quotes nothing has a meaning but the closing quote. -/
theorem balance_rawBody (h : ∀ c ∈ text, c ≠ '\'') :
    balance false (.quoted '\'') (text ++ '\'' :: rest) = balance false .code rest := by
  induction text with
  | nil => exact zero_add _
  | cons c text ih =>
    obtain ⟨hc, htext⟩ := List.forall_mem_cons.1 h
    have hneutral : Neutral (.quoted '\'') c :=
      ⟨by simp [hidesNext], by simp [modeAfter, hc], fun h => nomatch h⟩
    rw [List.cons_append, hneutral.balance_cons, ih htext]

/-! ## Tokens -/

theorem weight_single (c : Char) : (Scan.single c).weight = weight c := by
  unfold Scan.single
  split
  case h_15 =>
    have hstray : (Token.stray c).weight = 0 := rfl
    simp_all [weight]
  all_goals rfl

theorem balance_of_pair {second : Char} {long short : Token} (hc : c ∉ marks)
    (hsecond : second ∉ marks) (hlong : long.weight = 0) (hshort : short.weight = 0) :
    balance false .code (c :: cs) = (Scan.pair cs second long short).1.weight
      + balance false .code ((c :: cs).drop (Scan.pair cs second long short).2) := by
  rw [(neutral_code hc).balance_cons]
  unfold Scan.pair
  split
  · next hhead =>
    obtain ⟨rest, rfl⟩ := List.head?_eq_some_iff.1 hhead
    rw [hlong, (neutral_code hsecond).balance_cons, zero_add]
    rfl
  · rw [hshort, zero_add]
    rfl

/-- A sign weighs what its character does. Quotes start strings and a hash sign starts a comment;
a backslash would hide what follows. -/
theorem balance_of_sign (hraw : c ≠ '\'') (htemplate : c ≠ '"') (hcomment : c ≠ '#')
    (hslash : (Scan.sign c cs).1 ≠ .stray '\\') :
    balance false .code (c :: cs)
      = (Scan.sign c cs).1.weight + balance false .code ((c :: cs).drop (Scan.sign c cs).2) := by
  unfold Scan.sign at hslash ⊢
  split at hslash
  case h_8 =>
    have hne : c ≠ '\\' := by
      rintro rfl
      exact hslash rfl
    rw [weight_single, balance, if_neg (by simp [hidesNext, hne]), if_pos rfl, modeAfter,
      if_neg (by simp [hraw, htemplate]), if_neg hcomment]
    rfl
  all_goals exact balance_of_pair (by decide) (by decide) rfl rfl

/-- **Over a token the walk counts what the token weighs**, unless it is a backslash. -/
theorem balance_of_scan {t : Token} {n : Nat} (hcs : trivia false false cs = 0)
    (h : Token.scan cs = .ok (t, n)) (ht : t ≠ .stray '\\') :
    balance false .code cs = t.weight + balance false .code (cs.drop n) := by
  cases cs with
  | nil =>
    rw [Token.scan_nil] at h
    obtain ⟨rfl, rfl⟩ := Prod.mk.inj (Except.ok.inj h)
    rfl
  | cons c cs =>
    rw [Token.scan_cons_eq] at h
    split at h
    · obtain ⟨⟨x, rfl⟩, -⟩ := Scan.number_ok h
      obtain ⟨text, rest, htext, rfl, hchars⟩ := Scan.number_text h
      have hneutral : ∀ c ∈ text, Neutral .code c := fun c hc => by
        obtain hdigit | rfl := hchars c hc
        · exact neutral_of_isNameChar (Scan.isNameChar_of_isDigit hdigit)
        · exact neutral_code (by decide)
      rw [htext, balance_append_of_neutral hneutral, List.drop_left]
      exact (zero_add _).symm
    split at h
    · have hweight : (Scan.name (c :: cs)).1.weight = 0 := by
        obtain ⟨k, hk⟩ | ⟨s, hs⟩ := Scan.name_cases (c :: cs)
        · rw [hk]
          rfl
        · rw [hs]
          rfl
      have hname : balance false .code (c :: cs) = balance false .code ((c :: cs).drop
          (Scan.name (c :: cs)).2) := by
        conv => lhs; rw [← Scan.take_length_takeWhile Scan.isNameChar (c :: cs)]
        exact balance_append_of_neutral fun c hc =>
          neutral_of_isNameChar (List.mem_takeWhile_imp hc)
      rw [Except.ok.inj h] at hweight hname
      rw [hname, hweight, zero_add]
    split at h
    · next hraw =>
      subst hraw
      obtain ⟨body, rest, rfl, rfl, rfl, hbody⟩ := Scan.rawString_text h
      have hopen : balance false .code ('\'' :: (body ++ '\'' :: rest))
          = balance false (.quoted '\'') (body ++ '\'' :: rest) := zero_add _
      have hdrop : ('\'' :: (body ++ '\'' :: rest)).drop (body.length + 2) = rest := by
        rw [List.drop_succ_cons, List.drop_append, List.drop_eq_nil_of_le (Nat.le_succ _),
          Nat.add_sub_cancel_left]
        rfl
      rw [hopen, balance_rawBody hbody, hdrop]
      exact (zero_add _).symm
    next hraw =>
    split at h
    · next htemplate =>
      subst htemplate
      split at h
      · next parts m hparts =>
        obtain ⟨rfl, rfl⟩ := Prod.mk.inj (Except.ok.inj h)
        have hopen : balance false .code ('"' :: cs) = balance false (.quoted '"') cs := zero_add _
        rw [hopen, List.drop_succ_cons, ← balance_of_templateFrom hparts]
        exact (zero_add _).symm
      · nomatch h
    next htemplate =>
    have hcomment : c ≠ '#' := by
      rintro rfl
      exact absurd hcs (Nat.succ_ne_zero _)
    have hsign := @balance_of_sign c cs hraw htemplate hcomment
    rw [Except.ok.inj h] at hsign
    exact hsign ht

/-- **The walk over a text finds the balance of its tokens**, if none of them is a backslash. -/
theorem balance_of_lexes {c : Cursor} {ts : List Token} (h : c.Lexes ts)
    (hts : Token.stray '\\' ∉ ts) : balance false .code c.rest = Token.balance ts := by
  have hstart (c : Cursor) : balance false .code c.rest
      = balance false .code (c.toToken false).rest := by
    rw [Cursor.toToken, Cursor.rest_skip]
    exact balance_trivia c.rest
  have htrivia (c : Cursor) : trivia false false (c.toToken false).rest = 0 := by
    rw [Cursor.toToken, Cursor.rest_skip]
    exact Scan.trivia_drop false false c.rest
  induction h with
  | @done c d t hnext ht =>
    have hend : (c.toToken false).rest = [] := by
      obtain ⟨n, hscan, -⟩ := Cursor.next_eq_ok_iff.1 hnext
      cases hrest : (c.toToken false).rest with
      | nil => rfl
      | cons ch rest =>
        rw [hrest] at hscan
        rw [(Token.scan_cons hscan).2.1] at ht
        exact absurd ht Bool.false_ne_true
    rw [hstart, hend]
    rfl
  | @more c d t ts hnext _ _ ih =>
    obtain ⟨hhead, hrest⟩ := not_or.1 (mt List.mem_cons.2 hts)
    obtain ⟨n, hscan, rfl, -⟩ := Cursor.next_eq_ok_iff.1 hnext
    rw [hstart, balance_of_scan (htrivia c) hscan (Ne.symm hhead), Token.balance_cons,
      ← ih hrest, Cursor.rest_skip]

/-! ## Counting in a word -/

/-- Open less closed brackets, counted from left to right in a word of 32 bits. -/
def count : (n : Int32) → (hidden : Bool) → Mode → List Char → Int32
  | n, _, _, [] => n
  | n, true, mode, _ :: cs => count n false mode cs
  | n, false, mode, c :: cs =>
    if hidesNext mode c then count n true mode cs
    else count (n + .ofInt (if mode = .code then weight c else 0)) false (modeAfter mode c) cs

theorem natAbs_weight_le (c : Char) : (weight c).natAbs ≤ 1 := by
  unfold weight
  split_ifs <;> decide

/-- No step leaves the word as long as the characters can be counted in it. -/
theorem toInt_count : ∀ (n : Int32) (hidden : Bool) (mode : Mode) (cs : List Char),
    n.toInt.natAbs + cs.length < 2 ^ 31 →
    (count n hidden mode cs).toInt = n.toInt + balance hidden mode cs
  | n, _, _, [], _ => (add_zero _).symm
  | n, true, mode, _ :: cs, h =>
    toInt_count n false mode cs (by rw [List.length_cons] at h; omega)
  | n, false, mode, c :: cs, h => by
    rw [List.length_cons] at h
    rw [count, balance]
    split
    · exact toInt_count n true mode cs (by omega)
    · generalize hw : (if mode = .code then weight c else 0) = w
      have hle : w.natAbs ≤ 1 := by
        rw [← hw]
        split
        · exact natAbs_weight_le c
        · decide
      have hstep : (n + .ofInt w).toInt = n.toInt + w := by
        rw [Int32.toInt_add, Int32.toInt_ofInt_of_le (by omega) (by omega)]
        exact Int.bmod_eq_of_le (by omega) (by omega)
      rw [toInt_count (n + .ofInt w) false (modeAfter mode c) cs (by rw [hstep]; omega), hstep,
        add_assoc]

end Continuation

/-- **An entry goes on exactly while more bracket tokens are open than closed.** A text that
consists of tokens, none of them a backslash without meaning, goes on if and only if it has more
opening than closing brackets among them; a text that is read as an expression never goes on. The
count decides the same in a word of 32 bits. -/
theorem needsContinuation_iff_brackets (source : String) (hsize : source.length < 2 ^ 31) :
    (∀ ts, tokenize source = .ok ts → (∀ t ∈ ts, t.token ≠ .stray '\\') →
      (needsContinuation source = true
        ↔ ts.countP (·.token.isCloser) < ts.countP (·.token.isOpener)))
    ∧ (∀ e, parseExpr source = .ok e → needsContinuation source = false)
    ∧ needsContinuation source = decide (0 < Continuation.count 0 false .code source.toList) := by
  refine ⟨fun located htokens hstray => ?_, fun e he => ?_, ?_⟩
  · obtain ⟨ts, hlex, hmap⟩ := lexes_of_tokenize htokens
    have hts : Token.stray '\\' ∉ located.map (·.token) := by
      rintro hmem
      obtain ⟨t, ht, heq⟩ := List.mem_map.1 hmem
      exact hstray t ht heq
    have hbalance : Continuation.balance false .code source.toList
        = Token.balance (located.map (·.token)) := by
      have hwalk := Continuation.balance_of_lexes hlex fun hmem =>
        hts (by rw [hmap]; exact List.mem_append_left _ hmem)
      rw [hmap, Token.balance_append]
      exact hwalk.trans (add_zero _).symm
    rw [needsContinuation, decide_eq_true_iff, hbalance, Token.balance_eq, List.countP_map,
      List.countP_map]
    simp only [Function.comp_def]
    omega
  · obtain ⟨ts, hlex, hlevel⟩ := Parser.level_of_parseExpr he
    have hwalk := Continuation.balance_of_lexes hlex (hlevel.stray_not_mem '\\')
    rw [hlevel.balance_eq_zero] at hwalk
    rw [needsContinuation, decide_eq_false_iff_not]
    exact hwalk.not_gt
  · have hcount := Continuation.toInt_count 0 false .code source.toList
      (by rwa [Int32.toInt_zero, String.length_toList, Int.natAbs_zero, Nat.zero_add])
    rw [Int32.toInt_zero, zero_add] at hcount
    rw [needsContinuation, ← hcount]
    exact decide_eq_decide.2 (by rw [Int32.lt_iff_toInt_lt, Int32.toInt_zero])

/-- The tokens of a call with a bracket in a string and one in a comment. -/
def openCallTokens : List Located :=
  [⟨.identifier "f", 0, 1, 1, 1⟩, ⟨.symbol .leftParen, 1, 2, 1, 2⟩,
    ⟨.template [.literal "\"("], 2, 7, 1, 3⟩, ⟨.symbol .comma, 7, 8, 1, 8⟩,
    ⟨.symbol .leftBracket, 9, 10, 1, 10⟩, ⟨.newline, 14, 15, 1, 15⟩, ⟨.endOfInput, 15, 15, 2, 1⟩]

theorem needsContinuation_openCall :
    tokenize "f(\"\\\"(\", [ # ]\n" = .ok openCallTokens
      ∧ needsContinuation "f(\"\\\"(\", [ # ]\n" = true := by
  have htokens : tokenize "f(\"\\\"(\", [ # ]\n" = .ok openCallTokens := rfl
  have hiff := (needsContinuation_iff_brackets _ (by decide)).1 openCallTokens htokens
    (by simp [openCallTokens])
  exact ⟨htokens, hiff.2 (by decide)⟩

end CommandScript
