import CommandScript.Proofs.Number.Literal
import CommandScript.Proofs.Token.Names

/-!
# Proofs/Token/Lexeme — which tokens their own text denotes

A token of a text is printed by `Token.text`. Tokenizing what is printed gives the token back in all
cases but two (`tokenize_text_iff`): a number too large for a double, which prints as the word `inf`,
and a template whose parts are not those its printed text reads as. In a template escapes are
printed as what they stand for and names without their braces, so `"\""` and `"${a}b"` are such.

For templates the length decides. Reading a template never finds more to print than it has read
(`length_of_templateFrom`); where it finds as much, nothing was an escape and no name stood in
braces, so each character was read as itself (`prints_of_templateFrom`).
-/

namespace CommandScript

open Scan

/-! ## Templates -/

namespace Part

theorem toList_textOf_consChar (c : Char) (parts : List Part) :
    (textOf (cons c parts)).toList = c :: (textOf parts).toList := by
  unfold cons
  split
  · simp [toList_textOf_cons, text]
  · simp [toList_textOf_cons, text]

/-- A character that stands for itself may be put in front. -/
theorem isReadBack_cons {c : Char} {parts : List Part}
    (hc : standsBefore ((textOf parts).toList ++ ['"']) c = true) (h : isReadBack parts = true) :
    isReadBack (cons c parts) = true := by
  unfold cons
  split
  · next s parts =>
    simp only [isReadBack, Bool.and_eq_true] at h
    obtain ⟨⟨⟨-, hstand⟩, hleading⟩, hparts⟩ := h
    rw [toList_textOf_cons, text, List.append_assoc] at hc
    simp [isReadBack, allStandBefore, hc, hstand, hleading, hparts]
  · next hliteral =>
    have hleading : leading parts = [] := by
      rcases parts with _ | ⟨⟨s⟩ | ⟨name⟩, parts⟩
      · rfl
      · exact absurd rfl (hliteral s parts)
      · rfl
    simp [isReadBack, allStandBefore, hc, hleading, h]

end Part

namespace Scan

/-- A name that stands without braces is all that could be one. -/
theorem takeWhile_of_holeAt? {cs : List Char} {name : String}
    (h : holeAt? cs = some (name, name.toList.length + 1)) :
    name.toList = cs.takeWhile isNameChar := by
  cases cs with
  | nil => cases h
  | cons c rest =>
    rw [holeAt?] at h
    split at h
    · obtain ⟨rfl, -⟩ := Prod.mk.inj (Option.some.inj h)
      exact String.toList_ofList
    split at h
    · dsimp only at h
      split at h
      · split at h
        · obtain ⟨rfl, hwidth⟩ := Prod.mk.inj (Option.some.inj h)
          rw [String.toList_ofList] at hwidth
          omega
        · cases h
      · cases h
    · cases h

theorem head?_drop_takeWhile (p : Char → Bool) (cs : List Char) :
    (cs.drop (cs.takeWhile p).length).head?.any p = false := by
  induction cs with
  | nil => rfl
  | cons c cs ih =>
    cases hc : p c with
    | true => rwa [List.takeWhile_cons_of_pos hc]
    | false => simp [hc]

/-- Reading a template does not find more to print than was read. -/
theorem length_of_templateFrom (k : Nat) (cs : List Char) : ∀ r ∈ templateFrom k cs,
    (Part.textOf r.1).toList.length + k + 1 ≤ cs.length := by
  fun_induction templateFrom k cs with
  | case1 => exact fun _ hr => absurd hr (by simp)
  | case2 k c cs ih =>
    intro _ hmap
    obtain ⟨r, hr, rfl⟩ := Option.map_eq_some_iff.1 hmap
    exact Nat.succ_le_succ (ih r hr)
  | case3 cs =>
    rintro r ⟨⟩
    simp [Part.textOf]
  | case4 cs e _ _ ih =>
    intro _ hmap
    obtain ⟨r, hr, rfl⟩ := Option.map_eq_some_iff.1 hmap
    have := ih r hr
    simp only [Part.toList_textOf_consChar, List.length_cons]
    omega
  | case6 cs name width hhole _ _ ih =>
    intro _ hmap
    obtain ⟨r, hr, rfl⟩ := Option.map_eq_some_iff.1 hmap
    have := ih r hr
    have hwidth : name.toList.length + 1 ≤ width := by
      obtain ⟨-, ⟨-, -, rfl⟩ | ⟨-, -, rfl⟩⟩ := holeAt?_cases hhole
      · exact Nat.le_refl _
      · omega
    simp only [toList_textOf_cons, toList_text_hole, List.length_append, List.length_cons]
    omega
  | case5 cs _ _ ih | case7 cs _ _ _ ih | case8 c cs _ _ _ ih =>
    intro _ hmap
    obtain ⟨r, hr, rfl⟩ := Option.map_eq_some_iff.1 hmap
    have := ih r hr
    simp only [Part.toList_textOf_consChar, List.length_cons]
    omega

/-- The parts print as the text did that is left behind the first `k` characters, and are read back
from that, if they print as much. -/
def Prints (k : Nat) (cs : List Char) (parts : List Part) : Prop :=
  cs.length = (Part.textOf parts).toList.length + k + 1 →
    cs.drop k = (Part.textOf parts).toList ++ ['"'] ∧ Part.isReadBack parts = true

theorem Prints.cons {c : Char} {cs : List Char} {parts : List Part}
    (hc : standsBefore cs c = true) (h : Prints 0 cs parts) :
    Prints 0 (c :: cs) (Part.cons c parts) := by
  intro hlength
  rw [Part.toList_textOf_consChar] at hlength ⊢
  obtain ⟨rfl, hparts⟩ := h (Nat.succ.inj hlength)
  exact ⟨rfl, Part.isReadBack_cons hc hparts⟩

theorem Prints.hole {name : String} {cs : List Char} {parts : List Part}
    (hhole : holeAt? cs = some (name, name.toList.length + 1))
    (h : Prints name.toList.length cs parts) : Prints 0 ('$' :: cs) (.hole name :: parts) := by
  intro hlength
  rw [toList_textOf_cons, toList_text_hole] at hlength ⊢
  simp only [List.length_append, List.length_cons] at hlength
  obtain ⟨hdrop, hparts⟩ := h (by omega)
  have htake := take_length_takeWhile isNameChar cs
  have hhead := head?_drop_takeWhile isNameChar cs
  rw [← takeWhile_of_holeAt? hhole, hdrop] at htake hhead
  have hclear : (Part.textOf parts).toList.head?.any isNameChar = false := by
    cases htext : (Part.textOf parts).toList with
    | nil => rfl
    | cons c cs => rwa [htext] at hhead
  constructor
  · rw [List.drop_zero, List.cons_append, List.cons_append, List.append_assoc, htake]
  · simp [Part.isReadBack, isName_of_holeAt? hhole, hclear, hparts]

/-- **Parts that print as the template they were read from are read back.** -/
theorem prints_of_templateFrom (k : Nat) (cs : List Char) :
    ∀ r ∈ templateFrom k cs, Prints k cs r.1 := by
  fun_induction templateFrom k cs with
  | case1 => exact fun _ hr => absurd hr (by simp)
  | case2 k c cs ih =>
    intro _ hmap hlength
    obtain ⟨r, hr, rfl⟩ := Option.map_eq_some_iff.1 hmap
    exact ih r hr (Nat.succ.inj hlength)
  | case3 cs =>
    rintro r ⟨⟩ hlength
    obtain rfl : cs = [] := by simpa [Part.textOf] using hlength
    exact ⟨rfl, rfl⟩
  | case4 cs e _ _ ih =>
    -- an escape takes two characters and prints one
    intro _ hmap hlength
    obtain ⟨r, hr, rfl⟩ := Option.map_eq_some_iff.1 hmap
    have := length_of_templateFrom 1 cs r hr
    simp only [Part.toList_textOf_consChar, List.length_cons] at hlength
    omega
  | case6 cs name width hhole _ _ ih =>
    intro _ hmap
    obtain ⟨r, hr, rfl⟩ := Option.map_eq_some_iff.1 hmap
    obtain ⟨-, ⟨-, -, rfl⟩ | ⟨-, -, rfl⟩⟩ := holeAt?_cases hhole
    · exact (ih r hr).hole hhole
    · -- in braces, a name takes two characters more than it prints
      intro hlength
      have := length_of_templateFrom _ cs r hr
      simp only [toList_textOf_cons, toList_text_hole, List.length_append, List.length_cons]
        at hlength
      omega
  | case5 cs hescape _ ih =>
    intro _ hmap
    obtain ⟨r, hr, rfl⟩ := Option.map_eq_some_iff.1 hmap
    exact (ih r hr).cons (by simp [standsBefore, hescape])
  | case7 cs hhole _ _ ih =>
    intro _ hmap
    obtain ⟨r, hr, rfl⟩ := Option.map_eq_some_iff.1 hmap
    exact (ih r hr).cons (by simp [standsBefore, hhole])
  | case8 c cs hquote hslash hdollar ih =>
    intro _ hmap
    obtain ⟨r, hr, rfl⟩ := Option.map_eq_some_iff.1 hmap
    exact (ih r hr).cons (by simp [standsBefore, hquote, hslash, hdollar])

end Scan

/-! ## What the tokens of a text are -/

namespace Scan

theorem number_literal {cs : List Char} {t : Token} {n : Nat} (h : number cs = .ok (t, n)) :
    ∃ whole fraction, t = .number (Number.ofLiteral whole fraction) := by
  unfold number at h
  dsimp only at h
  split at h
  · obtain ⟨rfl, -⟩ := Prod.mk.inj (Except.ok.inj h)
    exact ⟨_, _, rfl⟩
  · split at h
    · cases h
    · exact ⟨_, _, (finish_ok h).1⟩
  · exact ⟨_, _, (finish_ok h).1⟩

theorem single_stray {c d : Char} (h : single c = .stray d) : d = c := by
  unfold single at h
  split at h <;> cases h
  rfl

/-- A character that means nothing where it stands means nothing alone. -/
theorem sign_stray {c d : Char} {cs : List Char} {n : Nat} (h : sign c cs = (.stray d, n)) :
    d = c ∧ sign c [] = (.stray c, 1) := by
  fun_cases sign c cs with
  | case8 c h₁ h₂ h₃ h₄ h₅ h₆ h₇ =>
    rw [sign.eq_8 c cs h₁ h₂ h₃ h₄ h₅ h₆ h₇] at h
    obtain ⟨hsingle, -⟩ := Prod.mk.inj h
    obtain rfl := single_stray hsingle
    exact ⟨rfl, by rw [sign.eq_8 d [] h₁ h₂ h₃ h₄ h₅ h₆ h₇, hsingle]⟩
  | _ =>
    rcases pair_cases cs _ _ _ with hpair | hpair
    all_goals
      cases hpair.symm.trans h <;> exact ⟨rfl, rfl⟩

theorem trivia_head {c : Char} {cs : List Char} (h : trivia false false (c :: cs) = 0) :
    trivia false false [c] = 0 := by
  by_cases hfeed : c = '\n'
  · rw [hfeed]
    rfl
  · rw [trivia_cons hfeed] at h ⊢
    split_ifs at h ⊢
    rfl

end Scan

namespace Token

/-- What is known of a token that was read from a text. -/
def IsScanned : Token → Prop
  | number x => ∃ whole fraction, x = Number.ofLiteral whole fraction
  | string s => s.toList.contains '\'' = false
  | identifier name => isIdentifier name = true
  | stray c => scan [c] = .ok (.stray c, 1) ∧ trivia false false [c] = 0
  | word _ => False
  | template _ | keyword _ | symbol _ | newline | endOfInput => True

theorem isScanned_of_scan {cs : List Char} {t : Token} {n : Nat} (h : scan cs = .ok (t, n))
    (htrivia : trivia false false cs = 0) : t.IsScanned := by
  have hnamed := named_of_scan h
  cases cs with
  | nil =>
    obtain ⟨rfl, -⟩ := Prod.mk.inj (Except.ok.inj h)
    trivial
  | cons c cs =>
    rw [scan_cons_eq] at h
    split at h
    · obtain ⟨whole, fraction, rfl⟩ := number_literal h
      exact ⟨whole, fraction, rfl⟩
    next hdigit =>
    split at h
    · obtain ⟨k, hk⟩ | ⟨word, hword⟩ := name_cases (c :: cs)
      · obtain rfl : .keyword k = t := by rw [← hk, Except.ok.inj h]
        trivial
      · obtain rfl : .identifier word = t := by rw [← hword, Except.ok.inj h]
        exact hnamed.1
    next hname =>
    split at h
    · obtain ⟨body, -, -, rfl, -, hbody⟩ := Scan.rawString_text h
      simpa [IsScanned] using fun hmem => hbody _ hmem rfl
    next hsingle =>
    split at h
    · split at h
      · obtain ⟨rfl, -⟩ := Prod.mk.inj (Except.ok.inj h)
        trivial
      · cases h
    next hdouble =>
    obtain ⟨hcases, -⟩ := sign_cases c cs
    rw [Except.ok.inj h] at hcases
    obtain ⟨s, rfl⟩ | ⟨d, rfl⟩ | ⟨-, rfl⟩ := hcases
    · trivial
    · obtain ⟨rfl, hsign⟩ := sign_stray (Except.ok.inj h)
      refine ⟨?_, trivia_head htrivia⟩
      rw [scan_cons_eq, if_neg hdigit, if_neg hname, if_neg hsingle, if_neg hdouble, hsign]
    · trivial

end Token

namespace Cursor

/-- Each token of a text was read from some part of it. -/
theorem Lexes.isScanned {c : Cursor} {ts : List Token} (h : c.Lexes ts) :
    ∀ t ∈ ts, t.IsScanned := by
  induction h with
  | done => exact List.forall_mem_nil _
  | @more c d t ts hnext _ _ ih =>
    refine List.forall_mem_cons.2 ⟨?_, ih⟩
    obtain ⟨n, hscan, -, -⟩ := next_eq_ok_iff.1 hnext
    refine Token.isScanned_of_scan hscan ?_
    rw [toToken, rest_skip]
    exact trivia_drop false false c.rest

/-- The first token is what is read where no blank stands. -/
theorem Lexes.scan {c : Cursor} {t : Token} {ts : List Token} (h : c.Lexes (t :: ts))
    (htrivia : trivia false false c.rest = 0) : ∃ n, Token.scan c.rest = .ok (t, n) := by
  cases h with
  | more hnext _ _ =>
    obtain ⟨n, hscan, -, -⟩ := next_eq_ok_iff.1 hnext
    rw [toToken, htrivia, skip_zero] at hscan
    exact ⟨n, hscan⟩

end Cursor

/-! ## Reading a token back -/

namespace Token

/-- Whether the token is read back from its own text: a number if it is finite, a template if its
parts are those that its text reads as. -/
def isFaithful : Token → Bool
  | number x => x.isFinite
  | template parts => Part.isReadBack parts
  | _ => true

theorem toList_text_template (parts : List Part) :
    (template parts).text.toList = '"' :: (Part.textOf parts).toList ++ ['"'] := by
  simp [text, String.toList_append]

/-- **A faithful token of a text is read back from its own text.** -/
theorem lexed_text {t : Token} (hscanned : t.IsScanned) (hfaithful : t.isFaithful = true)
    (hnumber : ∀ x, t = .number x → x.isFinite = true → Number.ReadsBack x)
    (hline : t ≠ .newline) (hend : t ≠ .endOfInput) : Lexed t.text.toList [t] := by
  have hwritten (hwritable : t.isWritable = true) (hclear : t.isClear [] = true) :
      Lexed t.text.toList [t] := by
    rw [← List.append_nil t.text.toList]
    refine lexed_nil.token hwritable (fun x hx => hnumber x hx ?_) hclear
    rw [hx] at hfaithful
    exact hfaithful
  cases t with
  | number x =>
    obtain ⟨whole, fraction, rfl⟩ := hscanned
    obtain ⟨e, hexact, hsign⟩ := Number.exact_ofLiteral hfaithful
    exact hwritten (by simp [isWritable, Number.isUnsigned, hexact, hsign]) rfl
  | string s => exact hwritten (by rw [isWritable, hscanned]; rfl) rfl
  | identifier name => exact hwritten hscanned rfl
  | keyword k => exact hwritten rfl rfl
  | symbol s => exact hwritten rfl (by cases s <;> rfl)
  | template parts =>
    have hscan := scan_template (@templateFrom_text [] parts hfaithful)
    rw [toList_text_template, ← List.append_nil (_ ++ _)]
    refine lexed_nil.scanned rfl ?_ rfl
    rw [List.append_nil, List.cons_append, hscan]
    simp
  | stray c =>
    have htext : (stray c).text.toList = [c] ++ [] := String.toList_singleton c
    rw [htext]
    exact lexed_nil.scanned hscanned.2 hscanned.1 rfl
  | word parts => exact absurd hscanned id
  | newline => exact absurd rfl hline
  | endOfInput => exact absurd rfl hend

/-- A number without an exact value is printed as a word, which is no number. -/
theorem scan_text_of_not_exact {x : Float} (h : Exact.of? x = none) :
    trivia false false (number x).text.toList = 0
      ∧ ∀ y n, scan (number x).text.toList ≠ .ok (number y, n) := by
  rw [text, Number.text, h]
  dsimp only
  split_ifs
  · exact ⟨rfl, fun y n hscan => by cases hscan⟩
  · exact ⟨rfl, fun y n hscan => by cases hscan⟩
  · exact ⟨rfl, fun y n hscan => by cases hscan⟩

/-- **Only a faithful token is read back from its own text.** -/
theorem isFaithful_of_lexes {t : Token} {c : Cursor} (hc : c.rest = t.text.toList)
    (h : c.Lexes [t]) : t.isFaithful = true := by
  cases t with
  | number x =>
    cases hexact : Exact.of? x with
    | some e => exact Number.isFinite_of_exact hexact
    | none =>
      obtain ⟨htrivia, hscan⟩ := scan_text_of_not_exact hexact
      rw [← hc] at htrivia hscan
      obtain ⟨n, hn⟩ := h.scan htrivia
      exact absurd hn (hscan x n)
  | template parts =>
    rw [toList_text_template] at hc
    obtain ⟨n, hscan⟩ := h.scan (by rw [hc]; rfl)
    rw [hc, List.cons_append, scan_cons_eq, if_neg (by decide), if_neg (by decide),
      if_neg (by decide), if_pos rfl] at hscan
    split at hscan
    · next found m htemplate =>
      obtain ⟨heq, -⟩ := Prod.mk.inj (Except.ok.inj hscan)
      obtain rfl := template.inj heq
      exact (prints_of_templateFrom 0 _ _ htemplate (by simp)).2
    · cases hscan
  | _ => rfl

end Token

/-- **A token of a text is read back from its own text exactly if it is faithful**; ends of lines and
of the text have no text of their own. That the digits of a finite number stand for it is a property
of decimal conversion. -/
theorem tokenize_text_iff {source : String} {tokens : List Located}
    (h : tokenize source = .ok tokens) {t : Located} (ht : t ∈ tokens)
    (hline : t.token ≠ .newline) (hend : t.token ≠ .endOfInput)
    (hnumber : ∀ x, t.token = .number x → x.isFinite = true → Number.ReadsBack x) :
    (∃ located, tokenize t.token.text = .ok located
        ∧ located.map (·.token) = [t.token, .endOfInput])
      ↔ t.token.isFaithful = true := by
  obtain ⟨ts, hlexes, htokens⟩ := lexes_of_tokenize h
  have hmem : t.token ∈ ts := by
    have hall : t.token ∈ ts ++ [.endOfInput] := htokens ▸ List.mem_map_of_mem ht
    exact (List.mem_append.1 hall).resolve_right fun hlast => hend (List.mem_singleton.1 hlast)
  constructor
  · rintro ⟨located, hread, hlocated⟩
    obtain ⟨us, hus, hall⟩ := lexes_of_tokenize hread
    obtain rfl : us = [t.token] := List.append_cancel_right (hall.symm.trans hlocated)
    exact Token.isFaithful_of_lexes rfl hus
  · intro hfaithful
    exact tokenize_of_lexes
      (Token.lexed_text (hlexes.isScanned _ hmem) hfaithful hnumber hline hend _ rfl)

/-- A dollar sign before a name and a backslash that escapes nothing are printed as they stood. -/
theorem tokenize_text_backslash :
    let t : Located := ⟨.template [.hole "a", .literal " \\d"], ⟨0, 7, 1, 1⟩⟩
    tokenize "\"$a \\d\"" = .ok [t, ⟨.endOfInput, ⟨7, 7, 1, 8⟩⟩]
      ∧ ∃ located, tokenize t.token.text = .ok located
        ∧ located.map (·.token) = [t.token, .endOfInput] := by
  intro t
  have hread : tokenize "\"$a \\d\"" = .ok [t, ⟨.endOfInput, ⟨7, 7, 1, 8⟩⟩] := rfl
  exact ⟨hread, (tokenize_text_iff hread List.mem_cons_self (fun h => by cases h)
    (fun h => by cases h) fun x hx => by cases hx).2 (by decide)⟩

/-- **Braces around a name are lost in print**, and the name runs into what follows. -/
theorem tokenize_text_braces :
    let t : Located := ⟨.template [.hole "a", .literal "b"], ⟨0, 7, 1, 1⟩⟩
    tokenize "\"$\x7ba\x7db\"" = .ok [t, ⟨.endOfInput, ⟨7, 7, 1, 8⟩⟩] ∧ t.token.text = "\"$ab\""
      ∧ tokenize "\"$ab\"" = .ok [⟨.template [.hole "ab"], ⟨0, 5, 1, 1⟩⟩, ⟨.endOfInput, ⟨5, 5, 1, 6⟩⟩]
      ∧ ¬ ∃ located, tokenize t.token.text = .ok located
        ∧ located.map (·.token) = [t.token, .endOfInput] := by
  refine ⟨rfl, rfl, rfl, ?_⟩
  rintro ⟨located, hread, hlocated⟩
  have hab : tokenize "\"$ab\""
      = .ok [⟨.template [.hole "ab"], ⟨0, 5, 1, 1⟩⟩, ⟨.endOfInput, ⟨5, 5, 1, 6⟩⟩] := rfl
  obtain rfl := Except.ok.inj (hab.symm.trans hread)
  obtain ⟨htoken, -⟩ := List.cons.inj hlocated
  exact absurd (Token.template.inj htoken) (by decide)

end CommandScript
