import CommandScript.Error
import CommandScript.Proofs.Source.Place

/-!
# Proofs/Source/Line — the line a place is in

The lines of a text are what stands between its line feeds (`Source.line?`). The line and column of
a character say which line it is in, and where (`Source.line?_lineAt`). What is shown of a line with
an error is the line, but for a carriage return that ends it (`Error.lineOf_cases`).
-/

namespace CommandScript

namespace Source

/-- A line of a text, counted from one, without the line feed that ends it. -/
def line? (source : List Char) (n : Nat) : Option (List Char) := (source.splitOn '\n')[n - 1]?

theorem splitOn_newline (cs : List Char) : ('\n' :: cs).splitOn '\n' = [] :: cs.splitOn '\n' :=
  List.splitOnP_cons_eq_if_modifyHead _ _

theorem splitOn_cons {c : Char} (hc : c ≠ '\n') (cs : List Char) :
    (c :: cs).splitOn '\n' = (cs.splitOn '\n').modifyHead (c :: ·) := by
  rw [List.splitOn_eq_splitOnP, List.splitOnP_cons_eq_if_modifyHead, if_neg (by simpa using hc),
    List.splitOn_eq_splitOnP]

theorem splitOn_append : ∀ {text : List Char}, (∀ c ∈ text, c ≠ '\n') → ∀ rest : List Char,
    (text ++ rest).splitOn '\n' = (rest.splitOn '\n').modifyHead (text ++ ·)
  | [], _, rest => (congrFun List.modifyHead_id _).symm
  | c :: text, htext, rest => by
    obtain ⟨hc, htext⟩ := List.forall_mem_cons.1 htext
    rw [List.cons_append, splitOn_cons hc, splitOn_append htext, List.modifyHead_modifyHead]
    rfl

/-- There is one line more than there are line feeds. -/
theorem length_splitOn : ∀ cs : List Char, (cs.splitOn '\n').length = cs.count '\n' + 1
  | [] => rfl
  | c :: cs => by
    by_cases hc : c = '\n'
    · subst hc
      rw [splitOn_newline, List.length_cons, length_splitOn cs, List.count_cons_self]
    · rw [splitOn_cons hc, List.length_modifyHead, length_splitOn cs, List.count_cons_of_ne hc]

/-- Behind whole lines the lines go on. -/
theorem getElem?_splitOn_append {lines : List Char} (h : ∀ c ∈ lines.getLast?, c = '\n')
    (rest : List Char) :
    ((lines ++ rest).splitOn '\n')[lines.count '\n']? = (rest.splitOn '\n')[0]? := by
  obtain rfl | ⟨lines, c, rfl⟩ := List.eq_nil_or_concat lines
  · rfl
  · obtain rfl : c = '\n' := h c (by simp)
    rw [List.concat_eq_append, List.append_assoc, List.singleton_append,
      List.splitOn_eq_splitOnP, List.splitOnP_append_cons _ _ rfl, ← List.splitOn_eq_splitOnP,
      ← List.splitOn_eq_splitOnP, List.count_append, List.count_singleton_self, ← length_splitOn,
      List.getElem?_append_right (Nat.le_refl _), Nat.sub_self]

/-- **A character stands in the line and at the column that are counted for it.** -/
theorem line?_lineAt {source : List Char} {offset : Nat} {ch : Char}
    (h : source[offset]? = some ch) (hch : ch ≠ '\n') :
    ∃ text, line? source (lineAt source offset) = some text
      ∧ text[columnAt source offset - 1]? = some ch := by
  -- what is before the character: whole lines, and what its own line starts with
  generalize hlines : (source.take offset).rdropWhile (· != '\n') = lines
  generalize hstart : (source.take offset).rtakeWhile (· != '\n') = start
  have hbefore : source.take offset = lines ++ start := by
    rw [← hlines, ← hstart, List.rdropWhile_append_rtakeWhile]
  have hlast : ∀ c ∈ lines.getLast?, c = '\n' := by
    intro c hc
    obtain ⟨hne, rfl⟩ := List.mem_getLast?_eq_getLast hc
    subst hlines
    simpa using List.rdropWhile_last_not (· != '\n') _ hne
  have hin : ∀ c ∈ start, c ≠ '\n' := by
    intro c hc
    rw [← hstart] at hc
    simpa using List.mem_rtakeWhile_imp hc
  obtain ⟨rest, hrest⟩ : ∃ rest, source.drop offset = ch :: rest :=
    List.head?_eq_some_iff.1 (by rw [List.head?_drop, h])
  have hsource : source = lines ++ (start ++ [ch] ++ rest) := by
    rw [← List.take_append_drop offset source, hbefore, hrest]
    simp
  obtain ⟨more, others, hmore⟩ := List.exists_cons_of_ne_nil (List.splitOn_ne_nil '\n' rest)
  have hown : (start ++ [ch] ++ rest).splitOn '\n' = (start ++ [ch] ++ more) :: others := by
    rw [splitOn_append (List.forall_mem_append.2 ⟨hin, List.forall_mem_singleton.2 hch⟩), hmore,
      List.modifyHead_cons]
  have hcount : lineAt source offset - 1 = lines.count '\n' := by
    have hnone : start.count '\n' = 0 := List.count_eq_zero_of_not_mem fun hmem => hin _ hmem rfl
    rw [lineAt, hbefore, List.count_append, hnone, Nat.add_zero, Nat.add_sub_cancel_left]
  refine ⟨start ++ [ch] ++ more, ?_, ?_⟩
  · rw [line?, hcount, hsource, getElem?_splitOn_append hlast, hown]
    rfl
  · rw [columnAt, hstart, Nat.add_sub_cancel_left]
    simp

end Source

namespace Text

open Source

/-- The texts that are cut behind every line feed are the lines, with the line feed where there is
one; an empty line at the end is left out. -/
theorem split_cases : ∀ {cs : List Char} {k : Nat} {line : List Char},
    (cs.splitOn '\n')[k]? = some line → '\n' ∉ line
      ∧ ((linesOf.split cs)[k]? = some (line ++ ['\n']) ∨ ((linesOf.split cs)[k]?).getD [] = line)
  | [], k, line, h => by
    cases k with
    | zero =>
      obtain rfl : [] = line := Option.some.inj h
      exact ⟨List.not_mem_nil, .inr rfl⟩
    | succ k => nomatch h
  | c :: cs, k, line, h => by
    by_cases hc : c = '\n'
    · subst hc
      rw [splitOn_newline] at h
      rw [linesOf.split, if_pos rfl]
      cases k with
      | zero =>
        obtain rfl : [] = line := Option.some.inj h
        exact ⟨List.not_mem_nil, .inl rfl⟩
      | succ k => exact split_cases h
    · obtain ⟨first, others, hfirst⟩ := List.exists_cons_of_ne_nil (List.splitOn_ne_nil '\n' cs)
      rw [splitOn_cons hc, hfirst, List.modifyHead_cons] at h
      rw [linesOf.split, if_neg hc]
      have hrest {k : Nat} {line : List Char} (h : (first :: others)[k]? = some line) :=
        @split_cases cs k line (by rw [hfirst]; exact h)
      cases k with
      | zero =>
        obtain rfl : c :: first = line := Option.some.inj h
        obtain ⟨hnot, hcases⟩ := @hrest 0 first rfl
        refine ⟨by simpa [Ne.symm hc] using hnot, ?_⟩
        split
        · next hnil =>
          rw [hnil] at hcases
          obtain hfeed | rfl := hcases
          · nomatch hfeed
          · exact .inr rfl
        · next l ls hcons =>
          rw [hcons] at hcases
          exact hcases.imp (fun hfeed => congrArg (some <| c :: ·) (Option.some.inj hfeed))
            (congrArg (c :: ·))
      | succ k =>
        obtain ⟨hnot, hcases⟩ := @hrest (k + 1) line h
        refine ⟨hnot, ?_⟩
        split
        · next hnil =>
          rw [hnil] at hcases
          exact hcases.imp (fun hfeed => nomatch hfeed) id
        · next hcons => rwa [hcons] at hcases

theorem dropReturn_of_not_mem {line : List Char} (h : '\n' ∉ line) :
    linesOf.dropReturn line = line := by
  have hreverse : '\n' ∉ line.reverse := mt List.mem_reverse.1 h
  unfold linesOf.dropReturn
  split
  · next heq => exact absurd (heq ▸ List.mem_cons_self) hreverse
  · next heq => exact absurd (heq ▸ List.mem_cons_self) hreverse
  · rfl

theorem dropReturn_newline (line : List Char) :
    linesOf.dropReturn (line ++ ['\n']) = line
      ∨ line = linesOf.dropReturn (line ++ ['\n']) ++ ['\r'] := by
  unfold linesOf.dropReturn
  rw [List.reverse_append]
  split
  · next rest heq =>
    have hline : line.reverse = '\r' :: rest := (List.cons.inj heq).2
    exact .inr (by rw [← List.reverse_cons, ← hline, List.reverse_reverse])
  · next heq =>
    obtain rfl := (List.cons.inj heq).2
    exact .inl (List.reverse_reverse line)
  · next hne => exact absurd rfl (hne _)

end Text

namespace Error

/-- **The line shown is the line a span names**, but for a carriage return at its end. -/
theorem lineOf_cases {source : String} {span : Span} {line : List Char}
    (h : Source.line? source.toList span.line = some line) :
    (lineOf source span).toList = line ∨ line = (lineOf source span).toList ++ ['\r'] := by
  obtain ⟨hnot, hcases⟩ := Text.split_cases h
  rw [lineOf, Text.lines, Text.linesOf, List.map_map, List.getElem?_map]
  cases hpiece : (Text.linesOf.split source.toList)[span.line - 1]? with
  | none =>
    rw [hpiece] at hcases
    exact .inl (hcases.resolve_left fun hfeed => nomatch hfeed)
  | some piece =>
    have hshown : ((some piece).map (String.ofList ∘ Text.linesOf.dropReturn)).getD "" =
        String.ofList (Text.linesOf.dropReturn piece) := rfl
    rw [hshown, String.toList_ofList]
    rw [hpiece] at hcases
    obtain hfeed | hlast := hcases
    · rw [Option.some.inj hfeed]
      exact Text.dropReturn_newline line
    · obtain rfl : piece = line := hlast
      exact .inl (Text.dropReturn_of_not_mem hnot)

end Error

end CommandScript
