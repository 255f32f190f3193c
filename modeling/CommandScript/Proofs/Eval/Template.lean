import CommandScript.Proofs.Eval.Tracked
import CommandScript.Proofs.Parser.RoundTrip
import CommandScript.Session

/-!
# Proofs/Eval/Template — every template can be written down

What a template holds can be written between double quotes whatever characters it is made of: a
backslash goes before each character that means something in a template, and names stand in braces
(`Part.quoted`). The text reads as these very parts, if they are parts as reading finds them: no
literal is empty, no two of them adjoin, and names are names (`Part.isNormal`).

Reading builds a literal up from its end, character by character (`Part.cons`). So it is enough that
a character as it is written puts itself in front of what is read behind it
(`Scan.templateFrom_escape`).
-/

namespace CommandScript

open Scan

/-- A character of a literal as it can be written in every template. -/
def Scan.escape (c : Char) : List Char := if isLiteral c then [c] else ['\\', c]

namespace Part

/-- A part as it can be written in every template. -/
def written : Part → List Char
  | literal s => s.toList.flatMap escape
  | hole name => '$' :: '\x7b' :: (name.toList ++ ['\x7d'])

/-- The template of the parts. -/
def quoted (parts : List Part) : String := String.ofList ('"' :: (parts.flatMap written ++ ['"']))

/-- Whether the parts are as reading finds them: literals are not empty and do not adjoin, and names
are names. -/
def isNormal : List Part → Bool
  | [] => true
  | literal s :: parts => !s.toList.isEmpty && (leading parts).isEmpty && isNormal parts
  | hole name :: parts => isName name && isNormal parts

/-- A part with names replaced by what `form` gives for them. -/
def filled (form : String → String) : Part → String
  | literal s => s
  | hole name => form name

end Part

/-! ## Reading -/

namespace Scan

variable {cs rest : List Char} {parts : List Part} {n : Nat}

theorem escaped?_of_not_isLiteral {c : Char} (h : isLiteral c = false) : escaped? c = some c := by
  have hspecial : (c = '"' || c = '\\' || c = '$') = true := by
    simpa [isLiteral, imp_iff_or_not, or_assoc, or_comm, or_left_comm] using h
  rw [escaped?, if_pos hspecial]

theorem standsBefore_of_isLiteral {c : Char} (h : isLiteral c = true) (cs : List Char) :
    standsBefore cs c = true :=
  (Bool.and_eq_true_iff.1 (allStandBefore_of_isLiteral cs (List.forall_mem_singleton.2 h))).1

/-- **A character as it is written reads as itself.** -/
theorem templateFrom_escape (c : Char) (h : templateFrom 0 rest = some (parts, n)) :
    templateFrom 0 (escape c ++ rest) = some (Part.cons c parts, (escape c).length + n) := by
  cases hc : isLiteral c with
  | true =>
    have hescape : escape c = [c] := if_pos hc
    rw [hescape, List.singleton_append, templateFrom_cons (standsBefore_of_isLiteral hc rest), h]
    simp [Nat.add_comm]
  | false =>
    have hescape : escape c = ['\\', c] := if_neg (by simp [hc])
    have hskip : templateFrom 1 (c :: rest) = some (parts, 1 + n) := @templateFrom_skip [c] _ _ _ h
    have hhead : (c :: rest).head?.bind escaped? = some c := escaped?_of_not_isLiteral hc
    rw [hescape, List.cons_append, List.singleton_append, templateFrom, if_neg (by decide),
      if_pos rfl, hhead]
    dsimp only
    rw [hskip]
    simp [Nat.add_comm, Nat.add_left_comm]

theorem templateFrom_escapes (h : templateFrom 0 rest = some (parts, n)) : ∀ cs : List Char,
    templateFrom 0 (cs.flatMap escape ++ rest)
      = some (cs.foldr Part.cons parts, (cs.flatMap escape).length + n)
  | [] => by simpa using h
  | c :: cs => by
    rw [List.flatMap_cons, List.append_assoc, templateFrom_escape c (templateFrom_escapes h cs),
      List.foldr_cons, List.length_append, Nat.add_assoc]

/-- A name in braces reads as the name to fill in, whatever follows. -/
theorem templateFrom_braces {name : String} (hname : isName name = true)
    (h : templateFrom 0 rest = some (parts, n)) :
    templateFrom 0 ((Part.hole name).written ++ rest)
      = some (.hole name :: parts, (Part.hole name).written.length + n) := by
  have htake : (name.toList ++ '\x7d' :: rest).takeWhile isNameChar = name.toList :=
    takeWhile_name hname rfl
  have hhole : holeAt? ('\x7b' :: (name.toList ++ '\x7d' :: rest))
      = some (name, name.toList.length + 3) := by
    obtain ⟨c, cs, hword, hstart, -⟩ := isName_cons hname
    rw [holeAt?, if_neg (by decide), if_pos rfl, htake]
    dsimp only
    rw [List.drop_left, hword]
    refine (if_pos hstart).trans ?_
    rw [← hword, String.ofList_toList]
  -- behind the dollar sign, the name and its braces are passed over
  have hskip := @templateFrom_skip ('\x7b' :: (name.toList ++ ['\x7d'])) _ _ _ h
  have hlength : ('\x7b' :: (name.toList ++ ['\x7d'])).length = name.toList.length + 3 - 1 := by
    simp
  rw [List.cons_append, List.append_assoc, List.singleton_append, hlength] at hskip
  rw [Part.written, List.cons_append, List.cons_append, List.append_assoc, List.singleton_append,
    templateFrom, if_neg (by decide), if_neg (by decide), if_pos rfl, hhole]
  dsimp only
  rw [hskip, Option.map_some, List.length_cons, hlength, Nat.add_right_comm]

end Scan

namespace Part

variable {parts : List Part}

/-- Characters put in front one by one are a literal. -/
theorem foldr_cons_of_leading (hparts : leading parts = []) (hnormal : isNormal parts = true) :
    ∀ {cs : List Char}, cs ≠ [] → cs.foldr cons parts = literal (String.ofList cs) :: parts
  | [c], _ => by
    rcases parts with _ | ⟨⟨s⟩ | ⟨name⟩, parts⟩
    · rfl
    · rw [leading] at hparts
      simp [isNormal, hparts] at hnormal
    · rfl
  | c :: d :: cs, _ => by
    rw [List.foldr_cons, foldr_cons_of_leading hparts hnormal (List.cons_ne_nil d cs), cons,
      String.toList_ofList]

end Part

/-- **A template reads as its parts.** -/
theorem Scan.templateFrom_written {rest : List Char} : ∀ {parts : List Part},
    Part.isNormal parts = true → templateFrom 0 (parts.flatMap Part.written ++ '"' :: rest)
      = some (parts, (parts.flatMap Part.written).length + 1)
  | [], _ => rfl
  | .literal s :: parts, h => by
    simp only [Part.isNormal, Bool.and_eq_true, Bool.not_eq_true', List.isEmpty_iff,
      List.isEmpty_eq_false_iff] at h
    obtain ⟨⟨hne, hleading⟩, hparts⟩ := h
    rw [List.flatMap_cons, List.append_assoc, Part.written,
      templateFrom_escapes (templateFrom_written hparts),
      Part.foldr_cons_of_leading hleading hparts hne, String.ofList_toList, List.length_append,
      Nat.add_assoc]
  | .hole name :: parts, h => by
    obtain ⟨hname, hparts⟩ := Bool.and_eq_true_iff.1 h
    rw [List.flatMap_cons, List.append_assoc,
      templateFrom_braces hname (templateFrom_written hparts), List.length_append, Nat.add_assoc]

theorem lexed_quoted {parts : List Part} (h : Part.isNormal parts = true) :
    Lexed (Part.quoted parts).toList [.template parts] := by
  have hscan := Token.scan_template (@templateFrom_written [] parts h)
  have hlength : (parts.flatMap Part.written).length + 1 + 1
      = ('"' :: (parts.flatMap Part.written ++ ['"'])).length := by
    simp
  rw [hlength] at hscan
  rw [Part.quoted, String.toList_ofList]
  simpa using lexed_nil.scanned rfl (by simpa using hscan) rfl

/-! ## Evaluating -/

/-- Where all names have values, filling in succeeds. -/
theorem Part.fill_insertionOf {m : Machine} {values : String → Value} : ∀ {parts : List Part},
    (∀ name, .hole name ∈ parts → m.scopes.lookup m.current name = .ok (values name)) →
    Part.fill Exec.insertionOf parts m
      = .ok (String.join (parts.map (Part.filled fun name => m.store.insertion (values name)))) m
  | [], _ => rfl
  | .literal s :: parts, h => by
    have hparts := fill_insertionOf fun name hname => h name (List.mem_cons_of_mem _ hname)
    rw [Part.fill, Exec.bind_of_ok hparts, List.map_cons, String.join_cons]
    rfl
  | .hole name :: parts, h => by
    have hname : Exec.insertionOf name m = .ok (m.store.insertion (values name)) m := by
      have hvalue := h name List.mem_cons_self
      have hlookup : Exec.lookup name m = .ok (values name) m := by
        unfold Exec.lookup Exec.look
        dsimp only
        rw [hvalue]
      rw [Exec.insertionOf, Exec.bind_of_ok hlookup]
      rfl
    have hparts := fill_insertionOf fun name hname => h name (List.mem_cons_of_mem _ hname)
    rw [Part.fill, Exec.bind_of_ok hname, Exec.bind_of_ok hparts, List.map_cons, String.join_cons]
    rfl

/-- **Every template can be written down.** The text reads as the one token with its parts. Where the
names have values, the template is a new string: the literals and the texts of the values, in
order. -/
theorem tokenize_quoted {parts : List Part} (h : Part.isNormal parts = true) :
    (∃ located, tokenize (Part.quoted parts) = .ok located
      ∧ located.map (·.token) = [.template parts, .endOfInput])
    ∧ parseExpr (Part.quoted parts) = .ok (.template parts)
    ∧ ∀ (host : Host) (m : Machine) (values : String → Value),
      (∀ name, .hole name ∈ parts → m.scopes.lookup m.current name = .ok (values name)) →
      let new := m.store.newString
        (String.join (parts.map (Part.filled fun name => m.store.insertion (values name))))
      (Expr.template parts).run host m = .ok new.1 { m with store := new.2 } := by
  have hlex := lexed_quoted h
  refine ⟨tokenize_of_lexes (hlex _ rfl), ?_, fun host m values hvalues => ?_⟩
  · have hphrase : Grammar.Phrase (.template parts) := .of_primary fun _ => .template parts
    have hheight : 2 * (Expr.template parts).height < maxDepth := by
      rw [Expr.height]
      decide
    exact Parser.parseExpr_of_lexed hlex (hphrase.expression hheight)
  · rw [Expr.run, Expr.eval, Exec.bind_of_ok (Part.fill_insertionOf hvalues)]
    rfl

/-- A quote, a backslash and a dollar sign around the arguments of the script. -/
theorem tokenize_quoted_argv :
    let parts : List Part := [.literal "\"\\", .hole "argv", .literal "$\n"]
    let host : Host := ⟨.missing, ["é"], 2⟩
    let m := Machine.start host
    let new := m.store.newString "\"\\['é']$\n"
    Part.quoted parts = "\"\\\"\\\\$\x7bargv\x7d\\$\n\""
      ∧ (∃ located, tokenize (Part.quoted parts) = .ok located
        ∧ located.map (·.token) = [.template parts, .endOfInput])
      ∧ (Expr.template parts).run host m = .ok new.1 { m with store := new.2 } := by
  intro parts host m new
  obtain ⟨htokens, -, hrun⟩ := tokenize_quoted (show Part.isNormal parts = true by decide)
  have hargv : m.scopes.lookup m.current "argv" = .ok (.list ⟨0⟩) := rfl
  have hvalues : ∀ name, .hole name ∈ parts →
      m.scopes.lookup m.current name = .ok ((fun _ => Value.list ⟨0⟩) name) := by
    intro name hname
    have heq : name = "argv" := by simpa [parts] using hname
    rw [heq, hargv]
  have htext : String.join (parts.map (Part.filled fun _ => m.store.insertion (.list ⟨0⟩)))
      = "\"\\['é']$\n" := by decide +kernel
  have hnew := hrun host m (fun _ => .list ⟨0⟩) hvalues
  rw [htext] at hnew
  exact ⟨by decide +kernel, htokens, hnew⟩

end CommandScript
