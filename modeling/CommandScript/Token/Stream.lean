import CommandScript.Error

/-!
# Token/Stream — the tokens of a source text

`Cursor.next` reads one token behind a cursor and moves past it; `tokensFrom` does so to the end of the
text. Only the end of the text is an empty token, so reading ends.
-/

namespace CommandScript

namespace Cursor

/-- The cursor at the next token: past blanks and comments and, if asked, past line ends. -/
def toToken (acrossLines : Bool) (c : Cursor) : Cursor :=
  c.skip (Scan.trivia acrossLines false c.rest)

/-- Read a token and move past it. With `acrossLines` it is the first one that ends no line. -/
def next (acrossLines : Bool) (c : Cursor) : Except Error (Located × Cursor) :=
  let c := c.toToken acrossLines
  match Token.scan c.rest with
  | .ok (token, n) =>
    let d := c.skip n
    .ok (⟨token, c.spanTo d⟩, d)
  | .error fault => .error (.lex fault c.here)

end Cursor

/-- The tokens read, and what stopped the reading if it was not the end of the text. -/
structure TokenStream where
  tokens : List Located
  fault : Option Error

/-- Read at most `n` tokens, up to the end of the text. -/
def tokensFrom : Nat → Cursor → TokenStream
  | 0, _ => ⟨[], none⟩
  | n + 1, c =>
    match c.next false with
    | .error e => ⟨[], some e⟩
    | .ok (t, d) =>
      if t.token.isEnd then ⟨[t], none⟩
      else
        let rest := tokensFrom n d
        ⟨t :: rest.tokens, rest.fault⟩

/-- The tokens of a source text, the end of the text included. Every other token takes at least one
character, so one more token than there are characters is enough. -/
def tokenStream (source : String) : TokenStream :=
  let cs := source.toList
  tokensFrom (cs.length + 1) (Cursor.start cs)

/-- All tokens of a source text, or the first fault. -/
def tokenize (source : String) : Except Error (List Located) :=
  let stream := tokenStream source
  match stream.fault with
  | none => .ok stream.tokens
  | some e => .error e

end CommandScript
