import TreeSketch.Error

/-!
# The tokens of a declarative source

A declarative source is cut into words and operators. A word that starts with `d(` or `f(` and whose
matching parenthesis is its last character is a *hint*: it says that the name between the parentheses is a
directory or a file. Parentheses anywhere else belong to the name, so `d(raft).txt` and `build(1` are plain
names; only a parenthesis that closes nothing is refused.
-/

namespace TreeSketch.Declarative

/-- The characters that separate words and mean nothing else. -/
def isSeparator (c : Char) : Bool :=
  c = ' ' || c = '\t' || c = '\r' || c = '\n'

/-- The characters that are a token each. -/
def isOperator (c : Char) : Bool :=
  c = '>' || c = '|'

/-- The characters that words are made of. -/
def isWordChar (c : Char) : Bool :=
  !isSeparator c && !isOperator c

/-- A word or an operator, by the offset where it starts. -/
inductive Chunk where
  | word (start : Nat) (text : List Char)
  | operator (start : Nat) (character : Char)
deriving Repr, DecidableEq

/-- Puts a character before the chunks of the text behind it; it joins the word that starts there, if
`joined`. -/
def consWord (offset : Nat) (c : Char) (joined : Bool) : List Chunk → List Chunk
  | .word start text :: rest =>
    if joined then .word offset (c :: text) :: rest else .word offset [c] :: .word start text :: rest
  | chunks => .word offset [c] :: chunks

/-- The words and operators of a text that starts at `offset`, in order. -/
def chunks (offset : Nat) : List Char → List Chunk
  | [] => []
  | c :: cs =>
    let rest := chunks (offset + c.utf8Size) cs
    if isSeparator c then rest
    else if isOperator c then .operator offset c :: rest
    else consWord offset c ((cs.head?.map isWordChar).getD false) rest

/-- The first character of a text that satisfies `p`, and its offset. -/
def findFrom (p : Char → Bool) (offset : Nat) : List Char → Option (Nat × Char)
  | [] => none
  | c :: cs => if p c then some (offset, c) else findFrom p (offset + c.utf8Size) cs

/-- The number of open parentheses after a character, when `depth` are open before it. -/
def openAfter (depth : Nat) (c : Char) : Nat :=
  if c = '(' then depth + 1 else if c = ')' then depth - 1 else depth

/-- Cuts a text at the parenthesis that closes the one before it, when `depth` more are open: what stands
before that parenthesis, and what stands behind it. -/
def splitClose (depth : Nat) : List Char → Option (List Char × List Char)
  | [] => none
  | c :: cs =>
    if c = ')' && depth = 0 then some ([], cs)
    else (splitClose (openAfter depth c) cs).map fun (inner, rest) => (c :: inner, rest)

/-- The offset of the first parenthesis that closes nothing, when `depth` are open. -/
def strayClose (depth offset : Nat) : List Char → Option Nat
  | [] => none
  | c :: cs =>
    if c = ')' && depth = 0 then some offset
    else strayClose (openAfter depth c) (offset + c.utf8Size) cs

/-- The kind that a word hints at, and what follows the opening of the hint. -/
def hint? : List Char → Option (Kind × List Char)
  | 'd' :: '(' :: rest => some (.directory, rest)
  | 'f' :: '(' :: rest => some (.file, rest)
  | _ => none

/-- The tokens before and after the name in a hint. -/
def hintTokens : Kind → TokenKind × TokenKind
  | .directory => (.openDirectory, .closeDirectory)
  | .file => (.openFile, .closeFile)

/-- The place of an offset. -/
def placeAt (index : Text.LineIndex) (offset : Nat) : Place :=
  ⟨offset, index.position offset⟩

/-- The token of a word that is a name as a whole. -/
def literalToken (index : Text.LineIndex) (start : Nat) (word : List Char) :
    Except LexError (List Token) :=
  match strayClose 0 start word with
  | some offset => .error (.unmatchedClose (placeAt index offset))
  | none => .ok [.ofText .name word start]

/-- The tokens of a word. A control character is the first thing that is looked for, and a hint comes
before a name. -/
def wordTokens (index : Text.LineIndex) (start : Nat) (word : List Char) :
    Except LexError (List Token) :=
  match findFrom Text.isControl start word with
  | some (offset, c) => .error (.illegalCharacter c (placeAt index offset))
  | none =>
    match hint? word with
    | none => literalToken index start word
    | some (kind, opened) =>
      match splitClose 0 opened with
      | none => .error (.unterminatedHint kind (placeAt index start))
      | some ([], []) => .error (.emptyHint kind (placeAt index start))
      | some (inner, []) =>
        let (openKind, closeKind) := hintTokens kind
        .ok [.ofText openKind (word.take 2) start, .ofText .name inner (start + 2),
          .ofText closeKind [')'] (start + 2 + Text.byteSize inner)]
      | some (_, _ :: _) => literalToken index start word

/-- The tokens of a word or an operator. -/
def chunkTokens (index : Text.LineIndex) : Chunk → Except LexError (List Token)
  | .word start text => wordTokens index start text
  | .operator start c =>
    .ok [.ofText (if c = '>' then .descend else .ascend) [c] start]

/-- The tokens of a declarative source; the first word with a fault decides the error. -/
def tokenize (source : List Char) : Except LexError (List Token) := do
  let index := Text.LineIndex.ofText source
  let tokens ← (chunks 0 source).mapM (chunkTokens index)
  return tokens.flatten ++ [Token.mark .endOfInput (Text.byteSize source)]

end TreeSketch.Declarative
