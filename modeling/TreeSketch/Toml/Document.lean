import TreeSketch.Toml.Number
import TreeSketch.Toml.Table

/-!
# Settings files

A settings file is written in TOML: keys with values, one to a line, and headers that open tables.
`Toml.parse?` reads one as the fields of its outermost table, or not at all.
-/

namespace TreeSketch.Toml

/-- Leaves out spaces and tabs at the start. -/
def dropSpaces (cs : List Char) : List Char :=
  cs.dropWhile fun c => c = ' ' || c = '\t'

/-- Leaves out a comment at the start, up to the end of its line. -/
def dropComment? : List Char → Option (List Char)
  | '#' :: cs =>
    let behind := cs.dropWhile fun c => !isForbidden c
    if behind = [] || (dropNewline? behind).isSome then some behind else none
  | cs => some cs

/-- Leaves out what may stand behind something complete on its line, and the line's end. -/
def finishLine? (cs : List Char) : Option (List Char) :=
  match dropComment? (dropSpaces cs) with
  | none => none
  | some [] => some []
  | some rest => dropNewline? rest

/-- Leaves out spaces, comments and line ends. The fuel is the length of the text. -/
def dropBlank? : Nat → List Char → Option (List Char)
  | 0, cs => some cs
  | fuel + 1, cs =>
    match dropComment? (dropSpaces cs) with
    | none => none
    | some rest =>
      match dropNewline? rest with
      | some behind => dropBlank? fuel behind
      | none => some rest

/-! ## Keys -/

/-- The characters that keys without quotes are made of. -/
def isKeyChar (c : Char) : Bool :=
  c.isAlphanum || c = '_' || c = '-'

/-- A key without dots. -/
def readSimpleKey (cs : List Char) : Found String :=
  match cs with
  | '"' :: _ | '\'' :: _ => (readShortString cs).map fun (key, rest) => (String.ofList key, rest)
  | _ =>
    let key := cs.takeWhile isKeyChar
    if key = [] then none else some (String.ofList key, cs.dropWhile isKeyChar)

/-- A key: one or more keys without dots, with dots and perhaps spaces between them. The fuel is the length
of the text. -/
def readKey : Nat → List Char → Found (List String)
  | 0, _ => none
  | fuel + 1, cs =>
    match readSimpleKey (dropSpaces cs) with
    | none => none
    | some (key, rest) =>
      match dropSpaces rest with
      | '.' :: behind => (readKey fuel behind).map fun (keys, rest) => (key :: keys, rest)
      | behind => some ([key], behind)

/-! ## Values -/

mutual

/-- A value at the start of a text. Whatever stands in brackets is read with less fuel. -/
def readValue (origin : Option String) : Nat → List Char → Found Setting
  | 0, _ => none
  | fuel + 1, cs =>
    match cs with
    | '"' :: _ | '\'' :: _ =>
      (readString cs).map fun (text, rest) =>
        (.scalar origin (.string (String.ofList text)), rest)
    | '[' :: rest =>
      (readItems origin fuel rest).map fun (items, rest) => (.array origin items, rest)
    | '\x7b' :: rest => readBraces origin fuel rest
    | _ => (readScalar cs).map fun (value, rest) => (.scalar origin value, rest)

/-- The items of an array up to its closing bracket. -/
def readItems (origin : Option String) : Nat → List Char → Option (List Setting × List Char)
  | 0, _ => none
  | fuel + 1, cs => do
    match ← dropBlank? cs.length cs with
    | ']' :: rest => return ([], rest)
    | start =>
      let (item, rest) ← readValue origin fuel start
      match ← dropBlank? rest.length rest with
      | ',' :: behind =>
        let (items, rest) ← readItems origin fuel behind
        return (item :: items, rest)
      | ']' :: behind => return ([item], behind)
      | _ => none

/-- An inline table behind its opening brace. -/
def readBraces (origin : Option String) : Nat → List Char → Found Setting
  | 0, _ => none
  | fuel + 1, cs =>
    match dropSpaces cs with
    | '\x7d' :: rest => some (.table origin [], rest)
    | start =>
      (readPairs origin fuel .empty start).map fun (table, rest) =>
        (.table origin (table.toFields origin), rest)

/-- The keys and values of an inline table up to its closing brace. -/
def readPairs (origin : Option String) : Nat → Table → List Char → Option (Table × List Char)
  | 0, _, _ => none
  | fuel + 1, table, cs => do
    let (keys, rest) ← readKey cs.length cs
    match rest with
    | '=' :: behind =>
      let (value, rest) ← readValue origin fuel (dropSpaces behind)
      let key ← keys.getLast?
      let table ← table.define? keys.dropLast key value
      match dropSpaces rest with
      | ',' :: behind => readPairs origin fuel table behind
      | '\x7d' :: behind => return (table, behind)
      | _ => none
    | _ => none

end

/-! ## Lines -/

/-- What has been read of a settings file: its outermost table, and the keys of the table that the last
header has opened. -/
structure State where
  root : Table
  header : List String

/-- A header behind its opening brackets, of which there are as many as closing ones in `closing`. -/
def readHeader (closing : List Char) (cs : List Char) : Option (List String × List Char) := do
  let (keys, rest) ← readKey cs.length cs
  if rest.take closing.length = closing then return (keys, rest.drop closing.length) else none

/-- Reads what starts at the start of a line: nothing, a header, or a key with its value. -/
def readLine (origin : Option String) (state : State) (cs : List Char) :
    Option (State × List Char) :=
  match dropSpaces cs with
  | '[' :: '[' :: rest => do
    let (keys, behind) ← readHeader [']', ']'] rest
    let root ← state.root.openItem? keys.dropLast (← keys.getLast?)
    return (⟨root, keys⟩, behind)
  | '[' :: rest => do
    let (keys, behind) ← readHeader [']'] rest
    let root ← state.root.openTable? keys.dropLast (← keys.getLast?)
    return (⟨root, keys⟩, behind)
  | [] => some (state, [])
  | c :: rest =>
    if c = '#' || (dropNewline? (c :: rest)).isSome then some (state, c :: rest)
    else do
      let (keys, rest) ← readKey (rest.length + 1) (c :: rest)
      match rest with
      | '=' :: behind =>
        let (value, rest) ← readValue origin (behind.length + 1) (dropSpaces behind)
        let key ← keys.getLast?
        let root ← state.root.update? false (·.define? keys.dropLast key value) state.header
        return (⟨root, state.header⟩, rest)
      | _ => none

/-- Reads lines up to the end. Each line takes at least one character, so the fuel is the length of the
text. -/
def readLines (origin : Option String) : Nat → State → List Char → Option Table
  | _, state, [] => some state.root
  | 0, _, _ => none
  | fuel + 1, state, cs => do
    let (state, rest) ← readLine origin state cs
    let behind ← finishLine? rest
    readLines origin fuel state behind

/-- The text without a byte order mark at the start. -/
def dropMark : List Char → List Char
  | c :: cs => if c = '\ufeff' then cs else c :: cs
  | [] => []

/-- The fields of a settings file. -/
def parse? (origin : Option String) (text : String) : Option (List (String × Setting)) :=
  let cs := dropMark text.toList
  (readLines origin cs.length ⟨.empty, []⟩ cs).map (·.toFields origin)

end TreeSketch.Toml
