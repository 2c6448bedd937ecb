import ClassCompiler.Yaml.Comment
import ClassCompiler.Yaml.Tag

namespace ClassCompiler.Yaml

/-- A place where a key may have begun; `token` is the number of the token there. -/
structure KeyPlace where
  isOpen : Bool := true
  required : Bool := false
  token : Nat
  mark : Mark

/-- The state between two tokens. The first `taken` tokens have been handed out. `keys` has an entry
for the text outside all flow collections and one for each open flow collection, innermost last;
`waiting` gives for the number of a token the entry of `keys` that has to be settled before the
token is handed out. `indents` are the columns of the open blocks, and `comments` the comments in
front of the token being read, the last first. -/
structure Lexer where
  cursor : Cursor
  tokens : Array Token := #[]
  taken : Nat := 0
  indent : Int := -1
  indents : List Int := []
  keyAllowed : Bool := true
  keys : Array KeyPlace := #[]
  waiting : List (Nat × Nat) := []
  comments : List Comment := []

namespace Lexer

def keyReach : Nat := 1024

def maxDepth : Nat := 10000

def flowDepth (s : Lexer) : Nat := s.keys.size - 1

def inFlow (s : Lexer) : Bool := 1 < s.keys.size

def push (s : Lexer) (kind : TokenKind) (start stop : Mark) : Lexer :=
  { s with tokens := s.tokens.push ⟨kind, start, stop⟩ }

/-- Puts a token in front of the one with a number, or behind all of them if that one has been
handed out. -/
def insert (s : Lexer) (number : Nat) (kind : TokenKind) (mark : Mark) : Lexer :=
  let t : Token := ⟨kind, mark, mark⟩
  { s with tokens :=
      if number < s.taken then s.tokens.push t else s.tokens.insertIdxIfInBounds number t }

/-- Whether a `:` at the cursor would still reach the key place. -/
def reaches (s : Lexer) (k : KeyPlace) : Bool :=
  s.cursor.mark.line ≤ k.mark.line && s.cursor.mark.index ≤ k.mark.index + keyReach

def stopWaiting (s : Lexer) (token : Nat) : Lexer :=
  { s with waiting := s.waiting.filter (·.1 ≠ token) }

def closeKey (s : Lexer) (level : Nat) : Lexer :=
  { s with keys := s.keys.modify level fun k => { k with isOpen := false } }

/-- Whether the key place at a level may still turn out to be a key. One that the cursor has left
behind is given up, and a required one must not be. -/
def settleKey (s : Lexer) (level : Nat) : Except Error (Bool × Lexer) :=
  match s.keys[level]? with
  | some k =>
    if !k.isOpen then .ok (false, s)
    else if s.reaches k then .ok (true, s)
    else if k.required then .error (s.cursor.error .colonExpected k.mark)
    else .ok (false, s.closeKey level)
  | none => .ok (false, s)

/-- Gives up the innermost key place; a required one must not be given up. -/
def dropKey (s : Lexer) : Except Error Lexer :=
  match s.keys.back? with
  | some k =>
    if !k.isOpen then .ok s
    else if k.required then .error (s.cursor.error .colonExpected k.mark)
    else .ok ((s.closeKey s.flowDepth).stopWaiting k.token)
  | none => .ok s

def noteKey (s : Lexer) : Except Error Lexer :=
  if s.keyAllowed then
    match s.dropKey with
    | .error e => .error e
    | .ok s =>
      let level := s.flowDepth
      -- At the column of the open block nothing but a key can stand.
      let k : KeyPlace :=
        { required := !s.inFlow && s.indent = s.cursor.column
          token := s.tokens.size, mark := s.cursor.mark }
      .ok { s with
        keys := s.keys.setIfInBounds level k
        waiting := (k.token, level) :: s.waiting.filter (s.taken ≤ ·.1) }
  else .ok s

/-- Opens a block at a column deeper than the current one, its start token put at place `number`. -/
def openBlock (s : Lexer) (column : Nat) (number : Nat) (kind : TokenKind) (mark : Mark) :
    Except Error Lexer :=
  if s.inFlow || (column : Int) ≤ s.indent then .ok s
  else if maxDepth < s.indents.length + 1 then .error (s.cursor.error .depth mark)
  else .ok (({ s with indents := s.indent :: s.indents, indent := column }).insert number kind mark)

def closeBlocksFrom (column : Int) (comments : List Comment) :
    (indents : List Int) → (indent : Int) → (mark : Mark) → Array Token → Int × List Int × Array Token
  | [], indent, _, tokens => (indent, [], tokens)
  | outer :: rest, indent, mark, tokens =>
    if column < indent then
      let mark := Comment.blockEnd indent mark.index mark comments
      closeBlocksFrom column comments rest outer mark (tokens.push ⟨.blockEnd, mark, mark⟩)
    else (indent, outer :: rest, tokens)

/-- Closes the blocks that are indented deeper than `column`. -/
def closeBlocks (s : Lexer) (column : Int) (mark : Mark) : Lexer :=
  if s.inFlow then s
  else
    let mark := { mark with index := mark.index - 1 }
    let (indent, indents, tokens) :=
      closeBlocksFrom column s.comments s.indents s.indent mark s.tokens
    { s with indent, indents, tokens }

/-- Whether a comment here follows a `:`, perhaps with a comma between them. -/
def afterColon (s : Lexer) : Bool :=
  let kind (n : Nat) : Option TokenKind := (s.tokens[s.tokens.size - n]?).map (·.kind)
  kind 1 = some .value || (kind 1 = some .flowEntry && kind 2 = some .value)

/-- Passes blanks, comments and line breaks; `before` is where that begins. Tabs do not count as
blanks where a key may begin. While the characters in hand begin with a byte order mark, the first
character of each line passes for one. -/
def skipToToken (before : Mark) : (fuel : Nat) → Lexer → Lexer
  | 0, s => s
  | fuel + 1, s =>
    let tabs := s.inFlow || !s.keyAllowed
    let c := s.cursor.need 1
    let c := if c.column = 0 && c.marked then c.next else c
    let c := Cursor.skipWhile (fun ch => ch = ' ' || (tabs && ch = '\t')) c.size (c.need 1)
    let (found, c) :=
      if c.peek 0 = '#' then Comment.skip s.inFlow s.afterColon s.indent before c else ([], c)
    let s := { s with comments := found ++ s.comments }
    if isBreak (c.peek 0) then
      skipToToken before fuel { s with cursor := c.nextLine, keyAllowed := s.keyAllowed || !s.inFlow }
    else { s with cursor := c }

def indicator (s : Lexer) (kind : TokenKind) (width : Nat) : Lexer :=
  let c := s.cursor.nextN width
  { s.push kind s.cursor.mark c.mark with cursor := c }

def streamEnd (s : Lexer) : Except Error Lexer := do
  let m := s.cursor.mark
  -- The end stands on a line of its own.
  let m := if m.column = 0 then m else { m with line := m.line + 1, column := 0 }
  let s := { s with cursor := { s.cursor with mark := m } }
  let s ← (s.closeBlocks (-1) m).dropKey
  return { s.push .streamEnd m m with keyAllowed := false }

def directive (s : Lexer) : Except Error Lexer := do
  let s ← (s.closeBlocks (-1) s.cursor.mark).dropKey
  let (token, c) ← Directive.read s.cursor
  return { s with tokens := s.tokens.push token, cursor := c, keyAllowed := false }

def documentMark (s : Lexer) (kind : TokenKind) : Except Error Lexer := do
  let s ← (s.closeBlocks (-1) s.cursor.mark).dropKey
  return { s.indicator kind 3 with keyAllowed := false }

def flowStart (s : Lexer) (kind : TokenKind) : Except Error Lexer := do
  let s ← s.noteKey
  let m := s.cursor.mark
  if maxDepth < s.flowDepth + 1 then throw (s.cursor.error .depth m)
  -- The collection may be a key as a whole; inside it keys are looked for anew.
  let inner : KeyPlace := { isOpen := false, token := s.tokens.size, mark := m }
  return { s.indicator kind 1 with keys := s.keys.push inner, keyAllowed := true }

/-- Closes a flow collection. What waited for the last key place in it, or for the collection itself
if it is empty, waits no longer. -/
def flowEnd (s : Lexer) (kind : TokenKind) : Except Error Lexer := do
  let s ← s.dropKey
  let s := match s.keys.back? with
    | some k => if s.inFlow then { s.stopWaiting k.token with keys := s.keys.pop } else s
    | none => s
  return { s.indicator kind 1 with keyAllowed := false }

def flowEntry (s : Lexer) : Except Error Lexer := do
  let s ← s.dropKey
  return { s.indicator .flowEntry 1 with keyAllowed := true }

def blockEntry (s : Lexer) : Except Error Lexer := do
  let m := s.cursor.mark
  if !s.inFlow && !s.keyAllowed then throw (s.cursor.error .blockEntryNotAllowed m)
  let s ← s.openBlock m.column s.tokens.size .blockSequenceStart m
  let s ← s.dropKey
  return { s.indicator .blockEntry 1 with keyAllowed := true }

def explicitKey (s : Lexer) : Except Error Lexer := do
  let m := s.cursor.mark
  if !s.inFlow && !s.keyAllowed then throw (s.cursor.error .keyNotAllowed m)
  let s ← s.openBlock m.column s.tokens.size .blockMappingStart m
  let s ← s.dropKey
  return { s.indicator .key 1 with keyAllowed := !s.inFlow }

/-- A `:` that no key place reaches stands on its own. -/
def valueAlone (s : Lexer) : Except Error Lexer := do
  let m := s.cursor.mark
  if !s.inFlow && !s.keyAllowed then throw (s.cursor.error .valueNotAllowed m)
  let s ← s.openBlock m.column s.tokens.size .blockMappingStart m
  return { s.indicator .value 1 with keyAllowed := !s.inFlow }

/-- A `:`. It makes the innermost key place a key if it still reaches it. -/
def valueMark (s : Lexer) : Except Error Lexer := do
  let (isKey, s) ← s.settleKey s.flowDepth
  match s.keys.back? with
  | some k =>
    if isKey then
      -- The key, and the mapping that it may open, go in front of what has been read since.
      let s ← (s.insert k.token .key k.mark).openBlock k.mark.column k.token .blockMappingStart k.mark
      let s := (s.closeKey s.flowDepth).stopWaiting k.token
      return { s.indicator .value 1 with keyAllowed := false }
    else s.valueAlone
  | none => s.valueAlone

def anchor (s : Lexer) (kind : String → TokenKind) : Except Error Lexer := do
  let s ← s.noteKey
  let (name, c) ← readAnchor s.cursor
  return { s.push (kind name) s.cursor.mark c.mark with cursor := c, keyAllowed := false }

def tag (s : Lexer) : Except Error Lexer := do
  let s ← s.noteKey
  let (kind, c) ← Tag.read s.cursor
  return { s.push kind s.cursor.mark c.mark with cursor := c, keyAllowed := false }

def blockScalar (s : Lexer) (literal : Bool) : Except Error Lexer := do
  let s ← s.dropKey
  let t ← Block.read literal s.indent s.cursor
  let kind := TokenKind.scalar t.text (if literal then .literal else .folded)
  return { s.push kind s.cursor.mark t.stop with cursor := t.cursor, keyAllowed := true }

def quotedScalar (s : Lexer) (style : Style) : Except Error Lexer := do
  let s ← s.noteKey
  let t ← Quoted.read s.cursor
  return { s.push (.scalar t.text style) s.cursor.mark t.stop with cursor := t.cursor, keyAllowed := false }

def plainScalar (s : Lexer) : Except Error Lexer := do
  let s ← s.noteKey
  let t ← Plain.read s.inFlow (s.indent + 1) s.cursor
  return { s.push (.scalar t.text .plain) s.cursor.mark t.stop with
    cursor := t.cursor, keyAllowed := t.broken }

/-- The characters that never start a plain scalar by themselves. -/
def isReserved (c : Char) : Bool :=
  c = '-' || c = '?' || c = ':' || c = ',' || c = '[' || c = ']' || c = '\x7b' || c = '\x7d' ||
    c = '#' || c = '&' || c = '*' || c = '!' || c = '|' || c = '>' || c = '\'' || c = '"' ||
    c = '%' || c = '@' || c.toNat = 0x60

def startsPlain (flow : Bool) (c after : Char) : Bool :=
  !(isBlankOrEnd c || isReserved c) || (c = '-' && !isBlank after) ||
    (!flow && (c = '?' || c = ':') && !isBlankOrEnd after)

/-- The token at the cursor, which is neither a directive, a document mark nor the end. -/
def nodeToken (s : Lexer) : Except Error Lexer :=
  let c := s.cursor.peek 0
  let after := s.cursor.peek 1
  if c = '[' then s.flowStart .flowSequenceStart
  else if c = '\x7b' then s.flowStart .flowMappingStart
  else if c = ']' then s.flowEnd .flowSequenceEnd
  else if c = '\x7d' then s.flowEnd .flowMappingEnd
  else if c = ',' then s.flowEntry
  else if c = '-' && isBlankOrEnd after then s.blockEntry
  else if c = '?' && (s.inFlow || isBlankOrEnd after) then s.explicitKey
  else if c = ':' && (s.inFlow || isBlankOrEnd after) then s.valueMark
  else if c = '*' then s.anchor .reference
  else if c = '&' then s.anchor .anchor
  else if c = '!' then s.tag
  else if c = '|' && !s.inFlow then s.blockScalar true
  else if c = '>' && !s.inFlow then s.blockScalar false
  else if c = '\'' then s.quotedScalar .singleQuoted
  else if c = '"' then s.quotedScalar .doubleQuoted
  else if startsPlain s.inFlow c after then s.plainScalar
  else .error (s.cursor.error .noTokenStart s.cursor.mark)

/-- A line comment belongs to any token but the dash of an entry. -/
def skipLineComment (s : Lexer) : Lexer :=
  match s.tokens.back? with
  | some ⟨.blockEntry, _, _⟩ => s
  | _ => { s with cursor := Comment.skipOnLine s.cursor }

/-- Reads the next token, and the ends of the blocks before it. -/
def step (s : Lexer) : Except Error Lexer :=
  let before := s.cursor.mark
  let s := { s with cursor := s.cursor.need 1, comments := [] }
  let s := s.skipToToken before (s.cursor.size + 2)
  let s := s.closeBlocks s.cursor.column before
  let s := { s with cursor := s.cursor.need 4 }
  let r :=
    if isEnd (s.cursor.peek 0) then s.streamEnd
    else if s.cursor.column = 0 && s.cursor.peek 0 = '%' then s.directive
    else if s.cursor.atIndicator '-' then s.documentMark .documentStart
    else if s.cursor.atIndicator '.' then s.documentMark .documentEnd
    else s.nodeToken.map skipLineComment
  match r with
  | .error e => .error e
  -- A character that is not allowed stops the reading as soon as it is in hand, even if it is far ahead.
  | .ok s => if s.cursor.spoiled then .error { problem := .controlCharacter } else .ok s

/-- Whether the next token can be handed out: two more have been read, and it will not become part
of a key. -/
def isReady (s : Lexer) : Except Error (Bool × Lexer) :=
  if s.taken + 2 < s.tokens.size then
    match s.waiting.lookup s.taken with
    | none => .ok (true, s)
    | some level =>
      match s.settleKey level with
      | .error e => .error e
      | .ok (isKey, s) => .ok (!isKey, s)
  else .ok (false, s)

def fetch : (fuel : Nat) → Lexer → Except Error Lexer
  | 0, s => .ok s
  | fuel + 1, s =>
    match s.isReady with
    | .error e => .error e
    | .ok (true, s) => .ok s
    | .ok (false, s) =>
      match s.step with
      | .error e => .error e
      | .ok s => fetch fuel s

def next (s : Lexer) : Except Error (Token × Lexer) :=
  match s.fetch (s.cursor.size + 4) with
  | .error e => .error e
  | .ok s => .ok (s.tokens[s.taken]?.getD ⟨.streamEnd, {}, {}⟩, s)

def ofText (text : List Char) : Lexer :=
  { cursor := Cursor.ofText text
    tokens := #[⟨.streamStart, {}, {}⟩]
    keys := #[{ isOpen := false, token := 0, mark := {} }] }

end Lexer
end ClassCompiler.Yaml
