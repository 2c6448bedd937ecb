namespace ClassCompiler.Yaml

/-- A place in the text, counted from zero. -/
structure Mark where
  index : Nat := 0
  line : Nat := 0
  column : Nat := 0
  deriving Repr, DecidableEq, Inhabited

def endChar : Char := Char.ofNat 0

def isEnd (c : Char) : Bool := c = endChar

def isBlank (c : Char) : Bool := c = ' ' || c = '\t'

/-- Line feed, carriage return, next line, line separator, paragraph separator. -/
def isBreak (c : Char) : Bool :=
  c = '\n' || c = '\r' || c.toNat = 0x85 || c.toNat = 0x2028 || c.toNat = 0x2029

def isBreakOrEnd (c : Char) : Bool := isBreak c || isEnd c

def isBlankOrEnd (c : Char) : Bool := isBlank c || isBreakOrEnd c

/-- The characters of anchors, tag handles and directive names. -/
def isWordChar (c : Char) : Bool := c.isAlphanum || c = '_' || c = '-'

def isAllowed (c : Char) : Bool :=
  let n := c.toNat
  n = 0x09 || n = 0x0A || n = 0x0D || (0x20 ≤ n && n ≤ 0x7E) || n = 0x85 ||
    (0xA0 ≤ n && n ≤ 0xD7FF) || (0xE000 ≤ n && n ≤ 0xFFFD) || 0x10000 ≤ n

def byteOrderMark : Char := Char.ofNat 0xFEFF

def pieceSize : Nat := 512

/-- A piece of a text: how many characters it has, whether all of them are allowed, and what
follows it. -/
structure Piece where
  count : Nat := 0
  allowed : Bool := true
  rest : List Char := []

/-- As many whole characters as fit into `room` octets. -/
def takePiece : (room : Nat) → (count : Nat) → (allowed : Bool) → List Char → Piece
  | _, count, allowed, [] => { count, allowed }
  | room, count, allowed, ch :: rest =>
    if room < ch.utf8Size then { count, allowed, rest := ch :: rest }
    else takePiece (room - ch.utf8Size) (count + 1) (allowed && isAllowed ch) rest

/-- The text from the cursor on, where that is, and the line breaks passed since the last character
that was not blank. Of the text, `ready` characters are in hand and `unread` is still to come;
`marked` says whether the characters in hand, those already passed included, began with a byte
order mark, and `spoiled` that one not allowed is among them or was. `size` is the length of the
whole text, which bounds every loop. -/
structure Cursor where
  rest : List Char
  size : Nat
  mark : Mark := {}
  newlines : Nat := 0
  ready : Nat := 0
  unread : List Char := []
  marked : Bool := false
  spoiled : Bool := false
  deriving Inhabited

namespace Cursor

/-- The start of a text. A byte order mark in front is passed over. -/
def ofText (text : List Char) : Cursor :=
  let (room, rest) := match text with
    | ch :: cs => if ch = byteOrderMark then (pieceSize - ch.utf8Size, cs) else (pieceSize, text)
    | [] => (pieceSize, text)
  let p := takePiece room 0 true rest
  { rest, size := rest.length, ready := p.count, unread := p.rest
    marked := rest.head? = some byteOrderMark, spoiled := !p.allowed }

/-- Reads pieces until `n` characters are in hand. At the end of the text one end mark is added to
them, and that is all there is. -/
def fill (n : Nat) : (fuel : Nat) → Cursor → Cursor
  | 0, c => c
  | fuel + 1, c =>
    if n ≤ c.ready then c
    else if c.unread.isEmpty then { c with ready := c.ready + 1 }
    else
      let p := takePiece pieceSize 0 true c.unread
      fill n fuel
        { c with ready := c.ready + p.count, unread := p.rest, spoiled := c.spoiled || !p.allowed }

/-- Makes sure that `n` characters are in hand. What was passed is let go if more are read. -/
def need (c : Cursor) (n : Nat) : Cursor :=
  if n ≤ c.ready then c
  else fill n (n + 1) { c with marked := c.rest.head? = some byteOrderMark }

def peek (c : Cursor) (n : Nat) : Char := c.rest.getD n endChar

def column (c : Cursor) : Nat := c.mark.column

/-- Passes one character, which is taken for one of the current line. -/
def next (c : Cursor) : Cursor :=
  { c with
    rest := c.rest.tail
    ready := c.ready - 1
    mark := { c.mark with index := c.mark.index + 1, column := c.mark.column + 1 }
    newlines := if isBlank (c.peek 0) then c.newlines else 0 }

def nextN : Nat → Cursor → Cursor
  | 0, c => c
  | n + 1, c => nextN n c.next

/-- Passes a line break, if one is next, and gives the characters it stands for. -/
def takeBreak (c : Cursor) : List Char × Cursor :=
  let after (rest : List Char) (width : Nat) : Cursor :=
    { c with
      rest
      ready := c.ready - width
      mark := ⟨c.mark.index + width, c.mark.line + 1, 0⟩
      newlines := c.newlines + 1 }
  match c.rest with
  | '\r' :: '\n' :: rest => (['\n'], after rest 2)
  | ch :: rest =>
    if isBreak ch then
      (if ch.toNat = 0x2028 || ch.toNat = 0x2029 then [ch] else ['\n'], after rest 1)
    else ([], c)
  | [] => ([], c)

def nextLine (c : Cursor) : Cursor :=
  if isBreak (c.peek 0) then (c.need 2).takeBreak.2 else c

/-- Passes characters with `p`, at most `fuel`, and collects them backwards. -/
def spanFrom (p : Char → Bool) : (fuel : Nat) → List Char → Cursor → List Char × Cursor
  | 0, cs, c => (cs, c)
  | fuel + 1, cs, c =>
    let ch := c.peek 0
    if p ch && !isEnd ch then spanFrom p fuel (ch :: cs) (c.next.need 1) else (cs, c)

/-- The longest run of characters with `p`, none of them a line break, and the cursor after it. -/
def span (c : Cursor) (p : Char → Bool) : List Char × Cursor :=
  let (cs, c) := spanFrom p c.size [] (c.need 1)
  (cs.reverse, c)

def skipWhile (p : Char → Bool) : (fuel : Nat) → Cursor → Cursor
  | 0, c => c
  | fuel + 1, c =>
    let ch := c.peek 0
    if p ch && !isEnd ch then skipWhile p fuel (c.next.need 1) else c

def skipBlanks (c : Cursor) : Cursor := skipWhile isBlank c.size (c.need 1)

def toLineEnd (c : Cursor) : Cursor := skipWhile (!isBreak ·) c.size (c.need 1)

/-- Whether three of `ch` and a blank or line end stand at the start of the line. -/
def atIndicator (c : Cursor) (ch : Char) : Bool :=
  c.column = 0 && c.peek 0 = ch && c.peek 1 = ch && c.peek 2 = ch && isBlankOrEnd (c.peek 3)

def atDocumentMark (c : Cursor) : Bool := c.atIndicator '-' || c.atIndicator '.'

end Cursor
end ClassCompiler.Yaml
