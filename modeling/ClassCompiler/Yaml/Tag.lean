import ClassCompiler.Yaml.Scalar

namespace ClassCompiler.Yaml

namespace Tag

def isUriChar (c : Char) : Bool :=
  isWordChar c || c = ';' || c = '/' || c = '?' || c = ':' || c = '@' || c = '&' || c = '=' ||
    c = '+' || c = '$' || c = ',' || c = '.' || c = '!' || c = '~' || c = '*' || c = '\'' ||
    c = '(' || c = ')' || c = '[' || c = ']'

/-- One escaped octet, `%` and two hexadecimal digits. -/
def octet (start : Mark) (c : Cursor) : Except Error (Nat × Cursor) :=
  let c := c.need 3
  match c.peek 0, Quoted.hexNat? [c.peek 1, c.peek 2] with
  | '%', some n => .ok (n, c.nextN 3)
  | _, _ => .error (c.error .tagEscape start)

def tailOctets (start : Mark) : Nat → Cursor → List Char → Except Error (List Char × Cursor)
  | 0, c, cs => .ok (cs.reverse, c)
  | n + 1, c, cs =>
    match octet start c with
    | .error e => .error e
    | .ok (o, c) =>
      if 0x80 ≤ o && o ≤ 0xBF then tailOctets start n c (Char.ofNat o :: cs)
      else .error (c.error .tagTailOctet start)

def escapes (start : Mark) (c : Cursor) : Except Error (List Char × Cursor) :=
  match octet start c with
  | .error e => .error e
  | .ok (o, c) =>
    let more? : Option Nat :=
      if o < 0x80 then some 0
      else if 0xC0 ≤ o && o < 0xE0 then some 1
      else if 0xE0 ≤ o && o < 0xF0 then some 2
      else if 0xF0 ≤ o && o < 0xF8 then some 3
      else none
    match more? with
    | none => .error (c.error .tagLeadOctet start)
    | some n => tailOctets start n c [Char.ofNat o]

/-- The characters of a tag from the cursor on, backwards. -/
def uriFrom (start : Mark) : (fuel : Nat) → Cursor → List Char → Except Error (List Char × Cursor)
  | 0, c, cs => .ok (cs, c)
  | fuel + 1, c, cs =>
    if c.peek 0 = '%' then
      match escapes start c with
      | .error e => .error e
      | .ok (os, c) => uriFrom start fuel (c.need 1) (os.reverse ++ cs)
    else if isUriChar (c.peek 0) then uriFrom start fuel (c.next.need 1) (c.peek 0 :: cs)
    else .ok (cs, c)

/-- A tag's suffix. `head` is what was read of it before, with its `!`. -/
def uri (start : Mark) (head : List Char) (c : Cursor) : Except Error (String × Cursor) :=
  match uriFrom start (c.size + 1) (c.need 1) [] with
  | .error e => .error e
  | .ok (cs, after) =>
    if head.isEmpty && cs.isEmpty then .error (after.error .tagUri start)
    else .ok (String.ofList (head.drop 1 ++ cs.reverse), after)

/-- A handle: `!`, word characters and possibly a second `!`. -/
def handle (start : Mark) (directive : Bool) (c : Cursor) : Except Error (List Char × Cursor) :=
  let c := c.need 1
  if c.peek 0 ≠ '!' then .error (c.error .tagHandle start)
  else
    let (cs, after) := c.next.span isWordChar
    if after.peek 0 = '!' then .ok ('!' :: cs ++ ['!'], after.next)
    else if directive && !cs.isEmpty then .error (after.error .tagHandle start)
    else .ok ('!' :: cs, after)

/-- The tag at the cursor: verbatim, with a handle, with the primary handle, or a lone `!`. -/
def read (c : Cursor) : Except Error (TokenKind × Cursor) := do
  let start := c.mark
  let c := c.need 2
  let (kind, c) ←
    if c.peek 1 = '<' then do
      let (suffix, c) ← uri start [] (c.nextN 2)
      if c.peek 0 ≠ '>' then throw (c.error .verbatimTagEnd start)
      pure (TokenKind.tag "" suffix, c.next)
    else do
      let (h, c) ← handle start false c
      if 1 < h.length && h.getLast? = some '!' then do
        let (suffix, c) ← uri start [] c
        pure (TokenKind.tag (String.ofList h) suffix, c)
      else do
        let (suffix, c) ← uri start h c
        pure (if suffix.isEmpty then TokenKind.tag "" "!" else TokenKind.tag "!" suffix, c)
  let c := c.need 1
  if !isBlankOrEnd (c.peek 0) then throw (c.error .tagEnd start)
  return (kind, c)

end Tag

def readAnchor (c : Cursor) : Except Error (String × Cursor) :=
  let (cs, after) := c.next.span isWordChar
  let e := after.peek 0
  if cs.isEmpty || !(isBlankOrEnd e || e = '?' || e = ':' || e = ',' || e = ']' || e = '\x7d' ||
      e = '%' || e = '@' || e.toNat = 0x60) then
    .error (after.error .anchorName c.mark)
  else .ok (String.ofList cs, after)

namespace Directive

def number (start : Mark) (c : Cursor) : Except Error (Nat × Cursor) :=
  let (ds, after) := c.span Block.isDigit
  if ds.isEmpty then .error (after.error .versionNumber start)
  else if 2 < ds.length then .error (after.error .versionNumberLength start)
  else .ok (ds.foldl (fun n d => n * 10 + (d.toNat - 0x30)) 0, after)

def version (start : Mark) (c : Cursor) : Except Error (TokenKind × Cursor) := do
  let (major, c) ← number start c.skipBlanks
  if c.peek 0 ≠ '.' then throw (c.error .versionPoint start)
  let (minor, c) ← number start c.next
  return (.versionDirective major minor, c)

def tagHandle (start : Mark) (c : Cursor) : Except Error (TokenKind × Cursor) := do
  let (h, c) ← Tag.handle start true c.skipBlanks
  let c := c.need 1
  if !isBlank (c.peek 0) then throw (c.error .tagDirectiveBlank start)
  let (expansion, c) ← Tag.uri start [] c.skipBlanks
  let c := c.need 1
  if !isBlankOrEnd (c.peek 0) then throw (c.error .tagDirectiveEnd start)
  return (.tagDirective (String.ofList h) expansion, c)

/-- The directive at the cursor, which stands on `%`. -/
def read (c : Cursor) : Except Error (Token × Cursor) := do
  let start := c.mark
  let (name, c) := c.next.span isWordChar
  if name.isEmpty then throw (c.error .directiveName start)
  if !isBlankOrEnd (c.peek 0) then throw (c.error .directiveNameEnd start)
  let (kind, c) ←
    if name = "YAML".toList then version start c
    else if name = "TAG".toList then tagHandle start c
    else throw (c.error .unknownDirective start)
  let token : Token := ⟨kind, start, c.mark⟩
  let c := c.skipBlanks
  let c := if c.peek 0 = '#' then c.toLineEnd else c
  if !isBreakOrEnd (c.peek 0) then throw (c.error .directiveEnd start)
  return (token, c.nextLine)

end Directive
end ClassCompiler.Yaml
