import ClassCompiler.Yaml.Token

namespace ClassCompiler.Yaml

/-- The text read so far, backwards, and the white space after it whose fate is still open. -/
structure Folded where
  text : List Char := []
  spaces : List Char := []
  firstBreak : List Char := []
  moreBreaks : List Char := []
  broken : Bool := false

namespace Folded

/-- Settles the white space: a single line feed is a space, other breaks stay as they are. -/
def settle (f : Folded) : Folded :=
  let gap :=
    if f.broken then
      if f.firstBreak.head? = some '\n' then
        if f.moreBreaks.isEmpty then [' '] else f.moreBreaks
      else f.moreBreaks ++ f.firstBreak
    else f.spaces
  { text := gap ++ f.text }

def push (f : Folded) (c : Char) : Folded := { f with text := c :: f.text }

def pushSpace (f : Folded) (c : Char) : Folded :=
  if f.broken then f else { f with spaces := c :: f.spaces }

def pushBreak (f : Folded) (cs : List Char) : Folded :=
  if f.broken then { f with moreBreaks := cs ++ f.moreBreaks }
  else { f with spaces := [], firstBreak := cs, broken := true }

def result (f : Folded) : String := String.ofList f.text.reverse

end Folded

/-- The text of a scalar, the end of its last character, the cursor behind it, and whether line
breaks were passed after it. -/
structure ScalarText where
  text : String
  stop : Mark
  cursor : Cursor
  broken : Bool := false

namespace Plain

/-- Whether the character ends a plain scalar, given the one after it. -/
def ends (flow : Bool) (c after : Char) : Bool :=
  isBlankOrEnd c || (c = ':' && isBlankOrEnd after) ||
    (flow && (c = ',' || c = '?' || c = '[' || c = ']' || c = '\x7b' || c = '\x7d'))

def run (flow : Bool) : (fuel : Nat) → Cursor → Folded → Mark → Cursor × Folded × Mark
  | 0, c, f, stop => (c, f, stop)
  | fuel + 1, c, f, stop =>
    if ends flow (c.peek 0) (c.peek 1) then (c, f, stop)
    else
      let f := f.settle.push (c.peek 0)
      let c := c.next.need 2
      run flow fuel c f c.mark

/-- The blanks and breaks after a run. A tab may not stand where indentation is due. -/
def gap (indent : Int) (start : Mark) : (fuel : Nat) → Cursor → Folded → Except Error (Cursor × Folded)
  | 0, c, f => .ok (c, f)
  | fuel + 1, c, f =>
    let ch := c.peek 0
    if isBlank ch then
      if f.broken && (c.column : Int) < indent && ch = '\t' then
        .error (c.error .plainTab start)
      else gap indent start fuel (c.next.need 1) (f.pushSpace ch)
    else if isBreak ch then
      let (cs, c) := (c.need 2).takeBreak
      gap indent start fuel (c.need 1) (f.pushBreak cs)
    else .ok (c, f)

def lines (flow : Bool) (indent : Int) (start : Mark) :
    (fuel : Nat) → Cursor → Folded → Mark → Except Error ScalarText
  | 0, c, f, stop => .ok ⟨f.result, stop, c, f.broken⟩
  | fuel + 1, c, f, stop =>
    let c := c.need 4
    -- Behind white space a `#` begins a comment; in the middle of a run it is text.
    if c.atDocumentMark || c.peek 0 = '#' then .ok ⟨f.result, stop, c, f.broken⟩
    else
      let (c, f, stop) := run flow (c.size + 1) c f stop
      if !(isBlank (c.peek 0) || isBreak (c.peek 0)) then .ok ⟨f.result, stop, c, f.broken⟩
      else
        match gap indent start (c.size + 1) (c.need 1) f with
        | .error e => .error e
        | .ok (c, f) =>
          if !flow && (c.column : Int) < indent then .ok ⟨f.result, stop, c, f.broken⟩
          else lines flow indent start fuel c f stop

/-- The plain scalar at the cursor; `indent` is the least column of its further lines. -/
def read (flow : Bool) (indent : Int) (c : Cursor) : Except Error ScalarText :=
  lines flow indent c.mark (c.size + 1) c {} c.mark

end Plain

namespace Quoted

def hexValue? (c : Char) : Option Nat :=
  let n := c.toNat
  if 0x30 ≤ n && n ≤ 0x39 then some (n - 0x30)
  else if 0x41 ≤ n && n ≤ 0x46 then some (n - 0x41 + 10)
  else if 0x61 ≤ n && n ≤ 0x66 then some (n - 0x61 + 10)
  else none

def hexNat? (cs : List Char) : Option Nat :=
  cs.foldl (fun n c => match n, hexValue? c with
    | some n, some d => some (n * 16 + d)
    | _, _ => none) (some 0)

/-- What an escape letter stands for: a character, or a number of hexadecimal digits to come. -/
def escape? (c : Char) : Option (Char ⊕ Nat) :=
  match c with
  | '0' => some (.inl (Char.ofNat 0))
  | 'a' => some (.inl (Char.ofNat 7))
  | 'b' => some (.inl (Char.ofNat 8))
  | 't' => some (.inl '\t')
  | '\t' => some (.inl '\t')
  | 'n' => some (.inl '\n')
  | 'v' => some (.inl (Char.ofNat 0x0B))
  | 'f' => some (.inl (Char.ofNat 0x0C))
  | 'r' => some (.inl '\r')
  | 'e' => some (.inl (Char.ofNat 0x1B))
  | ' ' => some (.inl ' ')
  | '"' => some (.inl '"')
  | '\'' => some (.inl '\'')
  | '\\' => some (.inl '\\')
  | 'N' => some (.inl (Char.ofNat 0x85))
  | '_' => some (.inl (Char.ofNat 0xA0))
  | 'L' => some (.inl (Char.ofNat 0x2028))
  | 'P' => some (.inl (Char.ofNat 0x2029))
  | 'x' => some (.inr 2)
  | 'u' => some (.inr 4)
  | 'U' => some (.inr 8)
  | _ => none

/-- The escape sequence at the cursor, which stands on the backslash. -/
def escaped (start : Mark) (c : Cursor) : Except Error (Char × Cursor) :=
  match escape? (c.peek 1) with
  | none => .error (c.error .unknownEscape start)
  | some (.inl ch) => .ok (ch, c.nextN 2)
  | some (.inr width) =>
    let c := (c.nextN 2).need width
    match hexNat? ((List.range width).map c.peek) with
    | none => .error (c.error .escapeDigit start)
    | some n =>
      if (0xD800 ≤ n && n ≤ 0xDFFF) || 0x10FFFF < n then
        .error (c.error .escapeValue start)
      else .ok (Char.ofNat n, c.nextN width)

/-- A run of characters without blanks, up to a closing quote. An escaped line break ends the run
and counts as a break that leaves nothing behind. -/
def run (quote : Char) (start : Mark) : (fuel : Nat) → Cursor → Folded → Except Error (Cursor × Folded)
  | 0, c, f => .ok (c, f)
  | fuel + 1, c, f =>
    let ch := c.peek 0
    if isBlankOrEnd ch then .ok (c, f)
    else if quote = '\'' && ch = '\'' && c.peek 1 = '\'' then
      run quote start fuel ((c.nextN 2).need 2) (f.push '\'')
    else if ch = quote then .ok (c, f)
    else if quote = '"' && ch = '\\' && isBreak (c.peek 1) then
      .ok ((c.need 3).next.takeBreak.2, { f with broken := true })
    else if quote = '"' && ch = '\\' then
      match escaped start c with
      | .error e => .error e
      | .ok (e, c) => run quote start fuel (c.need 2) (f.push e)
    else run quote start fuel (c.next.need 2) (f.push ch)

def gap : (fuel : Nat) → Cursor → Folded → Cursor × Folded
  | 0, c, f => (c, f)
  | fuel + 1, c, f =>
    let ch := c.peek 0
    if isBlank ch then gap fuel (c.next.need 1) (f.pushSpace ch)
    else if isBreak ch then
      let (cs, c) := (c.need 2).takeBreak
      gap fuel (c.need 1) (f.pushBreak cs)
    else (c, f)

def lines (quote : Char) (start : Mark) : (fuel : Nat) → Cursor → Folded → Except Error ScalarText
  | 0, c, _ => .error (c.error .scalarEnd start)
  | fuel + 1, c, f =>
    let c := c.need 4
    if c.atDocumentMark then .error (c.error .scalarDocumentMark start)
    else if isEnd (c.peek 0) then .error (c.error .scalarEnd start)
    else
      match run quote start (c.size + 1) c f with
      | .error e => .error e
      | .ok (c, f) =>
        let c := c.need 1
        if c.peek 0 = quote then
          let c := c.next
          .ok ⟨f.result, c.mark, c, false⟩
        else
          let (c, f) := gap (c.size + 1) c f
          lines quote start fuel c f.settle

/-- The quoted scalar at the cursor, which stands on the opening quote. -/
def read (c : Cursor) : Except Error ScalarText :=
  lines (c.peek 0) c.mark (c.size + 1) c.next {}

end Quoted

namespace Block

/-- What becomes of the line breaks at the end. -/
inductive Chomping where
  | clip | strip | keep
  deriving DecidableEq

def chomping? (c : Char) : Option Chomping :=
  if c = '+' then some .keep else if c = '-' then some .strip else none

def isDigit (c : Char) : Bool := '0' ≤ c && c ≤ '9'

/-- The indicators after `|` or `>`: how to chomp, and the indentation if it is given. -/
def header (start : Mark) (c : Cursor) : Except Error (Chomping × Nat × Cursor) :=
  let increment (c : Cursor) : Except Error (Nat × Cursor) :=
    if isDigit (c.peek 0) then
      if c.peek 0 = '0' then .error (c.error .zeroIndentation start)
      else .ok ((c.peek 0).toNat - 0x30, c.next)
    else .ok (0, c)
  let c := c.need 1
  match chomping? (c.peek 0) with
  | some ch => do
    let (n, c) ← increment (c.next.need 1)
    return (ch, n, c)
  | none => do
    let (n, c) ← increment c
    let c := c.need 1
    match if n = 0 then none else chomping? (c.peek 0) with
    | some ch => return (ch, n, c.next)
    | none => return (.clip, n, c)

/-- Empty lines and indentation before a line of text. -/
structure Breaks where
  breaks : List Char
  widest : Nat
  stop : Mark
  cursor : Cursor

def skipSpaces (indent : Nat) : (fuel : Nat) → Cursor → Cursor
  | 0, c => c
  | fuel + 1, c =>
    if (indent = 0 || c.column < indent) && c.peek 0 = ' ' then skipSpaces indent fuel (c.next.need 1)
    else c

def breaksFrom (indent : Nat) (start : Mark) : (fuel : Nat) → Breaks → Except Error Breaks
  | 0, b => .ok b
  | fuel + 1, b =>
    let c := skipSpaces indent (b.cursor.size + 1) (b.cursor.need 1)
    let widest := max b.widest c.column
    if (indent = 0 || c.column < indent) && c.peek 0 = '\t' then
      .error (c.error .indentationTab start)
    else if !isBreak (c.peek 0) then .ok { b with widest, cursor := c }
    else
      let (cs, c) := (c.need 2).takeBreak
      breaksFrom indent start fuel { breaks := cs ++ b.breaks, widest, stop := c.mark, cursor := c }

def breaks (indent : Nat) (start : Mark) (c : Cursor) : Except Error Breaks :=
  breaksFrom indent start (c.size + 1) ⟨[], 0, c.mark, c⟩

/-- The lines of the text, backwards; `last` is the break of the previous line and `more` the empty
lines after it. A folded text joins two lines that do not start with a blank. -/
def lines (literal : Bool) (indent : Nat) (start : Mark) :
    (fuel : Nat) → (text last more : List Char) → (blank : Bool) → (stop : Mark) → Cursor →
    Except Error (List Char × List Char × List Char × Mark × Cursor)
  | 0, text, last, more, _, stop, c => .ok (text, last, more, stop, c)
  | fuel + 1, text, last, more, blank, stop, c =>
    if c.column ≠ indent || isEnd (c.peek 0) then .ok (text, last, more, stop, c)
    else
      let blankNow := isBlank (c.peek 0)
      let joined :=
        if !literal && !blank && !blankNow && last.head? = some '\n' then
          if more.isEmpty then [' '] else []
        else last
      let (cs, c) := c.span fun ch => !isBreakOrEnd ch
      let text := cs.reverse ++ (more ++ (joined ++ text))
      let (last, c) := (c.need 2).takeBreak
      match breaks indent start c with
      | .error e => .error e
      | .ok b => lines literal indent start fuel text last b.breaks blankNow b.stop b.cursor

/-- The block scalar at the cursor, inside a block indented to `outer`. -/
def read (literal : Bool) (outer : Int) (c : Cursor) : Except Error ScalarText := do
  let start := c.mark
  let (chomping, increment, c) ← header start c.next
  let c := c.skipBlanks
  let c := if c.peek 0 = '#' then c.toLineEnd else c
  if !isBreakOrEnd (c.peek 0) then throw (c.error .blockScalarHeader start)
  let c := c.nextLine
  let given := if increment = 0 then 0 else if 0 ≤ outer then outer.toNat + increment else increment
  let b ← breaks given start c
  -- Without a number the widest indentation of the first line of text and the empty lines in front counts.
  let indent := if given = 0 then max (max b.widest (outer + 1).toNat) 1 else given
  let (text, last, more, stop, c) ←
    lines literal indent start (b.cursor.size + 1) [] [] b.breaks false b.stop b.cursor
  let tail := match chomping with
    | .strip => []
    | .clip => last
    | .keep => more ++ last
  return ⟨String.ofList (tail ++ text).reverse, stop, c, false⟩

end Block
end ClassCompiler.Yaml
