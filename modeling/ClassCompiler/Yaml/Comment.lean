import ClassCompiler.Yaml.Token

namespace ClassCompiler.Yaml

/-- Comment lines in front of a token: the index the search for them began at, the place of the
first of them, and the index they end at. -/
structure Comment where
  sought : Nat
  start : Mark
  stop : Nat
  deriving Repr

/-- How far beyond a comment or a token a further comment is looked for. -/
def commentReach : Nat := 512

namespace Comment

/-- What surrounds a comment: whether it is inside a flow collection or follows a `:`, the column of
the block around it, and the line below the last one with content. -/
structure Surroundings where
  inFlow : Bool
  afterColon : Bool
  indent : Nat
  lineBelow : Option Nat

/-- A search for comments that looks `ahead` characters beyond the cursor. `line` and `column` are
counted there, `insideBreak` says that a line break of several octets was met, and `start` is where
the comment that is not yet closed began. -/
structure Search where
  cursor : Cursor
  ahead : Nat := 0
  line : Nat
  column : Nat
  insideBreak : Bool := false
  sought : Nat
  start : Option Mark := none
  noEmptyLine : Bool
  afterEmptyLine : Bool := false
  found : List Comment := []

namespace Search

def close (s : Search) (stop : Nat) : Search :=
  match s.start with
  | none => s
  | some start => { s with found := ⟨s.sought, start, stop⟩ :: s.found, start := none, sought := stop }

/-- Whether an empty line cuts off a comment: it belongs to what stands above, or to a block outside
the current one. -/
def isCutOff (s : Search) (around : Surroundings) : Bool :=
  match s.start with
  | none => false
  | some start =>
    (around.lineBelow = some start.line && !around.afterColon) || start.column ≤ around.indent

/-- Whether the line looked at stands further out than the comment and the block. -/
def isDedented (s : Search) (around : Surroundings) : Bool :=
  match s.start with
  | none => false
  | some start => s.column ≤ around.indent && s.column ≠ start.column

/-- Passes blanks and line breaks up to an index, then everything up to the end of that line. -/
def passLine (target : Nat) : (fuel : Nat) → Cursor → Cursor
  | 0, c => c
  | fuel + 1, c =>
    if target ≤ c.mark.index then c.toLineEnd
    else passLine target fuel ((if isBreak (c.peek 0) then c.nextLine else c.next).need 1)

/-- Goes on from the place looked at until something other than a comment is met. -/
def run (around : Surroundings) : (fuel : Nat) → Search → Search
  | 0, s => s
  | fuel + 1, s =>
    if commentReach ≤ s.ahead then s
    else
      let s := { s with cursor := s.cursor.need (s.ahead + 1), column := s.column + 1 }
      let ch := s.cursor.peek s.ahead
      let here := s.cursor.mark.index + s.ahead
      let closesFlow := around.inFlow && (ch = ']' || ch = '\x7d')
      if isBlank ch && !s.insideBreak then run around fuel { s with ahead := s.ahead + 1 }
      else if (closesFlow || isBreakOrEnd ch) && !s.insideBreak then
        let cut := closesFlow || (!s.afterEmptyLine && s.noEmptyLine && s.isCutOff around)
        let s := if cut then s.close here else s
        if isBreak ch then
          run around fuel { s with
            ahead := s.ahead + 1, line := s.line + 1, column := 0
            insideBreak := 1 < ch.utf8Size, noEmptyLine := false, afterEmptyLine := true }
        else s
      else
        let s := if s.isDedented around then s.close here else s
        if ch ≠ '#' || s.insideBreak then s
        else
          let start := s.start.getD ⟨here, s.line, s.column⟩
          let c := passLine here (s.ahead + 1) s.cursor
          run around fuel { s with
            cursor := c, ahead := 1, line := c.mark.line, column := 0
            start := some start, afterEmptyLine := false }

def result (s : Search) : List Comment :=
  (s.close (s.cursor.mark.index + s.ahead - 1)).found

end Search

/-- Passes the comment at the cursor and every further one that follows it. `before` is where the
search for a token began. -/
def skip (inFlow afterColon : Bool) (indent : Int) (before : Mark) (c : Cursor) :
    List Comment × Cursor :=
  let lineBelow :=
    if before.column = 0 then none
    else some (c.mark.line - c.newlines + (if c.newlines = 0 && 1 < c.mark.column then 2 else 1))
  let s := Search.run ⟨inFlow, afterColon, indent.toNat, lineBelow⟩ (2 * c.size + commentReach + 2)
    { cursor := c, line := c.mark.line, column := c.mark.column, sought := before.index
      noEmptyLine := c.newlines ≤ 1 }
  (s.result, s.cursor)

/-- How many blanks stand at the cursor, counted up to the reach of comments. -/
def countBlanks : (fuel : Nat) → (n : Nat) → Cursor → Nat × Cursor
  | 0, n, c => (n, c)
  | fuel + 1, n, c =>
    let c := c.need (n + 1)
    if isBlank (c.peek n) then countBlanks fuel (n + 1) c else (n, c)

/-- Passes a comment on the same line as the token just read. -/
def skipOnLine (c : Cursor) : Cursor :=
  if 0 < c.newlines then c
  else
    let (n, c) := countBlanks commentReach 0 c
    if n < commentReach && c.peek n = '#' then c.toLineEnd else c

/-- Where a block of column `indent` ends: at its comments, if these are the last thing in it, or
else at `mark`. -/
def blockEnd (indent : Int) : (stop : Nat) → (mark : Mark) → List Comment → Mark
  | _, mark, [] => mark
  | stop, mark, c :: cs =>
    if c.stop < stop then mark
    else blockEnd indent c.sought (if (c.start.column : Int) = indent + 1 then c.start else mark) cs

end Comment
end ClassCompiler.Yaml
