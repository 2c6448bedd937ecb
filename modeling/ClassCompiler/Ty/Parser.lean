import ClassCompiler.Ty.Basic
import ClassCompiler.Text.Quoted

namespace ClassCompiler.Ty

inductive SyntaxProblem where
  | typeExpected
  | expected (token : String)
  | unexpected (rest : String)
  | outOfFuel
  deriving Repr, DecidableEq

structure SyntaxError where
  input : String
  offset : Nat
  problem : SyntaxProblem
  deriving Repr, DecidableEq

def SyntaxProblem.message : SyntaxProblem → String
  | .typeExpected => "expected type"
  | .expected token => "expected " ++ Text.quote token
  | .unexpected rest => "unexpected " ++ Text.quote rest
  | .outOfFuel => "out of fuel"

def SyntaxError.message (e : SyntaxError) : String :=
  "type " ++ Text.quote e.input ++ " at " ++ toString e.offset ++ ": " ++ e.problem.message

def isSpace (c : Char) : Bool :=
  let n := c.toNat
  (0x09 ≤ n && n ≤ 0x0D) || n = 0x20 || n = 0x85 || n = 0xA0

/-- Letters and digits of Latin-1, and the underscore. -/
def isNameChar (c : Char) : Bool :=
  let n := c.toNat
  (0x30 ≤ n && n ≤ 0x39) || (0x41 ≤ n && n ≤ 0x5A) || n = 0x5F || (0x61 ≤ n && n ≤ 0x7A) ||
    n = 0xAA || n = 0xB5 || n = 0xBA || (0xC0 ≤ n && n ≤ 0xD6) || (0xD8 ≤ n && n ≤ 0xF6) ||
    (0xF8 ≤ n && n ≤ 0xFF)

/-- What is left of the text and how much was read before it. -/
structure Input where
  offset : Nat := 0
  rest : List Char
  deriving Repr

namespace Input

def skipSpace (i : Input) : Input :=
  { offset := i.offset + (i.rest.takeWhile isSpace).length, rest := i.rest.dropWhile isSpace }

def advance (i : Input) (n : Nat) : Input := { offset := i.offset + n, rest := i.rest.drop n }

/-- The name after any space, which may be empty, and what follows it. -/
def name (i : Input) : List Char × Input :=
  let i := i.skipSpace
  let cs := i.rest.takeWhile isNameChar
  (cs, i.advance cs.length)

/-- What follows the token `s` if it comes next after any space. -/
def token? (i : Input) (s : List Char) : Option Input :=
  let i := i.skipSpace
  if s.isPrefixOf i.rest then some (i.advance s.length) else none

end Input

/-- Where reading failed and why. -/
structure Failure where
  offset : Nat
  problem : SyntaxProblem

abbrev Parsed (α : Type) := Except Failure (α × Input)

def expect (s : String) (i : Input) : Except Failure Input :=
  match i.token? s.toList with
  | some i => .ok i
  | none => .error ⟨i.skipSpace.offset, .expected s⟩

/-- The name of a list position and what follows its colon, or the same input when there is none. -/
def elemHead (i : Input) : String × Input :=
  match i.name with
  | ([], _) => ("", i)
  | (cs, j) =>
    match j.token? [':'] with
    | some j => (String.ofList cs, j)
    | none => ("", i)

def skipComma (i : Input) : Input := (i.token? [',']).getD i.skipSpace

mutual

def parseTy : (fuel : Nat) → Input → Parsed Ty
  | 0, i => .error ⟨i.offset, .outOfFuel⟩
  | fuel + 1, i =>
    let (cs, j) := i.name
    match String.ofList cs with
    | "" => .error ⟨i.offset, .typeExpected⟩
    | "int" => .ok (.int, j)
    | "bool" => .ok (.bool, j)
    | "string" => .ok (.string, j)
    | "void" => .ok (.void, j)
    | "list" =>
      match j.token? ['('] with
      | none => .ok (.cls "list", j)
      | some j =>
        match j.token? [')'] with
        | some j => .ok (.list [], j)
        | none =>
          match parseElems fuel j.skipSpace with
          | .ok (es, j) => .ok (.list es, j)
          | .error e => .error e
    | "fptr" =>
      match j.token? ['('] with
      | none => .ok (.cls "fptr", j)
      | some j =>
        match parseParams fuel j with
        | .error e => .error e
        | .ok (ps, j) =>
          match parseTy fuel j with
          | .error e => .error e
          | .ok (r, j) =>
            match expect ")" j with
            | .error e => .error e
            | .ok j => .ok (.fptr ps r, j)
    | name => .ok (.cls name, j)

/-- The positions of a list type up to its closing bracket; there is at least one. -/
def parseElems : (fuel : Nat) → Input → Parsed (List (String × Ty))
  | 0, i => .error ⟨i.offset, .outOfFuel⟩
  | fuel + 1, i =>
    let (name, j) := elemHead i
    -- A comma has to be followed by another position.
    match parseTy fuel j with
    | .error e => .error e
    | .ok (t, j) =>
      match j.token? [','] with
      | some j =>
        match parseElems fuel j with
        | .error e => .error e
        | .ok (es, j) => .ok ((name, t) :: es, j)
      | none =>
        match expect ")" j with
        | .error e => .error e
        | .ok j => .ok ([(name, t)], j)

/-- The parameters of a method reference up to its arrow. -/
def parseParams : (fuel : Nat) → Input → Parsed (List Ty)
  | 0, i => .error ⟨i.offset, .outOfFuel⟩
  | fuel + 1, i =>
    match i.token? ['-', '>'] with
    | some i => .ok ([], i)
    | none =>
      -- Commas between parameters may be left out.
      match parseTy fuel i.skipSpace with
      | .error e => .error e
      | .ok (t, j) =>
        match parseParams fuel (skipComma j) with
        | .error e => .error e
        | .ok (ts, j) => .ok (t :: ts, j)

end

def parse (s : String) : Except SyntaxError Ty :=
  let cs := s.toList
  match parseTy (2 * cs.length + 2) { rest := cs } with
  | .error e => .error ⟨s, e.offset, e.problem⟩
  | .ok (t, i) =>
    let i := i.skipSpace
    if i.rest.isEmpty then .ok t else .error ⟨s, i.offset, .unexpected (String.ofList i.rest)⟩

end ClassCompiler.Ty
