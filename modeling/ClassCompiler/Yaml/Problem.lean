import ClassCompiler.Yaml.Cursor

namespace ClassCompiler.Yaml

inductive Problem where
  | controlCharacter
  | blockEntryNotAllowed
  | keyNotAllowed
  | valueNotAllowed
  | colonExpected
  | noTokenStart
  | directiveName
  | directiveNameEnd
  | unknownDirective
  | versionNumber
  | versionNumberLength
  | versionPoint
  | directiveEnd
  | tagDirectiveBlank
  | tagDirectiveEnd
  | anchorName
  | tagHandle
  | tagUri
  | tagEscape
  | tagLeadOctet
  | tagTailOctet
  | verbatimTagEnd
  | tagEnd
  | zeroIndentation
  | blockScalarHeader
  | indentationTab
  | scalarDocumentMark
  | scalarEnd
  | unknownEscape
  | escapeDigit
  | escapeValue
  | plainTab
  | depth
  | documentStart
  | incompatibleVersion
  | duplicateVersion
  | duplicateTag
  | undefinedHandle
  | nodeContent
  | dashExpected
  | keyExpected
  | sequenceSeparator
  | mappingSeparator
  | unknownAnchor (name : String)
  deriving Repr, DecidableEq

def Problem.message : Problem → String
  | .controlCharacter => "control characters are not allowed"
  | .blockEntryNotAllowed => "block sequence entries are not allowed in this context"
  | .keyNotAllowed => "mapping keys are not allowed in this context"
  | .valueNotAllowed => "mapping values are not allowed in this context"
  | .colonExpected => "could not find expected ':'"
  | .noTokenStart => "found character that cannot start any token"
  | .directiveName => "could not find expected directive name"
  | .directiveNameEnd => "found unexpected non-alphabetical character"
  | .unknownDirective => "found unknown directive name"
  | .versionNumber => "did not find expected version number"
  | .versionNumberLength => "found extremely long version number"
  | .versionPoint => "did not find expected digit or '.' character"
  | .directiveEnd => "did not find expected comment or line break"
  | .tagDirectiveBlank => "did not find expected whitespace"
  | .tagDirectiveEnd => "did not find expected whitespace or line break"
  | .anchorName => "did not find expected alphabetic or numeric character"
  | .tagHandle => "did not find expected '!'"
  | .tagUri => "did not find expected tag URI"
  | .tagEscape => "did not find URI escaped octet"
  | .tagLeadOctet => "found an incorrect leading UTF-8 octet"
  | .tagTailOctet => "found an incorrect trailing UTF-8 octet"
  | .verbatimTagEnd => "did not find the expected '>'"
  | .tagEnd => "did not find expected whitespace or line break"
  | .zeroIndentation => "found an indentation indicator equal to 0"
  | .blockScalarHeader => "did not find expected comment or line break"
  | .indentationTab => "found a tab character where an indentation space is expected"
  | .scalarDocumentMark => "found unexpected document indicator"
  | .scalarEnd => "found unexpected end of stream"
  | .unknownEscape => "found unknown escape character"
  | .escapeDigit => "did not find expected hexdecimal number"
  | .escapeValue => "found invalid Unicode character escape code"
  | .plainTab => "found a tab character that violates indentation"
  | .depth => "exceeded max depth of 10000"
  | .documentStart => "did not find expected <document start>"
  | .incompatibleVersion => "found incompatible YAML document"
  | .duplicateVersion => "found duplicate %YAML directive"
  | .duplicateTag => "found duplicate %TAG directive"
  | .undefinedHandle => "found undefined tag handle"
  | .nodeContent => "did not find expected node content"
  | .dashExpected => "did not find expected '-' indicator"
  | .keyExpected => "did not find expected key"
  | .sequenceSeparator => "did not find expected ',' or ']'"
  | .mappingSeparator => "did not find expected ',' or '\x7d'"
  | .unknownAnchor name => s!"unknown anchor '{name}' referenced"

/-- A problem and the line it is blamed on, `0` for none. -/
structure Error where
  problem : Problem
  line : Nat := 0
  deriving Repr, DecidableEq

def Error.message (e : Error) : String :=
  if e.line = 0 then "yaml: " ++ e.problem.message
  else "yaml: line " ++ toString e.line ++ ": " ++ e.problem.message

/-- A problem in the text of a token that began at `context`, found at `found`. -/
def tokenError (p : Problem) (context found : Mark) : Error :=
  { problem := p
    line := if context.line ≠ 0 then context.line + 1 else if found.line ≠ 0 then found.line + 1 else 0 }

/-- A problem found at the cursor in a token that began at `start`. A character that is not allowed
counts before everything else. -/
def Cursor.error (c : Cursor) (p : Problem) (start : Mark) : Error :=
  if c.spoiled then { problem := .controlCharacter } else tokenError p start c.mark

/-- A problem in the order of the tokens of a node that began at `context`. -/
def nodeError (p : Problem) (context found : Mark) : Error :=
  { problem := p, line := if context.line ≠ 0 then context.line else found.line }

end ClassCompiler.Yaml
