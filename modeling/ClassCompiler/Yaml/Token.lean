import ClassCompiler.Yaml.Problem

namespace ClassCompiler.Yaml

inductive Style where
  | plain | singleQuoted | doubleQuoted | literal | folded
  deriving Repr, DecidableEq, Inhabited

inductive TokenKind where
  | streamStart
  | streamEnd
  | versionDirective (major minor : Nat)
  | tagDirective (handle expansion : String)
  | documentStart
  | documentEnd
  | blockSequenceStart
  | blockMappingStart
  | blockEnd
  | flowSequenceStart
  | flowSequenceEnd
  | flowMappingStart
  | flowMappingEnd
  | blockEntry
  | flowEntry
  | key
  | value
  | reference (name : String)
  | anchor (name : String)
  | tag (handle suffix : String)
  | scalar (text : String) (style : Style)
  deriving Repr, DecidableEq, Inhabited

structure Token where
  kind : TokenKind
  start : Mark
  stop : Mark
  deriving Repr, Inhabited

end ClassCompiler.Yaml
