import ClassCompiler.Compile.Program
import ClassCompiler.Digest.Sha256
import ClassCompiler.Text.Octets

namespace ClassCompiler

structure Project where
  entry : String := "Main"
  output : String := "."
  stack : Int := 128
  locals : Int := 128
  cache : String := ""
  /-- Whether diagnostics are colored; undecided if nothing is said. -/
  color : Option Bool := none
  deriving Repr, DecidableEq, Inhabited

namespace Project

def settings (p : Project) : List String :=
  ["entry=" ++ p.entry, "stack=" ++ toString p.stack, "locals=" ++ toString p.locals]

def options (p : Project) : CompileOptions := .ofSettings p.entry p.stack p.locals

end Project

/-- The digest of a source followed by settings, each after a zero octet. -/
def sourceDigest (source : List UInt8) (settings : List String) : String :=
  Sha256.hexDigest (source ++ settings.flatMap fun s => 0 :: Octets.toBytes s)

/-- The key under which the code generated from a source is kept. -/
def Project.digest (p : Project) (source : List UInt8) : String := sourceDigest source p.settings

end ClassCompiler
