import ClassCompiler.Text.Numeral
import ClassCompiler.Text.Octets
import ClassCompiler.Text.Timestamp
import ClassCompiler.Yaml.Token

namespace ClassCompiler.Yaml

inductive Kind where
  | scalar | sequence | mapping | reference
  deriving Repr, DecidableEq, Inhabited

structure Node where
  kind : Kind
  tag : String
  style : Style := .plain
  text : String := ""
  line : Nat
  column : Nat
  children : List Node := []
  deriving Repr, Inhabited

def longTag : String := "tag:yaml.org,2002:"

def shortTag (tag : String) : String :=
  if longTag.isPrefixOf tag then "!!" ++ (tag.drop longTag.length).toString else tag

/-- What the text of an untagged plain scalar says it is. -/
inductive Resolved where
  | null
  | bool (b : Bool)
  | int (n : Int)
  | float (d : Numeral.Decimal)
  | infinity (negative : Bool)
  | notANumber
  | timestamp
  | text
  deriving Repr, DecidableEq

def Resolved.tag : Resolved → String
  | .null => "!!null"
  | .bool _ => "!!bool"
  | .int _ => "!!int"
  | .float _ => "!!float"
  | .infinity _ => "!!float"
  | .notANumber => "!!float"
  | .timestamp => "!!timestamp"
  | .text => "!!str"

def fixedMeaning? (s : String) : Option Resolved :=
  if s = "" || s = "~" || s = "null" || s = "Null" || s = "NULL" then some .null
  else if s = "true" || s = "True" || s = "TRUE" then some (.bool true)
  else if s = "false" || s = "False" || s = "FALSE" then some (.bool false)
  else if s = ".nan" || s = ".NaN" || s = ".NAN" then some .notANumber
  else if s = ".inf" || s = ".Inf" || s = ".INF" || s = "+.inf" || s = "+.Inf" || s = "+.INF" then
    some (.infinity false)
  else if s = "-.inf" || s = "-.Inf" || s = "-.INF" then some (.infinity true)
  else none

def finite? (cs : List Char) : Option Numeral.Decimal :=
  (Numeral.decimal? cs).filter fun d => !d.overflows

/-- A number whose base mark may stand before its sign: `0b` or `0o`, then a signed numeral. -/
def markedInt? (mark : Char) (base : Nat) (cs : List Char) : Option Int :=
  match cs with
  | '0' :: m :: rest =>
    if m = mark then
      match Numeral.signed? 64 (Numeral.plainNat? base) rest with
      | some n => some n
      | none => ((Numeral.plainNat? base rest).filter (· < Nat.pow 2 64)).map Int.ofNat
    else none
  | '-' :: '0' :: m :: rest =>
    if m = mark then Numeral.signed? 64 (Numeral.plainNat? base) ('-' :: rest) else none
  | _ => none

/-- A text that starts with a sign or a digit: a 64-bit integer, signed or unsigned, underscores
dropped, or a decimal, or neither. -/
def resolveNumber (cs : List Char) : Resolved :=
  let plain := cs.filter (· ≠ '_')
  match Numeral.int? 64 plain with
  | some n => .int n
  | none =>
    match Numeral.unsigned? 64 plain with
    | some n => .int n
    | none =>
      match finite? plain with
      | some d => .float d
      | none =>
        match (markedInt? 'b' 2 plain).or (markedInt? 'o' 8 plain) with
        | some n => .int n
        | none => .text

/-- Reads the text of a scalar that is not known to be a string; `dates` says whether it may be a
timestamp. -/
def resolve (dates : Bool) (s : String) : Resolved :=
  match fixedMeaning? s with
  | some r => r
  | none =>
    match s.toList with
    | [] => .null
    | c :: cs =>
      if c = '+' || c = '-' || ('0' ≤ c && c ≤ '9') then
        if dates && Timestamp.isValid (c :: cs) then .timestamp else resolveNumber (c :: cs)
      else if c = '.' then
        match finite? (c :: cs) with
        | some d => .float d
        | none => .text
      else .text

def Node.isScalar (n : Node) : Bool := n.kind = .scalar

/-- A null: a plain scalar that says so, or one tagged so. -/
def Node.isNull (n : Node) : Bool := n.kind = .scalar && n.tag = "!!null"

/-- The key under which a mapping names others to take entries from. -/
def Node.isMerge (n : Node) : Bool := n.kind = .scalar && n.text = "<<" && n.tag = "!!merge"

def Node.empty (line column : Nat) : Node :=
  { kind := .scalar, tag := "!!null", line, column }

theorem Node.sizeOf_children_lt {n : Node} {cs : List Node} (h : n.children = cs) :
    sizeOf cs < sizeOf n := by
  subst h
  obtain ⟨kind, tag, style, text, line, column, children⟩ := n
  rw [Node.mk.sizeOf_spec]
  dsimp only
  omega

theorem Node.sizeOf_lt_of_mem {c n : Node} {cs : List Node} (h : n.children = cs) (hc : c ∈ cs) :
    sizeOf c < sizeOf n :=
  Nat.lt_trans (List.sizeOf_lt_of_mem hc) (Node.sizeOf_children_lt h)

end ClassCompiler.Yaml
