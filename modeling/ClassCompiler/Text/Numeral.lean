namespace ClassCompiler.Numeral

def lower (c : Char) : Char := if 'A' ≤ c && c ≤ 'Z' then Char.ofNat (c.toNat + 32) else c

def digitValue? (c : Char) : Option Nat :=
  let l := lower c
  if '0' ≤ c && c ≤ '9' then some (c.toNat - 0x30)
  else if 'a' ≤ l && l ≤ 'z' then some (l.toNat - 0x61 + 10)
  else none

/-- The number that digits of the given base spell after `n`, underscores passed over. -/
def digits? (base : Nat) : (n : Nat) → List Char → Option Nat
  | n, [] => some n
  | n, '_' :: rest => digits? base n rest
  | n, c :: rest =>
    match digitValue? c with
    | some d => if d < base then digits? base (n * base + d) rest else none
    | none => none

/-- The base that a mark gives and the digits after it. -/
def splitBase : List Char → Nat × List Char
  | '0' :: m :: d :: rest =>
    match lower m with
    | 'b' => (2, d :: rest)
    | 'o' => (8, d :: rest)
    | 'x' => (16, d :: rest)
    | _ => (8, m :: d :: rest)
  | '0' :: rest => (8, rest)
  | cs => (10, cs)

/-- What the last character seen was, for the placing of underscores. -/
inductive Seen where
  | start | digit | underscore | other
  deriving DecidableEq

def underscoresFrom (hexDigits : Bool) : Seen → List Char → Bool
  | seen, [] => seen ≠ .underscore
  | seen, c :: rest =>
    if ('0' ≤ c && c ≤ '9') || (hexDigits && 'a' ≤ lower c && lower c ≤ 'f') then
      underscoresFrom hexDigits .digit rest
    else if c = '_' then seen = .digit && underscoresFrom hexDigits .underscore rest
    else seen ≠ .underscore && underscoresFrom hexDigits .other rest

def dropSign : List Char → List Char
  | '+' :: rest => rest
  | '-' :: rest => rest
  | cs => cs

/-- Each underscore stands between two digits, or between a base mark and a digit. -/
def underscoresOk (cs : List Char) : Bool :=
  match dropSign cs with
  | '0' :: m :: rest =>
    if lower m = 'b' || lower m = 'o' || lower m = 'x' then
      underscoresFrom (lower m = 'x') .digit rest
    else underscoresFrom false .start ('0' :: m :: rest)
  | rest => underscoresFrom false .start rest

def nat? (cs : List Char) : Option Nat :=
  if cs.isEmpty then none
  else
    let (base, ds) := splitBase cs
    match digits? base 0 ds with
    | some n => if cs.contains '_' && !underscoresOk cs then none else some n
    | none => none

/-- A signed integer of at most `bits` bits, its magnitude read by `magnitude`. -/
def signed? (bits : Nat) (magnitude : List Char → Option Nat) (cs : List Char) : Option Int :=
  let negative := cs.head? = some '-'
  match magnitude (dropSign cs) with
  | some n =>
    if negative then if n ≤ Nat.pow 2 (bits - 1) then some (-(n : Int)) else none
    else if n < Nat.pow 2 (bits - 1) then some n else none
  | none => none

/-- A signed integer of at most `bits` bits in marked notation. -/
def int? (bits : Nat) (cs : List Char) : Option Int := signed? bits nat? cs

/-- An unsigned integer of at most `bits` bits in marked notation. -/
def unsigned? (bits : Nat) (cs : List Char) : Option Nat :=
  (nat? cs).filter (· < Nat.pow 2 bits)

def plainNat? (base : Nat) (cs : List Char) : Option Nat :=
  if cs.isEmpty || cs.contains '_' then none else digits? base 0 cs

/-- The least number that is too large for 64 bits with a sign. -/
def int64Bound : Int := 9223372036854775808

/-- The value `mantissa * 10 ^ exponent`, negated when `negative`. -/
structure Decimal where
  negative : Bool
  mantissa : Nat
  exponent : Int
  deriving Repr, DecidableEq

def isDigit (c : Char) : Bool := '0' ≤ c && c ≤ '9'

def isDigitOrUnderscore (c : Char) : Bool := isDigit c || c = '_'

def decimalNat (cs : List Char) : Nat :=
  (cs.filter isDigit).foldl (fun n c => n * 10 + (c.toNat - 0x30)) 0

/-- The exponent part after the mantissa: nothing, or `e`, an optional sign and digits. -/
def exponent? : List Char → Option Int
  | [] => some 0
  | e :: rest =>
    if lower e ≠ 'e' then none
    else
      let ds := dropSign rest
      match ds with
      | d :: _ =>
        if isDigit d && ds.all isDigitOrUnderscore then
          some (if rest.head? = some '-' then -(decimalNat ds : Int) else decimalNat ds)
        else none
      | [] => none

/-- A decimal: an optional sign, digits with at most one point among them, an optional exponent. -/
def decimal? (cs : List Char) : Option Decimal :=
  let body := dropSign cs
  let whole := body.takeWhile isDigitOrUnderscore
  let afterWhole := body.dropWhile isDigitOrUnderscore
  let (fraction, rest) := match afterWhole with
    | '.' :: r => (r.takeWhile isDigitOrUnderscore, r.dropWhile isDigitOrUnderscore)
    | r => ([], r)
  if (whole ++ fraction).all (· = '_') then none
  else if cs.contains '_' && !underscoresOk cs then none
  else
    match exponent? rest with
    | some e => some {
        negative := cs.head? = some '-'
        mantissa := decimalNat (whole ++ fraction)
        exponent := e - (fraction.filter isDigit).length }
    | none => none

namespace Decimal

def digitCount (n : Nat) : Nat := (Nat.toDigits 10 n).length

def fraction (d : Decimal) : Nat × Nat :=
  if 0 ≤ d.exponent then (d.mantissa * Nat.pow 10 d.exponent.toNat, 1)
  else (d.mantissa, Nat.pow 10 (-d.exponent).toNat)

/-- The order of magnitude, a bound on the decimal exponent of the value. -/
def magnitude (d : Decimal) : Int := digitCount d.mantissa + d.exponent

/-- Whether the value has no finite double beside it: it is at least half a unit above the largest. -/
def overflows (d : Decimal) : Bool :=
  if d.mantissa = 0 || d.magnitude < 300 then false
  else if 320 < d.magnitude then true
  else
    let (n, m) := d.fraction
    m * (Nat.pow 2 1024 - Nat.pow 2 970) ≤ n

/-- The quotient `n / m` to the nearest whole number, a half to the even one. -/
def roundDiv (n m : Nat) : Nat :=
  let q := n / m
  let r := n % m
  if 2 * r < m then q else if m < 2 * r then q + 1 else if q % 2 = 0 then q else q + 1

/-- The whole part of the magnitude, once the magnitude is rounded to 53 binary digits. -/
def roundedWhole (d : Decimal) : Nat :=
  if d.mantissa = 0 || d.magnitude < 0 then 0
  else
    let (n, m) := d.fraction
    let shift : Int := (Nat.log2 n : Int) - Nat.log2 m - 52
    let scaled (s : Int) : Nat :=
      if 0 ≤ s then roundDiv n (m * Nat.pow 2 s.toNat) else roundDiv (n * Nat.pow 2 (-s).toNat) m
    let s := if scaled shift < Nat.pow 2 52 then shift - 1 else shift
    let q := scaled s
    if 0 ≤ s then q * Nat.pow 2 s.toNat else q / Nat.pow 2 (-s).toNat

/-- The rounded value with its fraction dropped, if it is at most `2 ^ 63`; what 64 bits cannot
hold becomes the least number they can. -/
def toInt64? (d : Decimal) : Option Int :=
  let w : Int := d.roundedWhole
  if d.negative then some (if w < int64Bound then -w else -int64Bound)
  else if w < int64Bound then some w
  else if w = int64Bound then some (-int64Bound)
  else none

end Decimal
end ClassCompiler.Numeral
