namespace ClassCompiler.Timestamp

def isDigit (c : Char) : Bool := '0' ≤ c && c ≤ '9'

def digit (c : Char) : Nat := c.toNat - 0x30

def number? : List Char → Option (Nat × List Char)
  | a :: b :: rest =>
    if !isDigit a then none
    else if isDigit b then some (10 * digit a + digit b, rest)
    else some (digit a, b :: rest)
  | [a] => if isDigit a then some (digit a, []) else none
  | [] => none

def twoDigits? : List Char → Option Nat
  | [a, b] => if isDigit a && isDigit b then some (10 * digit a + digit b) else none
  | _ => none

def literal? (c : Char) : List Char → Option (List Char)
  | d :: rest => if c = d then some rest else none
  | [] => none

def isLeapYear (year : Nat) : Bool := year % 4 = 0 && (year % 100 ≠ 0 || year % 400 = 0)

def daysIn (year month : Nat) : Nat :=
  if month = 2 then (if isLeapYear year then 29 else 28)
  else if month = 4 || month = 6 || month = 9 || month = 11 then 30
  else 31

/-- A year of exactly four digits, a month and a day. -/
def date? (cs : List Char) : Option (List Char) := do
  let year := cs.takeWhile isDigit
  let rest ← if year.length = 4 then literal? '-' (cs.drop 4) else none
  let (month, rest) ← number? rest
  let (day, rest) ← number? (← literal? '-' rest)
  let ofYear := year.foldl (fun n c => n * 10 + digit c) 0
  if 1 ≤ month && month ≤ 12 && 1 ≤ day && day ≤ daysIn ofYear month then some rest else none

def dropFraction : List Char → List Char
  | p :: d :: rest =>
    if (p = '.' || p = ',') && isDigit d then rest.dropWhile isDigit else p :: d :: rest
  | cs => cs

def timeOfDay? (cs : List Char) : Option (List Char) := do
  let (hour, rest) ← number? cs
  let (minute, rest) ← number? (← literal? ':' rest)
  let (second, rest) ← number? (← literal? ':' rest)
  if hour < 24 && minute < 60 && second < 60 then some (dropFraction rest) else none

/-- A zone: `Z`, or a sign, hours and minutes. An offset may be as large as a full day. -/
def isZone : List Char → Bool
  | ['Z'] => true
  | [s, a, b, ':', c, d] =>
    match twoDigits? [a, b], twoDigits? [c, d] with
    | some hours, some minutes => (s = '+' || s = '-') && hours ≤ 24 && minutes ≤ 60
    | _, _ => false
  | _ => false

def isValid (cs : List Char) : Bool :=
  match date? cs with
  | none => false
  | some [] => true
  | some (c :: rest) =>
    if c = 'T' || c = 't' then ((timeOfDay? rest).map isZone).getD false
    else if c = ' ' then timeOfDay? (rest.dropWhile (· = ' ')) = some []
    else false

end ClassCompiler.Timestamp
