namespace ClassCompiler.Base64

def sextet? (c : Char) : Option Nat :=
  if 'A' ≤ c && c ≤ 'Z' then some (c.toNat - 0x41)
  else if 'a' ≤ c && c ≤ 'z' then some (c.toNat - 0x61 + 26)
  else if '0' ≤ c && c ≤ '9' then some (c.toNat - 0x30 + 52)
  else if c = '+' then some 62
  else if c = '/' then some 63
  else none

/-- The first `count` of the three octets of a group. -/
def octets (count a b c d : Nat) : List Char :=
  let n := ((a * 64 + b) * 64 + c) * 64 + d
  ([n / 65536, n / 256 % 256, n % 256].take count).map Char.ofNat

/-- Octets as characters below U+0100, unless the text has an incomplete group or other characters. -/
def groups? : List Char → Option (List Char)
  | [] => some []
  | [a, b, '=', '='] => do return octets 1 (← sextet? a) (← sextet? b) 0 0
  | [a, b, c, '='] => do return octets 2 (← sextet? a) (← sextet? b) (← sextet? c) 0
  | a :: b :: c :: d :: rest => do
    let group := octets 3 (← sextet? a) (← sextet? b) (← sextet? c) (← sextet? d)
    return group ++ (← groups? rest)
  | _ => none

def decode? (s : String) : Option String :=
  (groups? (s.toList.filter fun c => c ≠ '\n' && c ≠ '\r')).map String.ofList

end ClassCompiler.Base64
