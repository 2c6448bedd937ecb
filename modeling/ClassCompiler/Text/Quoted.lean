import ClassCompiler.Text.Octets
import ClassCompiler.Text.Printable

namespace ClassCompiler.Text

def hexDigit (n : Nat) : Char :=
  if n < 10 then Char.ofNat (0x30 + n) else Char.ofNat (0x57 + n)

def hex : (width n : Nat) → List Char
  | 0, _ => []
  | width + 1, n => hex width (n / 16) ++ [hexDigit (n % 16)]

def shortEscape? (c : Char) : Option Char :=
  match c.toNat with
  | 0x07 => some 'a'
  | 0x08 => some 'b'
  | 0x0C => some 'f'
  | 0x0A => some 'n'
  | 0x0D => some 'r'
  | 0x09 => some 't'
  | 0x0B => some 'v'
  | _ => none

def quoteChar (c : Char) : List Char :=
  if c = '"' || c = '\\' then ['\\', c]
  else if isPrintable c then [c]
  else match shortEscape? c with
    | some e => ['\\', e]
    | none =>
      if c.toNat < 0x20 || c.toNat = 0x7f then '\\' :: 'x' :: hex 2 c.toNat
      else if c.toNat < 0x10000 then '\\' :: 'u' :: hex 4 c.toNat
      else '\\' :: 'U' :: hex 8 c.toNat

/-- The quoted form of octet text, again as octet text. -/
def quote (s : String) : String :=
  let body := (Octets.pieces s).flatMap fun
    | .char c => quoteChar c
    | .stray o => '\\' :: 'x' :: hex 2 o.toNat
  Octets.ofUnicode (String.ofList ('"' :: body ++ ['"']))

end ClassCompiler.Text
