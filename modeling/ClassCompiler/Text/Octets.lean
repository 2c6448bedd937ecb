namespace ClassCompiler.Octets

def ofUnicode (s : String) : String :=
  String.ofList (s.toUTF8.toList.map Char.ofUInt8)

def toBytes (s : String) : List UInt8 :=
  s.toList.map fun c => c.toNat.toUInt8

/-- One element of octet text: a character, or an octet that is part of none. -/
inductive Piece where
  | char (c : Char)
  | stray (octet : Char)
  deriving Repr, DecidableEq

def isTail (c : Char) : Bool := 0x80 ≤ c.toNat && c.toNat ≤ 0xBF

def low6 (c : Char) : Nat := c.toNat - 0x80

/-- The character that octet `a` starts and the number of octets of `rest` that belong to it. -/
def readChar? (a : Char) (rest : List Char) : Option (Char × Nat) :=
  let n := a.toNat
  if n < 0x80 then some (a, 0)
  else if 0xC2 ≤ n && n ≤ 0xDF then
    match rest with
    | b :: _ => if isTail b then some (Char.ofNat ((n - 0xC0) * 0x40 + low6 b), 1) else none
    | _ => none
  else if 0xE0 ≤ n && n ≤ 0xEF then
    match rest with
    | b :: c :: _ =>
      let v := (n - 0xE0) * 0x1000 + low6 b * 0x40 + low6 c
      if isTail b && isTail c && 0x800 ≤ v && !(0xD800 ≤ v && v ≤ 0xDFFF) then
        some (Char.ofNat v, 2)
      else none
    | _ => none
  else if 0xF0 ≤ n && n ≤ 0xF4 then
    match rest with
    | b :: c :: d :: _ =>
      let v := (n - 0xF0) * 0x40000 + low6 b * 0x1000 + low6 c * 0x40 + low6 d
      if isTail b && isTail c && isTail d && 0x10000 ≤ v && v ≤ 0x10FFFF then
        some (Char.ofNat v, 3)
      else none
    | _ => none
  else none

/-- Reads octets as characters, first passing over `skip` octets already read. -/
def piecesFrom : (skip : Nat) → List Char → List Piece
  | _, [] => []
  | skip + 1, _ :: rest => piecesFrom skip rest
  | 0, a :: rest =>
    match readChar? a rest with
    | some (c, more) => .char c :: piecesFrom more rest
    | none => .stray a :: piecesFrom 0 rest

def pieces (s : String) : List Piece := piecesFrom 0 s.toList

/-- Ordinary text, with U+FFFD for each stray octet. -/
def toUnicode (s : String) : String :=
  String.ofList ((pieces s).map fun
    | .char c => c
    | .stray _ => Char.ofNat 0xFFFD)

end ClassCompiler.Octets
