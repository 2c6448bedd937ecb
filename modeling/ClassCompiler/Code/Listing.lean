import ClassCompiler.Code.Basic
import ClassCompiler.Text.Quoted

namespace ClassCompiler

def ArithOp.mnemonic : ArithOp → String
  | .add => "iadd"
  | .sub => "isub"
  | .mul => "imul"
  | .div => "idiv"
  | .rem => "irem"

def IntTest.mnemonic : IntTest → String
  | .eq => "if_icmpeq"
  | .ne => "if_icmpne"
  | .lt => "if_icmplt"
  | .gt => "if_icmpgt"
  | .ge => "if_icmpge"

def Jump.mnemonic : Jump → String
  | .always => "goto"
  | .ifZero => "ifeq"
  | .ifNonzero => "ifne"
  | .ifInts t => t.mnemonic
  | .ifSame => "if_acmpeq"
  | .ifDifferent => "if_acmpne"

namespace Op

def mnemonic : Op → String
  | .pushInt _ => "ldc"
  | .pushString _ => "ldc"
  | .pushNull => "aconst_null"
  | .load .ref _ => "aload"
  | .load .int _ => "iload"
  | .store .ref _ => "astore"
  | .store .int _ => "istore"
  | .increment _ _ => "iinc"
  | .dup => "dup"
  | .pop => "pop"
  | .arith op => op.mnemonic
  | .neg => "ineg"
  | .jump t _ => t.mnemonic
  | .label _ => "label"
  | .new _ => "new"
  | .cast _ => "checkcast"
  | .getField _ => "getfield"
  | .putField _ => "putfield"
  | .getStatic _ => "getstatic"
  | .invokeSpecial _ => "invokespecial"
  | .invokeVirtual _ => "invokevirtual"
  | .invokeStatic _ => "invokestatic"
  | .ret => "return"
  | .retRef => "areturn"
  | .unknown => "unknown"

def fieldText (r : MemberRef) : String := r.owner ++ "/" ++ r.name ++ " " ++ r.desc

def methodText (r : MemberRef) : String := r.owner ++ "/" ++ r.name ++ r.desc

def operands : Op → String
  | .pushInt v => toString v
  | .pushString s => Text.quote s
  | .load _ i => toString i
  | .store _ i => toString i
  | .increment i d => toString i ++ " " ++ toString d
  | .jump _ l => l
  | .new c => c
  | .cast c => c
  | .getField r => fieldText r
  | .putField r => fieldText r
  | .getStatic r => fieldText r
  | .invokeSpecial r => methodText r
  | .invokeVirtual r => methodText r
  | .invokeStatic r => methodText r
  | _ => ""

def shortSlot? : Op → Option Int
  | .load _ i => if i ≤ 3 then some i else none
  | .store _ i => if i ≤ 3 then some i else none
  | _ => none

def text (op : Op) : String :=
  match op.shortSlot? with
  | some i => op.mnemonic ++ "_" ++ toString i
  | none => if op.operands.isEmpty then op.mnemonic else op.mnemonic ++ " " ++ op.operands

end Op

def Instr.asmLine (i : Instr) : String :=
  match i.op with
  | .label l => "\t" ++ l ++ ":\n"
  | op => "\t\t" ++ op.text ++ "\n"

def MethodCode.asmText (m : MethodCode) : String :=
  ".method public " ++ (if m.isStatic then "static " else "") ++ m.name ++ m.desc ++ "\n" ++
  ".limit stack " ++ toString m.stackLimit ++ "\n" ++
  ".limit locals " ++ toString m.localsLimit ++ "\n" ++
  String.join (m.code.toList.map Instr.asmLine) ++ ".end method\n"

def ClassFile.asmText (c : ClassFile) : String :=
  ".class public " ++ c.name ++ "\n.super " ++ c.super ++ "\n" ++
  String.join (c.fields.map fun (n, d) => ".field " ++ n ++ " " ++ d ++ "\n") ++
  String.join (c.methods.map MethodCode.asmText)

def padLeft (width : Nat) (pad : Char) (s : String) : String :=
  String.ofList (List.replicate (width - s.length) pad) ++ s

def padRight (width : Nat) (s : String) : String :=
  s ++ String.ofList (List.replicate (width - s.length) ' ')

def trimRight (s : String) : String :=
  String.ofList (s.toList.reverse.dropWhile (· = ' ')).reverse

/-- A line of a listing. A source line is shown where it differs from that of the line before. -/
def Instr.listingLine (offset : Nat) (before : Option Int) (i : Instr) : String :=
  padLeft 4 '0' (toString offset) ++ " " ++
  (if before = some i.line then "   | " else padLeft 4 ' ' (toString i.line) ++ " ") ++
  match i.op with
  | .label l => l ++ ":\n"
  | op => trimRight (padRight 16 op.mnemonic.toUpper ++ " " ++ op.operands) ++ "\n"

def listingLines (offset : Nat) (before : Option Int) : List Instr → List String
  | [] => []
  | i :: is => i.listingLine offset before :: listingLines (offset + 1) (some i.line) is

/-- The numbered listing of a method under a title. -/
def MethodCode.listing (m : MethodCode) (title : String) : String :=
  "== " ++ title ++ " ==\n" ++ String.join (listingLines 0 none m.code.toList)

end ClassCompiler
