import ClassCompiler.Tree.Basic
import ClassCompiler.Ty.Parser
import ClassCompiler.Yaml.Document

namespace ClassCompiler

open Yaml (Node)

/-- What a node should have been. -/
inductive Shape where
  | documentMapping
  | classList
  | mapping
  | singleKey
  | named (what : String)
  | classWithName
  | methodList
  | methodWithName
  | constructorWithoutResult
  | varList
  | typeText
  | stmtList
  | leftRight
  | opLeftRight
  | calleeArgs
  | classArgs
  | elemList
  | condThen
  | varIn
  | intInRange
  | intOnly
  | nonEmpty
  deriving Repr, DecidableEq

def Shape.message : Shape → String
  | .documentMapping => "document must be a mapping"
  | .classList => "classes must be a list"
  | .mapping => "expected a mapping"
  | .singleKey => "expected a single-key mapping"
  | .named what => what ++ " must be a name"
  | .classWithName => "class has no name"
  | .methodList => "methods must be a list"
  | .methodWithName => "method has no name"
  | .constructorWithoutResult => "constructors return nothing"
  | .varList => "expected a list of name: type"
  | .typeText => "type must be a string"
  | .stmtList => "expected a list of statements"
  | .leftRight => "expected [left, right]"
  | .opLeftRight => "expected [op, left, right]"
  | .calleeArgs => "expected [fn, args...]"
  | .classArgs => "expected [Class, args...]"
  | .elemList => "expected a list of elements"
  | .condThen => "if needs cond and then"
  | .varIn => "foreach needs var and in"
  | .intInRange => "int literal out of range"
  | .intOnly => "only int literals are supported"
  | .nonEmpty => "empty expression"

inductive DecodeError where
  | yaml (e : Yaml.Error)
  | unknown (pos : Pos) (text : String)
  | malformed (pos : Pos) (shape : Shape)
  | type (pos : Pos) (e : Ty.SyntaxError)
  deriving Repr, DecidableEq

def DecodeError.message : DecodeError → String
  | .yaml e => "parse yaml: " ++ Octets.ofUnicode e.message
  | .unknown pos text => pos.text ++ ": " ++ Text.quote text ++ ": unknown node"
  | .malformed pos shape => pos.text ++ ": " ++ shape.message ++ ": malformed node"
  | .type pos e => pos.text ++ ": " ++ e.message

namespace Decoder

abbrev Result := Except DecodeError

def posOf (n : Node) : Pos := ⟨n.line, n.column⟩

def tokenAt (n : Node) (kind : TokenKind) (lexeme : String) : Token := ⟨kind, lexeme, posOf n⟩

def wordAt (n : Node) (kind : TokenKind) : Token := ⟨kind, kind.text, posOf n⟩

def identAt (n : Node) (name : String) : Ident := ⟨tokenAt n .identifier name, name⟩

def unknown {α : Type} (n : Node) : Result α := .error (.unknown (posOf n) n.text)

def malformed {α : Type} (n : Node) (shape : Shape) : Result α := .error (.malformed (posOf n) shape)

/-- The name a scalar holds; `what` says whose name it is. -/
def name (n : Node) (what : String) : Result Ident :=
  if n.kind = .scalar && n.text ≠ "" then .ok (identAt n n.text) else malformed n (.named what)

def type (n : Node) : Result Ty :=
  if n.kind ≠ .scalar then malformed n .typeText
  else
    match Ty.parse n.text with
    | .ok t => .ok t
    | .error e => .error (.type (posOf n) e)

def binOp? (s : String) : Option BinOp :=
  [.assign, .add, .sub, .mul, .div, .mod, .lt, .gt, .eq, .ne, .and, .or].find? (·.text = s)

def unOp? : String → Option UnOp
  | "not" => some .not
  | "neg" => some .neg
  | "preinc" => some .preInc
  | "predec" => some .preDec
  | "postinc" => some .postInc
  | "postdec" => some .postDec
  | _ => none

/-- A literal or a name. Quotes make a string; other scalars go by their tag. -/
def scalar (n : Node) : Result Expr :=
  if n.style = .singleQuoted || n.style = .doubleQuoted then
    .ok (.string (tokenAt n .stringLit n.text) n.text)
  else if n.tag = "!!int" then
    match Numeral.int? 32 n.text.toList with
    | some v => .ok (.int (tokenAt n .intLit n.text) v)
    | none => malformed n .intInRange
  else if n.tag = "!!bool" then
    -- Other spellings that go by this tag count as false.
    let b := n.text = "true"
    .ok (.bool (tokenAt n (if b then .trueLit else .falseLit) n.text) b)
  else if n.tag = "!!null" then .ok (.null (wordAt n .null))
  else if n.tag = "!!float" then malformed n .intOnly
  else if n.text = "this" then .ok (.this (wordAt n .this))
  else if n.text = "" then malformed n .nonEmpty
  else .ok (.ident (identAt n n.text))

mutual

def expr (n : Node) : Result Expr :=
  if n.kind = .scalar then scalar n
  else
    match n.kind, hn : n.children with
    | .mapping, [k, v] =>
      have hv : sizeOf v < sizeOf n := Node.sizeOf_lt_of_mem hn (by simp)
      match unOp? k.text with
      | some op => do
        let x ← expr v
        return .unary (wordAt k (.unary op)) op x
      | none =>
        match k.text with
        | "str" => .ok (.string (tokenAt v .stringLit v.text) v.text)
        | "null" => .ok (.null (wordAt k .null))
        | "bin" =>
          match v.kind, hc : v.children with
          | .sequence, [o, l, r] =>
            have hl : sizeOf l < sizeOf v := Node.sizeOf_lt_of_mem hc (by simp)
            have hr : sizeOf r < sizeOf v := Node.sizeOf_lt_of_mem hc (by simp)
            match binOp? o.text with
            | none => unknown o
            | some op => do
              let l ← expr l
              let r ← expr r
              return .binary (wordAt k (.binary op)) op l r
          | _, _ => malformed v .opLeftRight
        | "assign" =>
          match v.kind, hc : v.children with
          | .sequence, [l, r] =>
            have hl : sizeOf l < sizeOf v := Node.sizeOf_lt_of_mem hc (by simp)
            have hr : sizeOf r < sizeOf v := Node.sizeOf_lt_of_mem hc (by simp)
            do
              let l ← expr l
              let r ← expr r
              return .binary (wordAt k (.binary .assign)) .assign l r
          | _, _ => malformed v .leftRight
        | "dot" =>
          match v.kind, hc : v.children with
          | .sequence, [x, m] =>
            have hx : sizeOf x < sizeOf v := Node.sizeOf_lt_of_mem hc (by simp)
            do
              let m ← name m "member"
              let x ← expr x
              return .member (wordAt k .dot) x m
          | _, _ => malformed v .leftRight
        | "idx" =>
          match v.kind, hc : v.children with
          | .sequence, [x, i] =>
            have hx : sizeOf x < sizeOf v := Node.sizeOf_lt_of_mem hc (by simp)
            have hi : sizeOf i < sizeOf v := Node.sizeOf_lt_of_mem hc (by simp)
            do
              let x ← expr x
              let i ← expr i
              return .index (wordAt k .bracket) x i
          | _, _ => malformed v .leftRight
        | "call" => do
          let (f, as) ← callParts v
          return .call (wordAt k .paren) f as
        | "new" =>
          match v.kind, hc : v.children with
          | .sequence, c :: as =>
            have hs : sizeOf as < sizeOf v := by
              have := Node.sizeOf_children_lt hc
              simp at this
              omega
            do
              let c ← name c "class"
              let as ← exprs as
              return .new (wordAt k .new) c as
          | _, _ => malformed v .classArgs
        | "list" =>
          if v.kind = .sequence then
            have hs : sizeOf v.children < sizeOf v := Node.sizeOf_children_lt rfl
            do
              let es ← exprs v.children
              return .list (wordAt k .bracket) es
          else malformed v .elemList
        | _ => unknown k
    | _, _ => malformed n .singleKey
termination_by (sizeOf n, 1)

def callParts (v : Node) : Result (Expr × List Expr) :=
  match v.kind, hc : v.children with
  | .sequence, f :: as =>
    have hf : sizeOf f < sizeOf v := Node.sizeOf_lt_of_mem hc (by simp)
    have hs : sizeOf as < sizeOf v := by
      have := Node.sizeOf_children_lt hc
      simp at this
      omega
    do
      let f ← expr f
      let as ← exprs as
      return (f, as)
  | _, _ => malformed v .calleeArgs
termination_by (sizeOf v, 0)

def exprs (ns : List Node) : Result (List Expr) :=
  match ns with
  | [] => .ok []
  | n :: ns => do
    let e ← expr n
    let es ← exprs ns
    return e :: es
termination_by (sizeOf ns, 0)

end

def assignment (k v : Node) : Result Assign :=
  match v.kind, v.children with
  | .sequence, [l, r] => do
    let l ← expr l
    let r ← expr r
    return ⟨wordAt k (.binary .assign), l, r⟩
  | _, _ => malformed v .leftRight

/-- The parts of a conditional read so far. -/
structure CondParts where
  test : Option Expr := none
  yes : Option Stmt := none
  no : Option Stmt := none

structure ForParts where
  init : Option Assign := none
  test : Option Expr := none
  update : Option Assign := none
  body : Option Stmt := none

structure ForeachParts where
  var : Option Ident := none
  list : Option Expr := none
  body : Option Stmt := none

def entries (n : Node) : Result (List Node) :=
  if n.kind = .mapping then .ok n.children else malformed n .mapping

mutual

def stmts (ns : List Node) : Result (List Stmt) :=
  match ns with
  | [] => .ok []
  | n :: ns => do
    let s ← stmt n
    let ss ← stmts ns
    return s :: ss
termination_by (sizeOf ns, 0)

def stmtList (n : Node) : Result (List Stmt) :=
  if n.isNull then .ok []
  else if n.kind = .sequence then
    have _hs : sizeOf n.children < sizeOf n := Node.sizeOf_children_lt rfl
    stmts n.children
  else malformed n .stmtList
termination_by (sizeOf n, 0)

def body (n : Node) : Result Stmt :=
  if n.kind = .sequence then do
    let ss ← stmtList n
    return .block (wordAt n .block) ss
  else stmt n
termination_by (sizeOf n, 2)

def stmt (n : Node) : Result Stmt :=
  match n.kind, hn : n.children with
  | .mapping, [k, v] =>
    have hv : sizeOf v < sizeOf n := Node.sizeOf_lt_of_mem hn (by simp)
    match k.text with
    | "print" => do
      let x ← expr v
      return .print (wordAt k .print) x
    | "assign" => do
      let a ← assignment k v
      return .assign a
    | "call" => do
      let (f, as) ← callParts v
      return .call (wordAt k .paren) f as
    | "return" =>
      if v.isNull then .ok (.ret (wordAt k .return) none)
      else do
        let x ← expr v
        return .ret (wordAt k .return) (some x)
    | "block" => do
      let ss ← stmtList v
      return .block (wordAt k .block) ss
    | "break" => .ok (.break (wordAt k .break))
    | "continue" => .ok (.continue (wordAt k .continue))
    | "if" =>
      if v.kind = .mapping then
        have hs : sizeOf v.children < sizeOf v := Node.sizeOf_children_lt rfl
        do
          let p ← condParts v.children {}
          match p.test, p.yes with
          | some test, some yes => return .cond (wordAt k .if) test yes p.no
          | _, _ => malformed k .condThen
      else malformed v .mapping
    | "for" =>
      if v.kind = .mapping then
        have hs : sizeOf v.children < sizeOf v := Node.sizeOf_children_lt rfl
        do
          let p ← forParts v.children {}
          let token := wordAt k .for
          return .for token p.init p.test p.update (p.body.getD (.block token []))
      else malformed v .mapping
    | "foreach" =>
      if v.kind = .mapping then
        have hs : sizeOf v.children < sizeOf v := Node.sizeOf_children_lt rfl
        do
          let p ← foreachParts v.children {}
          let token := wordAt k .foreach
          match p.var, p.list with
          | some var, some list => return .foreach token var list (p.body.getD (.block token []))
          | _, _ => malformed k .varIn
      else malformed v .mapping
    | _ => unknown k
  | _, _ => malformed n .singleKey
termination_by (sizeOf n, 1)

/-- Reads the entries of a conditional; a later entry of the same key wins. -/
def condParts (ns : List Node) (p : CondParts) : Result CondParts :=
  match ns with
  | k :: v :: rest =>
    match k.text with
    | "cond" => do
      let x ← expr v
      condParts rest { p with test := some x }
    | "then" => do
      let s ← body v
      condParts rest { p with yes := some s }
    | "else" => do
      let s ← body v
      condParts rest { p with no := some s }
    | _ => unknown k
  | _ => .ok p
termination_by (sizeOf ns, 0)

def forParts (ns : List Node) (p : ForParts) : Result ForParts :=
  match ns with
  | k :: v :: rest =>
    match k.text with
    | "init" => do
      let a ← assignment k v
      forParts rest { p with init := some a }
    | "cond" => do
      let x ← expr v
      forParts rest { p with test := some x }
    | "update" => do
      let a ← assignment k v
      forParts rest { p with update := some a }
    | "body" => do
      let s ← body v
      forParts rest { p with body := some s }
    | _ => unknown k
  | _ => .ok p
termination_by (sizeOf ns, 0)

def foreachParts (ns : List Node) (p : ForeachParts) : Result ForeachParts :=
  match ns with
  | k :: v :: rest =>
    match k.text with
    | "var" => do
      let x ← name v "loop variable"
      foreachParts rest { p with var := some x }
    | "in" => do
      let x ← expr v
      foreachParts rest { p with list := some x }
    | "body" => do
      let s ← body v
      foreachParts rest { p with body := some s }
    | _ => unknown k
  | _ => .ok p
termination_by (sizeOf ns, 0)

end

/-- One declaration, a mapping from a name to a type. -/
def var (kind : TokenKind) (n : Node) : Result VarDecl :=
  match n.kind, n.children with
  | .mapping, [k, v] => do
    let t ← type v
    return { token := tokenAt k kind k.text, name := identAt k k.text, type := t }
  | _, _ => malformed n .singleKey

def vars (kind : TokenKind) (n : Node) : Result (List VarDecl) :=
  if n.kind = .sequence then n.children.mapM (var kind) else malformed n .varList

/-- The parts of a method read so far. -/
structure MethodParts where
  name : Option Ident := none
  args : List VarDecl := []
  locals : List VarDecl := []
  returnType : Option Ty := none
  body : List Stmt := []

def methodParts (isConstructor : Bool) : List Node → MethodParts → Result MethodParts
  | k :: v :: rest, p =>
    match k.text with
    | "name" => do
      let x ← name v "method"
      methodParts isConstructor rest { p with name := some x }
    | "returns" => do
      if isConstructor then malformed k .constructorWithoutResult
      else
        let t ← type v
        methodParts isConstructor rest { p with returnType := some t }
    | "args" => do
      let vs ← vars .var v
      methodParts isConstructor rest { p with args := vs }
    | "locals" => do
      let vs ← vars .var v
      methodParts isConstructor rest { p with locals := vs }
    | "body" => do
      let ss ← stmtList v
      methodParts isConstructor rest { p with body := ss }
    | _ => unknown k
  | _, p => .ok p

def MethodParts.lexeme (p : MethodParts) : String := (p.name.map Ident.name).getD ""

def method (n : Node) : Result MethodDecl := do
  -- A method that does not say what it returns is void; a constructor has no result at all.
  let p ← methodParts false (← entries n) { returnType := some .void }
  match p.name with
  | none => malformed n .methodWithName
  | some name => return {
      token := tokenAt n .method p.lexeme, name, args := p.args, locals := p.locals
      returnType := p.returnType, body := p.body }

/-- A constructor, and its name if it has one of its own. -/
def constructor (n : Node) : Result (Option Ident × MethodDecl) := do
  let p ← methodParts true (← entries n) {}
  let token := tokenAt n .constructor p.lexeme
  return (p.name, {
    token, name := p.name.getD ⟨token, ""⟩, args := p.args, locals := p.locals, body := p.body })

/-- The parts of a class read so far. -/
structure ClassParts where
  name : Option Ident := none
  parent : Option Ident := none
  fields : List VarDecl := []
  constructor : Option (Option Ident × MethodDecl) := none
  methods : List MethodDecl := []

def classParts : List Node → ClassParts → Result ClassParts
  | k :: v :: rest, p =>
    match k.text with
    | "class" => do
      let x ← name v "class"
      classParts rest { p with name := some x }
    | "extends" => do
      let x ← name v "parent"
      classParts rest { p with parent := some x }
    | "fields" => do
      let vs ← vars .field v
      -- Lists that are given twice are put together; of the other parts the last counts.
      classParts rest { p with fields := p.fields ++ vs }
    | "constructor" => do
      let c ← constructor v
      classParts rest { p with constructor := some c }
    | "methods" => do
      if v.kind = .sequence then
        let ms ← v.children.mapM method
        classParts rest { p with methods := p.methods ++ ms }
      else malformed v .methodList
    | _ => unknown k
  | _, p => .ok p

/-- A constructor without a name of its own is named after its class. -/
def classDecl (n : Node) : Result ClassDecl := do
  let p ← classParts (← entries n) {}
  match p.name with
  | none => malformed n .classWithName
  | some name => return {
      token := tokenAt n .classDecl name.name
      name
      parent := p.parent
      fields := p.fields
      constructor := p.constructor.map fun (own, c) =>
        match own with
        | some _ => c
        | none => { c with name := ⟨c.token, name.name⟩ }
      methods := p.methods }

def classLists : List Node → Result (List ClassDecl)
  | k :: v :: rest => do
    if k.text ≠ "classes" then unknown k
    else if v.kind ≠ .sequence then malformed v .classList
    else
      let cs ← v.children.mapM classDecl
      return cs ++ (← classLists rest)
  | _ => .ok []

end Decoder

/-- The program that a document's root node describes. -/
def Program.ofNode (file : String) (root : Node) : Except DecodeError Program :=
  if root.kind = .mapping then do
    let cs ← Decoder.classLists root.children
    return { file, classes := cs }
  else Decoder.malformed root .documentMapping

/-- Reads a program tree; a text without a document is the empty program. -/
def Program.decode (file : String) (text : String) : Except DecodeError Program :=
  match Yaml.readDocument text.toList with
  | .error e => .error (.yaml e)
  | .ok none => .ok { file }
  | .ok (some root) => Program.ofNode file root

end ClassCompiler
