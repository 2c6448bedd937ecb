import ClassCompiler.Compile.Stmt

namespace ClassCompiler

/-- Limits on the frame of a method. -/
structure Limits where
  stack : Int := 128
  locals : Int := 128
  deriving Repr, DecidableEq, Inhabited

/-- What code is generated for. -/
structure CompileOptions where
  entry : String := "Main"
  limits : Limits := {}
  deriving Repr, DecidableEq, Inhabited

def CompileOptions.ofSettings (entry : String) (stack locals : Int) : CompileOptions :=
  { entry := if entry.isEmpty then "Main" else entry
    limits := { stack := if 0 < stack then stack else 128, locals := if 0 < locals then locals else 128 } }

namespace CompileOptions

variable (o : CompileOptions)

def method (name desc : String) (isStatic : Bool) (code : List Instr) : MethodCode :=
  { name, desc, isStatic, stackLimit := o.limits.stack, localsLimit := o.limits.locals
    code := code.toArray }

/-- A finished method, if its slots fit into the frame. -/
def finish (name desc : String) (code : List Instr) : Gen MethodCode := fun s =>
  -- Only the slots are compared with their limit; that of the stack is written as it stands.
  if (s.slots : Int) ≤ o.limits.locals then .ok (o.method name desc false code, s)
  else .error { problem := .localsLimit name s.slots o.limits.locals }

end CompileOptions

namespace ClassDecl

def superName (c : ClassDecl) : String := if c.parentName = "" then rootClass else c.parentName

def entryCode (c : ClassDecl) : List Instr :=
  onLine c.token.pos.line [.new c.name.name, .invokeSpecial ⟨c.name.name, initName, "()V"⟩, .ret]

def fieldDefault (c : ClassDecl) (f : VarDecl) : List Op :=
  .load .ref 0 :: defaultValue f.type ++ [.putField ⟨c.name.name, f.name.name, f.type.descriptor⟩]

/-- Every constructor first runs that of the parent, then sets the fields of the class. -/
def prologue (c : ClassDecl) (line : Int) : List Instr :=
  onLine line ([.load .ref 0, .invokeSpecial ⟨c.superName, initName, "()V"⟩] ++
    c.fields.flatMap c.fieldDefault)

end ClassDecl

namespace MethodDecl

/-- The slot a local is kept in; a name declared before keeps its slot. -/
def localSlot (m : MethodDecl) (v : VarDecl) : Nat := ((m.symbol? v.name.name).map Symbol.slot).getD 0

def localDefaults (m : MethodDecl) : List Instr :=
  m.locals.flatMap fun v => onLine v.token.pos.line (defaultValue v.type ++ [.store .ref (m.localSlot v)])

/-- Locals, the body, and a return where the body does not end in one. -/
def compileBody (table : Program) (c : ClassDecl) (m : MethodDecl) : Gen (List Instr) := do
  -- Temporaries come behind the parameters and the locals.
  Gen.freeSlotsFrom m.slotCount
  let ctx : Context := { table, className := c.name.name, method := m }
  let body ← ctx.compileStmts none m.body
  return m.localDefaults ++ body ++ (if m.endsWithReturn then [] else onLine m.token.pos.line [.ret])

end MethodDecl

namespace CompileOptions

variable (o : CompileOptions) (table : Program)

def compileConstructor (c : ClassDecl) (m : MethodDecl) : Gen MethodCode := do
  let body ← m.compileBody table c
  o.finish initName m.constructorDescriptor (c.prologue m.token.pos.line ++ body)

def compileMethod (c : ClassDecl) (m : MethodDecl) : Gen MethodCode := do
  let body ← m.compileBody table c
  o.finish m.name.name m.descriptor body

def compileMethods (c : ClassDecl) : List MethodDecl → Gen (List MethodCode)
  | [] => return []
  | m :: ms => do
    let r ← Gen.within ("method " ++ m.name.name) (o.compileMethod table c m)
    let rest ← compileMethods c ms
    return r :: rest

def defaultConstructor (c : ClassDecl) : Gen MethodCode := do
  Gen.freeSlotsFrom 1
  o.finish initName "()V" (c.prologue c.token.pos.line ++ onLine c.token.pos.line [.ret])

/-- The constructors of a class: one without parameters, and the declared one if it has some. -/
def compileConstructors (c : ClassDecl) : Gen (List MethodCode) :=
  match c.constructor with
  | none => do
    let d ← o.defaultConstructor c
    return [d]
  | some m =>
    if m.args.isEmpty then do
      let r ← Gen.within "constructor" (o.compileConstructor table c m)
      return [r]
    else do
      -- Classes that extend this one call the constructor without parameters.
      let d ← o.defaultConstructor c
      let r ← Gen.within "constructor" (o.compileConstructor table c m)
      return [d, r]

def compileClass (c : ClassDecl) : Gen ClassFile := do
  let constructors ← o.compileConstructors table c
  let methods ← o.compileMethods table c c.methods
  let entryPoint := if c.name.name = o.entry then [o.method mainName mainDesc true c.entryCode] else []
  return {
    name := c.name.name
    super := c.superName
    fields := c.fields.map fun f => (f.name.name, f.type.descriptor)
    methods := entryPoint ++ constructors ++ methods
    table := table.methodTable c.name.name }

def compileClasses : List ClassDecl → Gen (List ClassFile)
  | [] => return []
  | c :: cs => do
    let r ← Gen.within ("class " ++ c.name.name) (o.compileClass table c)
    let rest ← compileClasses cs
    return r :: rest

end CompileOptions

/-- The class files of a program, in the order of its classes. Names are resolved in `table`. -/
def Program.compile (o : CompileOptions) (table p : Program) : Except CompileError (List ClassFile) :=
  match o.compileClasses table p.classes {} with
  | .ok (files, _) => .ok files
  | .error e => .error e

end ClassCompiler
