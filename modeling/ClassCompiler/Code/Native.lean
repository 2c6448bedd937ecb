import ClassCompiler.Code.Basic

namespace ClassCompiler

def initName : String := "<init>"
def mainName : String := "main"
def mainDesc : String := "([Ljava/lang/String;)V"

def systemClass : String := "java/lang/System"
def outField : MemberRef := ⟨systemClass, "out", "Ljava/io/PrintStream;"⟩

def MemberRef.key (r : MemberRef) : String := r.owner ++ "/" ++ r.name ++ r.desc

def MemberRef.constructorKey (r : MemberRef) : String := r.owner ++ "/" ++ r.desc

/-- Constructors of the runtime classes. -/
inductive NativeConstructor where
  | listOfArrayList | listCopy | fptrBind
  deriving Repr, DecidableEq, Inhabited

namespace NativeConstructor

def all : List NativeConstructor := [.listOfArrayList, .listCopy, .fptrBind]

def ref : NativeConstructor → MemberRef
  | .listOfArrayList => ⟨listClass, initName, "(Ljava/util/ArrayList;)V"⟩
  | .listCopy => ⟨listClass, initName, "(LList;)V"⟩
  | .fptrBind => ⟨fptrClass, initName, "(Ljava/lang/Object;Ljava/lang/String;)V"⟩

/-- The constructors under the texts they are known by. -/
def byKey : List (String × NativeConstructor) := all.map fun n => (n.ref.constructorKey, n)

def ofRef? (r : MemberRef) : Option NativeConstructor := byKey.lookup r.constructorKey

end NativeConstructor

/-- Methods of the runtime classes. -/
inductive NativeMethod where
  | intValue | booleanValue | arrayListAdd | getElement | setElement | invoke
  | printInt | printBool | printString
  deriving Repr, DecidableEq, Inhabited

namespace NativeMethod

def all : List NativeMethod :=
  [.intValue, .booleanValue, .arrayListAdd, .getElement, .setElement, .invoke,
    .printInt, .printBool, .printString]

def ref : NativeMethod → MemberRef
  | .intValue => ⟨integerClass, "intValue", "()I"⟩
  | .booleanValue => ⟨booleanClass, "booleanValue", "()Z"⟩
  | .arrayListAdd => ⟨arrayListClass, "add", "(Ljava/lang/Object;)Z"⟩
  | .getElement => ⟨listClass, "getElement", "(I)Ljava/lang/Object;"⟩
  | .setElement => ⟨listClass, "setElement", "(ILjava/lang/Object;)V"⟩
  | .invoke => ⟨fptrClass, "invoke", "(Ljava/util/ArrayList;)Ljava/lang/Object;"⟩
  | .printInt => ⟨printStreamClass, "print", "(I)V"⟩
  | .printBool => ⟨printStreamClass, "print", "(Z)V"⟩
  | .printString => ⟨printStreamClass, "print", "(Ljava/lang/String;)V"⟩

/-- The methods under the texts they are known by. -/
def byKey : List (String × NativeMethod) := all.map fun n => (n.ref.key, n)

def ofRef? (r : MemberRef) : Option NativeMethod := byKey.lookup r.key

end NativeMethod

/-- Static methods of the runtime classes. -/
inductive NativeStatic where
  | integerValueOf | booleanValueOf
  deriving Repr, DecidableEq, Inhabited

namespace NativeStatic

def all : List NativeStatic := [.integerValueOf, .booleanValueOf]

def ref : NativeStatic → MemberRef
  | .integerValueOf => ⟨integerClass, "valueOf", "(I)Ljava/lang/Integer;"⟩
  | .booleanValueOf => ⟨booleanClass, "valueOf", "(Z)Ljava/lang/Boolean;"⟩

/-- The static methods under the texts they are known by. -/
def byKey : List (String × NativeStatic) := all.map fun n => (n.ref.key, n)

def ofRef? (r : MemberRef) : Option NativeStatic := byKey.lookup r.key

end NativeStatic

end ClassCompiler
