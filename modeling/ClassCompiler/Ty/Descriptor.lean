import ClassCompiler.Ty.Basic

namespace ClassCompiler

/-- The classes of the machine that generated code uses. -/
def listClass : String := "List"
def fptrClass : String := "Fptr"
def rootClass : String := "java/lang/Object"
def arrayListClass : String := "java/util/ArrayList"
def integerClass : String := "java/lang/Integer"
def booleanClass : String := "java/lang/Boolean"
def stringClass : String := "java/lang/String"
def printStreamClass : String := "java/io/PrintStream"

namespace Ty

def classRef : Ty → String
  | .int => integerClass
  | .bool => booleanClass
  | .string => stringClass
  | .fptr _ _ => fptrClass
  | .list _ => listClass
  | .cls name => name
  | _ => rootClass

def descriptor : Ty → String
  | .void => "V"
  | t => "L" ++ t.classRef ++ ";"

end Ty
end ClassCompiler
