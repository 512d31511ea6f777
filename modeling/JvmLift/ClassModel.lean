import JvmLift.ClassFile
import JvmLift.Method

namespace JvmLift

-- Something odd in a class file that does not keep it from being loaded.
inductive Warning where
  | trailingBytes (count : Nat)
  | undecoded (name className method : String)
deriving DecidableEq

namespace Warning

def message : Warning → String
  | trailingBytes count =>
    "not all bytes were consumed when parsing classfile, " ++ toString count ++ " bytes remaining"
  | undecoded name className method =>
    "leaving unknown code attribute " ++ name ++ " of " ++ className ++ "#" ++ method
      ++ " undecoded"

end Warning

-- A class with all references resolved that its methods need.
structure ClassModel where
  name : String
  superName : Option String
  sourceFile : Option String
  flags : UInt16
  pool : Pool
  bootstrapMethods : List BootstrapMethod
  methods : List Method
deriving DecidableEq

-- Loading collects warnings, which survive a failure.
abbrev Load (α : Type) := ExceptT ClassFileError (StateM (List Warning)) α

namespace Load

def warn (w : Warning) : Load Unit :=
  modify (· ++ [w])

def decode {α : Type} (name : String) (read : Read α) (info : Bytes) : Load α :=
  match read info with
  | some (value, _) => pure value
  | none => throw (.badAttribute name)

end Load

-- The attributes of code that hold nothing of use here.
def ignoredCodeAttributes : List String :=
  ["StackMapTable", "LocalVariableTypeTable", "RuntimeVisibleTypeAnnotations",
   "RuntimeInvisibleTypeAnnotations"]

namespace MethodSource

def addLocal (pool : Pool) (source : MethodSource) (entry : LocalEntry) : Load MethodSource := do
  let descriptor ← pool.utf8 entry.descriptor
  match JvmType.ofDescriptor? descriptor with
  | none => throw (.descriptor descriptor)
  | some ty =>
    let name ← pool.utf8 entry.name
    return { source with
      locals := source.locals ++ [⟨name, ty, entry.slot, entry.start, entry.length⟩] }

-- Takes in an attribute of the code.
def addCodeAttribute (pool : Pool) (source : MethodSource) (a : Attribute) :
    Load MethodSource := do
  let name ← pool.utf8 a.name
  if name = "LineNumberTable" then
    let lines ← Load.decode name Attribute.readLines a.info
    return { source with lines := source.lines ++ lines }
  else if name = "LocalVariableTable" then
    (← Load.decode name Attribute.readLocals a.info).foldlM (addLocal pool) source
  else
    unless name ∈ ignoredCodeAttributes do
      Load.warn (.undecoded name source.className source.name)
    return source

-- Takes in an attribute of the method. Only the code is of use.
def addAttribute (pool : Pool) (source : MethodSource) (a : Attribute) : Load MethodSource := do
  let name ← pool.utf8 a.name
  if name = "Code" then
    let code ← Load.decode name CodeAttribute.read a.info
    let source := { source with
      code := code.code, exceptions := source.exceptions ++ code.exceptions }
    code.attributes.foldlM (addCodeAttribute pool) source
  else return source

end MethodSource

namespace Method

def load (className : String) (pool : Pool) (bootstrapMethods : List BootstrapMethod)
    (info : MemberInfo) : Load Method := do
  let name ← pool.utf8 info.name
  let descriptor ← pool.utf8 info.descriptor
  let source : MethodSource :=
    { className, name, descriptor, flags := info.flags, pool, bootstrapMethods }
  let source ← info.attributes.foldlM (MethodSource.addAttribute pool) source
  ofSource source

end Method

namespace ClassModel

-- Takes in an attribute of the class.
def addAttribute (c : ClassModel) (a : Attribute) : Load ClassModel := do
  let name ← c.pool.utf8 a.name
  if name = "BootstrapMethods" then
    let bootstrapMethods ← Load.decode name Attribute.readBootstrapMethods a.info
    return { c with bootstrapMethods }
  else if name = "SourceFile" then
    let index ← Load.decode name Attribute.readSourceFile a.info
    return { c with sourceFile := some (← c.pool.utf8 index) }
  else return c

def ofClassFile (file : ClassFile) : Load ClassModel := do
  let pool : Pool := ⟨file.pool.toArray⟩
  let name ← pool.className file.thisClass
  let superName ←
    if file.superClass = 0 then pure none else some <$> pool.className file.superClass
  let c : ClassModel := ⟨name, superName, none, file.flags, pool, [], []⟩
  let c ← file.attributes.foldlM addAttribute c
  let methods ← file.methods.mapM (Method.load name pool c.bootstrapMethods)
  return { c with methods }

def load (bytes : Bytes) : Load ClassModel := do
  let (file, rest) ← ClassFile.ofBytes bytes
  if rest ≠ [] then Load.warn (.trailingBytes rest.length)
  ofClassFile file

-- Loads a class and gives the warnings in the order in which they arose.
def ofBytes (bytes : Bytes) : Except ClassFileError ClassModel × List Warning :=
  (load bytes).run.run []

def method? (c : ClassModel) (name descriptor : String) : Option Method :=
  c.methods.find? fun m => m.name = name && m.descriptor = descriptor

def methodsNamed (c : ClassModel) (name : String) : List Method :=
  c.methods.filter fun m => m.name = name

end ClassModel

end JvmLift
