import JvmLift.Decompile
import JvmLift.Proofs.Lookup

namespace JvmLift

-- A slot with one variable, which is in scope in the whole code and is no boolean.
structure Method.Covers (m : Method) (slot : UInt16) (v : LocalVariable) : Prop where
  declared : v ∈ m.locals
  placed : v.slot = slot
  only : ∀ u ∈ m.locals, u.slot = slot → u = v
  opened : v.start = 0
  closed : m.code.length ≤ v.length.toNat
  ty : v.ty ≠ .boolean

namespace Opcode

-- The instruction that reads an element of an array.
def elementLoad : JvmType → Opcode
  | .int => iaload
  | .long => laload
  | .float => faload
  | .double => daload
  | .byte | .boolean => baload
  | .char => caload
  | .short => saload
  | _ => aaload

-- The instruction that returns a value, if there is one for its type.
def returnOf? : JvmType → Option Opcode
  | .int | .boolean | .byte | .char | .short => some ireturn
  | .long => some lreturn
  | .float => some freturn
  | .double => some dreturn
  | .void => none
  | _ => some areturn

-- The instruction that discards a value.
def discard (ty : JvmType) : Opcode :=
  if ty.category = 1 then pop else pop2

end Opcode

-- The expression that a constant of the pool stands for in the fragment.
def Loadable.expression? : Loadable → Option Element
  | .int value => some (.int value)
  | .long value => some (.long value)
  | .string text => some (.string text)
  | _ => none

-- The method that the pool names. An int that is passed to it is no boolean.
structure Method.Names (m : Method) (index : UInt16) (member : MemberRef)
    (signature : MethodDescriptor) : Prop where
  found : m.pool.methodRef index = .ok member
  described : MethodDescriptor.ofDescriptor? member.descriptor = some signature
  noBoolean : .boolean ∉ signature.parameters

namespace Fragment

-- The code of a load from a slot.
inductive Loads : UInt16 → Bytes → Prop where
  | short {code : Opcode} (h : code ∈ Opcode.shortLoads) :
    Loads ((code - Opcode.iload0) % 4).toUInt16 [code]
  | plain {code : Opcode} (h : code ∈ Opcode.range Opcode.iload Opcode.aload) (slot : UInt8) :
    Loads slot.toUInt16 [code, slot]
  | wide {code : Opcode} (h : code ∈ Opcode.range Opcode.iload Opcode.aload) (slot : UInt16) :
    Loads slot (Opcode.wide :: code :: wideBytes slot)

-- The code of a store to a slot.
inductive Stores : UInt16 → Bytes → Prop where
  | short {code : Opcode} (h : code ∈ Opcode.shortStores) :
    Stores ((code - Opcode.istore0) % 4).toUInt16 [code]
  | plain {code : Opcode} (h : code ∈ Opcode.range Opcode.istore Opcode.astore) (slot : UInt8) :
    Stores slot.toUInt16 [code, slot]
  | wide {code : Opcode} (h : code ∈ Opcode.range Opcode.istore Opcode.astore) (slot : UInt16) :
    Stores slot (Opcode.wide :: code :: wideBytes slot)

variable (m : Method)

-- The code of a constant.
inductive Constants : Element → Bytes → Prop where
  | null : Constants .null [Opcode.aconstNull]
  | int {code : Opcode} (h : code ∈ Opcode.range Opcode.iconstM1 Opcode.iconst5) :
    Constants (.int (.ofInt (code.toNat - Opcode.iconst0.toNat))) [code]
  | long {code : Opcode} (h : code ∈ Opcode.range Opcode.lconst0 Opcode.lconst1) :
    Constants (.long (.ofInt (code.toNat - Opcode.lconst0.toNat))) [code]
  | byte (value : Int8) : Constants (.int value.toInt32) [Opcode.bipush, value.toUInt8]
  | short (value : Int16) :
    Constants (.int value.toInt32) (Opcode.sipush :: wideBytes value.toUInt16)
  | pool {index : UInt8} {value : Loadable} {e : Element}
    (h : m.pool.loadable index.toUInt16 = .ok value) (he : value.expression? = some e)
    (hc : value.category = 1) : Constants e [Opcode.ldc, index]
  | poolWide {index : UInt16} {value : Loadable} {e : Element}
    (h : m.pool.loadable index = .ok value) (he : value.expression? = some e)
    (hc : value.category = 1) : Constants e (Opcode.ldcW :: wideBytes index)
  | poolDouble {index : UInt16} {value : Loadable} {e : Element}
    (h : m.pool.loadable index = .ok value) (he : value.expression? = some e)
    (hc : value.category = 2) : Constants e (Opcode.ldc2W :: wideBytes index)

-- The code of a call behind that of its operands.
inductive Calls : List Element → Call Element → Bytes → Prop where
  | ofClass {index : UInt16} {member : MemberRef} {signature : MethodDescriptor}
    {args : List Element} (h : m.Names index member signature) (hname : member.name ≠ "<init>")
    (hargs : args.length = signature.parameters.length) :
    Calls args ⟨.reference member.owner, member.name, signature, none, args, signature.result⟩
      (Opcode.invokestatic :: wideBytes index)
  | ofObject {index : UInt16} {member : MemberRef} {signature : MethodDescriptor}
    {target : Element} {args : List Element} (h : m.Names index member signature)
    (hname : member.name ≠ "<init>") (hargs : args.length = signature.parameters.length) :
    Calls (target :: args)
      ⟨.reference member.owner, member.name, signature, some target, args, signature.result⟩
      (Opcode.invokevirtual :: wideBytes index)
  | ofInterface {index : UInt16} {member : MemberRef} {signature : MethodDescriptor}
    {target : Element} {args : List Element} {count : UInt8}
    (h : m.Names index member signature) (hname : member.name ≠ "<init>")
    (hargs : args.length = signature.parameters.length) (hcount : count ≠ 0) :
    Calls (target :: args)
      ⟨.reference member.owner, member.name, signature, some target, args, signature.result⟩
      (Opcode.invokeinterface :: wideBytes index ++ [count, 0])

-- The code of one instruction that makes a value of its operands.
inductive Yields : List Element → Element → Bytes → Prop where
  | constant {e : Element} {code : Bytes} (h : Constants m e code) : Yields [] e code
  | localVar {slot : UInt16} {v : LocalVariable} {code : Bytes} (h : Loads slot code)
    (hv : m.Covers slot v) : Yields [] (.ofShape (.localVar ⟨v.name, v.ty, slot⟩)) code
  | binary {left right : Element} {code : Opcode} {op : BinaryOp} {ty : JvmType}
    (h : (code, op, ty) ∈ Instruction.Arithmetic.binaryOperators) :
    Yields [left, right] (.ofShape (.binary left op right ty)) [code]
  | negate {operand : Element} {code : Opcode} (h : code ∈ Opcode.range Opcode.ineg Opcode.dneg) :
    Yields [operand] (.ofShape (.unary operand .neg operand.ty)) [code]
  | convert {operand : Element} {code : Opcode} {ty : JvmType}
    (h : (code, ty) ∈ Instruction.Arithmetic.conversions) (hty : ty.isNarrow = false) :
    Yields [operand] (.ofShape (.cast operand ty)) [code]
  | checkcast {operand : Element} {index : UInt16} {name : String} {ty : JvmType}
    (h : m.pool.className index = .ok name) (hty : JvmType.ofClassName? name = some ty) :
    Yields [operand] (.ofShape (.cast operand ty)) (Opcode.checkcast :: wideBytes index)
  | instanceOf {operand : Element} {index : UInt16} {name : String} {ty : JvmType}
    (h : m.pool.className index = .ok name) (hty : JvmType.ofClassName? name = some ty) :
    Yields [operand] (.ofShape (.instanceOf operand ty)) (Opcode.instanceof :: wideBytes index)
  | getfield {target : Element} {index : UInt16} {member : MemberRef} {ty : JvmType}
    (h : m.pool.fieldRef index = .ok member)
    (hty : JvmType.ofDescriptor? member.descriptor = some ty) :
    Yields [target] (.ofShape (.field ⟨some target, .reference member.owner, ty, member.name⟩))
      (Opcode.getfield :: wideBytes index)
  | getstatic {index : UInt16} {member : MemberRef} {ty : JvmType}
    (h : m.pool.fieldRef index = .ok member)
    (hty : JvmType.ofDescriptor? member.descriptor = some ty) :
    Yields [] (.ofShape (.field ⟨none, .reference member.owner, ty, member.name⟩))
      (Opcode.getstatic :: wideBytes index)
  | arrayLoad {array index : Element} {component : JvmType} (h : array.ty = .array component) :
    Yields [array, index] (.ofShape (.arrayLoad array index component))
      [Opcode.elementLoad component]
  | newarray {length : Element} {code : UInt8} {component : JvmType}
    (h : JvmType.ofArrayCode? code = some component) :
    Yields [length] (.ofShape (.newArray (.array component) component length []))
      [Opcode.newarray, code]
  | anewarray {length : Element} {index : UInt16} {name : String} {component : JvmType}
    (h : m.pool.className index = .ok name) (hty : JvmType.ofClassName? name = some component) :
    Yields [length] (.ofShape (.newArray (.array component) component length []))
      (Opcode.anewarray :: wideBytes index)
  | call {operands : List Element} {c : Call Element} {code : Bytes} (h : Calls m operands c code)
    (hty : c.ty ≠ .void) : Yields operands (.ofShape (.call c)) code

-- The code that leaves the values of some expressions on the stack, the last one on top.
inductive Compiled : List Element → Bytes → Prop where
  | nil : Compiled [] []
  | apply {below operands : List Element} {e : Element} {code args instruction : Bytes}
    (hb : Compiled below code) (ho : Compiled operands args)
    (he : Yields m operands e instruction) :
    Compiled (below ++ [e]) (code ++ (args ++ instruction))
  | construct {below operands : List Element} {code args : Bytes} {classIndex index : UInt16}
    {member : MemberRef} {signature : MethodDescriptor} (hb : Compiled below code)
    (ho : Compiled operands args) (hclass : m.pool.className classIndex = .ok member.owner)
    (hty : JvmType.ofClassName? member.owner = some (.reference member.owner))
    (h : m.Names index member signature) (hname : member.name = "<init>")
    (hargs : operands.length = signature.parameters.length) :
    Compiled
      (below ++ [.ofShape (.newInstance (.reference member.owner) signature operands)])
      (code ++ (Opcode.new :: (wideBytes classIndex ++
        Opcode.dup :: (args ++ Opcode.invokespecial :: wideBytes index))))

-- The code of a statement.
inductive Stated : Element → Bytes → Prop where
  | store {value : Element} {slot : UInt16} {v : LocalVariable} {code store : Bytes}
    (hc : Compiled m [value] code) (h : Stores slot store) (hv : m.Covers slot v) :
    Stated (.ofShape (.assign slot v.name v.ty value)) (code ++ store)
  | putfield {target value : Element} {index : UInt16} {member : MemberRef} {ty : JvmType}
    {code : Bytes} (hc : Compiled m [target, value] code)
    (h : m.pool.fieldRef index = .ok member)
    (hty : JvmType.ofDescriptor? member.descriptor = some ty) :
    Stated
      (.ofShape (.assignField ⟨some target, .reference member.owner, ty, member.name⟩ value))
      (code ++ Opcode.putfield :: wideBytes index)
  | putstatic {value : Element} {index : UInt16} {member : MemberRef} {ty : JvmType}
    {code : Bytes} (hc : Compiled m [value] code) (h : m.pool.fieldRef index = .ok member)
    (hty : JvmType.ofDescriptor? member.descriptor = some ty) :
    Stated (.ofShape (.assignField ⟨none, .reference member.owner, ty, member.name⟩ value))
      (code ++ Opcode.putstatic :: wideBytes index)
  | arrayStore {array index value : Element} {store : Opcode} {code : Bytes}
    (hc : Compiled m [array, index, value] code) (harray : array.kind ≠ .newArray)
    (h : store ∈ Opcode.range Opcode.iastore Opcode.sastore) :
    Stated (.ofShape (.arrayStore array index value)) (code ++ [store])
  | call {operands : List Element} {c : Call Element} {code call : Bytes}
    (hc : Compiled m operands code) (h : Calls m operands c call) (hty : c.ty = .void) :
    Stated (.ofShape (.call c)) (code ++ call)
  | discard {e : Element} {code : Bytes} (hc : Compiled m [e] code)
    (he : e.kind = .call ∨ e.kind = .newInstance) : Stated e (code ++ [Opcode.discard e.ty])

-- The code of statements one after the other.
inductive Sequence : List Element → Bytes → Prop where
  | nil : Sequence [] []
  | snoc {statements : List Element} {statement : Element} {code last : Bytes}
    (hs : Sequence statements code) (h : Stated m statement last) :
    Sequence (statements ++ [statement]) (code ++ last)

-- The code of a method that returns at the end and nowhere else.
inductive Body : List Element → Bytes → Prop where
  | ret {statements : List Element} {code : Bytes} (hs : Sequence m statements code) :
    Body (statements ++ [.ofShape .ret]) (code ++ [Opcode.returnVoid])
  | value {statements : List Element} {value : Element} {code expression : Bytes}
    {return_ : Opcode} (hs : Sequence m statements code) (hc : Compiled m [value] expression)
    (h : Opcode.returnOf? value.ty = some return_) :
    Body (statements ++ [.ofShape (.returnValue value)]) (code ++ (expression ++ [return_]))

end Fragment

end JvmLift
