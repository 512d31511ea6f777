import JvmLift.Text.Inspect

namespace JvmLift

-- The code of an instruction, which is the first of its bytes.
abbrev Opcode := UInt8

namespace Opcode

-- The names of the assigned codes in numeric order up to the last one that is not reserved.
def mnemonics : Array String :=
  #["nop", "aconst_null", "iconst_m1", "iconst_0", "iconst_1", "iconst_2", "iconst_3",
    "iconst_4", "iconst_5", "lconst_0", "lconst_1", "fconst_0", "fconst_1", "fconst_2",
    "dconst_0", "dconst_1", "bipush", "sipush", "ldc", "ldc_w", "ldc2_w", "iload", "lload",
    "fload", "dload", "aload", "iload_0", "iload_1", "iload_2", "iload_3", "lload_0", "lload_1",
    "lload_2", "lload_3", "fload_0", "fload_1", "fload_2", "fload_3", "dload_0", "dload_1",
    "dload_2", "dload_3", "aload_0", "aload_1", "aload_2", "aload_3", "iaload", "laload",
    "faload", "daload", "aaload", "baload", "caload", "saload", "istore", "lstore", "fstore",
    "dstore", "astore", "istore_0", "istore_1", "istore_2", "istore_3", "lstore_0", "lstore_1",
    "lstore_2", "lstore_3", "fstore_0", "fstore_1", "fstore_2", "fstore_3", "dstore_0",
    "dstore_1", "dstore_2", "dstore_3", "astore_0", "astore_1", "astore_2", "astore_3",
    "iastore", "lastore", "fastore", "dastore", "aastore", "bastore", "castore", "sastore",
    "pop", "pop2", "dup", "dup_x1", "dup_x2", "dup2", "dup2_x1", "dup2_x2", "swap", "iadd",
    "ladd", "fadd", "dadd", "isub", "lsub", "fsub", "dsub", "imul", "lmul", "fmul", "dmul",
    "idiv", "ldiv", "fdiv", "ddiv", "irem", "lrem", "frem", "drem", "ineg", "lneg", "fneg",
    "dneg", "ishl", "lshl", "ishr", "lshr", "iushr", "lushr", "iand", "land", "ior", "lor",
    "ixor", "lxor", "iinc", "i2l", "i2f", "i2d", "l2i", "l2f", "l2d", "f2i", "f2l", "f2d", "d2i",
    "d2l", "d2f", "i2b", "i2c", "i2s", "lcmp", "fcmpl", "fcmpg", "dcmpl", "dcmpg", "ifeq",
    "ifne", "iflt", "ifge", "ifgt", "ifle", "if_icmpeq", "if_icmpne", "if_icmplt", "if_icmpge",
    "if_icmpgt", "if_icmple", "if_acmpeq", "if_acmpne", "goto", "jsr", "ret", "tableswitch",
    "lookupswitch", "ireturn", "lreturn", "freturn", "dreturn", "areturn", "return", "getstatic",
    "putstatic", "getfield", "putfield", "invokevirtual", "invokespecial", "invokestatic",
    "invokeinterface", "invokedynamic", "new", "newarray", "anewarray", "arraylength", "athrow",
    "checkcast", "instanceof", "monitorenter", "monitorexit", "wide", "multianewarray", "ifnull",
    "ifnonnull", "goto_w", "jsr_w", "breakpoint"]

-- The name of a code. A code without one is written as a number.
def mnemonic (code : Opcode) : String :=
  match mnemonics[code.toNat]? with
  | some name => name
  | none =>
    if code = 0xfe then "impdep1"
    else if code = 0xff then "impdep2"
    else "<0x" ++ Text.hexPadded 2 code.toNat ++ ">"

abbrev nop : Opcode := 0x00

abbrev aconstNull : Opcode := 0x01

abbrev iconstM1 : Opcode := 0x02

abbrev iconst0 : Opcode := 0x03

abbrev iconst5 : Opcode := 0x08

abbrev lconst0 : Opcode := 0x09

abbrev lconst1 : Opcode := 0x0a

abbrev fconst0 : Opcode := 0x0b

abbrev fconst2 : Opcode := 0x0d

abbrev dconst0 : Opcode := 0x0e

abbrev dconst1 : Opcode := 0x0f

abbrev bipush : Opcode := 0x10

abbrev sipush : Opcode := 0x11

abbrev ldc : Opcode := 0x12

abbrev ldcW : Opcode := 0x13

abbrev ldc2W : Opcode := 0x14

abbrev iload : Opcode := 0x15

abbrev lload : Opcode := 0x16

abbrev fload : Opcode := 0x17

abbrev dload : Opcode := 0x18

abbrev aload : Opcode := 0x19

abbrev iload0 : Opcode := 0x1a

abbrev iload1 : Opcode := 0x1b

abbrev iload2 : Opcode := 0x1c

abbrev iload3 : Opcode := 0x1d

abbrev lload0 : Opcode := 0x1e

abbrev lload1 : Opcode := 0x1f

abbrev lload2 : Opcode := 0x20

abbrev lload3 : Opcode := 0x21

abbrev fload0 : Opcode := 0x22

abbrev fload1 : Opcode := 0x23

abbrev fload2 : Opcode := 0x24

abbrev fload3 : Opcode := 0x25

abbrev dload0 : Opcode := 0x26

abbrev dload1 : Opcode := 0x27

abbrev dload2 : Opcode := 0x28

abbrev dload3 : Opcode := 0x29

abbrev aload3 : Opcode := 0x2d

abbrev iaload : Opcode := 0x2e

abbrev laload : Opcode := 0x2f

abbrev faload : Opcode := 0x30

abbrev daload : Opcode := 0x31

abbrev aaload : Opcode := 0x32

abbrev baload : Opcode := 0x33

abbrev caload : Opcode := 0x34

abbrev saload : Opcode := 0x35

abbrev istore : Opcode := 0x36

abbrev astore : Opcode := 0x3a

abbrev istore0 : Opcode := 0x3b

abbrev istore1 : Opcode := 0x3c

abbrev istore2 : Opcode := 0x3d

abbrev istore3 : Opcode := 0x3e

abbrev astore3 : Opcode := 0x4e

abbrev iastore : Opcode := 0x4f

abbrev sastore : Opcode := 0x56

abbrev pop : Opcode := 0x57

abbrev pop2 : Opcode := 0x58

abbrev dup : Opcode := 0x59

abbrev dupX1 : Opcode := 0x5a

abbrev dupX2 : Opcode := 0x5b

abbrev dup2 : Opcode := 0x5c

abbrev dup2X1 : Opcode := 0x5d

abbrev dup2X2 : Opcode := 0x5e

abbrev swap : Opcode := 0x5f

abbrev iadd : Opcode := 0x60

abbrev ladd : Opcode := 0x61

abbrev fadd : Opcode := 0x62

abbrev dadd : Opcode := 0x63

abbrev isub : Opcode := 0x64

abbrev lsub : Opcode := 0x65

abbrev fsub : Opcode := 0x66

abbrev dsub : Opcode := 0x67

abbrev imul : Opcode := 0x68

abbrev lmul : Opcode := 0x69

abbrev fmul : Opcode := 0x6a

abbrev dmul : Opcode := 0x6b

abbrev idiv : Opcode := 0x6c

abbrev ldiv : Opcode := 0x6d

abbrev fdiv : Opcode := 0x6e

abbrev ddiv : Opcode := 0x6f

abbrev irem : Opcode := 0x70

abbrev lrem : Opcode := 0x71

abbrev frem : Opcode := 0x72

abbrev drem : Opcode := 0x73

abbrev ineg : Opcode := 0x74

abbrev dneg : Opcode := 0x77

abbrev ishl : Opcode := 0x78

abbrev lshl : Opcode := 0x79

abbrev ishr : Opcode := 0x7a

abbrev lshr : Opcode := 0x7b

abbrev iushr : Opcode := 0x7c

abbrev lushr : Opcode := 0x7d

abbrev iand : Opcode := 0x7e

abbrev land : Opcode := 0x7f

abbrev ior : Opcode := 0x80

abbrev lor : Opcode := 0x81

abbrev ixor : Opcode := 0x82

abbrev lxor : Opcode := 0x83

abbrev iinc : Opcode := 0x84

abbrev i2l : Opcode := 0x85

abbrev i2f : Opcode := 0x86

abbrev i2d : Opcode := 0x87

abbrev l2i : Opcode := 0x88

abbrev l2f : Opcode := 0x89

abbrev l2d : Opcode := 0x8a

abbrev f2i : Opcode := 0x8b

abbrev f2l : Opcode := 0x8c

abbrev f2d : Opcode := 0x8d

abbrev d2i : Opcode := 0x8e

abbrev d2l : Opcode := 0x8f

abbrev d2f : Opcode := 0x90

abbrev i2b : Opcode := 0x91

abbrev i2c : Opcode := 0x92

abbrev i2s : Opcode := 0x93

abbrev lcmp : Opcode := 0x94

abbrev dcmpg : Opcode := 0x98

abbrev ifeq : Opcode := 0x99

abbrev ifle : Opcode := 0x9e

abbrev ifIcmpeq : Opcode := 0x9f

abbrev ifAcmpeq : Opcode := 0xa5

abbrev ifAcmpne : Opcode := 0xa6

abbrev goto : Opcode := 0xa7

abbrev ireturn : Opcode := 0xac

abbrev lreturn : Opcode := 0xad

abbrev freturn : Opcode := 0xae

abbrev dreturn : Opcode := 0xaf

abbrev areturn : Opcode := 0xb0

abbrev returnVoid : Opcode := 0xb1

abbrev getstatic : Opcode := 0xb2

abbrev putstatic : Opcode := 0xb3

abbrev getfield : Opcode := 0xb4

abbrev putfield : Opcode := 0xb5

abbrev invokevirtual : Opcode := 0xb6

abbrev invokespecial : Opcode := 0xb7

abbrev invokestatic : Opcode := 0xb8

abbrev invokeinterface : Opcode := 0xb9

abbrev invokedynamic : Opcode := 0xba

abbrev new : Opcode := 0xbb

abbrev newarray : Opcode := 0xbc

abbrev anewarray : Opcode := 0xbd

abbrev arraylength : Opcode := 0xbe

abbrev athrow : Opcode := 0xbf

abbrev checkcast : Opcode := 0xc0

abbrev instanceof : Opcode := 0xc1

abbrev wide : Opcode := 0xc4

abbrev ifnull : Opcode := 0xc6

abbrev ifnonnull : Opcode := 0xc7

abbrev gotoW : Opcode := 0xc8

-- The loads of an int local.
def integerLoads : List Opcode :=
  [iload, iload0, iload1, iload2, iload3]

-- The stores to an int local.
def integerStores : List Opcode :=
  [istore, istore0, istore1, istore2, istore3]

-- The loads of a primitive local.
def primitiveLoads : List Opcode :=
  [iload, lload, fload, dload,
   iload0, iload1, iload2, iload3, lload0, lload1, lload2, lload3,
   fload0, fload1, fload2, fload3, dload0, dload1, dload2, dload3]

-- The calls of a method that the constant pool names.
def invocations : List Opcode :=
  [invokevirtual, invokespecial, invokestatic, invokeinterface]

-- The codes from `first` to `last`, ends included.
def range (first last : Opcode) : List Opcode :=
  (List.range' first.toNat (last.toNat + 1 - first.toNat)).map UInt8.ofNat

-- The loads that name their slot in the code.
def shortLoads : List Opcode :=
  range iload0 aload3

-- The stores that name their slot in the code.
def shortStores : List Opcode :=
  range istore0 astore3

end Opcode

end JvmLift
