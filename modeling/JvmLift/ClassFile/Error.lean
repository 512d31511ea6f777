namespace JvmLift

-- Why a class file, or something in it, cannot be used.
inductive ClassFileError where
  | unreadable
  | malformed
  | badAttribute (name : String)
  | badIndex (index : UInt16) (size : Nat)
  | wrongEntry (index : UInt16) (expected : String)
  | descriptor (text : String)
deriving DecidableEq

namespace ClassFileError

def message : ClassFileError → String
  | unreadable => "unable to read class file"
  | malformed => "malformed class file"
  | badAttribute name => "malformed " ++ name ++ " attribute"
  | badIndex index size =>
    "constant pool index " ++ toString index.toNat ++ " is out of range (pool size "
      ++ toString size ++ ")"
  | wrongEntry index expected =>
    "constant pool entry " ++ toString index.toNat ++ " is not a " ++ expected ++ " entry"
  | descriptor text => "invalid descriptor '" ++ text ++ "'"

end ClassFileError

end JvmLift
