namespace JvmLift

inductive BinaryOp where
  | plus
  | minus
  | multiply
  | divide
  | modulo
  | leftShift
  | rightShift
  | unsignedRightShift
  | and
  | or
  | xor
  | eq
  | ne
  | lt
  | le
  | gt
  | ge
deriving DecidableEq

namespace BinaryOp

def all : List BinaryOp :=
  [plus, minus, multiply, divide, modulo, leftShift, rightShift, unsignedRightShift, and, or, xor,
   eq, ne, lt, le, gt, ge]

def name : BinaryOp → String
  | plus => "Plus"
  | minus => "Minus"
  | multiply => "Multiply"
  | divide => "Divide"
  | modulo => "Modulo"
  | leftShift => "LeftShift"
  | rightShift => "RightShift"
  | unsignedRightShift => "UnsignedRightShift"
  | and => "And"
  | or => "Or"
  | xor => "Xor"
  | eq => "Eq"
  | ne => "Ne"
  | lt => "Lt"
  | le => "Le"
  | gt => "Gt"
  | ge => "Ge"

-- The spelling in source text.
def token : BinaryOp → String
  | plus => "+"
  | minus => "-"
  | multiply => "*"
  | divide => "/"
  | modulo => "%"
  | leftShift => "<<"
  | rightShift => ">>"
  | unsignedRightShift => ">>>"
  | and => "&"
  | or => "|"
  | xor => "^"
  | eq => "=="
  | ne => "!="
  | lt => "<"
  | le => "<="
  | gt => ">"
  | ge => ">="

-- The comparison that holds exactly when this one does not. Arithmetic has none.
def inverse? : BinaryOp → Option BinaryOp
  | eq => some ne
  | ne => some eq
  | lt => some ge
  | ge => some lt
  | gt => some le
  | le => some gt
  | _ => none

def isComparison (op : BinaryOp) : Bool :=
  op.inverse?.isSome

-- How tightly the operator binds. A higher one binds tighter.
def precedence : BinaryOp → Nat
  | multiply | divide | modulo => 10
  | plus | minus => 9
  | leftShift | rightShift | unsignedRightShift => 8
  | lt | le | gt | ge => 7
  | eq | ne => 6
  | and => 5
  | xor => 4
  | or => 3

end BinaryOp

inductive UnaryOp where
  | neg
  | not
deriving DecidableEq

namespace UnaryOp

def all : List UnaryOp :=
  [neg, not]

def name : UnaryOp → String
  | neg => "Neg"
  | not => "Not"

def token : UnaryOp → String
  | neg => "-"
  | not => "!"

end UnaryOp

-- Whether an increment takes effect before or after its value is used. It is pending as long
-- as no use has been seen.
inductive Affix where
  | before
  | after
  | pending
deriving DecidableEq

namespace Affix

def all : List Affix :=
  [before, after, pending]

def name : Affix → String
  | before => "Prefix"
  | after => "Postfix"
  | pending => "Undefined"

end Affix

end JvmLift
