import JvmLift.Proofs.Grammar

namespace JvmLift.Source

open Grammar

-- The words that stand for values.
inductive Word where
  | this
  | null
  | true
  | false
deriving DecidableEq

inductive Primitive where
  | boolean
  | byte
  | char
  | short
  | int
  | long
  | float
  | double
  | void
deriving DecidableEq

inductive Keyword where
  | word (w : Word)
  | primitive (p : Primitive)
  | new
  | classLiteral
  | instanceOf
deriving DecidableEq

inductive Bracket where
  | round
  | square
  | curly
deriving DecidableEq

-- The signs that source text of expressions consists of, blanks apart.
inductive Token where
  | name (text : String)
  | keyword (k : Keyword)
  | number (value : Nat)
  | long (value : Nat)
  | string (value : String)
  | operator (op : BinaryOp)
  | not
  | comma
  | dot
  | arrow
  | reference
  | opening (b : Bracket)
  | closing (b : Bracket)
deriving DecidableEq

def Word.text : Word → String
  | this => "this"
  | null => "null"
  | true => "true"
  | false => "false"

def Primitive.text : Primitive → String
  | boolean => "boolean"
  | byte => "byte"
  | char => "char"
  | short => "short"
  | int => "int"
  | long => "long"
  | float => "float"
  | double => "double"
  | void => "void"

namespace Keyword

def all : List Keyword :=
  [word .this, word .null, word .true, word .false, primitive .boolean, primitive .byte,
   primitive .char, primitive .short, primitive .int, primitive .long, primitive .float,
   primitive .double, primitive .void, new, classLiteral, instanceOf]

def text : Keyword → String
  | word w => w.text
  | primitive p => p.text
  | new => "new"
  | classLiteral => "class"
  | instanceOf => "instanceof"

def ofText? (text : String) : Option Keyword :=
  all.find? fun k => k.text = text

end Keyword

-- The other words that are no names.
def reserved : List String :=
  ["abstract", "assert", "break", "case", "catch", "const", "continue", "default", "do", "else",
   "enum", "extends", "final", "finally", "for", "goto", "if", "implements", "import", "interface",
   "native", "package", "private", "protected", "public", "return", "static", "strictfp", "super",
   "switch", "synchronized", "throw", "throws", "transient", "try", "volatile", "while", "_"]

def isName (text : String) : Bool :=
  isIdentifier text && (Keyword.ofText? text).isNone && !reserved.contains text

-- The name of a class, with what it is qualified by in front.
structure ClassName where
  first : String
  rest : List String := []
deriving DecidableEq

inductive Base where
  | primitive (p : Primitive)
  | named (c : ClassName)
deriving DecidableEq

-- A type by what is below all array dimensions, and their number.
structure TypeName where
  base : Base
  dimensions : Nat := 0
deriving DecidableEq

def ClassName.text (c : ClassName) : String :=
  c.first ++ String.join (c.rest.map fun name => "." ++ name)

def ClassName.tokens (c : ClassName) : List Token :=
  .name c.first :: c.rest.flatMap fun name => [.dot, .name name]

def ClassName.isSpelled (c : ClassName) : Bool :=
  isName c.first && c.rest.all isName

namespace Base

def text : Base → String
  | primitive p => p.text
  | named c => c.text

def tokens : Base → List Token
  | primitive p => [.keyword (.primitive p)]
  | named c => c.tokens

def isSpelled : Base → Bool
  | primitive _ => true
  | named c => c.isSpelled

end Base

def dimensionText (dimensions : Nat) : String :=
  String.join (List.replicate dimensions "[]")

def dimensionTokens : Nat → List Token
  | 0 => []
  | n + 1 => .opening .square :: .closing .square :: dimensionTokens n

namespace TypeName

def text (t : TypeName) : String :=
  t.base.text ++ dimensionText t.dimensions

def tokens (t : TypeName) : List Token :=
  t.base.tokens ++ dimensionTokens t.dimensions

def isSpelled (t : TypeName) : Bool :=
  t.base.isSpelled

def isPrimitive (t : TypeName) : Bool :=
  match t.base with
  | .primitive _ => t.dimensions = 0
  | .named _ => false

end TypeName

-- The names of parameters between their parentheses.
def parameterText (names : List String) : String :=
  "(" ++ ", ".intercalate names ++ ")"

def nameTokens : List String → List Token
  | [] => []
  | [name] => [.name name]
  | name :: names => .name name :: .comma :: nameTokens names

def parameterTokens (names : List String) : List Token :=
  .opening .round :: nameTokens names ++ [.closing .round]

-- The expressions that contain no other ones.
inductive Leaf where
  | name (name : String)
  | word (w : Word)
  | number (value : Nat)
  | long (value : Nat)
  | string (value : String)
  -- a call and a new object, without arguments
  | call (name : String)
  | create (c : ClassName)
  -- a function with an empty body
  | block (parameters : List String)
  -- the class of a primitive type or of an array of those
  | classOf (p : Primitive) (dimensions : Nat)
deriving DecidableEq

-- What stands in front of an expression, and behind it what closes it, if anything does.
inductive Head where
  | negate
  | not
  | cast (t : TypeName)
  | lambda (parameters : List String)
  | group
  | call (name : String)
  | create (c : ClassName)
  -- an array with a length
  | array (base : Base)
  -- an array with values
  | values (component : TypeName)
deriving DecidableEq

-- What stands behind an expression.
inductive Tail where
  | field (name : String)
  | call (name : String)
  | classOf (dimensions : Nat)
  | instanceOf (t : TypeName)
  | reference (name : String)
  | construct
  -- a dimension without a length
  | dimension
deriving DecidableEq

-- What stands between two expressions, and behind the second one what closes it.
inductive Link where
  | operator (op : BinaryOp)
  | comma
  | index
  | call (name : String)
  -- a further dimension with a length
  | dimension
deriving DecidableEq

-- An expression with its parentheses, or some of them with commas between.
inductive Phrase where
  | leaf (l : Leaf)
  | head (h : Head) (a : Phrase)
  | tail (a : Phrase) (t : Tail)
  | link (a : Phrase) (l : Link) (b : Phrase)
deriving DecidableEq

namespace Leaf

def text : Leaf → String
  | name x => x
  | word w => w.text
  | number value => toString value
  | long value => toString value ++ "L"
  | string value => Text.quote value
  | call x => x ++ "()"
  | create c => "new " ++ c.text ++ "()"
  | block xs => parameterText xs ++ " -> \x7b\x7d"
  | classOf p n => p.text ++ dimensionText n ++ ".class"

def tokens : Leaf → List Token
  | name x => [.name x]
  | word w => [.keyword (.word w)]
  | number value => [.number value]
  | long value => [.long value]
  | string value => [.string value]
  | call x => [.name x, .opening .round, .closing .round]
  | create c => .keyword .new :: c.tokens ++ [.opening .round, .closing .round]
  | block xs => parameterTokens xs ++ [.arrow, .opening .curly, .closing .curly]
  | classOf p n => .keyword (.primitive p) :: dimensionTokens n ++ [.dot, .keyword .classLiteral]

def isSpelled : Leaf → Bool
  | name x | call x => isName x
  | create c => c.isSpelled
  | block xs => xs.all isName
  | _ => true

-- How tightly the root of an expression holds together: lists, functions, binary operators, unary
-- ones, new arrays with lengths and anything else.
def level : Leaf → Nat
  | block _ => 2
  | _ => 13

end Leaf

namespace Head

def before : Head → String
  | negate => "-"
  | not => "!"
  | cast t => "(" ++ t.text ++ ") "
  | lambda xs => parameterText xs ++ " -> "
  | group => "("
  | call x => x ++ "("
  | create c => "new " ++ c.text ++ "("
  | array b => "new " ++ b.text ++ "["
  | values t => "new " ++ t.text ++ "[] \x7b "

def after : Head → String
  | negate | not | cast _ | lambda _ => ""
  | group | call _ | create _ => ")"
  | array _ => "]"
  | values _ => " \x7d"

def firstTokens : Head → List Token
  | negate => [.operator .minus]
  | not => [.not]
  | cast t => .opening .round :: t.tokens ++ [.closing .round]
  | lambda xs => parameterTokens xs ++ [.arrow]
  | group => [.opening .round]
  | call x => [.name x, .opening .round]
  | create c => .keyword .new :: c.tokens ++ [.opening .round]
  | array b => .keyword .new :: b.tokens ++ [.opening .square]
  | values t =>
    .keyword .new :: t.tokens ++ [.opening .square, .closing .square, .opening .curly]

def bracket? : Head → Option Bracket
  | negate | not | cast _ | lambda _ => none
  | group | call _ | create _ => some .round
  | array _ => some .square
  | values _ => some .curly

def isSpelled : Head → Bool
  | negate | not | group => true
  | cast t | values t => t.isSpelled
  | lambda xs => xs.all isName
  | call x => isName x
  | create c => c.isSpelled
  | array b => b.isSpelled

def level : Head → Nat
  | lambda _ => 2
  | negate | not | cast _ => 11
  | array _ => 12
  | group | call _ | create _ | values _ => 13

end Head

namespace Tail

def text : Tail → String
  | field x => "." ++ x
  | call x => "." ++ x ++ "()"
  | classOf n => dimensionText n ++ ".class"
  | instanceOf t => " instanceof " ++ t.text
  | reference x => "::" ++ x
  | construct => "::new"
  | dimension => "[]"

def tokens : Tail → List Token
  | field x => [.dot, .name x]
  | call x => [.dot, .name x, .opening .round, .closing .round]
  | classOf n => dimensionTokens n ++ [.dot, .keyword .classLiteral]
  | instanceOf t => .keyword .instanceOf :: t.tokens
  | reference x => [.reference, .name x]
  | construct => [.reference, .keyword .new]
  | dimension => [.opening .square, .closing .square]

def isSpelled : Tail → Bool
  | field x | call x | reference x => isName x
  | instanceOf t => t.isSpelled
  | classOf _ | construct | dimension => true

def level : Tail → Nat
  | instanceOf _ => 7
  | dimension => 12
  | field _ | call _ | classOf _ | reference _ | construct => 13

end Tail

def operatorLevel (op : BinaryOp) : Nat :=
  binding op + 3

namespace Link

def between : Link → String
  | operator op => " " ++ op.token ++ " "
  | comma => ", "
  | index | dimension => "["
  | call x => "." ++ x ++ "("

def after : Link → String
  | operator _ | comma => ""
  | index | dimension => "]"
  | call _ => ")"

def betweenTokens : Link → List Token
  | operator op => [.operator op]
  | comma => [.comma]
  | index | dimension => [.opening .square]
  | call x => [.dot, .name x, .opening .round]

def bracket? : Link → Option Bracket
  | operator _ | comma => none
  | index | dimension => some .square
  | call _ => some .round

def isSpelled : Link → Bool
  | call x => isName x
  | operator _ | comma | index | dimension => true

def level : Link → Nat
  | comma => 1
  | operator op => operatorLevel op
  | dimension => 12
  | index | call _ => 13

end Link

def closingTokens (bracket? : Option Bracket) : List Token :=
  (bracket?.map Token.closing).toList

namespace Phrase

def text : Phrase → String
  | leaf l => l.text
  | head h a => h.before ++ a.text ++ h.after
  | tail a t => a.text ++ t.text
  | link a l b => a.text ++ l.between ++ b.text ++ l.after

def tokens : Phrase → List Token
  | leaf l => l.tokens
  | head h a => h.firstTokens ++ a.tokens ++ closingTokens h.bracket?
  | tail a t => a.tokens ++ t.tokens
  | link a l b => a.tokens ++ l.betweenTokens ++ b.tokens ++ closingTokens l.bracket?

-- Whether all names are such.
def isSpelled : Phrase → Bool
  | leaf l => l.isSpelled
  | head h a => h.isSpelled && a.isSpelled
  | tail a t => a.isSpelled && t.isSpelled
  | link a l b => a.isSpelled && l.isSpelled && b.isSpelled

-- The expression without the parentheses that only group.
def ungrouped : Phrase → Phrase
  | leaf l => leaf l
  | head .group a => a.ungrouped
  | head h a => head h a.ungrouped
  | tail a t => tail a.ungrouped t
  | link a l b => link a.ungrouped l b.ungrouped

def level : Phrase → Nat
  | leaf l => l.level
  | head h _ => h.level
  | tail _ t => t.level
  | link _ l _ => l.level

-- Whether something is an expression of its own, with names that are such.
def isWhole (a : Phrase) : Bool :=
  a.isSpelled && 2 ≤ a.level

-- How tightly an expression is held together at its right end. A function takes in whatever comes
-- behind its body, so that nothing that ends in one can be an operand on the left.
def reach : Phrase → Nat
  | leaf _ => 13
  | head h a => if h.bracket?.isNone then min h.level a.reach else 13
  | tail _ _ => 13
  | link _ l b => if l.bracket?.isNone then min l.level b.reach else 13

def isNumber : Phrase → Bool
  | leaf (.number _) => true
  | _ => false

-- Whether a minus sign comes first.
def isSigned : Phrase → Bool
  | leaf _ => false
  | head h _ => h = .negate
  | tail a _ => a.isSigned
  | link a _ _ => a.isSigned

-- Whether it can be the name of a class.
def isPath : Phrase → Bool
  | leaf (.name _) => true
  | tail a (.field _) => a.isPath
  | _ => false

-- Whether it is a new array with lengths.
def isAllocation : Phrase → Bool
  | head (.array _) _ | tail _ .dimension | link _ .dimension _ => true
  | _ => false

-- Whether the next one of its dimensions may have a length.
def isDimensioned : Phrase → Bool
  | head (.array _) _ | link _ .dimension _ => true
  | _ => false

end Phrase

-- Which expressions may stand behind something without parentheses.
def Head.admits (h : Head) (a : Phrase) : Bool :=
  match h with
  | .negate => 11 ≤ a.level && !a.isSigned
  | .not => 11 ≤ a.level
  | .cast t => 11 ≤ a.level && (t.isPrimitive || !a.isSigned) || a.level = 2 && !t.isPrimitive
  | .lambda _ | .group | .array _ => 2 ≤ a.level
  | .call _ | .create _ | .values _ => true

-- Which ones may stand in front of something without parentheses.
def Tail.admits (t : Tail) (a : Phrase) : Bool :=
  match t with
  | .field _ | .call _ => 12 ≤ a.level && !a.isNumber
  | .classOf _ | .construct => a.isPath
  | .instanceOf _ => 7 ≤ a.level && 7 ≤ a.reach
  | .reference _ => 12 ≤ a.level
  | .dimension => a.isAllocation

namespace Link

def admitsLeft (l : Link) (a : Phrase) : Bool :=
  match l with
  | operator op => operatorLevel op ≤ a.level && operatorLevel op ≤ a.reach
  | comma => true
  | index => a.level = 13
  | call _ => 12 ≤ a.level && !a.isNumber
  | dimension => a.isDimensioned

-- All operators associate to the left.
def admitsRight (l : Link) (b : Phrase) : Bool :=
  match l with
  | operator op => operatorLevel op < b.level
  | comma | index | dimension => 2 ≤ b.level
  | call _ => true

end Link

-- Whether all parts stand where they may. What is missing otherwise are parentheses.
def Phrase.isGrouped : Phrase → Bool
  | leaf _ => true
  | head h a => a.isGrouped && h.admits a
  | tail a t => a.isGrouped && t.admits a
  | link a l b => a.isGrouped && b.isGrouped && l.admitsLeft a && l.admitsRight b

end JvmLift.Source
