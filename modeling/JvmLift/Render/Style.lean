import JvmLift.ClassModel
import JvmLift.Decompile

namespace JvmLift.Render

-- How names are written.
structure Style where
  -- `String` and not `java.lang.String`
  simpleNames : Bool := true
  -- `name` and not `this.name`
  omitThis : Bool := false
deriving DecidableEq

-- The classes whose methods can be looked into. Of two with one name the first counts.
structure Resolver where
  classes : List ClassModel

namespace Resolver

def class? (r : Resolver) (name : String) : Option ClassModel :=
  r.classes.find? fun c => c.name = name

def methodCount (r : Resolver) : Nat :=
  r.classes.foldr (fun c n => c.methods.length + n) 0

end Resolver

-- Where a text is written.
structure Context where
  style : Style := {}
  indentUnit : String := "    "
  level : Nat := 0
  -- the class whose static members need no qualification
  currentClass : Option String := none
  resolver : Option Resolver := none
  -- texts that stand for the variables in some slots
  bindings : List (UInt16 × String) := []

namespace Context

def indented (ctx : Context) : Context :=
  { ctx with level := ctx.level + 1 }

def indent (ctx : Context) : String :=
  String.join (List.replicate ctx.level ctx.indentUnit)

def binding? (ctx : Context) (slot : UInt16) : Option String :=
  ctx.bindings.lookup slot

def typeName (ctx : Context) (ty : JvmType) : String :=
  ty.sourceName ctx.style.simpleNames

-- Whether static members of a type can be written without it.
def isCurrent (ctx : Context) (owner : JvmType) : Bool :=
  ctx.currentClass.isSome && owner.className? = ctx.currentClass

-- A method of any class that can be looked into.
def method? (ctx : Context) (owner : JvmType) (name descriptor : String) : Option Method := do
  (← (← ctx.resolver).class? (← owner.className?)).method? name descriptor

-- Statements, given as texts, each on a line of its own.
def lines (ctx : Context) (statements : List String) : String :=
  "\n".intercalate (statements.map fun text => ctx.indent ++ text ++ ";")

end Context

-- Why an element cannot be written.
inductive RenderError where
  | unsupported (kind : Kind)
  | unresolvedMethod (name : String)
  | fault (f : Fault)
  -- a method whose body is written as part of itself
  | endless
deriving DecidableEq

namespace RenderError

def message : RenderError → String
  | unsupported kind => "no rendering rule for " ++ kind.name
  | unresolvedMethod name => "unable to resolve method " ++ name
  | fault f => f.message
  | endless => "endless nesting of method bodies"

end RenderError

-- The text of an element, or why there is none.
abbrev Rendered := Except RenderError String

end JvmLift.Render
