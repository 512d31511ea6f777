import JvmLift.Render.Core

namespace JvmLift.Render

namespace Context

-- How deep bodies of methods can be nested without one that contains itself.
def depth (ctx : Context) : Nat :=
  match ctx.resolver with
  | some resolver => resolver.methodCount
  | none => 0

end Context

namespace Registry

def element (r : Registry) (ctx : Context) (e : Element) : Rendered :=
  r.render ctx.depth ctx e

-- A sub-expression where something binds to it.
def operand (r : Registry) (ctx : Context) (e : Element) : Rendered :=
  parenthesized e <$> r.element ctx e

def arguments (r : Registry) (ctx : Context) (es : List Element) : Rendered :=
  ", ".intercalate <$> es.mapM (r.element ctx)

-- Statements, each on a line of its own.
def statements (r : Registry) (ctx : Context) (es : List Element) : Rendered :=
  ctx.lines <$> es.mapM (r.element ctx)

end Registry

end JvmLift.Render
