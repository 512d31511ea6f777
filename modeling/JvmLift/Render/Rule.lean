import JvmLift.Registry
import JvmLift.Render.Style

namespace JvmLift.Render

-- What a rule can have written for it: a part of its element, which must be smaller, and an
-- element of the body of another method.
structure Rest (e : Element) where
  part : Context → (c : Element) → sizeOf c < sizeOf e → Rendered
  body : Context → Element → Rendered

-- A sub-expression where something binds to it. What consists of several words gets parentheses.
def parenthesized (e : Element) (text : String) : String :=
  match e.shape with
  | .binary .. | .cast .. | .instanceOf .. | .lambda .. => "(" ++ text ++ ")"
  | _ => text

namespace Rest

variable {e : Element}

def operand (rest : Rest e) (ctx : Context) (c : Element) (h : sizeOf c < sizeOf e) : Rendered :=
  parenthesized c <$> rest.part ctx c h

-- An element directly below.
def child (rest : Rest e) (ctx : Context) (c : Element) (h : c ∈ e.children) : Rendered :=
  rest.part ctx c (Element.sizeOf_children_lt h)

def childOperand (rest : Rest e) (ctx : Context) (c : Element) (h : c ∈ e.children) : Rendered :=
  rest.operand ctx c (Element.sizeOf_children_lt h)

-- Some of the elements directly below.
def children (rest : Rest e) (ctx : Context) (cs : List Element) (h : ∀ c ∈ cs, c ∈ e.children) :
    Except RenderError (List String) :=
  cs.attach.mapM fun ⟨c, hc⟩ => rest.child ctx c (h c hc)

def childOperands (rest : Rest e) (ctx : Context) (cs : List Element)
    (h : ∀ c ∈ cs, c ∈ e.children) : Except RenderError (List String) :=
  cs.attach.mapM fun ⟨c, hc⟩ => rest.childOperand ctx c (h c hc)

end Rest

-- A way to write the elements of one kind.
structure Rule where
  priority : Priority := .normal
  applies : Element → Context → Bool := fun _ _ => true
  render : (e : Element) → Context → Rest e → Rendered

-- The rules for each kind that has any.
structure Registry where
  rules? : Kind → Option (List Rule)

namespace Registry

def ofDeclarations (ds : List (Kind × Rule)) : Registry :=
  ⟨fun kind =>
    match (ds.filter fun d => d.1 = kind).map (·.2) with
    | [] => none
    | rules => some (Priority.sort Rule.priority rules)⟩

-- The rules of both registries. At equal priority those of the first one come first. A kind that
-- the second one has no rules for keeps its rules as they are.
def merge (a b : Registry) : Registry :=
  ⟨fun kind =>
    match b.rules? kind with
    | none => a.rules? kind
    | some rules => some (Priority.sort Rule.priority ((a.rules? kind).getD [] ++ rules))⟩

-- The rule that writes an element.
def rule? (r : Registry) (e : Element) (ctx : Context) : Option Rule := do
  (← r.rules? e.kind).find? fun rule => rule.applies e ctx

-- Writes an element, with a given way to write elements of the bodies of other methods.
def renderWith (r : Registry) (body : Context → Element → Rendered) (ctx : Context)
    (e : Element) : Rendered :=
  match r.rule? e ctx with
  | none => .error (.unsupported e.kind)
  | some rule => rule.render e ctx { part := fun ctx c _ => renderWith r body ctx c, body }
termination_by sizeOf e

-- Writes an element. Bodies of methods are nested in it up to a depth only, so that a method
-- that contains itself comes to an end.
def render (r : Registry) : Nat → Context → Element → Rendered
  | 0 => r.renderWith fun _ _ => .error .endless
  | depth + 1 => r.renderWith (render r depth)

end Registry

end JvmLift.Render
