import JvmLift.Proofs.Tree
import JvmLift.Render

namespace JvmLift

namespace Shape

-- A layer without the types and slots that were recorded for expressions of one word each.
def untyped {ε : Type} : Shape ε → Shape ε
  | .constant value _ => .constant value .void
  | .localVar v => .localVar ⟨v.name, .void, 0⟩
  | .binary left op right _ => .binary left op right .void
  | .unary operand op _ => .unary operand op .void
  | .increment v delta _ affix => .increment ⟨v.name, .void, 0⟩ delta .void affix
  | shape => shape

end Shape

namespace Element

def untyped (e : Element) : Element :=
  e.fold fun shape _ => ofShape shape.untyped

theorem untyped_mk (shape : Shape Element) (stamp : Stamp) :
    untyped ⟨shape, stamp⟩ = ofShape (shape.map untyped).untyped :=
  fold_mk _ _ _

end Element

section Numbers

theorem toList_toString_of_nonneg {value : Int} (h : 0 ≤ value) :
    (toString value).toList = Nat.toDigits 10 value.toNat := by
  rw [Int.toString_eq_repr, Int.repr_eq_if, if_pos h, Nat.toList_repr]

theorem toString_of_neg {value : Int} (h : value < 0) :
    toString value = "-" ++ toString (-value) := by
  rw [Int.toString_eq_repr, Int.toString_eq_repr, Int.repr_eq_if, Int.repr_eq_if,
    if_neg (Int.not_le.2 h), if_pos (Int.neg_nonneg.2 (Int.le_of_lt h))]

theorem ofNat_toNat_toInt {value : Int32} (h : 0 ≤ value.toInt) :
    Int32.ofNat value.toInt.toNat = value := by
  rw [← Int32.ofInt_eq_ofNat, Int.toNat_of_nonneg h, Int32.ofInt_toInt]

theorem ofNat_toNat_neg_toInt {value : Int32} (h : value.toInt ≤ 0) :
    Int32.ofNat (-value.toInt).toNat = -value := by
  rw [← Int32.ofInt_eq_ofNat, Int.toNat_of_nonneg (Int.neg_nonneg.2 h), Int32.ofInt_neg,
    Int32.ofInt_toInt]

theorem nonneg_iff_toInt {value : Int32} : 0 ≤ value ↔ 0 ≤ value.toInt := by
  rw [Int32.le_iff_toInt_le, Int32.toInt_zero]

theorem neg_iff_toInt {value : Int32} : value < 0 ↔ value.toInt < 0 := by
  rw [Int32.lt_iff_toInt_lt, Int32.toInt_zero]

theorem lt_toInt_of_ne_minValue {value : Int32} (h : value ≠ .minValue) :
    Int32.minValue.toInt < value.toInt := by
  have hle : Int32.minValue.toInt ≤ value.toInt := by
    rw [Int32.toInt_minValue]
    exact value.le_toInt
  exact Int.lt_iff_le_and_ne.2 ⟨hle, fun heq => h (Int32.toInt_inj.1 heq.symm)⟩

-- Only the least int has no negation.
theorem toInt_neg_of_ne_minValue {value : Int32} (h : value ≠ .minValue) :
    (-value).toInt = -value.toInt := by
  have hlow := lt_toInt_of_ne_minValue h
  have hlt : value.toInt < 2 ^ 31 := value.toInt_lt
  rw [Int32.toInt_minValue] at hlow
  rw [Int32.toInt_neg]
  exact Int.bmod_eq_of_le (by omega) (by omega)

end Numbers

namespace Render.Registry

-- Calls apart, there is one rule for all elements.
theorem core_rule? {e : Element} (h : e.kind ≠ .call) (ctx : Context) :
    core.rule? e ctx = some { render := plain } := by
  have hrules : core.rules? e.kind = some [{ render := plain }] := by
    revert h
    cases e.kind <;> intro h <;> first | rfl | exact absurd rfl h
  rw [rule?, hrules]
  rfl

-- How elements of the body of another method are written at a depth.
def within (r : Registry) : Nat → Context → Element → Rendered
  | 0 => fun _ _ => .error .endless
  | depth + 1 => r.render depth

-- What a core rule can have written for it at a depth.
def coreRest (depth : Nat) (e : Element) : Rest e :=
  { part := fun ctx c _ => core.render depth ctx c, body := core.within depth }

theorem render_of_rule {ctx : Context} {e : Element} {rule : Rule}
    (h : core.rule? e ctx = some rule) (depth : Nat) :
    core.render depth ctx e = rule.render e ctx (coreRest depth e) := by
  have hdepth : core.render depth = core.renderWith (core.within depth) := by
    cases depth <;> rfl
  rw [hdepth, renderWith, h, coreRest, hdepth]

theorem render_plain {e : Element} (h : e.kind ≠ .call) (depth : Nat) (ctx : Context) :
    core.render depth ctx e = plain e ctx (coreRest depth e) :=
  render_of_rule (core_rule? h ctx) depth

-- That each one is an element of the list plays no role for what is written of them.
theorem mapM_attach (f : Element → Rendered) (cs : List Element) :
    (cs.attach.mapM fun c => f c.1) = cs.mapM f := by
  have hmap := List.mapM_map (f := Subtype.val) (g := f) (l := cs.attach)
  rw [List.attach_map_subtype_val] at hmap
  exact hmap.symm

theorem mapM_congr {α β : Type} {f g : α → Except RenderError β} {xs : List α}
    (h : ∀ x ∈ xs, f x = g x) : xs.mapM f = xs.mapM g := by
  induction xs with
  | nil => rfl
  | cons x xs ih =>
    obtain ⟨hx, hxs⟩ := List.forall_mem_cons.1 h
    rw [List.mapM_cons, List.mapM_cons, hx, ih hxs]

theorem mapM_ok {α : Type} {f : α → Rendered} {text : α → String} {xs : List α}
    (h : ∀ x ∈ xs, f x = .ok (text x)) : xs.mapM f = .ok (xs.map text) := by
  induction xs with
  | nil => rfl
  | cons x xs ih =>
    obtain ⟨hx, hxs⟩ := List.forall_mem_cons.1 h
    rw [List.mapM_cons, hx, ih hxs]
    rfl

variable {depth : Nat} {ctx : Context}

theorem render_constant (value : Constant) (ty : JvmType) (stamp : Stamp) :
    core.render depth ctx ⟨.constant value ty, stamp⟩ = .ok (constantText ctx value) :=
  render_plain (e := ⟨.constant value ty, stamp⟩) nofun depth ctx

theorem render_localVar (v : LocalRef) (stamp : Stamp) :
    core.render depth ctx ⟨.localVar v, stamp⟩ = .ok ((ctx.binding? v.slot).getD v.name) :=
  render_plain (e := ⟨.localVar v, stamp⟩) nofun depth ctx

theorem render_increment (v : LocalRef) (delta : Int32) (ty : JvmType) (affix : Affix)
    (stamp : Stamp) : core.render depth ctx ⟨.increment v delta ty affix, stamp⟩ =
      .ok (incrementText v.name delta affix) :=
  render_plain (e := ⟨.increment v delta ty affix, stamp⟩) nofun depth ctx

theorem render_unary {operand : Element} {text : String}
    (h : core.render depth ctx operand = .ok text) (op : UnaryOp) (ty : JvmType) (stamp : Stamp) :
    core.render depth ctx ⟨.unary operand op ty, stamp⟩ =
      .ok (op.token ++ parenthesized operand text) := by
  rw [render_plain (e := ⟨.unary operand op ty, stamp⟩) nofun, plain]
  simp only [Rest.childOperand, Rest.operand, coreRest, h]
  rfl

theorem render_binary_eq (left : Element) (op : BinaryOp) (right : Element) (ty : JvmType)
    (stamp : Stamp) : core.render depth ctx ⟨.binary left op right ty, stamp⟩ = (do
      let l ← core.render depth ctx left
      let r ← core.render depth ctx right
      return leftOperand op left l ++ " " ++ op.token ++ " " ++ rightOperand op right r) :=
  render_plain (e := ⟨.binary left op right ty, stamp⟩) nofun depth ctx

theorem render_binary {left right : Element} {l r : String}
    (hl : core.render depth ctx left = .ok l) (hr : core.render depth ctx right = .ok r)
    (op : BinaryOp) (ty : JvmType) (stamp : Stamp) :
    core.render depth ctx ⟨.binary left op right ty, stamp⟩ =
      .ok (leftOperand op left l ++ " " ++ op.token ++ " " ++ rightOperand op right r) := by
  rw [render_binary_eq, hl, hr]
  rfl

-- The values of an array literal are written in the order of their positions.
theorem render_newArray {initializers : List (Int32 × Element)} (hne : initializers ≠ [])
    (ty component : JvmType) (length : Element) (stamp : Stamp) :
    core.render depth ctx ⟨.newArray ty component length initializers, stamp⟩ =
      (fun values => "new " ++ ctx.typeName component ++ "[] \x7b " ++ ", ".intercalate values ++
        " \x7d") <$>
        ((sortInitializers initializers).map (·.2)).mapM (core.render depth ctx) := by
  cases initializers with
  | nil => exact absurd rfl hne
  | cons p ps =>
    rw [render_plain (e := ⟨.newArray ty component length (p :: ps), stamp⟩) nofun, plain]
    · rw [← mapM_attach]
      rfl
    · exact nofun

-- The depth that is enough for the methods that can be looked into.
theorem element_constant (value : Constant) (ty : JvmType) (stamp : Stamp) :
    core.element ctx ⟨.constant value ty, stamp⟩ = .ok (constantText ctx value) :=
  render_constant value ty stamp

theorem element_localVar (hb : ctx.bindings = []) (v : LocalRef) (stamp : Stamp) :
    core.element ctx ⟨.localVar v, stamp⟩ = .ok v.name := by
  have hnone : ctx.binding? v.slot = none := by rw [Context.binding?, hb, List.lookup_nil]
  have h : core.element ctx ⟨.localVar v, stamp⟩ = _ := render_localVar v stamp
  rwa [hnone] at h

theorem element_increment (v : LocalRef) (delta : Int32) (ty : JvmType) (affix : Affix)
    (stamp : Stamp) : core.element ctx ⟨.increment v delta ty affix, stamp⟩ =
      .ok (incrementText v.name delta affix) :=
  render_increment v delta ty affix stamp

theorem element_unary {operand : Element} {text : String}
    (h : core.element ctx operand = .ok text) (op : UnaryOp) (ty : JvmType) (stamp : Stamp) :
    core.element ctx ⟨.unary operand op ty, stamp⟩ =
      .ok (op.token ++ parenthesized operand text) :=
  render_unary h op ty stamp

theorem element_binary {left right : Element} {l r : String}
    (hl : core.element ctx left = .ok l) (hr : core.element ctx right = .ok r) (op : BinaryOp)
    (ty : JvmType) (stamp : Stamp) :
    core.element ctx ⟨.binary left op right ty, stamp⟩ =
      .ok (leftOperand op left l ++ " " ++ op.token ++ " " ++ rightOperand op right r) :=
  render_binary hl hr op ty stamp

end Render.Registry

end JvmLift
