import JvmLift.Proofs.Grammar

namespace JvmLift

open Grammar

-- The precedence that decides about parentheses orders the operators like the grammar.
theorem BinaryOp.precedence_eq (op : BinaryOp) : op.precedence = binding op + 3 := by
  cases op <;> rfl

namespace Element

-- Trees of binary operators over variables and over constants without a sign.
inductive IsOperatorTree : Element → Prop
  | localVar (v : LocalRef) (stamp : Stamp) (h : isIdentifier v.name) :
    IsOperatorTree ⟨.localVar v, stamp⟩
  | constant (value : Int32) (ty : JvmType) (stamp : Stamp) (h : 0 ≤ value) :
    IsOperatorTree ⟨.constant (.int value) ty, stamp⟩
  | binary {left right : Element} (op : BinaryOp) (ty : JvmType) (stamp : Stamp)
    (hl : IsOperatorTree left) (hr : IsOperatorTree right) :
    IsOperatorTree ⟨.binary left op right ty, stamp⟩

-- Whether an element needs no parentheses at a level.
def stands (level : Nat) (e : Element) : Bool :=
  match e.shape with
  | .binary _ op _ _ => level ≤ binding op
  | _ => true

-- A text of an element, with parentheses wherever a level asks for them.
def grouped (level : Nat) (e : Element) (text : String) : String :=
  if e.stands level then text else "(" ++ text ++ ")"

theorem stands_zero (e : Element) : e.stands 0 := by
  obtain ⟨shape, stamp⟩ := e
  cases shape <;> simp [stands]

theorem exists_derives_grouped {e : Element} {text : String} {ts : List Token}
    (hlexes : Lexes text.toList ts)
    (hderives : ∀ level, e.stands level → Derives level ts e.untyped) (level : Nat) :
    ∃ us, Lexes (e.grouped level text).toList us ∧ Derives level us e.untyped := by
  by_cases h : e.stands level
  · rw [grouped, if_pos h]
    exact ⟨ts, hlexes, hderives level h⟩
  · rw [grouped, if_neg h]
    refine ⟨_, ?_, .parentheses level (hderives 0 e.stands_zero)⟩
    have hparentheses := hlexes.parentheses
    simpa using hparentheses

end Element

namespace Render

open Element

theorem leftOperand_eq_grouped (op : BinaryOp) (e : Element) (text : String) :
    leftOperand op e text = e.grouped (binding op) text := by
  obtain ⟨shape, stamp⟩ := e
  cases shape with
  | binary left inner right ty =>
    by_cases h : binding op ≤ binding inner
    · simp [leftOperand, grouped, stands, BinaryOp.precedence_eq, h, Nat.not_lt.2 h]
    · simp [leftOperand, grouped, stands, BinaryOp.precedence_eq, h, Nat.not_le.1 h]
  | _ => rfl

theorem rightOperand_eq_grouped (op : BinaryOp) (e : Element) (text : String) :
    rightOperand op e text = e.grouped (binding op + 1) text := by
  obtain ⟨shape, stamp⟩ := e
  cases shape with
  | binary left inner right ty =>
    by_cases h : binding op + 1 ≤ binding inner
    · simp [rightOperand, grouped, stands, BinaryOp.precedence_eq, h, Nat.not_le.2 h]
    · have hle : binding inner ≤ binding op := by omega
      simp [rightOperand, grouped, stands, BinaryOp.precedence_eq, h, hle]
  | _ => rfl

theorem exists_derives_of_isOperatorTree {ctx : Context} (hb : ctx.bindings = []) {e : Element}
    (h : e.IsOperatorTree) :
    ∃ text ts, Registry.core.element ctx e = .ok text ∧ Lexes text.toList ts ∧
      ∀ level, e.stands level → Derives level ts e.untyped := by
  induction h with
  | localVar v stamp h =>
    refine ⟨_, _, Registry.element_localVar hb v stamp, lexes_name h, fun level _ => ?_⟩
    rw [untyped_mk]
    exact .name level v.name
  | constant value ty stamp h =>
    have hnonneg := nonneg_iff_toInt.1 h
    have hlt : value.toInt < 2 ^ 31 := value.toInt_lt
    refine ⟨_, [.number value.toInt.toNat], Registry.element_constant _ ty stamp, ?_,
      fun level _ => ?_⟩
    · rw [constantText, toList_toString_of_nonneg hnonneg]
      exact lexes_number _
    · have hnumber := Derives.number level value.toInt.toNat (by omega)
      rw [untyped_mk]
      rwa [ofNat_toNat_toInt hnonneg] at hnumber
  | @binary left right op ty stamp _ _ ihl ihr =>
    obtain ⟨l, ls, hl, hllexes, hlderives⟩ := ihl
    obtain ⟨r, rs, hr, hrlexes, hrderives⟩ := ihr
    obtain ⟨ls', hllexes', hlderives'⟩ := exists_derives_grouped hllexes hlderives (binding op)
    obtain ⟨rs', hrlexes', hrderives'⟩ :=
      exists_derives_grouped hrlexes hrderives (binding op + 1)
    refine ⟨_, ls' ++ .operator op :: rs', Registry.element_binary hl hr op ty stamp, ?_,
      fun level hlevel => ?_⟩
    · rw [leftOperand_eq_grouped, rightOperand_eq_grouped]
      have hoperation := hllexes'.operation hrlexes' op
      simpa using hoperation
    · rw [untyped_mk]
      exact .operation (of_decide_eq_true hlevel) hlderives' hrderives'

-- The text of a tree is read as that tree and as no other one. So trees that differ in anything but
-- the types and slots that were recorded have different texts.
theorem operatorTree_parses (ctx : Context) (hb : ctx.bindings = []) :
    (∀ e : Element, e.IsOperatorTree → ∃ text, Registry.core.element ctx e = .ok text ∧
      ∀ d, Parses text d ↔ d = e.untyped) ∧
    ∀ d e : Element, d.IsOperatorTree → e.IsOperatorTree → d.untyped ≠ e.untyped →
      Registry.core.element ctx d ≠ Registry.core.element ctx e := by
  have hparses (e : Element) (h : e.IsOperatorTree) :
      ∃ text, Registry.core.element ctx e = .ok text ∧ Parses text e.untyped := by
    obtain ⟨text, ts, htext, hlexes, hderives⟩ := exists_derives_of_isOperatorTree hb h
    exact ⟨text, htext, parses_of_lexes hlexes (hderives 0 e.stands_zero)⟩
  constructor
  · intro e h
    obtain ⟨text, htext, hp⟩ := hparses e h
    refine ⟨text, htext, fun d => ⟨fun hd => hd.unique hp, ?_⟩⟩
    rintro rfl
    exact hp
  · intro d e hd he hne heq
    obtain ⟨s, hs, hps⟩ := hparses d hd
    obtain ⟨t, ht, hpt⟩ := hparses e he
    obtain rfl : s = t := Except.ok.inj (hs.symm.trans (heq.trans ht))
    exact hne (hps.unique hpt)

-- The difference of two values of type int.
def difference (left right : Element) : Element :=
  ofShape (.binary left .minus right .int)

-- The first and the second argument of a method.
def argument (name : String) (slot : UInt16) : Element :=
  ofShape (.localVar ⟨name, .int, slot⟩)

-- What is subtracted from a difference, and a difference that is subtracted.
theorem operatorTree_parses_differences :
    let ctx : Context := { style := { omitThis := true } }
    let right := difference (argument "a" 0) (difference (argument "b" 1) (int 3))
    let left := difference (difference (argument "a" 0) (argument "b" 1)) (int 3)
    ctx.bindings = [] ∧ right.IsOperatorTree ∧ left.IsOperatorTree ∧
      Registry.core.element ctx right = .ok "a - (b - 3)" ∧
      (∀ d, Parses "a - (b - 3)" d ↔ d = right.untyped) ∧
      Registry.core.element ctx right ≠ Registry.core.element ctx left := by
  intro ctx right left
  have hright : right.IsOperatorTree :=
    .binary .minus _ _ (.localVar _ _ rfl)
      (.binary .minus _ _ (.localVar _ _ rfl) (.constant 3 _ _ (by decide)))
  have hleft : left.IsOperatorTree :=
    .binary .minus _ _ (.binary .minus _ _ (.localVar _ _ rfl) (.localVar _ _ rfl))
      (.constant 3 _ _ (by decide))
  have hctx : ctx.bindings = [] := rfl
  have hinner := Registry.element_binary (Registry.element_localVar hctx ⟨"b", .int, 1⟩ {})
    (Registry.element_constant (.int 3) .int {}) .minus .int {}
  have htext : Registry.core.element ctx right = .ok "a - (b - 3)" := by
    refine (Registry.element_binary (Registry.element_localVar hctx _ _) hinner _ _ _).trans ?_
    exact congrArg Except.ok (by decide +kernel)
  obtain ⟨hparses, happart⟩ := operatorTree_parses ctx hctx
  obtain ⟨text, htext', hreads⟩ := hparses right hright
  obtain rfl := Except.ok.inj (htext.symm.trans htext')
  refine ⟨hctx, hright, hleft, htext, hreads, happart right left hright hleft ?_⟩
  intro hne
  cases congrArg Element.shape hne

end Render

end JvmLift
