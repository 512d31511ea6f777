import JvmLift.Proofs.Grammar
import JvmLift.Proofs.Occurrences

namespace JvmLift

open Grammar

-- A layer as its text shows it. A constant with a sign is a negation there, and an update by other
-- than one is an assignment and has no affix.
def Shape.asWritten : Shape Element → Shape Element
  | .constant (.int value) _ =>
    if value < 0 ∧ value ≠ .minValue then
      .unary (.ofShape (.constant (.int (-value)) .void)) .neg .void
    else .constant (.int value) .void
  | .increment v delta _ affix =>
    .increment ⟨v.name, .void, 0⟩ delta .void (if delta = 1 ∨ delta = -1 then affix else .before)
  | shape => shape.untyped

namespace Element

def asWritten (e : Element) : Element :=
  e.fold fun shape _ => ofShape shape.asWritten

-- Unary operators over variables, constants and updates of variables.
inductive IsUnaryTree : Element → Prop
  | localVar (v : LocalRef) (stamp : Stamp) (h : isIdentifier v.name) :
    IsUnaryTree ⟨.localVar v, stamp⟩
  | constant (value : Int32) (ty : JvmType) (stamp : Stamp) :
    IsUnaryTree ⟨.constant (.int value) ty, stamp⟩
  | increment (v : LocalRef) {delta : Int32} (ty : JvmType) {affix : Affix} (stamp : Stamp)
    (h : isIdentifier v.name) (hdelta : delta ≠ 0) (haffix : affix ≠ .pending) :
    IsUnaryTree ⟨.increment v delta ty affix, stamp⟩
  | unary {operand : Element} (op : UnaryOp) (ty : JvmType) (stamp : Stamp)
    (h : IsUnaryTree operand) : IsUnaryTree ⟨.unary operand op ty, stamp⟩

section Written

theorem asWritten_mk (shape : Shape Element) (stamp : Stamp) :
    asWritten ⟨shape, stamp⟩ = ofShape (shape.map asWritten).asWritten :=
  fold_mk _ _ _

theorem asWritten_unary (operand : Element) (op : UnaryOp) (ty : JvmType) (stamp : Stamp) :
    asWritten ⟨.unary operand op ty, stamp⟩ = ofShape (.unary operand.asWritten op .void) :=
  asWritten_mk _ _

theorem asWritten_constant (value : Int32) (ty : JvmType) (stamp : Stamp) :
    asWritten ⟨.constant (.int value) ty, stamp⟩ =
      if value < 0 ∧ value ≠ .minValue then
        ofShape (.unary (ofShape (.constant (.int (-value)) .void)) .neg .void)
      else ofShape (.constant (.int value) .void) := by
  rw [asWritten_mk, Shape.map, Shape.asWritten, apply_ite ofShape]

end Written

namespace IsUnaryTree

variable {e : Element}

-- What is written is of the same kind.
protected theorem asWritten (h : e.IsUnaryTree) : e.asWritten.IsUnaryTree := by
  induction h with
  | localVar v stamp h => exact .localVar ⟨v.name, .void, 0⟩ {} h
  | constant value ty stamp =>
    rw [asWritten_constant]
    split
    · exact .unary .neg _ _ (.constant (-value) _ _)
    · exact .constant value _ _
  | increment v ty stamp h hdelta haffix =>
    rw [asWritten_mk]
    refine .increment ⟨v.name, .void, 0⟩ _ _ h hdelta ?_
    split
    · exact haffix
    · exact nofun
  | unary op ty stamp _ ih =>
    rw [asWritten_unary]
    exact .unary op _ _ ih

theorem bare_asWritten (h : e.IsUnaryTree) : e.asWritten.bare = e.asWritten := by
  induction h with
  | localVar v stamp h => rfl
  | constant value ty stamp =>
    rw [asWritten_constant]
    split <;> rfl
  | increment v ty stamp h hdelta haffix => rfl
  | unary op ty stamp _ ih =>
    rw [asWritten_unary, ofShape, bare_mk, Shape.map, ih]
    rfl

-- What is written of a tree is a name only if it is one alone.
theorem eq_of_localVar (h : e.IsUnaryTree) {v : LocalRef} (heq : e.asWritten.shape = .localVar v) :
    ∃ name, e.asWritten = ofShape (.localVar ⟨name, .void, 0⟩) := by
  cases h with
  | localVar v stamp => exact ⟨v.name, rfl⟩
  | constant value ty stamp =>
    rw [asWritten_constant] at heq
    split at heq <;> cases heq
  | increment => cases heq
  | unary op ty stamp =>
    rw [asWritten_unary] at heq
    cases heq

-- Such trees are equal if they differ in nothing but stamps.
theorem same_iff (h : e.IsUnaryTree) {d : Element} : e.same d ↔ e.bare = d.bare := by
  induction h generalizing d with
  | unary op ty stamp _ ih =>
    obtain ⟨shape, stamp'⟩ := d
    rw [same_mk, bare_mk, bare_mk]
    cases shape <;> simp [Shape.same, Shape.map, Shape.children, ofShape, ih, and_comm]
  | _ =>
    -- nothing is below, so that the layer decides
    obtain ⟨shape, stamp'⟩ := d
    rw [same_mk, bare_mk, bare_mk]
    cases shape <;> simp [Shape.same, Shape.map, Shape.children, ofShape, Constant.same]

end IsUnaryTree

end Element

namespace Grammar

open Element

-- A number in source text. The one behind the greatest int is an int behind a minus sign only.
def numeral (value : Nat) : Element :=
  ofShape (.constant (if value < 2 ^ 31 then .int (.ofNat value) else .long (.ofNat value)) .void)

def update (name : String) (delta : Int32) (affix : Affix) : Element :=
  ofShape (.increment ⟨name, .void, 0⟩ delta .void affix)

-- What a minus sign makes of what is behind it. Two of them in front of a name are a decrement.
def negated (e : Element) : Element :=
  match e.shape with
  | .constant (.long _) _ => ofShape (.constant (.int .minValue) .void)
  | .unary ⟨.localVar v, _⟩ .neg _ => update v.name (-1) .before
  | _ => ofShape (.unary e .neg .void)

def number? (s : List Char) : Option Nat :=
  match word? s with
  | some (.number value) => some value
  | _ => none

theorem number?_toDigits (value : Nat) : number? (Nat.toDigits 10 value) = some value := by
  rw [number?, (word?_toDigits value).1]

theorem negated_eq {e : Element} (hlong : ∀ value ty, e.shape ≠ .constant (.long value) ty)
    (hname : ∀ v stamp ty, e.shape ≠ .unary ⟨.localVar v, stamp⟩ .neg ty) :
    negated e = ofShape (.unary e .neg .void) := by
  unfold negated
  split
  · next value ty heq => exact absurd heq (hlong value ty)
  · next v stamp ty heq => exact absurd heq (hname v stamp ty)
  · rfl

-- A word with what is behind it.
def operand? : Token → List Char → Option Element
  | .number value, [] => some (numeral value)
  | .name text, [] => some (ofShape (.localVar ⟨text, .void, 0⟩))
  | .name text, ['+', '+'] => some (update text 1 .after)
  | .name text, ['-', '-'] => some (update text (-1) .after)
  | .name text, ' ' :: '+' :: '=' :: ' ' :: s =>
    (number? s).map fun value => update text (.ofNat value) .before
  | .name text, ' ' :: '-' :: '=' :: ' ' :: s =>
    (number? s).map fun value => update text (-.ofNat value) .before
  | _, _ => none

-- The tree that a text of unary operators is read as.
def unaryTree? : List Char → Option Element
  | [] => none
  | c :: s =>
    if c = '!' then (unaryTree? s).map fun e => ofShape (.unary e .not .void)
    else if c = '-' then (unaryTree? s).map negated
    else if c = '+' then
      match word? (s.drop 1) with
      | some (.name text) => some (update text 1 .before)
      | _ => none
    else
      (word? ((c :: s).takeWhile isIdentifierPart)).bind fun word =>
        operand? word ((c :: s).dropWhile isIdentifierPart)

-- The first tree negates a variable twice where the second one has a decrement in front of it, and
-- nothing else tells the two apart.
inductive NegatesTwice : Element → Element → Prop
  | here (name : String) :
    NegatesTwice
      (ofShape (.unary (ofShape (.unary (ofShape (.localVar ⟨name, .void, 0⟩)) .neg .void)) .neg
        .void))
      (update name (-1) .before)
  | unary {a b : Element} (op : UnaryOp) (h : NegatesTwice a b) :
    NegatesTwice (ofShape (.unary a op .void)) (ofShape (.unary b op .void))

namespace NegatesTwice

variable {a b c : Element}

theorem eq (ha : NegatesTwice a c) (hb : NegatesTwice b c) : a = b := by
  induction ha generalizing b with
  | here name => cases hb with | here => rfl
  | unary op _ ih => cases hb with | unary _ h => rw [ih h]

-- A minus sign in front of the second tree is read as a negation of it.
theorem negated_eq (h : NegatesTwice a b) : negated b = ofShape (.unary b .neg .void) := by
  refine Grammar.negated_eq ?_ ?_
  · cases h <;> exact nofun
  · cases h with
    | here => exact nofun
    | unary op h => cases h <;> exact nofun

end NegatesTwice

section Reading

theorem unaryTree?_not (s : List Char) : unaryTree? ('!' :: s) =
    (unaryTree? s).map fun e => ofShape (.unary e .not .void) := by
  rw [unaryTree?, if_pos rfl]

theorem unaryTree?_neg (s : List Char) : unaryTree? ('-' :: s) = (unaryTree? s).map negated := by
  rw [unaryTree?, if_neg (by decide), if_pos rfl]

theorem unaryTree?_before {name : String} (h : isIdentifier name) :
    unaryTree? ('+' :: '+' :: name.toList) = some (update name 1 .before) := by
  rw [unaryTree?, if_neg (by decide), if_neg (by decide), if_pos rfl, List.drop_one,
    List.tail_cons, (word?_of_isIdentifier h).1]

-- A word is read as a whole.
theorem unaryTree?_word {run rest : List Char} {word : Token}
    (hword : word? run = some word ∧ ∀ c ∈ run, isIdentifierPart c) (hrest : Ends rest) :
    unaryTree? (run ++ rest) = operand? word rest := by
  obtain ⟨hword, hrun⟩ := hword
  obtain ⟨htake, hdrop⟩ := takeWhile_run hrun hrest
  cases run with
  | nil => cases hword
  | cons c run =>
    have hc := hrun c List.mem_cons_self
    rw [List.cons_append] at htake hdrop ⊢
    rw [unaryTree?, if_neg (ne_of_isIdentifierPart hc (by decide)),
      if_neg (ne_of_isIdentifierPart hc (by decide)),
      if_neg (ne_of_isIdentifierPart hc (by decide)), htake, hdrop, hword, Option.bind_some]

theorem unaryTree?_number (value : Nat) :
    unaryTree? (Nat.toDigits 10 value) = some (numeral value) := by
  have hread := unaryTree?_word (word?_toDigits value) ends_nil
  rwa [List.append_nil] at hread

theorem unaryTree?_name {name : String} (h : isIdentifier name) :
    unaryTree? name.toList = some (ofShape (.localVar ⟨name, .void, 0⟩)) := by
  have hread := unaryTree?_word (word?_of_isIdentifier h) ends_nil
  rwa [List.append_nil] at hread

-- Nothing that follows the name of a variable prolongs it.
theorem unaryTree?_update {name : String} (h : isIdentifier name) {c : Char} {s : List Char}
    (hc : isIdentifierPart c = false) :
    unaryTree? (name.toList ++ c :: s) = operand? (.name name) (c :: s) :=
  unaryTree?_word (word?_of_isIdentifier h) (ends_cons hc s)

-- One more or one less is read with its affix.
theorem unaryTree?_step {name : String} (h : isIdentifier name) {delta : Int32} {affix : Affix}
    (hdelta : delta = 1 ∨ delta = -1) (haffix : affix ≠ .pending) :
    unaryTree? (Render.incrementText name delta affix).toList =
      some (update name delta affix) := by
  have hafter (c : Char) (hc : isIdentifierPart c = false) :
      unaryTree? (name.toList ++ [c, c]) = operand? (.name name) [c, c] :=
    unaryTree?_update h hc
  rcases hdelta with rfl | rfl
  · cases affix with
    | before =>
      have htext : (Render.incrementText name 1 .before).toList = '+' :: '+' :: name.toList := by
        simp [Render.incrementText]
      rw [htext, unaryTree?_before h]
    | after =>
      have htext : (Render.incrementText name 1 .after).toList = name.toList ++ ['+', '+'] := by
        simp [Render.incrementText]
      rw [htext, hafter '+' (by decide)]
      rfl
    | pending => exact absurd rfl haffix
  · cases affix with
    | before =>
      have htext : (Render.incrementText name (-1) .before).toList =
          '-' :: '-' :: name.toList := by
        simp [Render.incrementText]
      rw [htext, unaryTree?_neg, unaryTree?_neg, unaryTree?_name h]
      rfl
    | after =>
      have htext : (Render.incrementText name (-1) .after).toList = name.toList ++ ['-', '-'] := by
        simp [Render.incrementText]
      rw [htext, hafter '-' (by decide)]
      rfl
    | pending => exact absurd rfl haffix

-- Any other update is read as an assignment.
theorem unaryTree?_assignment {name : String} (h : isIdentifier name) {delta : Int32}
    (hdelta : ¬(delta = 1 ∨ delta = -1)) (affix : Affix) :
    unaryTree? (Render.incrementText name delta affix).toList =
      some (update name delta .before) := by
  obtain ⟨hone, hless⟩ := not_or.1 hdelta
  by_cases hneg : delta < 0
  · have hnegative := neg_iff_toInt.1 hneg
    have htext : (Render.incrementText name delta affix).toList =
        name.toList ++ ' ' :: '-' :: '=' :: ' ' :: Nat.toDigits 10 (-delta.toInt).toNat := by
      rw [← toList_toString_of_nonneg (by omega)]
      simp [Render.incrementText, hone, hless, hneg]
    rw [htext, unaryTree?_update h (by decide), operand?, number?_toDigits,
      Option.map_some, ofNat_toNat_neg_toInt (Int.le_of_lt hnegative), Int32.neg_neg]
  · have hnonneg := Int.not_lt.1 (neg_iff_toInt.not.1 hneg)
    have htext : (Render.incrementText name delta affix).toList =
        name.toList ++ ' ' :: '+' :: '=' :: ' ' :: Nat.toDigits 10 delta.toInt.toNat := by
      rw [← toList_toString_of_nonneg hnonneg]
      simp [Render.incrementText, hone, hless, hneg]
    rw [htext, unaryTree?_update h (by decide), operand?, number?_toDigits,
      Option.map_some, ofNat_toNat_toInt hnonneg]

-- A constant is read with its sign as a negation, but for the least one.
theorem unaryTree?_constant (value : Int32) (ty : JvmType) (stamp : Stamp) :
    unaryTree? (toString value.toInt).toList =
      some (asWritten ⟨.constant (.int value) ty, stamp⟩) := by
  by_cases hneg : value < 0
  · have hnegative := neg_iff_toInt.1 hneg
    have htext : (toString value.toInt).toList =
        '-' :: Nat.toDigits 10 (-value.toInt).toNat := by
      rw [toString_of_neg hnegative, String.toList_append, toList_toString_of_nonneg (by omega)]
      rfl
    rw [htext, unaryTree?_neg, unaryTree?_number]
    by_cases hmin : value = .minValue
    · subst hmin
      rw [asWritten_constant, if_neg fun h => h.2 rfl]
      rfl
    · have hlow := lt_toInt_of_ne_minValue hmin
      rw [Int32.toInt_minValue] at hlow
      rw [asWritten_constant, if_pos ⟨hneg, hmin⟩, numeral, if_pos (by omega),
        ofNat_toNat_neg_toInt (by omega)]
      rfl
  · have hnonneg := Int.not_lt.1 (neg_iff_toInt.not.1 hneg)
    have hlt : value.toInt < 2 ^ 31 := value.toInt_lt
    rw [toList_toString_of_nonneg hnonneg, unaryTree?_number, numeral, if_pos (by omega),
      ofNat_toNat_toInt hnonneg, asWritten_constant, if_neg fun h => hneg h.1]

end Reading

end Grammar

namespace Render

open Grammar Element

variable {ctx : Context} {e f operand : Element}

-- No operand of such a tree needs parentheses.
theorem parenthesized_of_isUnaryTree (h : e.IsUnaryTree) (text : String) :
    parenthesized e text = text := by
  cases h <;> rfl

-- A minus sign in front of what is written of a tree is read as a negation, unless it makes a
-- decrement of another one.
theorem negated_asWritten (h : operand.IsUnaryTree) :
    negated operand.asWritten = ofShape (.unary operand.asWritten .neg .void) ∨
      NegatesTwice (ofShape (.unary operand.asWritten .neg .void)) (negated operand.asWritten) := by
  cases h with
  | localVar => exact .inl rfl
  | constant value ty stamp =>
    rw [asWritten_constant]
    split <;> exact .inl rfl
  | increment => exact .inl rfl
  | @unary inner op ty stamp hinner =>
    rw [asWritten_unary]
    by_cases hname : ∃ name, op = .neg ∧ inner.asWritten = ofShape (.localVar ⟨name, .void, 0⟩)
    · obtain ⟨name, rfl, hname⟩ := hname
      rw [hname]
      exact .inr (.here name)
    · refine .inl (negated_eq nofun fun v stamp ty heq => hname ?_)
      obtain ⟨hvar, rfl, -⟩ := Shape.unary.inj heq
      obtain ⟨name, hwritten⟩ := hinner.eq_of_localVar (congrArg Element.shape hvar)
      exact ⟨name, rfl, hwritten⟩

-- A tree has a text, and the text is read as what is written of the tree, or with a decrement where
-- the tree negates a variable twice.
theorem exists_unaryTree?_eq (hb : ctx.bindings = []) (h : e.IsUnaryTree) :
    ∃ text r, Registry.core.element ctx e = .ok text ∧ unaryTree? text.toList = some r ∧
      (r = e.asWritten ∨ NegatesTwice e.asWritten r) := by
  induction h with
  | localVar v stamp h =>
    exact ⟨_, _, Registry.element_localVar hb v stamp, unaryTree?_name h, .inl rfl⟩
  | constant value ty stamp =>
    exact ⟨_, _, Registry.element_constant _ ty stamp, unaryTree?_constant value ty stamp, .inl rfl⟩
  | @increment v delta ty affix stamp h hdelta haffix =>
    refine ⟨_, _, Registry.element_increment v delta ty affix stamp, ?_, .inl rfl⟩
    have hwritten : asWritten ⟨.increment v delta ty affix, stamp⟩ =
        update v.name delta (if delta = 1 ∨ delta = -1 then affix else .before) :=
      asWritten_mk _ _
    rw [hwritten]
    by_cases hone : delta = 1 ∨ delta = -1
    · rw [if_pos hone]
      exact unaryTree?_step h hone haffix
    · rw [if_neg hone]
      exact unaryTree?_assignment h hone affix
  | @unary operand op ty stamp h ih =>
    obtain ⟨text, r, htext, hread, hr⟩ := ih
    have hunary := Registry.element_unary htext op ty stamp
    rw [parenthesized_of_isUnaryTree h] at hunary
    rw [asWritten_unary]
    cases op with
    | neg =>
      have hsign : (UnaryOp.neg.token ++ text).toList = '-' :: text.toList := by
        simp [UnaryOp.token]
      refine ⟨_, negated r, hunary, ?_, ?_⟩
      · rw [hsign, unaryTree?_neg, hread, Option.map_some]
      · rcases hr with rfl | hr
        · exact negated_asWritten h
        · rw [hr.negated_eq]
          exact .inr (.unary .neg hr)
    | not =>
      have hsign : (UnaryOp.not.token ++ text).toList = '!' :: text.toList := by
        simp [UnaryOp.token]
      refine ⟨_, ofShape (.unary r .not .void), hunary, ?_, ?_⟩
      · rw [hsign, unaryTree?_not, hread, Option.map_some]
      · rcases hr with rfl | hr
        · exact .inl rfl
        · exact .inr (.unary .not hr)

-- What is written of a tree has the text of the tree.
theorem element_asWritten (hb : ctx.bindings = []) (h : e.IsUnaryTree) :
    Registry.core.element ctx e.asWritten = Registry.core.element ctx e := by
  induction h with
  | localVar v stamp h =>
    rw [Registry.element_localVar hb v stamp]
    exact Registry.element_localVar hb ⟨v.name, .void, 0⟩ {}
  | constant value ty stamp =>
    rw [asWritten_constant, Registry.element_constant]
    split
    · next hneg =>
      obtain ⟨hneg, hmin⟩ := hneg
      refine (Registry.element_unary (Registry.element_constant _ .void {}) .neg .void {}).trans ?_
      have htext := toString_of_neg (neg_iff_toInt.1 hneg)
      rw [← toInt_neg_of_ne_minValue hmin] at htext
      exact congrArg Except.ok htext.symm
    · exact Registry.element_constant _ _ _
  | @increment v delta ty affix stamp h hdelta haffix =>
    rw [Registry.element_increment]
    refine (Registry.element_increment ⟨v.name, .void, 0⟩ delta .void _ {}).trans ?_
    split
    · rfl
    · next hone =>
      obtain ⟨hone, hless⟩ := not_or.1 hone
      simp only [incrementText, if_neg hone, if_neg hless]
  | @unary operand op ty stamp h ih =>
    obtain ⟨text, -, htext, -⟩ := exists_unaryTree?_eq hb h
    rw [asWritten_unary, Registry.element_unary htext, parenthesized_of_isUnaryTree h]
    refine (Registry.element_unary (ih.trans htext) op .void {}).trans ?_
    rw [parenthesized_of_isUnaryTree h.asWritten]

-- Trees have the same text exactly if the same is written of them, unless all that tells them apart
-- is that one negates a variable twice where the other one has a decrement in front of it.
theorem unaryTree_text_eq_iff (ctx : Context) (hb : ctx.bindings = []) {e f : Element}
    (he : e.IsUnaryTree) (hf : f.IsUnaryTree)
    (hsigns : ¬NegatesTwice e.asWritten f.asWritten ∧ ¬NegatesTwice f.asWritten e.asWritten) :
    ∃ s t, Registry.core.element ctx e = .ok s ∧ Registry.core.element ctx f = .ok t ∧
      (s = t ↔ e.asWritten.same f.asWritten) := by
  obtain ⟨s, r, hs, hread, hr⟩ := exists_unaryTree?_eq hb he
  obtain ⟨t, r', ht, hread', hr'⟩ := exists_unaryTree?_eq hb hf
  have hsame : e.asWritten.same f.asWritten ↔ e.asWritten = f.asWritten := by
    rw [he.asWritten.same_iff, he.bare_asWritten, hf.bare_asWritten]
  refine ⟨s, t, hs, ht, ?_⟩
  rw [hsame]
  constructor
  · rintro rfl
    obtain rfl := Option.some.inj (hread.symm.trans hread')
    rcases hr with rfl | hr <;> rcases hr' with hr' | hr'
    · exact hr'
    · exact absurd hr' hsigns.2
    · exact absurd (hr' ▸ hr) hsigns.1
    · exact hr.eq hr'
  · intro heq
    have hwritten := element_asWritten hb he
    rw [heq, element_asWritten hb hf, hs, ht] at hwritten
    exact (Except.ok.inj hwritten).symm

def negation (e : Element) : Element :=
  ofShape (.unary e .neg .int)

def updated (name : String) (delta : Int32) (affix : Affix) : Element :=
  ofShape (.increment ⟨name, .int, 0⟩ delta .int affix)

-- A decrement in front and behind, a negative constant behind a minus sign, and two negations of a
-- variable next to a decrement of another one.
theorem unaryTree_text_eq_iff_decrements :
    let constant := negation (int (-5))
    let double := negation (negation (int 5))
    let x := negation (negation (ofShape (.localVar ⟨"x", .int, 0⟩)))
    (∃ s t, Registry.core.element {} (updated "x" (-1) .before) = .ok s ∧
      Registry.core.element {} (updated "x" (-1) .after) = .ok t ∧ s ≠ t) ∧
    (∃ s t, Registry.core.element {} constant = .ok s ∧ Registry.core.element {} double = .ok t ∧
      s = t) ∧
    ∃ s t, Registry.core.element {} x = .ok s ∧
      Registry.core.element {} (updated "y" (-1) .before) = .ok t ∧ s ≠ t := by
  intro constant double x
  have hbefore (name : String) (h : isIdentifier name) : (updated name (-1) .before).IsUnaryTree :=
    .increment _ _ _ h (by decide) nofun
  have hafter : (updated "x" (-1) .after).IsUnaryTree := .increment _ _ _ rfl (by decide) nofun
  have hconstant : constant.IsUnaryTree := .unary _ _ _ (.constant _ _ _)
  have hdouble : double.IsUnaryTree := .unary _ _ _ (.unary _ _ _ (.constant _ _ _))
  have hx : x.IsUnaryTree := .unary _ _ _ (.unary _ _ _ (.localVar _ _ rfl))
  have hnames : ¬NegatesTwice x.asWritten (updated "y" (-1) .before).asWritten := by
    intro h
    exact absurd (congrArg x.asWritten.same (h.eq (.here "y"))) (by decide)
  refine ⟨?_, ?_, ?_⟩
  · obtain ⟨s, t, hs, ht, h⟩ := unaryTree_text_eq_iff {} rfl (hbefore "x" rfl) hafter
      ⟨nofun, nofun⟩
    refine ⟨s, t, hs, ht, fun heq => ?_⟩
    have hsame := h.1 heq
    revert hsame
    decide
  · obtain ⟨s, t, hs, ht, h⟩ := unaryTree_text_eq_iff {} rfl hconstant hdouble ⟨nofun, nofun⟩
    exact ⟨s, t, hs, ht, h.2 (by decide)⟩
  · obtain ⟨s, t, hs, ht, h⟩ := unaryTree_text_eq_iff {} rfl hx (hbefore "y" rfl)
      ⟨hnames, nofun⟩
    refine ⟨s, t, hs, ht, fun heq => ?_⟩
    have hsame := h.1 heq
    revert hsame
    decide

-- Trees that differ in more than types and slots and have the same text: a negative constant, an
-- update by two, and two minus signs in front of a name.
theorem unaryTree_texts_coincide :
    let x := ofShape (.localVar ⟨"x", .int, 0⟩)
    ∀ pair ∈ [(int (-5), negation (int 5)), (updated "x" 2 .before, updated "x" 2 .after),
        (negation (negation x), updated "x" (-1) .before)],
      pair.1.IsUnaryTree ∧ pair.2.IsUnaryTree ∧
        Registry.core.element {} pair.1 = Registry.core.element {} pair.2 ∧
        pair.1.untyped.same pair.2.untyped = false := by
  intro x
  have hname : Registry.core.element {} x = .ok "x" := Registry.element_localVar rfl _ _
  have hupdated (delta : Int32) (affix : Affix) :
      Registry.core.element {} (updated "x" delta affix) = .ok (incrementText "x" delta affix) :=
    Registry.element_increment _ _ _ _ _
  have hconstant (value : Int32) :
      Registry.core.element {} (int value) = .ok (toString value.toInt) :=
    Registry.element_constant _ _ _
  simp only [List.forall_mem_cons, List.not_mem_nil, false_implies, implies_true, and_true]
  refine ⟨⟨.constant _ _ _, .unary _ _ _ (.constant _ _ _), ?_, by decide⟩,
    ⟨.increment _ _ _ rfl (by decide) nofun, .increment _ _ _ rfl (by decide) nofun, ?_, by decide⟩,
    .unary _ _ _ (.unary _ _ _ (.localVar _ _ rfl)), .increment _ _ _ rfl (by decide) nofun, ?_,
    by decide⟩
  · refine (hconstant (-5)).trans ?_
    refine .trans ?_ (Registry.element_unary (hconstant 5) .neg .int {}).symm
    exact congrArg Except.ok (by decide +kernel)
  · refine (hupdated 2 .before).trans ?_
    refine .trans ?_ (hupdated 2 .after).symm
    exact congrArg Except.ok (by decide +kernel)
  · have hinner := Registry.element_unary hname .neg .int {}
    refine (Registry.element_unary hinner .neg .int {}).trans ?_
    refine .trans ?_ (hupdated (-1) .before).symm
    exact congrArg Except.ok (by decide +kernel)

end Render

end JvmLift
