import JvmLift.Proofs.Source.Phrases
import JvmLift.Proofs.Source.Reading

namespace JvmLift.Source

-- What an expression is at its root, as far as operands of it are concerned.
inductive Form where
  | number
  | negation
  | inversion
  | cast
  | typeTest
  | allocation
  -- a function with parameters of its own, and one that is a method
  | function
  | reference
  | operation (op : BinaryOp)
  | list
  | primary
deriving DecidableEq

def Phrase.form : Phrase → Form
  | leaf (.number _) => .number
  | head .negate _ => .negation
  | head .not _ => .inversion
  | head (.cast _) _ => .cast
  | tail _ (.instanceOf _) => .typeTest
  | head (.array _) _ | tail _ .dimension | link _ .dimension _ => .allocation
  | leaf (.block _) | head (.lambda _) _ => .function
  | tail _ (.reference _) | tail _ .construct => .reference
  | link _ (.operator op) _ => .operation op
  | link _ .comma _ => .list
  | _ => .primary

namespace Form

def level : Form → Nat
  | list => 1
  | function => 2
  | operation op => operatorLevel op
  | typeTest => 7
  | negation | inversion | cast => 11
  | allocation => 12
  | number | reference | primary => 13

-- Whether whatever binds to it puts it in parentheses.
def isEnclosed : Form → Bool
  | operation _ | cast | typeTest | function | reference => true
  | number | negation | inversion | allocation | list | primary => false

-- Whether it needs no parentheses in an operation of a level.
def stands (level : Nat) : Form → Bool
  | operation op => level ≤ Grammar.binding op
  | _ => true

def isUnary (f : Form) : Bool :=
  f = negation || f = inversion

end Form

-- Whether an operand stays one behind something, with no more parentheses than are put. Two minus
-- signs run together, and a minus sign behind a type is an operator.
def Head.keeps (h : Head) (a : Phrase) : Bool :=
  match h with
  | .negate => a.form ≠ .negation
  | .cast t => t.isPrimitive || a.form ≠ .negation
  | _ => true

-- Whether it stays one in front of something. Members bind to what a sign is put in front of, and
-- the point in front of them continues a number.
def Tail.keeps (t : Tail) (a : Phrase) : Bool :=
  match t with
  | .field _ | .call _ => !a.form.isUnary && a.form ≠ .number
  | .reference _ => !a.form.isUnary
  | .construct => a.isPath
  | _ => true

namespace Link

-- Tests of types are operators themselves, functions go on to the right, and what is an index is a
-- length right behind a new array.
def keepsLeft (l : Link) (a : Phrase) : Bool :=
  match l with
  | operator op => a.form ≠ .function && (a.form ≠ .typeTest || operatorLevel op ≤ 7)
  | index => !a.form.isUnary && a.form ≠ .allocation
  | call _ => !a.form.isUnary && a.form ≠ .number
  | _ => true

def keepsRight (l : Link) (b : Phrase) : Bool :=
  match l with
  | operator op => b.form ≠ .function && (b.form ≠ .typeTest || operatorLevel op < 7)
  | _ => true

end Link

-- Whether all operands stay where they are.
def Phrase.isKept : Phrase → Bool
  | leaf _ => true
  | head h a => a.isKept && h.keeps a
  | tail a t => a.isKept && t.keeps a
  | link a l b => a.isKept && b.isKept && l.keepsLeft a && l.keepsRight b

section Forms

variable {a : Phrase}

theorem level_eq (a : Phrase) : a.level = a.form.level := by
  cases a with
  | leaf l => cases l <;> rfl
  | head h a => cases h <;> rfl
  | tail a t => cases t <;> rfl
  | link a l b => cases l <;> rfl

theorem form_ungrouped (h : a.isGroup = false) : a.ungrouped.form = a.form := by
  cases a with
  | leaf l => rfl
  | head h' a => cases h' <;> first | rfl | cases h
  | tail a t => cases t <;> rfl
  | link a l b => cases l <;> rfl

theorem isNumber_eq (a : Phrase) : a.isNumber = decide (a.form = .number) := by
  cases a with
  | leaf l => cases l <;> rfl
  | head h a => cases h <;> rfl
  | tail a t => cases t <;> rfl
  | link a l b => cases l <;> rfl

theorem form_of_isPath (h : a.isPath) : a.form = .primary := by
  cases a with
  | leaf l => cases l <;> first | rfl | cases h
  | tail a t => cases t <;> first | rfl | cases h
  | _ => cases h

-- A minus sign in front of an operand is the operand's own one.
theorem isSigned_eq (h : a.isGrouped) (hlevel : 11 ≤ a.level) :
    a.isSigned = decide (a.form = .negation) := by
  have hfront {b : Phrase} (hb : 12 ≤ b.level)
      (ih : 11 ≤ b.level → b.isSigned = decide (b.form = .negation)) : b.isSigned = false := by
    rw [ih (by omega), decide_eq_false_iff_not]
    intro hform
    rw [level_eq, hform] at hb
    exact absurd hb (by decide)
  induction a with
  | leaf l => cases l <;> rfl
  | head h' a _ =>
    clear h hlevel
    cases h' <;> rfl
  | tail a t ih =>
    obtain ⟨ha, hadmits⟩ := Bool.and_eq_true_iff.1 h
    have hle := (Tail.le_level hadmits).1
    have hlevel : 11 ≤ t.level := hlevel
    have ht : 12 ≤ t.level := by
      cases t with
      | instanceOf t => exact absurd hlevel (by simp [Tail.level])
      | _ => exact Nat.le_of_ble_eq_true rfl
    rw [Phrase.isSigned, hfront (by omega) (ih ha)]
    cases t <;> rfl
  | link a l b iha _ =>
    simp only [Phrase.isGrouped, Bool.and_eq_true] at h
    obtain ⟨⟨⟨ha, -⟩, hleft⟩, -⟩ := h
    have hle := (Link.le_level hleft).1
    have hlevel : 11 ≤ l.level := hlevel
    have hl : 12 ≤ l.level := by
      cases l with
      | operator op => exact absurd (Nat.le_trans hlevel (operatorLevel_le op)) (by omega)
      | comma => exact absurd hlevel (by simp [Link.level])
      | _ => exact Nat.le_of_ble_eq_true rfl
    rw [Phrase.isSigned, hfront (by omega) (iha ha)]
    cases l <;> rfl

end Forms

-- What holds of everything that is written as the core rules do it.
structure Phrase.IsRegular (a : Phrase) : Prop where
  whole : a.isWhole
  bare : a.isGroup = false
  kept : a.isGrouped = a.ungrouped.isKept
  path : a.ungrouped.isPath = a.isPath
  reach : a.isGrouped → min a.level 11 ≤ a.reach

namespace Phrase.IsRegular

variable {a b : Phrase}

theorem form_ne_list (h : a.IsRegular) : a.form ≠ .list := by
  intro hform
  have hlevel := of_decide_eq_true (Bool.and_eq_true_iff.1 h.whole).2
  rw [level_eq, hform] at hlevel
  exact absurd hlevel (by decide)

theorem isGrouped_group (h : a.IsRegular) : a.group.isGrouped = a.isGrouped := by
  have hlevel : decide (2 ≤ a.level) = true := (Bool.and_eq_true_iff.1 h.whole).2
  rw [Phrase.group, Phrase.isGrouped, Head.admits, hlevel, Bool.and_true]

end Phrase.IsRegular

-- How a regular expression is written as an operand, in parentheses or not.
structure Phrase.Operand (a : Phrase) (enclosed : Bool) (x : Phrase) : Prop where
  regular : a.IsRegular
  spelled : x.isSpelled
  grouped : x.isGrouped = a.isGrouped
  ungrouped : x.ungrouped = a.ungrouped
  form : x.form = if enclosed then .primary else a.form
  path : x.isPath = a.ungrouped.isPath
  reach : a.isGrouped → min x.level 11 ≤ x.reach

theorem Phrase.IsRegular.operand {a : Phrase} (h : a.IsRegular) {enclosed : Bool}
    (hform : enclosed → a.form ≠ .primary) :
    a.Operand enclosed (if enclosed then a.group else a) := by
  cases enclosed with
  | false => exact ⟨h, isSpelled_of_isWhole h.whole, rfl, rfl, rfl, h.path.symm, h.reach⟩
  | true =>
    refine ⟨h, isSpelled_of_isWhole (isWhole_group h.whole), h.isGrouped_group, rfl, rfl, ?_,
      fun _ => Nat.le_of_ble_eq_true rfl⟩
    have hpath : a.ungrouped.isPath ≠ true := fun hpath =>
      hform rfl (form_ungrouped h.bare ▸ form_of_isPath hpath)
    rw [Bool.eq_false_iff.2 hpath]
    rfl

section Operands

variable {a x : Phrase}

-- Operands that something binds to.
def Phrase.Front (a x : Phrase) : Prop :=
  a.Operand a.form.isEnclosed x

namespace Phrase.Front

theorem le_level (hx : a.Front x) : 11 ≤ x.level := by
  have hne := hx.regular.form_ne_list
  rw [level_eq, hx.form]
  revert hne
  cases a.form <;> simp [Form.isEnclosed, Form.level]

theorem le_reach (hx : a.Front x) (h : a.isGrouped) : 11 ≤ x.reach := by
  have hlevel := hx.le_level
  have hreach := hx.reach h
  omega

theorem isSigned_eq (hx : a.Front x) (h : a.isGrouped) :
    x.isSigned = decide (a.form = .negation) := by
  rw [Source.isSigned_eq (hx.grouped.trans h) hx.le_level, hx.form]
  cases a.form <;> rfl

theorem head_admits (hx : a.Front x) (h : a.isGrouped) {h' : Head} (hopen : h'.bracket? = none)
    (hlambda : ∀ names, h' ≠ .lambda names) : h'.admits x = h'.keeps a.ungrouped := by
  have hlevel := hx.le_level
  have hle : decide (11 ≤ x.level) = true := decide_eq_true hlevel
  have hne : decide (x.level = 2) = false := decide_eq_false (by omega)
  cases h' with
  | negate | not | cast _ =>
    simp [Head.admits, Head.keeps, hle, hne, hx.isSigned_eq h, form_ungrouped hx.regular.bare]
  | lambda names => exact absurd rfl (hlambda names)
  | _ => cases hopen

theorem tail_admits (hx : a.Front x) (h : a.isGrouped) {t : Tail} (hdimension : t ≠ .dimension)
    (hclass : ∀ n, t ≠ .classOf n) : t.admits x = t.keeps a.ungrouped := by
  have hlist := hx.regular.form_ne_list
  cases t with
  | field y | call y | reference y =>
    simp only [Tail.admits, Tail.keeps, level_eq x, isNumber_eq, hx.form,
      form_ungrouped hx.regular.bare]
    revert hlist
    cases a.form <;> simp [Form.isEnclosed, Form.level, Form.isUnary]
  | construct => exact hx.path
  | instanceOf t =>
    have hlevel := hx.le_level
    have hreach := hx.le_reach h
    simp only [Tail.admits, Tail.keeps, Bool.and_eq_true, decide_eq_true_eq]
    omega
  | dimension => exact absurd rfl hdimension
  | classOf n => exact absurd rfl (hclass n)

theorem link_admits (hx : a.Front x) {l : Link} (hl : l = .index ∨ ∃ y, l = .call y) :
    l.admitsLeft x = l.keepsLeft a.ungrouped := by
  have hlist := hx.regular.form_ne_list
  obtain rfl | ⟨y, rfl⟩ := hl
  all_goals
    simp only [Link.admitsLeft, Link.keepsLeft, level_eq x, isNumber_eq, hx.form,
      form_ungrouped hx.regular.bare]
    revert hlist
    cases a.form <;> simp [Form.isEnclosed, Form.level, Form.isUnary]

end Phrase.Front

-- Operands of binary operators.
def Phrase.Beside (level : Nat) (a x : Phrase) : Prop :=
  a.Operand (!a.form.stands level) x

namespace Phrase.Beside

theorem level_eq {level : Nat} (hx : a.Beside level x) :
    x.level = if a.form.stands level then a.form.level else 13 := by
  rw [Source.level_eq, hx.form]
  cases a.form.stands level <;> rfl

-- At the right end an operand holds together as tightly as at its root.
theorem left_admits {op : BinaryOp} (hx : a.Beside (Grammar.binding op) x) (h : a.isGrouped) :
    (Link.operator op).admitsLeft x = (Link.operator op).keepsLeft a.ungrouped := by
  have hreach := hx.reach h
  have hle := operatorLevel_le op
  have hlt : 2 < operatorLevel op := Nat.le_add_left ..
  have hiff : (Link.operator op).admitsLeft x = true ↔ operatorLevel op ≤ x.level := by
    simp only [Link.admitsLeft, Bool.and_eq_true, decide_eq_true_eq]
    omega
  rw [Bool.eq_iff_iff, hiff, hx.level_eq, Link.keepsLeft, form_ungrouped hx.regular.bare]
  cases hform : a.form with
  | operation inner =>
    by_cases hstands : (Form.operation inner).stands (Grammar.binding op)
    · have hbinding := of_decide_eq_true hstands
      rw [if_pos hstands]
      simp [Form.level, operatorLevel, hbinding]
    · rw [if_neg hstands]
      simp
      omega
  | list => exact absurd hform hx.regular.form_ne_list
  | typeTest => simp [Form.stands, Form.level]
  | _ =>
    simp [Form.stands, Form.level]
    omega

theorem right_admits {op : BinaryOp} (hx : a.Beside (Grammar.binding op + 1) x) :
    (Link.operator op).admitsRight x = (Link.operator op).keepsRight a.ungrouped := by
  have hle := operatorLevel_le op
  have hlt : 2 < operatorLevel op := Nat.le_add_left ..
  rw [Link.admitsRight, hx.level_eq, Link.keepsRight, form_ungrouped hx.regular.bare]
  cases hform : a.form with
  | operation inner =>
    by_cases hstands : (Form.operation inner).stands (Grammar.binding op + 1)
    · have hbinding := of_decide_eq_true hstands
      rw [if_pos hstands]
      simp [Form.level, operatorLevel]
      omega
    · rw [if_neg hstands]
      simp
      omega
  | list => exact absurd hform hx.regular.form_ne_list
  | typeTest => simp [Form.stands, Form.level]
  | _ =>
    simp [Form.stands, Form.level]
    omega

end Phrase.Beside

end Operands

end JvmLift.Source
