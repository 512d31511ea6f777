import JvmLift.Proofs.Completion
import JvmLift.Proofs.Cursor.Plain
import JvmLift.Proofs.Inversion
import JvmLift.Proofs.Keeps.Core

namespace JvmLift

namespace Opcode

-- The codes of conditional jumps.
def conditional : List Opcode :=
  range ifeq ifAcmpne ++ [ifnull, ifnonnull]

-- The kind of a jump and the distance that it leads, as its bytes say.
def distance? : Bytes → Option (Kind × Int)
  | [] => none
  | head :: operand =>
    if head = gotoW ∧ 4 ≤ operand.length then
      some (.jump, (Int32.ofNat (bigEndian (operand.take 4))).toInt)
    else if operand.length < 2 then none
    else
      let offset := (Int16.ofNat (bigEndian (operand.take 2))).toInt
      if head = goto then some (.jump, offset)
      else if head ∈ conditional then some (.branch, offset)
      else none

-- The kind of the jump at a position of the code and the position that it leads to.
def jumpAt? (code : Bytes) (pc : Nat) : Option (Kind × Int) :=
  (distance? (code.drop pc)).map fun (kind, offset) => (kind, pc + offset)

section Distance

variable {head : Opcode} {operand : Bytes}

theorem distance?_gotoW (h : 4 ≤ operand.length) : distance? (gotoW :: operand) =
    some (.jump, (Int32.ofNat (bigEndian (operand.take 4))).toInt) := by
  simp [distance?, h]

theorem distance?_goto (h : 2 ≤ operand.length) : distance? (goto :: operand) =
    some (.jump, (Int16.ofNat (bigEndian (operand.take 2))).toInt) := by
  have hwide : goto ≠ gotoW := by decide
  simp [distance?, hwide, Nat.not_lt.2 h]

theorem distance?_conditional (hhead : head ∈ conditional) (h : 2 ≤ operand.length) :
    distance? (head :: operand) =
      some (.branch, (Int16.ofNat (bigEndian (operand.take 2))).toInt) := by
  have hwide : head ≠ gotoW := by
    rintro rfl
    revert hhead
    decide
  have hgoto : head ≠ goto := by
    rintro rfl
    revert hhead
    decide
  simp [distance?, hwide, hgoto, hhead, Nat.not_lt.2 h]

end Distance

end Opcode

namespace Element

-- Where a jump leads to, be it conditional or not.
def target? (e : Element) : Option Nat :=
  match e.shape with
  | .jump target | .branch _ _ _ target => some target
  | _ => none

-- What may be on the stack: neither a jump nor a cast of one. A cast counts because its value is
-- put on the stack again where the cast is discarded.
inductive IsOperand : Element → Prop where
  | intro {e : Element} (own : e.target? = none)
    (below : ∀ value ty, e.shape = .cast value ty → IsOperand value) : IsOperand e

namespace IsOperand

variable {e : Element}

theorem target?_eq_none (h : e.IsOperand) : e.target? = none := by
  cases h with
  | intro own below => exact own

theorem value {value : Element} {ty : JvmType} (h : e.IsOperand) (hc : e.shape = .cast value ty) :
    value.IsOperand := by
  cases h with
  | intro own below => exact below value ty hc

theorem of_isOther {shape : Shape Element} {stamp : Stamp} (h : shape.isOther) :
    IsOperand ⟨shape, stamp⟩ := by
  cases shape with
  | jump | branch | cast => cases h
  | _ => exact ⟨rfl, nofun⟩

theorem cast {ty : JvmType} (h : e.IsOperand) : (ofShape (.cast e ty)).IsOperand := by
  refine ⟨rfl, ?_⟩
  rintro value ty' hc
  cases hc
  exact h

theorem stamped (h : e.IsOperand) (stamp : Stamp) : (e.stamped stamp).IsOperand := by
  cases h with
  | intro own below => exact ⟨own, below⟩

theorem settled (h : e.IsOperand) : e.settled.IsOperand := by
  unfold Element.settled
  split
  · exact of_isOther rfl
  · exact h

-- The condition of a branch is no jump.
theorem of_untaken {branch condition : Element} (h : branch.untaken = .ok condition) :
    condition.IsOperand := by
  unfold Element.untaken at h
  split at h
  · split at h
    · cases h
    · split at h
      · cases h
        exact of_isOther rfl
      · split at h
        all_goals
          cases h
          exact of_isOther rfl
  · cases h

end IsOperand

-- A jump among the statements: it leads where the instruction at its own position does, and a
-- conditional one decides by a comparison.
structure Jumps (code : Bytes) (e : Element) : Prop where
  leads : ∀ target, e.target? = some target →
    ∃ pc, e.stamp.pc = some pc ∧ Opcode.jumpAt? code pc = some (e.kind, (target : Int))
  compares : ∀ left op right target, e.shape = .branch left op right target → op.inverse?.isSome

theorem Jumps.of_target?_eq_none {code : Bytes} {e : Element} (h : e.target? = none) :
    e.Jumps code where
  leads target ht := by
    rw [h] at ht
    cases ht
  compares left op right target hshape := by
    rw [target?, hshape] at h
    cases h

end Element

theorem State.isOperand_entry {s : State} {e : Element} (h : e.IsOperand) :
    (s.entry e).element.IsOperand := by
  show (s.stamp e).IsOperand
  rw [stamp]
  split
  · exact h
  · exact h.stamped _

open Element in
-- No jump is on the stack, and those among the statements lead where the code says.
def Invariant.landing (code : Bytes) : Invariant where
  Stacked := IsOperand
  Listed := Jumps code
  Held _ := True
  Part := IsOperand
  Fit := IsOperand
  Around _ := True
  around_congr _ _ _ := trivial
  stacked_entry _ h := State.isOperand_entry h
  listed_entry _ h := .of_target?_eq_none (State.isOperand_entry h).target?_eq_none
  listed_settled h := .of_target?_eq_none h.settled.target?_eq_none
  listed_stamped _ h := .of_target?_eq_none (h.stamped _).target?_eq_none
  listed_of_stacked h := .of_target?_eq_none h.target?_eq_none
  held_of_stacked _ := trivial
  part_of_stacked h := h
  fit_of_part h := h
  fit_layer ho _ := .of_isOther ho
  fit_cast _ h := h.cast
  fit_value h hshape := h.value hshape
  fit_reshape _ ho _ := .of_isOther ho
  fit_untaken _ h := .of_untaken h
  held_children _ _ _ _ _ := trivial
  held_boolean _ _ := trivial
  part_string _ := .of_isOther rfl
  part_plus _ _ := .of_isOther rfl

abbrev State.Landing (code : Bytes) (s : State) : Prop :=
  (Invariant.landing code).Holds s

end JvmLift
