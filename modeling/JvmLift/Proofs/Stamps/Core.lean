import JvmLift.Proofs.Keeps.Core
import JvmLift.Proofs.Stamps

namespace JvmLift

theorem BinaryOp.isComparison_of_inverse? {op inverse : BinaryOp}
    (h : op.inverse? = some inverse) : inverse.isComparison := by
  cases op with
  | eq | ne | lt | le | gt | ge =>
    cases h
    rfl
  | _ => cases h

theorem Shape.supplied_eq_nil {shape : Shape Element} (h : shape.isCompleted = false) :
    shape.supplied = [] := by
  cases shape with
  | branch | binary => cases h
  | _ => rfl

namespace Element

variable {given : Stamp → Prop} {e : Element}

-- Only the right operand of a condition may be one that a jump left out.
theorem traced_untaken {condition : Element} (he : e.Traced given)
    (h : e.untaken = .ok condition) : condition.Traced given := by
  obtain ⟨shape, stamp⟩ := e
  unfold Element.untaken at h
  split at h
  · rename_i left op right target hshape
    cases hshape
    have hbelow := (traced_mk.1 he).2
    have hleft := hbelow left (List.mem_cons_self ..)
    split at h
    · cases h
    · rename_i inverse hinverse
      have hcomparison := BinaryOp.isComparison_of_inverse? hinverse
      split at h
      · rename_i htest
        cases h
        simp only [Bool.and_eq_true, decide_eq_true_eq, Element.isInt] at htest
        refine traced_of_one rfl ⟨hleft.1.resolve_right fun hmem => ?_, hleft.2⟩
        -- the operand that is left out is an int, and the left one is a boolean
        obtain rfl := List.mem_singleton.1 (List.mem_filter.1 hmem).1
        rw [htest.1.2] at htest
        cases htest.2.2
      · split at h
        · rename_i l r hcompare _
          cases h
          have hcompared : ∀ c ∈ [l, r], c.Placed given := hleft.2.below hcompare rfl
          exact traced_ofShape hcompared
        · cases h
          refine traced_mk.2 ⟨.inl rfl, ?_⟩
          rw [Shape.supplied, if_pos hcomparison]
          exact hbelow
  · cases h

-- What a text is joined of.
structure Joinable (given : Stamp → Prop) (e : Element) : Prop where
  traced : e.Traced given
  known : e.isStamped ∨ e.isText

theorem Joinable.plus {left right : Element} (hl : Joinable given left)
    (hr : Joinable given right) :
    Joinable given (ofShape (.binary left .plus right .string)) := by
  have hmem {c : Element} (hc : c ∈ [left, right]) (h : c.isStamped ∨ c.isText) :
      c.isStamped ∨ c ∈ [left, right].filter (·.isText) :=
    h.imp_right fun ht => List.mem_filter.2 ⟨hc, ht⟩
  refine ⟨traced_mk.2 ⟨.inl rfl, ?_⟩, .inr rfl⟩
  show ∀ c ∈ [left, right], (c.isStamped ∨ c ∈ [left, right].filter (·.isText)) ∧ c.Traced given
  intro c hc
  rcases List.mem_pair.1 hc with rfl | rfl
  · exact ⟨hmem hc hl.known, hl.traced⟩
  · exact ⟨hmem hc hr.known, hr.traced⟩

end Element

section Rules

variable {table : LineTable} {executed : Nat → Prop}

-- What an instruction makes gets the stamp of that instruction.
theorem State.placed_entry {s : State} {e : Element}
    (h : s.lines = table ∧ executed s.instructionPc) (he : e.Traced (table.Gives executed)) :
    (s.entry e).element.Placed (table.Gives executed) where
  isStamped := s.isStamped_entry e
  traced := by
    show (s.stamp e).Traced _
    rw [State.stamp]
    split
    · exact he
    · refine he.stamped ⟨s.instructionPc, h.2, ?_⟩
      rw [State.line?, h.1]
      rfl

open Element in
-- All stamps in a state are those of instructions that were executed, and the one that is being
-- executed is one of them.
def Invariant.stamps (table : LineTable) (executed : Nat → Prop) : Invariant where
  Stacked := Placed (table.Gives executed)
  Listed := Placed (table.Gives executed)
  Held := Placed (table.Gives executed)
  Part := Joinable (table.Gives executed)
  Fit := Traced (table.Gives executed)
  Around s := s.lines = table ∧ executed s.instructionPc
  around_congr h hlines hpc := ⟨hlines.trans h.1, hpc ▸ h.2⟩
  stacked_entry := State.placed_entry
  listed_entry := State.placed_entry
  listed_settled h := h.settled
  listed_stamped h ht := ⟨h.isStamped, ht.stamped h.given_stamp⟩
  listed_of_stacked h := h
  held_of_stacked h := h
  part_of_stacked h := ⟨h.traced, .inl h.isStamped⟩
  fit_of_part h := h.traced
  fit_layer _ h := traced_ofShape h
  fit_cast _ h := traced_of_one rfl h
  fit_value h hshape := (List.forall_mem_singleton.1 (h.traced.below hshape rfl)).traced
  fit_reshape h _ hc := h.traced.reshape hc
  fit_untaken h hu := traced_untaken h.traced hu
  held_children h hshape hc := h.traced.below hshape (Shape.supplied_eq_nil hc)
  held_boolean _ h := ⟨h.isStamped, h.traced.reshape (List.forall_mem_nil _)⟩
  part_string _ := ⟨traced_of_none rfl, .inr rfl⟩
  part_plus := Joinable.plus

-- All stamps in a state are those of instructions that were executed.
structure State.Traced (table : LineTable) (executed : Nat → Prop) (s : State) : Prop extends
    (Invariant.stamps table executed).Fits s where
  lines : s.lines = table

theorem State.Traced.reduce {s : State} (h : s.Traced table executed) :
    (exec Action.reduce s).2.Traced table executed :=
  { h.toFits.reduce with lines := (Action.around_reduce s).1.trans h.lines }

namespace Instruction

open JvmLift.Action (Keeps)
open Element Invariant

namespace Jump

theorem keeps_jump (offset : Int) :
    Keeps (stamps table executed).Holds (fun _ => True) (jump offset) := by
  apply (keeps_requireTarget offset).bind
  intro pc _
  apply Keeps.inspect
  intro s _
  split
  · exact .abort
  · exact .enlist (traced_of_none rfl)

-- The right operand comes from the stack, or it is the one that the instruction leaves out.
theorem keeps_branch {left right : Element} (op : BinaryOp)
    (hleft : left.Placed (table.Gives executed)) (hright : right.Traced (table.Gives executed))
    (hsupplied : right.isStamped ∨ right.isComparand) :
    Keeps (stamps table executed).Holds (fun _ => True) (branch left op right) := by
  apply (Keeps.reading _).bind
  intro offset _
  apply (keeps_requireTarget _).bind
  intro target _
  refine .enlist (traced_mk.2 ⟨.inl rfl, ?_⟩)
  simp only [Shape.children, List.forall_mem_cons]
  refine ⟨⟨.inl hleft.isStamped, hleft.traced⟩, ⟨?_, hright⟩, List.forall_mem_nil _⟩
  refine hsupplied.imp_right fun h => ?_
  exact List.mem_filter.2 ⟨List.mem_singleton.2 rfl, h⟩

theorem keeps : ∀ d ∈ rules, d.rule.Keeps (stamps table executed).Holds := by
  simp only [rules, List.forall_mem_cons]
  exact ⟨fun _ => Keeps.reduceAll.discard.bind fun _ _ => .enlist (fit_of_none rfl rfl),
    fun _ => Keeps.pop.bind fun _ he => .require (.enlist (fit_of_one rfl rfl he)),
    fun _ => (Keeps.reading _).bind fun _ _ => keeps_jump _,
    fun _ => (Keeps.reading _).bind fun _ _ => keeps_jump _,
    fun _ => Keeps.removeLastStatement.discard.bind fun _ _ => .abort,
    fun _ => Keeps.pop.bind fun _ hl =>
      keeps_branch _ hl (traced_of_none rfl) (.inr (by decide)),
    fun _ => Keeps.pop.bind fun _ hr => Keeps.pop.bind fun _ hl =>
      keeps_branch _ hl hr.traced (.inl hr.isStamped),
    fun _ => Keeps.pop.bind fun _ hl =>
      keeps_branch _ hl (traced_of_none rfl) (.inr (by decide)),
    fun _ => Keeps.pop.bind fun _ he => .enlist (fit_of_one rfl rfl he),
    List.forall_mem_nil _⟩

end Jump

-- No rule drops a stamp or makes one up.
theorem keeps_stamps : ∀ d ∈ rules, d.rule.Keeps (stamps table executed).Holds := by
  intro d hd
  rcases keeps d hd with hjump | hkeeps
  · exact Jump.keeps d hjump
  · exact hkeeps

end Instruction

end Rules

end JvmLift
