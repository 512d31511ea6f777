import JvmLift.Method
import JvmLift.Proofs.Sorting
import Mathlib.Algebra.GroupWithZero.Nat

namespace JvmLift

-- The slots of values that follow each other, from a first slot on.
def slotsFrom (first : Nat) : List JvmType → List Nat
  | [] => []
  | ty :: rest => first :: slotsFrom (first + ty.category) rest

theorem JvmType.category_pos (ty : JvmType) : 0 < ty.category := by
  rw [category]
  split <;> decide

section Slots

variable {first slot : Nat} {types : List JvmType}

theorem length_slotsFrom : (slotsFrom first types).length = types.length := by
  induction types generalizing first with
  | nil => rfl
  | cons ty rest ih => rw [slotsFrom, List.length_cons, List.length_cons, ih]

theorem le_of_mem_slotsFrom (h : slot ∈ slotsFrom first types) : first ≤ slot := by
  induction types generalizing first with
  | nil => cases h
  | cons ty rest ih =>
    rcases List.mem_cons.1 h with rfl | h
    · exact Nat.le_refl _
    · exact Nat.le_trans (Nat.le_add_right ..) (ih h)

theorem pairwise_slotsFrom : (slotsFrom first types).Pairwise (· < ·) := by
  induction types generalizing first with
  | nil => exact .nil
  | cons ty rest ih =>
    refine .cons (fun slot hslot => ?_) ih
    have hcategory := ty.category_pos
    have hle := le_of_mem_slotsFrom hslot
    omega

theorem lt_of_mem_slotsFrom (h : slot ∈ slotsFrom first types) :
    slot < first + (types.map JvmType.category).sum := by
  induction types generalizing first with
  | nil => cases h
  | cons ty rest ih =>
    have hcategory := ty.category_pos
    rw [List.map_cons, List.sum_cons]
    rcases List.mem_cons.1 h with rfl | h
    · omega
    · have hlt := ih h
      omega

end Slots

-- The slots of the parameters are counted up to the range of a slot.
theorem MethodDescriptor.slots_eq (d : MethodDescriptor) :
    d.slots = .ofNat (d.parameters.map JvmType.category).sum := by
  rw [slots]
  induction d.parameters with
  | nil => rfl
  | cons ty rest ih => rw [List.foldr_cons, ih, List.map_cons, List.sum_cons, UInt16.ofNat_add]

namespace Method

variable {m : Method} {params : List LocalVariable}

-- The variables that are in scope from the start are, in any order, one for each parameter in its
-- slot and one for the receiver if there is one. Two bytes are enough for the slots up to the one
-- behind the parameters.
structure Declares (m : Method) (params : List LocalVariable) : Prop where
  fits : m.firstParameterSlot + (m.signature.parameters.map JvmType.category).sum < UInt16.size
  slots : params.map (·.slot.toNat) = slotsFrom m.firstParameterSlot m.signature.parameters
  listed : ∃ receiver : Option LocalVariable, receiver.isSome = !m.isStatic ∧
    (∀ v ∈ receiver, v.slot = 0) ∧
    (m.locals.filter fun v => v.start = 0).Perm (receiver.toList ++ params)

theorem Declares.length_eq (h : m.Declares params) :
    params.length = m.signature.parameters.length := by
  have hlength := congrArg List.length h.slots
  rwa [List.length_map, length_slotsFrom] at hlength

theorem Declares.pairwise (h : m.Declares params) :
    params.Pairwise fun a b => a.slot.toNat < b.slot.toNat :=
  List.pairwise_map.1 (h.slots ▸ pairwise_slotsFrom)

-- A slot is looked at as one of a parameter exactly if it is in front of those behind them.
theorem Declares.within_iff (h : m.Declares params) (slot : UInt16) :
    (.ofNat m.firstParameterSlot ≤ slot ∧
        slot < .ofNat m.firstParameterSlot + m.signature.slots) ↔
      m.firstParameterSlot ≤ slot.toNat ∧
        slot.toNat <
          m.firstParameterSlot + (m.signature.parameters.map JvmType.category).sum := by
  have hfits := h.fits
  rw [m.signature.slots_eq, ← UInt16.ofNat_add, UInt16.le_iff_toNat_le, UInt16.lt_iff_toNat_lt,
    UInt16.toNat_ofNat_of_lt' (Nat.lt_of_le_of_lt (Nat.le_add_right ..) hfits),
    UInt16.toNat_ofNat_of_lt' hfits]

-- The parameters are found by their slots, in the order of the signature.
theorem Declares.parameters_eq (h : m.Declares params) : m.parameters = params := by
  obtain ⟨receiver, hsome, hzero, hperm⟩ := h.listed
  let within (v : LocalVariable) : Bool := .ofNat m.firstParameterSlot ≤ v.slot &&
    v.slot < .ofNat m.firstParameterSlot + m.signature.slots
  have hwithin (v : LocalVariable) : within v ↔ m.firstParameterSlot ≤ v.slot.toNat ∧
      v.slot.toNat < m.firstParameterSlot + (m.signature.parameters.map JvmType.category).sum := by
    rw [← h.within_iff]
    simp [within]
  have hreceiver : receiver.toList.filter within = [] := by
    rw [List.filter_eq_nil_iff]
    intro v hv
    rw [Option.mem_toList] at hv
    have hslot : v.slot.toNat = 0 := by rw [hzero v hv]; rfl
    have hinstance : m.isStatic = false := by
      rw [Option.mem_def.1 hv] at hsome
      simpa using hsome.symm
    simp [hwithin, firstParameterSlot, hinstance, hslot]
  have hparams : params.filter within = params := by
    rw [List.filter_eq_self]
    intro v hv
    have hslot : v.slot.toNat ∈ slotsFrom m.firstParameterSlot m.signature.parameters :=
      h.slots ▸ List.mem_map_of_mem hv
    exact (hwithin v).2 ⟨le_of_mem_slotsFrom hslot, lt_of_mem_slotsFrom hslot⟩
  have hcandidates := hperm.filter within
  rw [List.filter_append, hreceiver, hparams, List.nil_append, List.filter_filter] at hcandidates
  refine sorted_eq_of_perm (fun a b c => ?_) (fun a b => ?_) (.trans (.of_eq ?_) hcandidates) ?_
  · simp only [decide_eq_true_eq]
    exact UInt16.le_trans
  · simp only [decide_eq_true_eq]
    exact UInt16.le_total _ _
  · refine List.filter_congr fun v _ => ?_
    simp only [within, Bool.and_comm, Bool.and_assoc]
  · refine h.pairwise.imp fun hlt => ?_
    rw [decide_eq_true_eq, UInt16.le_iff_toNat_le]
    omega

end Method

end JvmLift
