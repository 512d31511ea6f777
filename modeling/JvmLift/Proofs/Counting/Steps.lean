import JvmLift.Proofs.Corrections
import JvmLift.Proofs.Counting
import JvmLift.Proofs.Fragment.Expressions

namespace JvmLift

-- A state in which a method goes on, with nothing but variables and increments on the stack, and
-- with statements that no rule rewrites.
structure State.Tame (m : Method) (s : State) : Prop where
  method : s.method = m
  running : s.aborted = false
  ordered : s.Ordered
  operands : ∀ e ∈ s.stack, e.element.kind = .localVar ∨ e.element.kind = .increment
  stated : ∀ e ∈ s.statements, e.element.isInert

@[simp]
theorem State.kind_entry (s : State) (e : Element) : (s.entry e).element.kind = e.kind := by
  obtain ⟨stamp, h⟩ := s.exists_entry_eq e
  rw [h]
  rfl

namespace State.Tame

variable {m : Method} {s : State} (h : s.Tame m)
include h

theorem moved {bytes : Bytes} {pc : Nat} (hc : s.cursor = .fresh bytes pc) (rest : Bytes)
    {after : Nat} (hle : pc ≤ after) : (s.moved rest after pc).Tame m :=
  ⟨h.method, h.running, h.ordered.moved hc rest hle, h.operands, h.stated⟩

theorem pushing {below : List Entry} (hb : below.Sublist s.stack) {e : Element}
    (he : e.kind = .localVar ∨ e.kind = .increment) : ((s.leaving below).push e).Tame m where
  method := h.method
  running := h.running
  ordered := (h.ordered.leaving hb).push e
  operands := by
    show ∀ d ∈ (s.leaving below).entry e :: below, _
    rw [List.forall_mem_cons, State.kind_entry]
    exact ⟨he, fun d hd => h.operands d (hb.subset hd)⟩
  stated := h.stated

theorem stating {bytes : Bytes} {pc : Nat} (hc : s.cursor = .fresh bytes pc) (rest : Bytes)
    {after : Nat} (hle : pc ≤ after) {below : List Entry} (hb : below.Sublist s.stack)
    {e : Element} (he : e.isInert) : (s.stating below e rest after pc).Tame m where
  method := h.method
  running := h.running
  ordered := ((h.ordered.moved hc rest hle).leaving hb).enlist e
  operands d hd := h.operands d (hb.subset hd)
  stated := by
    show ∀ d ∈ ((s.moved rest after pc).leaving below).entry e :: s.statements, _
    rw [List.forall_mem_cons, State.isInert_entry]
    exact ⟨he, h.stated⟩

-- The last statement is no increment of a narrow variable.
theorem narrowIncrement? : Instruction.Local.narrowIncrement? s = none := by
  cases he : s.lastStatement? 0 with
  | none => simp [Instruction.Local.narrowIncrement?, he]
  | some statement =>
    obtain ⟨entry, hentry, rfl⟩ := Option.map_eq_some_iff.1 he
    have hinert := h.stated entry (List.mem_of_getElem? hentry)
    simp [Instruction.Local.narrowIncrement?, he, Element.narrowIncrement?_eq_none hinert]

end State.Tame

namespace Opcode

variable {slot : UInt16}

theorem eq_of_lt_four (h : slot < 4) : slot = 0 ∨ slot = 1 ∨ slot = 2 ∨ slot = 3 := by
  have hn : slot.toNat < 4 := h
  simp only [← UInt16.toNat_inj, UInt16.reduceToNat]
  omega

theorem toUInt16_toUInt8 (h : slot < 256) : slot.toUInt8.toUInt16 = slot := by
  have hn : slot.toNat < 256 := h
  rw [← UInt16.toNat_inj, UInt8.toNat_toUInt16, UInt16.toNat_toUInt8]
  omega

theorem loads_loadInt (slot : UInt16) : Fragment.Loads slot (loadInt slot) := by
  unfold loadInt
  split_ifs with hshort hplain
  · rcases eq_of_lt_four hshort with rfl | rfl | rfl | rfl
    · exact @Fragment.Loads.short iload0 (by decide)
    · exact @Fragment.Loads.short iload1 (by decide)
    · exact @Fragment.Loads.short iload2 (by decide)
    · exact @Fragment.Loads.short iload3 (by decide)
  · have hload := @Fragment.Loads.plain iload (by decide) slot.toUInt8
    rwa [toUInt16_toUInt8 hplain] at hload
  · exact @Fragment.Loads.wide iload (by decide) slot

theorem stores_storeInt (slot : UInt16) : Fragment.Stores slot (storeInt slot) := by
  unfold storeInt
  split_ifs with hshort hplain
  · rcases eq_of_lt_four hshort with rfl | rfl | rfl | rfl
    · exact @Fragment.Stores.short istore0 (by decide)
    · exact @Fragment.Stores.short istore1 (by decide)
    · exact @Fragment.Stores.short istore2 (by decide)
    · exact @Fragment.Stores.short istore3 (by decide)
  · have hstore := @Fragment.Stores.plain istore (by decide) slot.toUInt8
    rwa [toUInt16_toUInt8 hplain] at hstore
  · exact @Fragment.Stores.wide istore (by decide) slot

variable {head : Opcode} {operand : Bytes}

-- Only the loads of the first 256 variables have codes of their own.
theorem head_loadInt (h : loadInt slot = head :: operand) :
    slot < 256 ∧ head ∈ primitiveLoads ∨ ¬slot < 256 ∧ head = wide := by
  unfold loadInt at h
  split_ifs at h with hshort hplain
  · have hlt : slot < 256 := UInt16.lt_trans hshort (by decide)
    refine .inl ⟨hlt, ?_⟩
    rcases eq_of_lt_four hshort with rfl | rfl | rfl | rfl
    all_goals
      rw [← (List.cons.inj h).1]
      decide
  · exact .inl ⟨hplain, by rw [← (List.cons.inj h).1]; decide⟩
  · exact .inr ⟨hplain, (List.cons.inj h).1.symm⟩

end Opcode

-- The reference to a variable.
def LocalVariable.ref (v : LocalVariable) (slot : UInt16) : LocalRef :=
  ⟨v.name, v.ty, slot⟩

-- An increment that nothing is known about yet.
def LocalVariable.pending (v : LocalVariable) (slot : UInt16) (delta : Int32) : Element :=
  .ofShape (.increment (v.ref slot) delta v.ty .pending)

namespace Instruction.Local

open Declaration Opcode

variable {m : Method} {s : State} {slot : UInt16} {v : LocalVariable}

theorem exec_increment (h : s.method.localAt? slot s.instructionPc = some v) (delta : Int32) :
    exec (increment slot delta) s = (.ok ⟨⟩, s.push (v.pending slot delta)) := by
  rw [increment, exec_bind_of_ok (exec_get s), exec_bind_of_ok (Action.exec_local? h)]
  rfl

-- An increment pushes itself, whatever is corrected then.
theorem exec_step_increaseInt (hm : s.method = m) (hv : m.Covers slot v) {pc : Nat}
    (hlt : pc < m.code.length) (delta : Int8) (rest : Bytes) :
    ∃ head operand, increaseInt slot delta = head :: operand ∧
      (slot < 256 ∧ head = iinc ∨ ¬slot < 256 ∧ head = Opcode.wide) ∧
      exec (Registry.core.step head) (s.moved (operand ++ rest) (pc + 1) pc) =
        exec (Registry.runAll head (Registry.core.rules .corrective head))
          (s.yielding s.stack (v.pending slot delta.toInt32) rest
            (pc + (increaseInt slot delta).length) pc) := by
  have hat (bytes : Bytes) (after : Nat) :
      (s.moved bytes after pc).method.localAt? slot (s.moved bytes after pc).instructionPc =
        some v := by
    have hmoved : (s.moved bytes after pc).method = m := hm
    rw [hmoved]
    exact hv.localAt?_of_lt hlt
  by_cases hplain : slot < 256
  · have hcode : increaseInt slot delta = [iinc, slot.toUInt8, delta.toUInt8] := if_pos hplain
    have hincrement := Fragment.Acts.increment slot.toUInt8 delta
    rw [toUInt16_toUInt8 hplain] at hincrement
    obtain ⟨head, operand, hhead, -, hdoes⟩ := hincrement.implements
    obtain ⟨rfl, rfl⟩ := List.cons.inj hhead
    rw [hcode]
    refine ⟨iinc, _, rfl, .inl ⟨hplain, rfl⟩, ?_⟩
    rw [hdoes s rest pc]
    exact exec_bind_of_ok (exec_increment (hat _ _) _) _
  · have hcode : increaseInt slot delta =
        Opcode.wide :: iinc :: (wideBytes slot ++ wideBytes delta.toInt16.toUInt16) :=
      if_neg hplain
    have hincrement := Fragment.Acts.incrementWide slot delta.toInt16
    rw [Int8.toInt32_toInt16] at hincrement
    obtain ⟨head, operand, hhead, -, hdoes⟩ := hincrement.implements
    obtain ⟨rfl, rfl⟩ := List.cons.inj hhead
    rw [hcode]
    refine ⟨Opcode.wide, _, rfl, .inr ⟨hplain, rfl⟩, ?_⟩
    rw [hdoes s rest pc]
    exact exec_bind_of_ok (exec_increment (hat _ _) _) _

end Instruction.Local

end JvmLift
