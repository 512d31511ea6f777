import JvmLift.Proofs.Outcomes
import JvmLift.Proofs.Place

namespace JvmLift

namespace Fragment

open Instruction Opcode

-- The instructions that make an array, with the type of its elements.
inductive Allocates (m : Method) : JvmType → Bytes → Prop where
  | primitive {code : UInt8} {component : JvmType}
    (h : JvmType.ofArrayCode? code = some component) : Allocates m component [newarray, code]
  | reference {index : UInt16} {name : String} {component : JvmType}
    (h : m.pool.className index = .ok name) (hty : JvmType.ofClassName? name = some component) :
    Allocates m component (anewarray :: wideBytes index)

end Fragment

-- The array that is stored into is the third entry of the stack.
def State.fillsNewArray (s : State) : Bool :=
  (s.peekAt? 2).any fun e => e.kind = .newArray

namespace Instruction.Array

variable {s t : State}

theorem allocate_eq_ok {component : JvmType} (h : exec (allocate component) s = (.ok ⟨⟩, t)) :
    ∃ length below, s.stack = length :: below ∧ t = (s.leaving below).push
      (.ofShape (.newArray (.array component) component length.element [])) := by
  rw [allocate] at h
  rw [exec_bind_eq_ok] at h
  obtain ⟨e, u, he, h⟩ := h
  obtain ⟨length, below, hs, rfl, rfl⟩ := Action.pop_eq_ok he
  obtain ⟨-, rfl⟩ := Prod.mk.inj h
  exact ⟨length, below, hs, rfl⟩

theorem load_eq_ok {code : Opcode} (h : exec (load code) s = (.ok ⟨⟩, t)) :
    ∃ index array below ty, s.stack = index :: array :: below ∧
      t = (s.leaving below).push (.ofShape (.arrayLoad array.element index.element ty)) := by
  rw [load] at h
  rw [exec_bind_eq_ok] at h
  obtain ⟨e, u, he, h⟩ := h
  obtain ⟨index, rest, hs, rfl, rfl⟩ := Action.pop_eq_ok he
  rw [exec_bind_eq_ok] at h
  obtain ⟨e, u, he, h⟩ := h
  obtain ⟨array, below, hl, rfl, rfl⟩ := Action.pop_eq_ok he
  obtain rfl : rest = array :: below := hl
  cases hty : loadedType code array.element.ty with
  | error fault =>
    rw [hty] at h
    cases (Prod.mk.inj h).1
  | ok ty =>
    rw [hty] at h
    obtain ⟨-, rfl⟩ := Prod.mk.inj h
    exact ⟨index, array, below, ty, hs, rfl⟩

-- The array that an initializer is added to takes the place of the three operands.
theorem exec_store_newArray {value index array : Entry} {below : List Entry} {ty component : JvmType}
    {length : Element} {initializers : List (Int32 × Element)} {position : Int32}
    (hs : s.stack = value :: index :: array :: below)
    (harray : array.element.shape = .newArray ty component length initializers)
    (hindex : index.element.intConstant? = some position) :
    exec store s = (.ok ⟨⟩, (s.leaving below).push ⟨.newArray ty component length
      (initializers ++ [(position, value.element)]), array.element.stamp⟩) := by
  have hl : (s.leaving (index :: array :: below)).stack = index :: array :: below := rfl
  have hr : ((s.leaving (index :: array :: below)).leaving (array :: below)).stack =
    array :: below := rfl
  rw [store, exec_bind_of_ok (Action.exec_pop_of_cons hs),
    exec_bind_of_ok (Action.exec_pop_of_cons hl), exec_bind_of_ok (Action.exec_pop_of_cons hr),
    harray, hindex]
  rfl

-- A store makes a statement, or it leaves a new array in the place of a new array.
theorem store_eq_ok (h : exec store s = (.ok ⟨⟩, t)) :
    ∃ value index array below, s.stack = value :: index :: array :: below ∧
      ((s.fillsNewArray = false ∧ t = (s.leaving below).enlist
          (.ofShape (.arrayStore array.element index.element value.element))) ∨
        s.fillsNewArray ∧ ∃ e : Element, e.kind = .newArray ∧ t = (s.leaving below).push e) := by
  rw [store] at h
  rw [exec_bind_eq_ok] at h
  obtain ⟨e, u, he, h⟩ := h
  obtain ⟨value, rest, hs, rfl, rfl⟩ := Action.pop_eq_ok he
  rw [exec_bind_eq_ok] at h
  obtain ⟨e, u, he, h⟩ := h
  obtain ⟨index, rest, hl, rfl, rfl⟩ := Action.pop_eq_ok he
  rw [exec_bind_eq_ok] at h
  obtain ⟨e, u, he, h⟩ := h
  obtain ⟨array, below, hr, rfl, rfl⟩ := Action.pop_eq_ok he
  obtain rfl : _ = index :: rest := hl
  obtain rfl : rest = array :: below := hr
  refine ⟨value, index, array, below, hs, ?_⟩
  have hfills : s.fillsNewArray = decide (array.element.kind = .newArray) := by
    simp [State.fillsNewArray, State.peekAt?, hs]
  rw [hfills]
  obtain ⟨⟨shape, stamp⟩, pc, version⟩ := array
  cases shape with
  | newArray ty component length initializers =>
    right
    dsimp only at h
    split at h
    · obtain ⟨-, rfl⟩ := Prod.mk.inj h
      exact ⟨rfl, _, rfl, rfl⟩
    · cases (Prod.mk.inj h).1
  | _ =>
    left
    obtain ⟨-, rfl⟩ := Prod.mk.inj h
    exact ⟨rfl, rfl⟩

end Instruction.Array

namespace Registry

open Instruction Declaration Opcode Fragment

variable {s t : State} {head : Opcode} {code rest : Bytes} {a : Action Unit}

-- An instruction is executed where its action succeeds and nothing corrects what it leaves.
theorem Implements.executes (h : Implements code a) {pc : Nat}
    (hc : s.cursor = .fresh (code ++ rest) pc) (hrunning : s.aborted = false)
    (ha : exec a (s.moved rest (pc + code.length) pc) = (.ok ⟨⟩, t))
    (hcode : code.headD nop ∉ corrected) : core.Executes s t := by
  obtain ⟨head, operand, rfl, -, hdoes⟩ := h
  have hrem : s.cursor.remaining = head :: (operand ++ rest) := by
    rw [hc, Cursor.remaining_fresh]
    rfl
  refine executes_of_cons hrunning hrem ?_
  have hcons : s.cursor = .fresh (head :: (operand ++ rest)) pc := hc
  rw [State.fetch_eq hcons, hdoes s rest pc, exec_bind_of_ok ha]
  exact exec_corrections_of_not_mem hcode t

-- The cursor may have come there in any way.
theorem Implements.exists_executes (h : Implements code a)
    (hrem : s.cursor.remaining = code ++ rest) (hrunning : s.aborted = false)
    (ha : exec a (s.moved rest (s.pc + code.length) s.pc) = (.ok ⟨⟩, t))
    (hcode : code.headD nop ∉ corrected) :
    ∃ c, core.Executes s (t.at c) ∧ c.Alike t.cursor := by
  have hplace : s.cursor.Alike (.fresh (code ++ rest) s.pc) := hrem ▸ s.cursor.alike_fresh
  have he := h.executes (s := s.at (.fresh (code ++ rest) s.pc)) rfl hrunning ha hcode
  obtain ⟨head, operand, rfl, hspared, -⟩ := h
  refine he.alike (c := s.cursor) (Cursor.remaining_fresh ..) hplace fun hdup => ?_
  exact absurd (hdup ▸ List.mem_cons_self ..) hspared

theorem Implements.executes_fresh (h : Implements code a)
    (hrem : s.cursor.remaining = code ++ rest) (he : core.Executes s t) :
    ∃ c, core.Executes (s.at (.fresh (code ++ rest) s.pc)) (t.at c) := by
  have hplace : s.cursor.Alike (.fresh (code ++ rest) s.pc) := hrem ▸ s.cursor.alike_fresh
  obtain ⟨head, operand, rfl, hspared, -⟩ := h
  obtain ⟨c, hc, -⟩ := he.alike hrem hplace.symm fun hdup =>
    absurd (hdup ▸ List.mem_cons_self ..) hspared
  exact ⟨c, hc⟩

theorem implements_allocation {m : Method} {component : JvmType}
    (h : Allocates m component code) :
    ∃ a, Implements code a ∧ code.headD nop ∉ corrected ∧
      ∀ s : State, s.method = m → exec a s = exec (Array.allocate component) s := by
  cases h with
  | @primitive code _ hcode =>
    have hcorrected : newarray ∉ corrected := by decide +kernel
    refine ⟨Array.allocate component, ?_, hcorrected, fun _ _ => rfl⟩
    refine implements_of_mem_rules (mem_rules_array (List.mem_cons_self ..))
      (List.mem_singleton_self _) (by decide) fun s rest pc => ?_
    refine (Action.exec_bind_read (Reading.exec_u8_fresh ..)).trans ?_
    rw [hcode]
    rfl
  | @reference index name _ hname hty =>
    have hd : on [anewarray] (fun _ => do
        Array.allocate (← Action.classType (← Action.read Reading.u16))) ∈ Array.rules := by
      simp only [Array.rules, List.mem_cons, true_or, or_true]
    have hcorrected : anewarray ∉ corrected := by decide +kernel
    refine ⟨Action.classType index >>= Array.allocate, ?_, hcorrected, fun s hs => ?_⟩
    · exact implements_of_mem_rules (mem_rules_array hd) (List.mem_singleton_self _) (by decide)
        fun _ _ _ => Action.exec_bind_read (Reading.exec_u16_fresh ..)
    · exact exec_bind_of_ok (Action.exec_classType (hs ▸ hname) hty) _

theorem implements_arrayLoad (h : head ∈ range iaload saload) :
    Implements [head] (Array.load head) ∧ head ∉ corrected := by
  have hd : on (range iaload saload) Array.load ∈ Array.rules := by
    simp only [Array.rules, List.mem_cons, true_or, or_true]
  have hcorrected : ∀ code ∈ range iaload saload, code ∉ corrected := by decide +kernel
  exact ⟨implements_of_mem_rules (mem_rules_array hd) h (not_mem_special_of_mem_range h rfl)
    fun _ _ _ => rfl, hcorrected head h⟩

theorem implements_arrayStore (h : head ∈ range iastore sastore) :
    Implements [head] Array.store ∧ head ∉ corrected := by
  have hd : on (range iastore sastore) (fun _ => Array.store) ∈ Array.rules := by
    simp only [Array.rules, List.mem_cons, true_or, or_true]
  have hcorrected : ∀ code ∈ range iastore sastore, code ∉ corrected := by decide +kernel
  exact ⟨implements_of_mem_rules (mem_rules_array hd) h (not_mem_special_of_mem_range h rfl)
    fun _ _ _ => rfl, hcorrected head h⟩

end Registry

namespace Reading

variable {c : Cursor} {rest : Bytes}

-- The next byte is seen where there is one.
theorem toOption_peekInstruction (hp : c.peeked = 0) (hrem : c.remaining = rest) :
    (exec peekInstruction c).1.toOption = rest.head? := by
  rw [exec_peekInstruction, exec_peek, hp, hrem]
  cases rest with
  | nil => rfl
  | cons next more =>
    have hlen : ¬(next :: more).length < 0 + 1 := by
      rw [List.length_cons]
      omega
    have hnext : UInt8.ofNat (bigEndian [next]) = next := by simp [bigEndian]
    rw [if_neg hlen]
    exact congrArg some hnext

end Reading

namespace Registry

open Instruction Opcode

-- The copy of a new array does nothing if an index follows it, and is a copy of the top if not.
theorem exec_step_dup_newArray {s : State} {top : Entry} {below : List Entry} {rest : Bytes}
    (hs : s.stack = top :: below) (hk : top.element.kind = .newArray)
    (hrem : s.cursor.remaining = dup :: rest) :
    ∃ c, exec (core.step dup) s.fetch = (.ok ⟨⟩,
        if rest.head?.any Array.isIndexCode then s.fetch.at c
        else (s.fetch.at c).push top.element) ∧
      c.remaining = rest ∧ c.pc = s.pc + 1 := by
  have htop : s.fetch.topIs .newArray := State.topIs_iff.2 ⟨top, below, hs, hk⟩
  have hrest : s.fetch.cursor.remaining = rest := s.remaining_fetch hrem
  refine ⟨(exec Reading.peekInstruction s.fetch.cursor).2, ?_, ?_, ?_⟩
  · rw [exec_step_copy htop, Array.exec_copy, Reading.toOption_peekInstruction rfl hrest]
    cases rest.head?.any Array.isIndexCode with
    | true => rfl
    | false =>
      let u := s.fetch.at (exec Reading.peekInstruction s.fetch.cursor).2
      have hpeek : exec Action.peek u = (.ok top.element, u) := by
        have hstack : u.stack = top :: below := hs
        simp [Action.peek, exec_bind, State.peekAt?, hstack]
      exact exec_bind_of_ok hpeek _
  · rw [Reading.exec_peekInstruction]
    exact (Reading.remaining_peek ..).trans hrest
  · exact Reading.pc_peekInstruction _

end Registry

end JvmLift
