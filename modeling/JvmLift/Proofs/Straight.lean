import JvmLift.Proofs.Extension
import JvmLift.Proofs.Fragment.Steps

namespace JvmLift

namespace Opcode

-- The code of an instruction behind the prefix for a wide slot.
def unprefixed : Bytes → Opcode
  | [] => nop
  | first :: rest => if first = wide then rest.headD nop else first

abbrev lstore : Opcode := 0x37

abbrev dstore : Opcode := 0x39

abbrev lstore0 : Opcode := 0x3f

abbrev lstore3 : Opcode := 0x42

abbrev dstore0 : Opcode := 0x47

abbrev dstore3 : Opcode := 0x4a

-- The constants, loads and stores of a long or a double.
def twoWords : List Opcode :=
  range lconst0 lconst1 ++ range dconst0 dconst1 ++ [ldc2W, lload, dload, lstore, dstore] ++
    range lload0 lload3 ++ range dload0 dload3 ++ range lstore0 lstore3 ++ range dstore0 dstore3

-- The category of the value that a constant, a load or a store moves.
def movedCategory (code : Bytes) : Nat :=
  if unprefixed code ∈ twoWords then 2 else 1

end Opcode

namespace Fragment

open Instruction Opcode

-- The instructions that push a constant, with what they do behind their operands.
inductive Pushes : Action Unit → Bytes → Prop where
  | null : Pushes (Action.push .null) [aconstNull]
  | int {code : Opcode} (h : code ∈ range iconstM1 iconst5) :
    Pushes (Action.push (.int (.ofInt (code.toNat - iconst0.toNat)))) [code]
  | long {code : Opcode} (h : code ∈ range lconst0 lconst1) :
    Pushes (Action.push (.long (.ofInt (code.toNat - lconst0.toNat)))) [code]
  | float {code : Opcode} (h : code ∈ range fconst0 fconst2) :
    Pushes (Action.push (.float (Literal.singles.getD (code.toNat - fconst0.toNat) ⟨0⟩))) [code]
  | double {code : Opcode} (h : code ∈ range dconst0 dconst1) :
    Pushes (Action.push (.double (Literal.doubles.getD (code.toNat - dconst0.toNat) ⟨0⟩))) [code]
  | byte (value : Int8) : Pushes (Action.push (.int value.toInt32)) [bipush, value.toUInt8]
  | short (value : Int16) :
    Pushes (Action.push (.int value.toInt32)) (sipush :: wideBytes value.toUInt16)
  | pool (index : UInt8) : Pushes (Literal.loadConstant index.toUInt16 1) [ldc, index]
  | poolWide (index : UInt16) : Pushes (Literal.loadConstant index 1) (ldcW :: wideBytes index)
  | poolDouble (index : UInt16) : Pushes (Literal.loadConstant index 2) (ldc2W :: wideBytes index)

-- The instructions of straight-line code, with what they do behind their operands. Copying and
-- discarding one value are missing, since what they do depends on the value.
inductive Acts : Action Unit → Bytes → Prop where
  | push {a : Action Unit} {code : Bytes} (h : Pushes a code) : Acts a code
  | load {slot : UInt16} {code : Bytes} (h : Loads slot code) : Acts (Local.load slot) code
  | store {slot : UInt16} {code : Bytes} (h : Stores slot code) : Acts (Local.store slot) code
  | increment (slot : UInt8) (delta : Int8) :
    Acts (Local.increment slot.toUInt16 delta.toInt32) [iinc, slot, delta.toUInt8]
  | incrementWide (slot : UInt16) (delta : Int16) :
    Acts (Local.increment slot delta.toInt32)
      (Opcode.wide :: iinc :: (wideBytes slot ++ wideBytes delta.toUInt16))
  | binary {code : Opcode} {op : BinaryOp} {ty : JvmType}
    (h : (code, op, ty) ∈ Arithmetic.binaryOperators) : Acts (Arithmetic.binary op ty) [code]
  | negate {code : Opcode} (h : code ∈ range ineg dneg) : Acts Arithmetic.negate [code]
  | call (index : UInt16) : Acts (Call.call index true) (invokestatic :: wideBytes index)
  | discardTwo : Acts (Shuffle.discardTwo pop2) [pop2]
  | returnValue {code : Opcode} (h : code ∈ range ireturn areturn) :
    Acts (Jump.returnValue code) [code]

end Fragment

namespace Instruction

variable {d : Declaration}

theorem mem_rules_literal (h : d ∈ Literal.rules) : d ∈ rules := by
  simp only [rules, List.mem_append, h, true_or]

theorem mem_rules_local (h : d ∈ Local.rules) : d ∈ rules := by
  simp only [rules, List.mem_append, h, true_or, or_true]

theorem mem_rules_array (h : d ∈ Array.rules) : d ∈ rules := by
  simp only [rules, List.mem_append, h, true_or, or_true]

theorem mem_rules_object (h : d ∈ Object.rules) : d ∈ rules := by
  simp only [rules, List.mem_append, h, true_or, or_true]

theorem mem_rules_call (h : d ∈ Call.rules) : d ∈ rules := by
  simp only [rules, List.mem_append, h, true_or, or_true]

theorem mem_rules_arithmetic (h : d ∈ Arithmetic.rules) : d ∈ rules := by
  simp only [rules, List.mem_append, h, true_or, or_true]

theorem mem_rules_shuffle (h : d ∈ Shuffle.rules) : d ∈ rules := by
  simp only [rules, List.mem_append, h, true_or, or_true]

theorem mem_rules_jump (h : d ∈ Jump.rules) : d ∈ rules := by
  simp only [rules, List.mem_append, h, true_or, or_true]

end Instruction

namespace Registry

open Instruction Declaration

variable {s t : State} {head : Opcode} {operand rest : Bytes} {a : Action Unit} {pc : Nat}

-- What rewrites what an instruction left behind.
abbrev corrections (head : Opcode) : Action Unit :=
  runAll head (core.rules .corrective head)

-- In a state an instruction is an action behind its operands, and the corrections of it.
def Does (s : State) (head : Opcode) (operand : Bytes) (a : Action Unit) : Prop :=
  ∀ rest pc, exec (core.step head) (s.moved (operand ++ rest) (pc + 1) pc) =
    exec (a >>= fun _ => corrections head) (s.moved rest (pc + (head :: operand).length) pc)

theorem does_of_primary {rule : Rule}
    (hp : ∀ rest pc, core.primary? (s.moved (operand ++ rest) (pc + 1) pc) head = some rule)
    (h : ∀ rest pc, exec (rule.run head) (s.moved (operand ++ rest) (pc + 1) pc) =
      exec a (s.moved rest (pc + (head :: operand).length) pc)) : Does s head operand a := by
  intro rest pc
  rw [exec_step_core (hp rest pc), exec_bind, exec_bind, h]

-- An instruction that is an action behind its operands in every state, and that neither an
-- override nor a correction of inert elements is for.
def Implements (code : Bytes) (a : Action Unit) : Prop :=
  ∃ head operand, code = head :: operand ∧ head ∉ special ∧ ∀ s, Does s head operand a

theorem implements_of_mem_rules {codes : List Opcode} {run : Opcode → Action Unit}
    (hd : on codes run ∈ Instruction.rules) (hcode : head ∈ codes) (hspared : head ∉ special)
    (h : ∀ (s : State) rest pc, exec (run head) (s.moved (operand ++ rest) (pc + 1) pc) =
      exec a (s.moved rest (pc + (head :: operand).length) pc)) :
    Implements (head :: operand) a := by
  have hcopies := hspared
  simp only [special, List.mem_cons, not_or] at hcopies
  exact ⟨head, operand, rfl, hspared, fun s => does_of_primary
    (fun _ _ => primary?_core hd rfl hcode hcopies.1 hcopies.2.1 rfl) (h s)⟩

-- What is executed at an instruction is its action, and then its corrections.
theorem Does.exec_of_executes (h : Does s head operand a)
    (hc : s.cursor = .fresh (head :: operand ++ rest) pc) (he : core.Executes s t) :
    exec (a >>= fun _ => corrections head) (s.moved rest (pc + (head :: operand).length) pc) =
      (.ok ⟨⟩, t) := by
  obtain ⟨-, code, u, hu, ht⟩ := he
  have hrem : s.cursor.remaining = head :: (operand ++ rest) := by
    rw [hc, Cursor.remaining_fresh]
    rfl
  rw [exec_nextInstruction_of_cons hrem] at hu
  obtain ⟨hcode, rfl⟩ := Prod.mk.inj hu
  rw [← Except.ok.inj hcode, State.fetch_eq hc] at ht
  exact (h rest pc).symm.trans ht

theorem Implements.exec_of_executes {code : Bytes} (h : Implements code a)
    (hc : s.cursor = .fresh (code ++ rest) pc) (he : core.Executes s t) :
    ∃ head operand u, code = head :: operand ∧
      exec a (s.moved rest (pc + code.length) pc) = (.ok ⟨⟩, u) ∧
      exec (corrections head) u = (.ok ⟨⟩, t) := by
  obtain ⟨head, operand, rfl, -, hdoes⟩ := h
  obtain ⟨⟨⟩, u, ha, hcorrections⟩ := exec_bind_eq_ok.1 ((hdoes s).exec_of_executes hc he)
  exact ⟨head, operand, u, rfl, ha, hcorrections⟩

-- The codes that something may be corrected after.
def corrected : List Opcode :=
  (Instruction.rules.filter fun d => d.stage = .corrective).flatMap (·.codes)

theorem exec_corrections_of_not_mem (h : head ∉ corrected) (s : State) :
    exec (corrections head) s = (.ok ⟨⟩, s) := by
  apply exec_runAll_of_spared
  intro rule hrule
  obtain ⟨d, hd, -, hstage, hcode⟩ := mem_core hrule
  have hmem : d ∈ Instruction.rules.filter fun d => d.stage = .corrective :=
    List.mem_filter.2 ⟨hd, by simpa using hstage⟩
  exact absurd (List.mem_flatMap.2 ⟨d, hmem, hcode⟩) h

theorem Implements.exec_of_not_mem {code : Bytes} (h : Implements code a)
    (hc : s.cursor = .fresh (code ++ rest) pc) (he : core.Executes s t)
    (hcode : code.headD Opcode.nop ∉ corrected) :
    exec a (s.moved rest (pc + code.length) pc) = (.ok ⟨⟩, t) := by
  obtain ⟨head, operand, u, rfl, ha, hcorrections⟩ := h.exec_of_executes hc he
  have hstay := exec_corrections_of_not_mem hcode u
  obtain ⟨-, rfl⟩ := Prod.mk.inj (hstay.symm.trans hcorrections)
  exact ha

-- A copy of anything but a new array is one.
theorem does_dup (h : ¬s.topIs .newArray) :
    Does s Opcode.dup [] (Shuffle.rearrange [⟨[1], [0, 0]⟩] Opcode.dup) :=
  does_of_primary (fun _ _ => primary?_dup_of_not_newArray h) fun _ _ => rfl

theorem primary?_pop_of_not_cast (h : ¬s.topIs .cast) :
    core.primary? s Opcode.pop = some (on [Opcode.pop] Shuffle.discardOne).rule := by
  have hrules : core.rules .primary Opcode.pop =
      [(override [Opcode.pop] (·.topIs .cast) fun _ => Object.discardCast).rule,
        (on [Opcode.pop] Shuffle.discardOne).rule] := rfl
  rw [primary?, hrules, List.find?_cons_of_neg]
  · rfl
  · exact h

-- What is discarded is reduced unless it is a cast.
theorem does_pop (h : ¬s.topIs .cast) : Does s Opcode.pop [] (Shuffle.discardOne Opcode.pop) :=
  does_of_primary (fun _ _ => primary?_pop_of_not_cast h) fun _ _ => rfl

end Registry

namespace Fragment

open Instruction Declaration Opcode Registry

theorem Pushes.implements {a : Action Unit} {code : Bytes} (h : Pushes a code) :
    Implements code a := by
  cases h with
  | null =>
    have hd : on [aconstNull] (fun _ => Action.push .null) ∈ Literal.rules := by
      simp only [Literal.rules, List.mem_cons, true_or, or_true]
    exact implements_of_mem_rules (mem_rules_literal hd) (List.mem_singleton_self _) (by decide)
      fun _ _ _ => rfl
  | int hcode =>
    have hd : on (range iconstM1 iconst5) (fun code =>
        Action.push (.int (.ofInt (code.toNat - iconst0.toNat)))) ∈ Literal.rules := by
      simp only [Literal.rules, List.mem_cons, true_or, or_true]
    exact implements_of_mem_rules (mem_rules_literal hd) hcode
      (not_mem_special_of_mem_range hcode rfl) fun _ _ _ => rfl
  | long hcode =>
    have hd : on (range lconst0 lconst1) (fun code =>
        Action.push (.long (.ofInt (code.toNat - lconst0.toNat)))) ∈ Literal.rules := by
      simp only [Literal.rules, List.mem_cons, true_or, or_true]
    exact implements_of_mem_rules (mem_rules_literal hd) hcode
      (not_mem_special_of_mem_range hcode rfl) fun _ _ _ => rfl
  | float hcode =>
    have hd : on (range fconst0 fconst2) (fun code => Action.push
        (.float (Literal.singles.getD (code.toNat - fconst0.toNat) ⟨0⟩))) ∈ Literal.rules := by
      simp only [Literal.rules, List.mem_cons, true_or, or_true]
    exact implements_of_mem_rules (mem_rules_literal hd) hcode
      (not_mem_special_of_mem_range hcode rfl) fun _ _ _ => rfl
  | double hcode =>
    have hd : on (range dconst0 dconst1) (fun code => Action.push
        (.double (Literal.doubles.getD (code.toNat - dconst0.toNat) ⟨0⟩))) ∈ Literal.rules := by
      simp only [Literal.rules, List.mem_cons, true_or, or_true]
    exact implements_of_mem_rules (mem_rules_literal hd) hcode
      (not_mem_special_of_mem_range hcode rfl) fun _ _ _ => rfl
  | byte value =>
    have hd : on [bipush] (fun _ => do
        Action.push (.int (← Action.read Reading.i8).toInt32)) ∈ Literal.rules := by
      simp only [Literal.rules, List.mem_cons, true_or, or_true]
    exact implements_of_mem_rules (mem_rules_literal hd) (List.mem_singleton_self _) (by decide)
      fun _ _ _ => Action.exec_bind_read (Reading.exec_i8_fresh ..)
  | short value =>
    have hd : on [sipush] (fun _ => do
        Action.push (.int (← Action.read Reading.i16).toInt32)) ∈ Literal.rules := by
      simp only [Literal.rules, List.mem_cons, true_or, or_true]
    exact implements_of_mem_rules (mem_rules_literal hd) (List.mem_singleton_self _) (by decide)
      fun _ _ _ => Action.exec_bind_read (Reading.exec_i16_fresh ..)
  | pool index =>
    have hd : on [ldc] (fun _ => do
        Literal.loadConstant (← Action.read Reading.u8).toUInt16 1) ∈ Literal.rules := by
      simp only [Literal.rules, List.mem_cons, true_or, or_true]
    exact implements_of_mem_rules (mem_rules_literal hd) (List.mem_singleton_self _) (by decide)
      fun _ _ _ => Action.exec_bind_read (Reading.exec_u8_fresh ..)
  | poolWide index =>
    have hd : on [ldcW] (fun _ => do
        Literal.loadConstant (← Action.read Reading.u16) 1) ∈ Literal.rules := by
      simp only [Literal.rules, List.mem_cons, true_or, or_true]
    exact implements_of_mem_rules (mem_rules_literal hd) (List.mem_singleton_self _) (by decide)
      fun _ _ _ => Action.exec_bind_read (Reading.exec_u16_fresh ..)
  | poolDouble index =>
    have hd : on [ldc2W] (fun _ => do
        Literal.loadConstant (← Action.read Reading.u16) 2) ∈ Literal.rules := by
      simp only [Literal.rules, List.mem_cons, true_or, or_true]
    exact implements_of_mem_rules (mem_rules_literal hd) (List.mem_singleton_self _) (by decide)
      fun _ _ _ => Action.exec_bind_read (Reading.exec_u16_fresh ..)

-- A constant of a method is pushed by an instruction of its own.
theorem Constants.exists_pushes {m : Method} {e : Element} {code : Bytes}
    (h : Constants m e code) :
    ∃ a, Pushes a code ∧ ∀ s : State, s.method = m → exec a s = (.ok ⟨⟩, s.push e) := by
  have hloaded {index : UInt16} {value : Loadable} {category : Nat}
      (hload : m.pool.loadable index = .ok value) (he : value.expression? = some e)
      (hcategory : value.category = category) (s : State) (hm : s.method = m) :
      exec (Literal.loadConstant index category) s = (.ok ⟨⟩, s.push e) := by
    subst hcategory
    exact Literal.exec_loadConstant (hm ▸ hload) he
  cases h with
  | null => exact ⟨_, .null, fun _ _ => rfl⟩
  | int hcode => exact ⟨_, .int hcode, fun _ _ => rfl⟩
  | long hcode => exact ⟨_, .long hcode, fun _ _ => rfl⟩
  | byte value => exact ⟨_, .byte value, fun _ _ => rfl⟩
  | short value => exact ⟨_, .short value, fun _ _ => rfl⟩
  | pool hload he hcategory => exact ⟨_, .pool _, hloaded hload he hcategory⟩
  | poolWide hload he hcategory => exact ⟨_, .poolWide _, hloaded hload he hcategory⟩
  | poolDouble hload he hcategory => exact ⟨_, .poolDouble _, hloaded hload he hcategory⟩

theorem mem_rules_wide : on [Opcode.wide] (fun _ => Local.wide) ∈ Local.rules := by
  simp only [Local.rules, List.mem_cons, true_or, or_true]

theorem Loads.implements {slot : UInt16} {code : Bytes} (h : Loads slot code) :
    Implements code (Local.load slot) := by
  cases h with
  | short hcode =>
    have hd : on shortLoads (fun code => Local.load ((code - iload0) % 4).toUInt16) ∈
        Local.rules := by
      simp only [Local.rules, List.mem_cons, true_or, or_true]
    exact implements_of_mem_rules (mem_rules_local hd) hcode
      (not_mem_special_of_mem_range hcode rfl) fun _ _ _ => rfl
  | plain hcode slot =>
    have hd : on (range iload aload) (fun _ => do
        Local.load (← Action.read Reading.u8).toUInt16) ∈ Local.rules := by
      simp only [Local.rules, List.mem_cons, true_or]
    exact implements_of_mem_rules (mem_rules_local hd) hcode
      (not_mem_special_of_mem_range hcode rfl) fun _ _ _ =>
        Action.exec_bind_read (Reading.exec_u8_fresh ..)
  | wide hcode =>
    refine implements_of_mem_rules (mem_rules_local mem_rules_wide) (List.mem_singleton_self _)
      (by decide) fun _ _ _ => ?_
    refine (Action.exec_bind_read (Reading.exec_instruction_fresh ..)).trans ?_
    refine (Action.exec_bind_read (Reading.exec_u16_fresh ..)).trans ?_
    rw [if_pos hcode]
    rfl

theorem Stores.implements {slot : UInt16} {code : Bytes} (h : Stores slot code) :
    Implements code (Local.store slot) := by
  cases h with
  | short hcode =>
    have hd : on shortStores (fun code => Local.store ((code - istore0) % 4).toUInt16) ∈
        Local.rules := by
      simp only [Local.rules, List.mem_cons, true_or, or_true]
    exact implements_of_mem_rules (mem_rules_local hd) hcode
      (not_mem_special_of_mem_range hcode rfl) fun _ _ _ => rfl
  | plain hcode slot =>
    have hd : on (range istore astore) (fun _ => do
        Local.store (← Action.read Reading.u8).toUInt16) ∈ Local.rules := by
      simp only [Local.rules, List.mem_cons, true_or, or_true]
    exact implements_of_mem_rules (mem_rules_local hd) hcode
      (not_mem_special_of_mem_range hcode rfl) fun _ _ _ =>
        Action.exec_bind_read (Reading.exec_u8_fresh ..)
  | @wide code hcode =>
    have hload : code ∉ range iload aload := by
      intro hload
      have hle := UInt8.le_trans (mem_range.1 hcode).1 (mem_range.1 hload).2
      exact absurd hle (by decide)
    refine implements_of_mem_rules (mem_rules_local mem_rules_wide) (List.mem_singleton_self _)
      (by decide) fun _ _ _ => ?_
    refine (Action.exec_bind_read (Reading.exec_instruction_fresh ..)).trans ?_
    refine (Action.exec_bind_read (Reading.exec_u16_fresh ..)).trans ?_
    rw [if_neg hload, if_pos hcode]
    rfl

-- The core executes an instruction as its action.
theorem Acts.implements {a : Action Unit} {code : Bytes} (h : Acts a code) :
    Implements code a := by
  cases h with
  | push h => exact h.implements
  | load h => exact h.implements
  | store h => exact h.implements
  | increment slot delta =>
    have hd : on [iinc] (fun _ => do
        let slot ← Action.read Reading.u8
        let delta ← Action.read Reading.i8
        Local.increment slot.toUInt16 delta.toInt32) ∈ Local.rules := by
      simp only [Local.rules, List.mem_cons, true_or, or_true]
    refine implements_of_mem_rules (mem_rules_local hd) (List.mem_singleton_self _) (by decide)
      fun _ _ _ => ?_
    refine (Action.exec_bind_read (Reading.exec_u8_fresh ..)).trans ?_
    exact Action.exec_bind_read (Reading.exec_i8_fresh ..)
  | incrementWide slot delta =>
    have hnot : iinc ∉ range iload aload ∧ iinc ∉ range istore astore := by decide
    refine implements_of_mem_rules (mem_rules_local mem_rules_wide) (List.mem_singleton_self _)
      (by decide) fun s rest pc => ?_
    rw [List.cons_append, List.append_assoc]
    refine (Action.exec_bind_read (Reading.exec_instruction_fresh ..)).trans ?_
    refine (Action.exec_bind_read (Reading.exec_u16_fresh ..)).trans ?_
    rw [if_neg hnot.1, if_neg hnot.2, if_pos rfl]
    exact Action.exec_bind_read (Reading.exec_i16_fresh ..)
  | @binary code op ty hop =>
    have hd : on [code] (fun _ => Arithmetic.binary op ty) ∈ Arithmetic.rules := by
      simp only [Arithmetic.rules, List.mem_append]
      exact .inl (.inl (List.mem_map_of_mem hop))
    have hspared : ∀ d ∈ Arithmetic.binaryOperators, d.1 ∉ special := by decide
    exact implements_of_mem_rules (mem_rules_arithmetic hd) (List.mem_singleton_self _)
      (hspared _ hop) fun _ _ _ => rfl
  | negate hcode =>
    have hd : on (range ineg dneg) (fun _ => Arithmetic.negate) ∈ Arithmetic.rules := by
      simp only [Arithmetic.rules, List.mem_append, List.mem_cons, true_or, or_true]
    exact implements_of_mem_rules (mem_rules_arithmetic hd) hcode
      (not_mem_special_of_mem_range hcode rfl) fun _ _ _ => rfl
  | call index =>
    have hd : on [invokevirtual, invokespecial, invokestatic] (fun code => do
        Call.call (← Action.read Reading.u16) (code = invokestatic)) ∈ Call.rules := by
      simp only [Call.rules, List.mem_cons, true_or]
    exact implements_of_mem_rules (mem_rules_call hd) (by decide) (by decide) fun _ _ _ =>
      Action.exec_bind_read (Reading.exec_u16_fresh ..)
  | discardTwo =>
    have hd : on [pop2] Shuffle.discardTwo ∈ Shuffle.rules := by
      simp only [Shuffle.rules, List.mem_append, List.mem_cons, true_or, or_true]
    exact implements_of_mem_rules (mem_rules_shuffle hd) (List.mem_singleton_self _) (by decide)
      fun _ _ _ => rfl
  | returnValue hcode =>
    have hd : on (range ireturn areturn) Jump.returnValue ∈ Jump.rules := by
      simp only [Jump.rules, List.mem_cons, true_or, or_true]
    exact implements_of_mem_rules (mem_rules_jump hd) hcode
      (not_mem_special_of_mem_range hcode rfl) fun _ _ _ => rfl

end Fragment

end JvmLift
