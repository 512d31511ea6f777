import JvmLift.Proofs.Execution

namespace JvmLift

-- The two bytes of an index or of a wide operand.
def wideBytes (value : UInt16) : Bytes :=
  [(value >>> 8).toUInt8, value.toUInt8]

@[simp]
theorem length_wideBytes (value : UInt16) : (wideBytes value).length = 2 :=
  rfl

theorem ofNat_bigEndian_wideBytes (value : UInt16) :
    UInt16.ofNat (bigEndian (wideBytes value)) = value := by
  apply UInt16.toNat.inj
  have hv := value.toNat_lt
  simp only [wideBytes, bigEndian, List.foldl_cons, List.foldl_nil, UInt16.toNat_ofNat',
    UInt16.toNat_toUInt8, UInt16.toNat_shiftRight]
  have h8 : UInt16.toNat 8 % 16 = 8 := rfl
  rw [h8, Nat.shiftRight_eq_div_pow]
  omega

namespace Cursor

-- The cursor at some bytes that nothing was asked of yet.
def fresh (bytes : Bytes) (pc : Nat) : Cursor :=
  { source := .ofBytes bytes, pc }

@[simp]
theorem remaining_fresh (bytes : Bytes) (pc : Nat) : (fresh bytes pc).remaining = bytes := by
  rw [fresh, remaining, Source.bytes_ofBytes, List.nil_append]

theorem advance_fresh (front rest : Bytes) (pc : Nat) :
    (fresh (front ++ rest) pc).advance front.length = fresh rest (pc + front.length) := by
  have hp := Source.pull_map_byte front.length (front ++ rest)
  rw [List.take_left, List.drop_left] at hp
  have hf : (fresh (front ++ rest) pc).filled front.length =
      { source := .ofBytes rest, buffer := front, pc } := by
    simp only [fresh, filled, Source.ofBytes, List.length_nil, Nat.sub_zero, hp, List.nil_append]
  rw [advance, hf]
  simp only [fresh, List.drop_length]

end Cursor

namespace Reading

theorem exec_next_fresh (front rest : Bytes) (pc : Nat) :
    exec (next front.length) (.fresh (front ++ rest) pc) =
      (.ok front, .fresh rest (pc + front.length)) := by
  have hlen : ¬(Cursor.fresh (front ++ rest) pc).remaining.length < front.length := by
    rw [Cursor.remaining_fresh, List.length_append]
    omega
  rw [exec_next, if_neg hlen, Cursor.remaining_fresh, List.take_left, Cursor.advance_fresh]

variable (rest : Bytes) (pc : Nat)

@[simp]
theorem exec_u8_fresh (b : UInt8) :
    exec u8 (.fresh (b :: rest) pc) = (.ok b, .fresh rest (pc + 1)) := by
  have hn := exec_next_fresh [b] rest pc
  have hb : UInt8.ofNat (bigEndian [b]) = b := by simp [bigEndian]
  rw [exec_u8]
  simp only [List.length_singleton, List.singleton_append] at hn
  simp only [hn, Except.map, hb]

@[simp]
theorem exec_instruction_fresh (code : Opcode) :
    exec instruction (.fresh (code :: rest) pc) = (.ok code, .fresh rest (pc + 1)) :=
  exec_u8_fresh rest pc code

@[simp]
theorem exec_i8_fresh (b : Int8) :
    exec i8 (.fresh (b.toUInt8 :: rest) pc) = (.ok b, .fresh rest (pc + 1)) := by
  rw [i8, exec_bind, exec_u8_fresh]
  rfl

@[simp]
theorem exec_u16_fresh (value : UInt16) :
    exec u16 (.fresh (wideBytes value ++ rest) pc) = (.ok value, .fresh rest (pc + 2)) := by
  have hn := exec_next_fresh (wideBytes value) rest pc
  rw [length_wideBytes] at hn
  rw [u16, exec_bind, hn]
  simp only [exec_pure, ofNat_bigEndian_wideBytes]

@[simp]
theorem exec_i16_fresh (value : Int16) :
    exec i16 (.fresh (wideBytes value.toUInt16 ++ rest) pc) =
      (.ok value, .fresh rest (pc + 2)) := by
  rw [i16, exec_bind, exec_u16_fresh]
  rfl

end Reading

-- The state at other bytes, during the instruction at a position.
def State.moved (s : State) (bytes : Bytes) (pc instructionPc : Nat) : State :=
  { s with cursor := .fresh bytes pc, instructionPc }

theorem State.fetch_eq {s : State} {code : Opcode} {rest : Bytes} {pc : Nat}
    (h : s.cursor = .fresh (code :: rest) pc) : s.fetch = s.moved rest (pc + 1) pc := by
  have hadvance := Cursor.advance_fresh [code] rest pc
  rw [List.length_singleton, List.singleton_append, ← h] at hadvance
  rw [fetch, hadvance, State.pc, h]
  rfl

namespace Registry

theorem sort_singleton (rule : Rule) : Priority.sort Rule.priority [rule] = [rule] := by
  rcases rule with ⟨priority, applies, run⟩
  cases priority <;> rfl

theorem length_declared (ds : List Declaration) (stage : Stage) (code : Opcode) :
    (declared ds stage code).length =
      ((ds.filter fun d => d.stage = stage).flatMap (·.codes)).count code := by
  induction ds with
  | nil => rfl
  | cons d ds ih =>
    rw [declared, List.flatMap_cons, List.length_append]
    by_cases hs : d.stage = stage
    · have hc : (d.codes.filter (· = code)).length = d.codes.count code := by
        rw [List.count_eq_length_filter]
        rfl
      have hf : (d :: ds).filter (fun d => d.stage = stage) =
          d :: ds.filter fun d => d.stage = stage := List.filter_cons_of_pos (decide_eq_true hs)
      rw [if_pos hs, List.length_map, hf, List.flatMap_cons, List.count_append, hc, ← ih, declared]
    · rw [if_neg hs, List.filter_cons_of_neg (by simpa using hs), ← ih, declared]
      exact Nat.zero_add _

-- Apart from the two that are overridden, every instruction has one primary rule at most.
theorem length_declared_primary {code : Opcode} (hdup : code ≠ Opcode.dup)
    (hpop : code ≠ Opcode.pop) : (declared Instruction.rules .primary code).length ≤ 1 := by
  have hnodup : (((Instruction.rules.filter fun d => d.stage = .primary).flatMap
      (·.codes)).filter fun code => code ≠ Opcode.dup && code ≠ Opcode.pop).Nodup := by
    apply List.Nodup.of_map UInt8.toNat
    decide +kernel
  have hcount := List.nodup_iff_count_le_one.1 hnodup code
  rw [List.count_filter (p := fun code => code ≠ Opcode.dup && code ≠ Opcode.pop)
    (by simp [hdup, hpop])] at hcount
  rw [length_declared]
  exact hcount

theorem mem_declared {ds : List Declaration} {d : Declaration} (hd : d ∈ ds) {code : Opcode}
    (hc : code ∈ d.codes) : d.rule ∈ declared ds d.stage code := by
  refine List.mem_flatMap.2 ⟨d, hd, ?_⟩
  rw [if_pos rfl]
  exact List.mem_map.2 ⟨code, List.mem_filter.2 ⟨hc, by simp⟩, rfl⟩

-- An instruction is executed by the rule that is declared for it.
theorem primary?_core {d : Declaration} {code : Opcode} (hd : d ∈ Instruction.rules)
    (hs : d.stage = .primary) (hc : code ∈ d.codes) (hdup : code ≠ Opcode.dup)
    (hpop : code ≠ Opcode.pop) {s : State} (ha : d.rule.applies s code) :
    core.primary? s code = some d.rule := by
  have hlen := length_declared_primary hdup hpop
  have hmem := mem_declared hd hc
  rw [hs] at hmem
  have hone : declared Instruction.rules .primary code = [d.rule] := by
    rcases hl : declared Instruction.rules .primary code with _ | ⟨first, rest⟩
    all_goals rw [hl] at hlen hmem
    · cases hmem
    · obtain rfl : rest = [] := by
        rw [List.length_cons] at hlen
        exact List.eq_nil_of_length_eq_zero (by omega)
      rw [List.mem_singleton.1 hmem]
  have hrules : core.rules .primary code = [d.rule] := by
    show Priority.sort Rule.priority (declared Instruction.rules .primary code) = [d.rule]
    rw [hone, sort_singleton]
  rw [primary?, hrules, List.find?_cons_of_pos]
  exact ha

end Registry

end JvmLift
