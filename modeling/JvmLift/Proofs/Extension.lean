import JvmLift.Proofs.Execution

namespace JvmLift

namespace Instruction.Array

-- Whether a code pushes a constant that can be an index.
def isIndexCode (code : Opcode) : Bool :=
  code ∈ Opcode.range Opcode.iconst0 Opcode.iconst5 ||
    code = Opcode.bipush || code = Opcode.sipush

-- What is left to do for the copy of a new array.
def copyUnless (indexed : Bool) : Action Unit :=
  if indexed then pure ⟨⟩ else Action.peek >>= Action.push

theorem composed_copyUnless (indexed : Bool) : Action.Composed False (copyUnless indexed) := by
  cases indexed with
  | false => exact Action.Composed.peek.bind fun _ => .push _
  | true => exact .pure _

theorem exec_copy (s : State) :
    exec (copy.rule.run Opcode.dup) s =
      exec (copyUnless ((exec Reading.peekInstruction s.cursor).1.toOption.any isIndexCode))
        { s with cursor := (exec Reading.peekInstruction s.cursor).2 } := by
  have hrun : copy.rule.run Opcode.dup = indexFollows >>= copyUnless := rfl
  rw [hrun, indexFollows, exec_bind, exec_bind, Action.Composed.exec_followingCode?]
  rfl

-- A copy that is made of the top is of the same kind.
theorem topIs_of_copyUnless {s t : State} (h : exec (copyUnless false) s = (.ok ⟨⟩, t))
    {kind : Kind} (hs : s.topIs kind) : t.topIs kind ∧ t.cursor = s.cursor := by
  obtain ⟨top, rest, hstack, hk⟩ := State.topIs_iff.1 hs
  have hpeek : exec Action.peek s = (.ok top.element, s) := by
    simp [Action.peek, exec_bind, State.peekAt?, hstack]
  have hcopy : copyUnless false = Action.peek >>= Action.push := rfl
  rw [hcopy, exec_bind_of_ok hpeek] at h
  obtain ⟨-, rfl⟩ := Prod.mk.inj h
  have hst : (s.stamp top.element).kind = top.element.kind := by
    unfold State.stamp
    split <;> rfl
  exact ⟨State.topIs_iff.2 ⟨_, _, rfl, hst.trans hk⟩, rfl⟩

-- The copy of a new array is the one action that sees where the code ends. It then leaves an
-- array on the stack, and nothing follows it.
theorem copy_extend {s t : State} (tail : List Delivery) (hp : s.cursor.peeked = 0)
    (hs : s.topIs .newArray) (h : exec (copy.rule.run Opcode.dup) s = (.ok ⟨⟩, t)) :
    exec (copy.rule.run Opcode.dup) (s.extend tail) = (.ok ⟨⟩, t.extend tail) ∨
      t.cursor.remaining = [] ∧ t.topIs .newArray := by
  have hx : (s.extend tail).cursor = s.cursor.extend tail := rfl
  rw [exec_copy, Reading.exec_peekInstruction] at h
  rw [exec_copy, hx, Reading.exec_peekInstruction]
  by_cases hnil : s.cursor.remaining.length < s.cursor.peeked + 1
  · rw [Reading.exec_peek, if_pos hnil] at h
    have hrem : s.cursor.remaining = [] := by
      rw [hp] at hnil
      exact List.eq_nil_of_length_eq_zero (by omega)
    obtain ⟨htop, hcur⟩ := topIs_of_copyUnless h hs
    exact .inr ⟨hcur ▸ (Cursor.remaining_filled _ _).trans hrem, htop⟩
  · rcases Reading.peek_extend s.cursor tail 1 with ⟨f, he, -⟩ | he
    · rw [Reading.exec_peek, if_neg hnil] at he
      cases he
    · rcases (composed_copyUnless _).extend _ tail with ⟨f, hf, -⟩ | hext
      · rw [h] at hf
        cases hf
      · rw [h] at hext
        rw [he]
        exact .inl hext

end Instruction.Array

namespace Registry

variable {s t : State} {stop : Nat}

theorem primary?_dup_of_newArray (h : s.topIs .newArray) :
    core.primary? s Opcode.dup = some Instruction.Array.copy.rule := by
  have hrules : core.rules .primary Opcode.dup = [Instruction.Array.copy.rule,
      (Declaration.on [Opcode.dup] (Instruction.Shuffle.rearrange [⟨[1], [0, 0]⟩])).rule] := rfl
  rw [primary?, hrules, List.find?_cons_of_pos]
  exact h

theorem primary?_dup_of_not_newArray (h : ¬s.topIs .newArray) :
    core.primary? s Opcode.dup =
      some (Declaration.on [Opcode.dup] (Instruction.Shuffle.rearrange [⟨[1], [0, 0]⟩])).rule := by
  have hrules : core.rules .primary Opcode.dup = [Instruction.Array.copy.rule,
      (Declaration.on [Opcode.dup] (Instruction.Shuffle.rearrange [⟨[1], [0, 0]⟩])).rule] := rfl
  rw [primary?, hrules, List.find?_cons_of_neg]
  · rfl
  · exact h

-- Apart from the copy of a new array, an instruction is an action that does not look ahead.
theorem step_core_blind (code : Opcode) (h : ¬(code = Opcode.dup ∧ s.topIs .newArray)) :
    ∃ a : Action Unit, Action.Composed False a ∧
      ∀ c, exec (core.step code) { s with cursor := c } = exec a { s with cursor := c } := by
  by_cases hcode : code = Opcode.dup
  · subst hcode
    have htop : ¬s.topIs .newArray := fun htop => h ⟨rfl, htop⟩
    refine ⟨_, ((Instruction.Shuffle.composed_rearrange [⟨[1], [0, 0]⟩] Opcode.dup).bind
      fun _ => composed_runAll Opcode.dup (List.forall_mem_nil _)), fun c => ?_⟩
    have hc : ¬({ s with cursor := c } : State).topIs .newArray := htop
    rw [exec_step_core (primary?_dup_of_not_newArray hc)]
    rfl
  · exact ⟨core.step code, composed_step core code fun stage => composed_core_of_ne hcode stage,
      fun _ => rfl⟩

theorem fetch_extend (tail : List Delivery) {code : Opcode} {rest : Bytes}
    (h : s.cursor.remaining = code :: rest) : (s.extend tail).fetch = s.fetch.extend tail := by
  have hlen : 1 ≤ s.cursor.remaining.length := by
    rw [h, List.length_cons]
    omega
  have ha := Cursor.advance_extend s.cursor tail hlen
  have hx : (s.extend tail).fetch =
      { s with cursor := (s.cursor.extend tail).advance 1, instructionPc := s.pc } := rfl
  rw [hx, ha]
  rfl

theorem remaining_extend_of_cons (tail : List Delivery) {code : Opcode} {rest : Bytes}
    (h : s.cursor.remaining = code :: rest) :
    (s.extend tail).cursor.remaining = code :: (rest ++ Source.bytes ⟨tail, none⟩) := by
  have hx : (s.extend tail).cursor = s.cursor.extend tail := rfl
  rw [hx, Cursor.remaining_extend, h, List.cons_append]

-- Nothing corrects the copy of a new array.
theorem exec_step_copy (h : s.topIs .newArray) :
    exec (core.step Opcode.dup) s = exec (Instruction.Array.copy.rule.run Opcode.dup) s := by
  have hlast : core.rules .corrective Opcode.dup = [] := rfl
  rw [exec_step_core (primary?_dup_of_newArray h), hlast, exec_bind]
  rcases exec (Instruction.Array.copy.rule.run Opcode.dup) s with ⟨_ | ⟨⟨⟩⟩, _⟩ <;> rfl

-- An instruction does the same in code that goes on, except for a copy at the end.
theorem Executes.extend (h : core.Executes s t) (hc : s.cursor.EndsAt stop)
    (tail : List Delivery) :
    core.Executes (s.extend tail) (t.extend tail) ∨
      t.cursor.remaining = [] ∧ t.topIs .newArray := by
  obtain ⟨code, rest, hcons, ht⟩ := h.fetched hc
  have hfetch := fetch_extend tail hcons
  have hrem := remaining_extend_of_cons tail hcons
  by_cases hcode : code = Opcode.dup ∧ s.fetch.topIs .newArray
  · obtain ⟨rfl, htop⟩ := hcode
    rw [exec_step_copy htop] at ht
    rcases Instruction.Array.copy_extend tail rfl htop ht with he | he
    · refine .inl (executes_of_cons h.1 hrem ?_)
      rw [hfetch, exec_step_copy (s := s.fetch.extend tail) htop]
      exact he
    · exact .inr he
  · obtain ⟨a, ha, heq⟩ := step_core_blind code hcode
    have hs : exec a s.fetch = (.ok ⟨⟩, t) := (heq s.fetch.cursor).symm.trans ht
    rcases ha.extend s.fetch tail with ⟨f, hf, -⟩ | he
    · rw [hs] at hf
      cases hf
    · refine .inl (executes_of_cons h.1 hrem ?_)
      rw [hs] at he
      rw [hfetch]
      exact (heq _).trans he

-- A run does the same in code that goes on if it does not end at the copy of a new array.
theorem Runs.extend (h : core.Runs s t) (hc : s.cursor.EndsAt stop)
    (ht : ¬(t.cursor.remaining = [] ∧ t.topIs .newArray)) (tail : List Delivery) :
    core.Runs (s.extend tail) (t.extend tail) := by
  induction h using Relation.ReflTransGen.head_induction_on with
  | refl => exact .refl
  | @head s u he hr ih =>
    obtain ⟨-, hend⟩ := he.advances hc
    rcases he.extend hc tail with hx | ⟨hnil, htop⟩
    · exact .head hx (ih hend)
    · rcases hr.cases_head with rfl | ⟨v, hv, -⟩
      · exact absurd ⟨hnil, htop⟩ ht
      · obtain ⟨code, rest, hcons, -⟩ := hv.fetched hend
        rw [hnil] at hcons
        cases hcons

end Registry

end JvmLift
