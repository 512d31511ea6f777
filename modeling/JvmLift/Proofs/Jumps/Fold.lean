import JvmLift.Proofs.Corrections
import JvmLift.Proofs.Jumps.Runs

namespace JvmLift

namespace Element.Jumps

variable {code : Bytes} {e : Element}

theorem exists_target? (h : e.kind = .jump ∨ e.kind = .branch) :
    ∃ target, e.target? = some target := by
  obtain ⟨shape, stamp⟩ := e
  cases shape with
  | jump target | branch left op right target => exact ⟨target, rfl⟩
  | _ => simp [Element.kind, Shape.kind] at h

-- The targets of a jump are those of the instruction at its position.
theorem exists_origin (hj : e.Jumps code) (h : e.kind = .jump ∨ e.kind = .branch) :
    ∃ pc, e.stamp.pc = some pc ∧ ∀ target : Nat,
      e.target? = some target ↔ Opcode.jumpAt? code pc = some (e.kind, (target : Int)) := by
  obtain ⟨target, ht⟩ := exists_target? h
  obtain ⟨pc, hpc, hat⟩ := hj.leads target ht
  refine ⟨pc, hpc, fun other => ?_⟩
  simp only [ht, hat, Option.some.injEq, Prod.mk.injEq, true_and]
  omega

-- A branch has a condition for the way on which it is not taken.
theorem exists_untaken (hj : e.Jumps code) (h : e.kind = .branch) :
    ∃ condition, e.untaken = .ok condition := by
  obtain ⟨shape, stamp⟩ := e
  cases shape with
  | branch left op right target =>
    obtain ⟨inverse, hinverse⟩ := Option.isSome_iff_exists.1 (hj.compares left op right target rfl)
    simp only [Element.untaken, hinverse]
    split
    · exact ⟨_, rfl⟩
    · split <;> exact ⟨_, rfl⟩
  | _ => cases h

end Element.Jumps

namespace State

-- A constant one is on top of the stack, and the last two statements are a branch and a jump.
structure Chooses (s : State) (one : Entry) (below : List Entry) (branch jump : Entry)
    (earlier : List Entry) : Prop where
  stack : s.stack = one :: below
  one : one.element.isInt 1
  statements : s.statements = jump :: branch :: earlier
  branch : branch.element.kind = .branch
  jump : jump.element.kind = .jump

-- The state behind a constant zero that a condition has taken the place of, together with the
-- constant below it and with the last two statements.
def folded (s : State) (below earlier : List Entry) (condition : Element) : State :=
  ({ s.fetch with stack := below, statements := earlier, version := s.version + 1 }).push condition

variable {s : State} {one branch jump : Entry} {below earlier : List Entry}

-- The constant zero that is pushed is one of the two constants that are asked for.
theorem choosesBit_push : Instruction.Boolean.choosesBit (s.fetch.push (.int 0)) =
    ((s.peekAt? 0).any (·.isInt 1) && (s.lastStatement? 0).any (·.kind = .jump) &&
      (s.lastStatement? 1).any (·.kind = .branch)) :=
  rfl

theorem choosesBit_push_iff : Instruction.Boolean.choosesBit (s.fetch.push (.int 0)) ↔
    ∃ one below branch jump earlier, s.Chooses one below branch jump earlier := by
  rw [choosesBit_push]
  constructor
  · intro h
    simp only [Bool.and_eq_true, Option.any_eq_true, decide_eq_true_eq] at h
    obtain ⟨⟨⟨e, he, hone⟩, f, hf, hjump⟩, g, hg, hbranch⟩ := h
    obtain ⟨one, hone', rfl⟩ := Option.map_eq_some_iff.1 he
    obtain ⟨jump, hjump', rfl⟩ := Option.map_eq_some_iff.1 hf
    obtain ⟨branch, hbranch', rfl⟩ := Option.map_eq_some_iff.1 hg
    cases hs : s.stack with
    | nil => simp [hs] at hone'
    | cons top below =>
      rw [hs] at hone'
      obtain rfl := Option.some.inj hone'
      rcases hst : s.statements with _ | ⟨last, _ | ⟨previous, earlier⟩⟩
      · simp [hst] at hjump'
      · simp [hst] at hbranch'
      · rw [hst] at hjump' hbranch'
        obtain rfl := Option.some.inj hjump'
        obtain rfl := Option.some.inj hbranch'
        exact ⟨top, below, previous, last, earlier, hs, hone, hst, hbranch, hjump⟩
  · rintro ⟨one, below, branch, jump, earlier, hs, hone, hst, hbranch, hjump⟩
    simp [peekAt?, lastStatement?, hs, hst, hone, hbranch, hjump]

end State

namespace Registry

open Instruction Declaration

variable {s : State} {one branch jump : Entry} {below earlier : List Entry}

-- A zero is pushed, and then it is asked whether it is one of two constants to choose from.
theorem exec_step_iconst0 (s : State) :
    exec (core.step Opcode.iconst0) s =
      exec (runAll Opcode.iconst0 [(after [Opcode.iconst0] .normal Boolean.choosesBit
        Boolean.foldBit).rule]) (s.push (.int 0)) := by
  have hp : core.primary? s Opcode.iconst0 = some (on (Opcode.range Opcode.iconstM1 Opcode.iconst5)
      fun code => Action.push (.int (.ofInt (code.toNat - Opcode.iconst0.toNat)))).rule := rfl
  have hrules : core.rules .corrective Opcode.iconst0 =
      [(after [Opcode.iconst0] .normal Boolean.choosesBit Boolean.foldBit).rule] := rfl
  rw [exec_step_core hp, hrules]
  rfl

theorem exec_step_iconst0_of_not_chooses
    (h : ¬∃ one below branch jump earlier, s.Chooses one below branch jump earlier) :
    exec (core.step Opcode.iconst0) s.fetch = (.ok ⟨⟩, s.fetch.push (.int 0)) := by
  rw [exec_step_iconst0]
  apply exec_runAll_of_spared
  intro rule hrule
  rw [List.mem_singleton.1 hrule]
  exact Bool.eq_false_iff.2 fun hchooses => h (State.choosesBit_push_iff.1 hchooses)

-- The two constants and the two statements are taken away, and the condition is put on the stack.
theorem exec_foldBit (h : s.Chooses one below branch jump earlier) {condition : Element}
    (hu : branch.element.untaken = .ok condition) :
    exec Boolean.foldBit (s.fetch.push (.int 0)) = (.ok ⟨⟩, s.folded below earlier condition) := by
  let pushed := s.fetch.push (.int 0)
  let popped := (pushed.leaving s.stack).leaving below
  have hzero : exec (discard Action.pop) pushed = (.ok ⟨⟩, pushed.leaving s.stack) :=
    Action.exec_discard_pop_of_cons rfl
  have hone : exec (discard Action.pop) (pushed.leaving s.stack) = (.ok ⟨⟩, popped) :=
    Action.exec_discard_pop_of_cons h.stack
  have hjump : exec (discard Action.removeLastStatement) popped =
      (.ok ⟨⟩, { popped with statements := branch :: earlier }) := by
    rw [exec_discard, @Action.exec_removeLastStatement_of_cons popped _ _ h.statements]
    rfl
  rw [Boolean.foldBit, exec_bind_of_ok hzero, exec_bind_of_ok hone, exec_bind_of_ok hjump,
    exec_bind_of_ok (Action.exec_removeLastStatement_of_cons rfl), hu]
  rfl

theorem exec_step_iconst0_of_chooses (h : s.Chooses one below branch jump earlier)
    {condition : Element} (hu : branch.element.untaken = .ok condition) :
    exec (core.step Opcode.iconst0) s.fetch = (.ok ⟨⟩, s.folded below earlier condition) := by
  rw [exec_step_iconst0]
  apply exec_runAll_singleton_of_applies
  · exact State.choosesBit_push_iff.2 ⟨one, below, branch, jump, earlier, h⟩
  · exact exec_foldBit h hu

-- Where a run comes to a constant zero, a condition takes the place of it and of the constant below
-- it exactly if that one is a one and the last two statements are a branch and a jump. These two
-- are taken away wherever they lead. They lead to the zero and behind it exactly if the
-- instructions at their positions do, which nothing makes sure of. In every other state the zero
-- is pushed and nothing else is changed.
theorem executes_iconst0 (m : Method) (code : Bytes) (start : Nat)
    (hruns : core.Runs (.start m (.behind code start)) s) (ha : s.aborted = false)
    (hcode : code[s.pc]? = some Opcode.iconst0) :
    ((¬∃ one below branch jump earlier, s.Chooses one below branch jump earlier) →
      core.Executes s (s.fetch.push (.int 0))) ∧
    ∀ one below branch jump earlier, s.Chooses one below branch jump earlier →
      ∃ condition p q, branch.element.untaken = .ok condition ∧
        core.Executes s (s.folded below earlier condition) ∧
        branch.element.stamp.pc = some p ∧ jump.element.stamp.pc = some q ∧
        (branch.element.target? = some s.pc ∧ jump.element.target? = some (s.pc + 1) ↔
          Opcode.jumpAt? code p = some (.branch, (s.pc : Int)) ∧
            Opcode.jumpAt? code q = some (.jump, (s.pc + 1 : Int))) := by
  obtain ⟨hlanding, hreads⟩ := Runs.landing hruns
  have hcons : s.cursor.remaining = Opcode.iconst0 :: code.drop (s.pc + 1) := by
    obtain ⟨hlt, hget⟩ := List.getElem?_eq_some_iff.1 hcode
    rw [hreads.remaining, List.drop_eq_getElem_cons hlt, hget]
  constructor
  · intro h
    exact executes_of_cons ha hcons (exec_step_iconst0_of_not_chooses h)
  · intro one below branch jump earlier h
    obtain ⟨hjump, hrest⟩ := List.forall_mem_cons.1 (h.statements ▸ hlanding.statements)
    have hbranch := hrest branch (List.mem_cons_self ..)
    obtain ⟨condition, hu⟩ := hbranch.exists_untaken h.branch
    obtain ⟨p, hp, hleft⟩ := hbranch.exists_origin (.inr h.branch)
    obtain ⟨q, hq, hright⟩ := hjump.exists_origin (.inl h.jump)
    refine ⟨condition, p, q, hu, ?_, hp, hq, ?_⟩
    · exact executes_of_cons ha hcons (exec_step_iconst0_of_chooses h hu)
    · rw [hleft, hright, h.branch, h.jump]
      rfl

-- A method that stores whether its parameter is positive.
def storesComparison : Method :=
  { className := "A", name := "m", descriptor := "(I)V", signature := ⟨[.int], .void⟩
    code := [Opcode.iload0, Opcode.ifle, 0, 7, Opcode.iconst0 + 1, Opcode.goto, 0, 4,
      Opcode.iconst0, Opcode.istore0 + 1, Opcode.returnVoid]
    locals := [⟨"x", .int, 0, 0, 11⟩, ⟨"b", .boolean, 1, 10, 1⟩] }

-- The branch leads to the zero and the jump behind it, so the comparison is what is stored.
theorem executes_iconst0_comparison :
    let m := storesComparison
    ∃ s one below branch jump earlier condition,
      core.Runs (.start m (.behind m.code 0)) s ∧ s.aborted = false ∧
      m.code[s.pc]? = some Opcode.iconst0 ∧ s.Chooses one below branch jump earlier ∧
      branch.element.untaken = .ok condition ∧
      core.Executes s (s.folded below earlier condition) ∧
      branch.element.target? = some s.pc ∧ jump.element.target? = some (s.pc + 1) := by
  intro m
  have hwalk : (core.walk? 4 (.start m (.behind m.code 0))).map (fun s => (s.aborted, s.pc,
      s.statements.map (·.element.stamp.pc), Boolean.choosesBit (s.fetch.push (.int 0)))) =
      some (false, 8, [some 5, some 1], true) := by decide +kernel
  obtain ⟨s, hs, hfacts⟩ := Option.map_eq_some_iff.1 hwalk
  simp only [Prod.mk.injEq] at hfacts
  obtain ⟨ha, hpc, hstamps, hbit⟩ := hfacts
  have hcode : m.code[s.pc]? = some Opcode.iconst0 := hpc ▸ rfl
  obtain ⟨one, below, branch, jump, earlier, h⟩ := State.choosesBit_push_iff.1 hbit
  obtain ⟨-, hfold⟩ := executes_iconst0 m m.code 0 (runs_of_walk? hs) ha hcode
  obtain ⟨condition, p, q, hu, he, hp, hq, htargets⟩ := hfold one below branch jump earlier h
  rw [h.statements, List.map_cons, List.map_cons, hp, hq] at hstamps
  simp only [List.cons.injEq, Option.some.injEq] at hstamps
  obtain ⟨rfl, rfl, -⟩ := hstamps
  refine ⟨s, one, below, branch, jump, earlier, condition, runs_of_walk? hs, ha, hcode, h, hu, he,
    htargets.2 ?_⟩
  rw [hpc]
  decide

-- A method that leaves a block unless its parameter is zero, and otherwise passes a one and a zero
-- to another one.
def skipsCall : Method :=
  { className := "A", name := "m", descriptor := "(I)V", signature := ⟨[.int], .void⟩
    code := [Opcode.iload0, Opcode.ifeq, 0, 6, Opcode.goto, 0, 8, Opcode.iconst0 + 1,
      Opcode.iconst0, Opcode.invokestatic, 0, 6, Opcode.returnVoid]
    locals := [⟨"x", .int, 0, 0, 13⟩]
    pool := ⟨#[.utf8 "A", .classRef 1, .utf8 "f", .utf8 "(II)V", .nameAndType 3 4,
      .methodRef 2 5]⟩ }

-- The arguments of the call and the two statements that lead around it become one condition, and
-- the call finds one argument too few.
theorem executes_iconst0_of_skipped_call :
    let m := skipsCall
    ∃ s t, core.Runs (.start m (.behind m.code 0)) s ∧ core.Executes s t ∧
      m.code[s.pc]? = some Opcode.iconst0 ∧ s.pc = 8 ∧
      s.statements.map (·.element.target?) = [some 12, some 7] ∧
      t.statements.length = 0 ∧ t.stack.map (·.element.kind) = [.binary] ∧
      (core.decompile Observer.idle ⟨⟩ m (.behind m.code 0)).result.isOk = false := by
  intro m
  have hwalk : (core.walk? 4 (.start m (.behind m.code 0))).bind (fun s => (core.next? s).map fun t =>
      (s.pc, s.statements.map (·.element.target?), t.statements.length,
        t.stack.map (·.element.kind))) = some (8, [some 12, some 7], 0, [.binary]) := by
    decide +kernel
  obtain ⟨s, hs, hnext⟩ := Option.bind_eq_some_iff.1 hwalk
  obtain ⟨t, ht, hfacts⟩ := Option.map_eq_some_iff.1 hnext
  simp only [Prod.mk.injEq] at hfacts
  obtain ⟨hpc, htargets, hlength, hkinds⟩ := hfacts
  refine ⟨s, t, runs_of_walk? hs, next?_eq_some_iff.1 ht, hpc ▸ rfl, hpc, htargets, hlength, hkinds,
    ?_⟩
  decide +kernel

end Registry

end JvmLift
