import JvmLift.Proofs.Straight

namespace JvmLift

open Instruction Declaration

-- The instructions that discard values, with the categories that each may find on top of the stack,
-- the top first.
def Opcode.discards : List (Opcode × List (List Nat)) :=
  [(pop, [[1]]), (pop2, [[1, 1], [2]])]

namespace Registry

-- The code does not have the shape that an instruction calls for, and no statement comes of it.
def Refuses (r : Registry) (code : Opcode) (s : State) : Prop :=
  ∃ fault t, exec (r.step code) s = (.error fault, t) ∧ fault.kind = .format ∧
    t.statements = s.statements

variable {s : State} {code : Opcode} {categories : List Nat}

theorem hasCategories_eq_false (h : ¬categories <+: s.categories) :
    s.hasCategories categories = false := by
  rw [← Bool.not_eq_true, State.hasCategories, List.isPrefixOf_iff_prefix]
  exact h

theorem exec_require_of_misfit (h : ¬categories <+: s.categories) :
    exec (Shuffle.require categories code) s = (.error (Shuffle.shapeFault s code), s) := by
  rw [Shuffle.require, exec_bind_of_ok (exec_get s), hasCategories_eq_false h]
  rfl

theorem refuses_of_exec_primary {rule : Rule} (hp : core.primary? s code = some rule)
    (h : exec (rule.run code) s = (.error (Shuffle.shapeFault s code), s)) :
    core.Refuses code s := by
  refine ⟨Shuffle.shapeFault s code, s, ?_, rfl, rfl⟩
  rw [exec_step_core hp, exec_bind, h]

theorem refuses_pop (hcast : ¬s.topIs .cast) (h : ¬[1] <+: s.categories) :
    core.Refuses Opcode.pop s := by
  refine refuses_of_exec_primary (primary?_pop_of_not_cast hcast) ?_
  show exec (Shuffle.discardOne Opcode.pop) s = _
  rw [Shuffle.discardOne, exec_bind, exec_require_of_misfit h]

theorem refuses_pop2 (hpair : ¬[1, 1] <+: s.categories) (hwide : ¬[2] <+: s.categories) :
    core.Refuses Opcode.pop2 s := by
  have hp : core.primary? s Opcode.pop2 =
      some (on [Opcode.pop2] Shuffle.discardTwo).rule := rfl
  refine refuses_of_exec_primary hp ?_
  show exec (Shuffle.discardTwo Opcode.pop2) s = _
  rw [Shuffle.discardTwo, exec_bind_of_ok (exec_get s), hasCategories_eq_false hpair,
    if_neg Bool.false_ne_true, exec_bind, exec_require_of_misfit hwide]

theorem primary?_pop_of_cast (h : s.topIs .cast) : core.primary? s Opcode.pop =
    some (override [Opcode.pop] (·.topIs .cast) fun _ => Object.discardCast).rule := by
  have hrules : core.rules .primary Opcode.pop =
      [(override [Opcode.pop] (·.topIs .cast) fun _ => Object.discardCast).rule,
        (on [Opcode.pop] Shuffle.discardOne).rule] := rfl
  rw [primary?, hrules, List.find?_cons_of_pos]
  exact h

-- A cast on top is taken off whatever its type, and a statement is made of what is under it.
theorem exec_step_pop_of_cast {top : Entry} {below : List Entry} {value : Element} {ty : JvmType}
    (hs : s.stack = top :: below) (hcast : top.element.shape = .cast value ty) :
    exec (core.step Opcode.pop) s =
      exec (discard Action.reduce) ((s.leaving below).push value) := by
  have hkind : top.element.kind = .cast := congrArg Shape.kind hcast
  have hp := primary?_pop_of_cast (State.topIs_iff.2 ⟨top, below, hs, hkind⟩)
  have hlast : core.rules .corrective Opcode.pop = [] := rfl
  have hrun : exec Object.discardCast s =
      exec (discard Action.reduce) ((s.leaving below).push value) := by
    rw [Object.discardCast, exec_bind_of_ok (Action.exec_pop_of_cons hs), hcast]
    rfl
  have hdeclared : exec ((override [Opcode.pop] (·.topIs .cast) fun _ =>
      Object.discardCast).rule.run Opcode.pop) s = _ := hrun
  rw [exec_step_core hp, hlast, exec_bind, hdeclared]
  rcases exec (discard Action.reduce) ((s.leaving below).push value) with ⟨_ | ⟨⟨⟩⟩, _⟩ <;> rfl

-- What cannot be reduced is no statement. That is not a matter of its shape.
theorem kind_of_exec_reduce {fault : Fault} {t : State}
    (h : exec (discard Action.reduce) s = (.error fault, t)) : fault.kind = .illegalState := by
  rw [exec_discard, Action.exec_reduce] at h
  cases hs : s.stack with
  | nil => simp [hs, Except.map] at h
  | cons top below =>
    by_cases htop : top.element.isStatement
    · simp [hs, htop, Except.map] at h
    · simp [hs, htop, Except.map] at h
      obtain ⟨rfl, -⟩ := h
      rfl

theorem not_refuses_pop_of_cast (h : s.topIs .cast) : ¬core.Refuses Opcode.pop s := by
  obtain ⟨top, below, hs, hk⟩ := State.topIs_iff.1 h
  obtain ⟨value, ty, hcast⟩ : ∃ value ty, top.element.shape = .cast value ty := by
    obtain ⟨⟨shape, stamp⟩, pc, version⟩ := top
    cases shape with
    | cast value ty => exact ⟨value, ty, rfl⟩
    | _ => cases hk
  rintro ⟨fault, t, hstep, hformat, -⟩
  rw [exec_step_pop_of_cast hs hcast] at hstep
  rw [kind_of_exec_reduce hstep] at hformat
  cases hformat

-- A discard of what has not the right shape is refused for that exactly if it is not the discard of
-- one value of two words under a cast.
theorem refuses_discard_iff {shapes : List (List Nat)} (h : (code, shapes) ∈ Opcode.discards)
    (hshapes : ∀ shape ∈ shapes, ¬shape <+: s.categories) :
    core.Refuses code s ↔ ¬(code = Opcode.pop ∧ s.topIs .cast) := by
  simp only [Opcode.discards, List.mem_cons, Prod.mk.injEq, List.not_mem_nil, or_false] at h
  rcases h with ⟨rfl, rfl⟩ | ⟨rfl, rfl⟩
  · constructor
    · rintro hrefuses ⟨-, hcast⟩
      exact not_refuses_pop_of_cast hcast hrefuses
    · intro hcast
      exact refuses_pop (fun htop => hcast ⟨rfl, htop⟩) (hshapes [1] (List.mem_cons_self ..))
  · refine iff_of_true ?_ fun hpop => absurd hpop.1 (by decide)
    exact refuses_pop2 (hshapes [1, 1] (List.mem_cons_self ..))
      (hshapes [2] (List.mem_cons_of_mem _ (List.mem_cons_self ..)))

-- A method without code.
def emptyMethod : Method :=
  { className := "A", name := "m", descriptor := "()V", signature := ⟨[], .void⟩ }

-- An int over a long. Two words would cut the long in two.
theorem refuses_discard_int_over_long :
    let s := ((State.start emptyMethod (.behind [] 0)).push (.long 0)).push (.int 0)
    s.categories = [1, 2] ∧ core.Refuses Opcode.pop2 s := by
  intro s
  refine ⟨rfl, (refuses_discard_iff (List.mem_cons_of_mem _ (List.mem_cons_self ..)) ?_).2 ?_⟩
  · decide
  · exact fun h => absurd h.1 (by decide)

-- A method that makes a long of the result of a call and discards only one word of it.
def dropsHalf : Method :=
  { className := "A", name := "m", descriptor := "()V", signature := ⟨[], .void⟩
    code := [Opcode.invokestatic, 0, 6, Opcode.i2l, Opcode.pop, Opcode.returnVoid]
    pool := ⟨#[.utf8 "A", .classRef 1, .utf8 "f", .utf8 "()I", .nameAndType 3 4, .methodRef 2 5]⟩ }

-- The discard finds a value of two words and is not refused. The call becomes a statement.
theorem not_refuses_of_wide_cast :
    let m := dropsHalf
    ∃ s t, core.Runs (.start m (.behind m.code 0)) s ∧
      s.cursor.remaining.head? = some Opcode.pop ∧ s.fetch.categories = [2] ∧
      ¬core.Refuses Opcode.pop s.fetch ∧ core.Executes s t ∧ t.statements.length = 1 ∧
      (core.decompile Observer.idle ⟨⟩ m (.behind m.code 0)).result.isOk := by
  intro m
  have hwalk : (core.walk? 2 (.start m (.behind m.code 0))).bind (fun s => (core.next? s).map fun t =>
      (s.cursor.remaining.head?, s.fetch.categories, s.fetch.topIs .cast, t.statements.length)) =
      some (some Opcode.pop, [2], true, 1) := by decide +kernel
  obtain ⟨s, hs, hnext⟩ := Option.bind_eq_some_iff.1 hwalk
  obtain ⟨t, ht, hfacts⟩ := Option.map_eq_some_iff.1 hnext
  simp only [Prod.mk.injEq] at hfacts
  obtain ⟨hhead, hcategories, hcast, hlength⟩ := hfacts
  refine ⟨s, t, runs_of_walk? hs, hhead, hcategories, not_refuses_pop_of_cast hcast,
    next?_eq_some_iff.1 ht, hlength, ?_⟩
  decide +kernel

end Registry

end JvmLift
