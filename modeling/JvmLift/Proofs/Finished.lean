import JvmLift.Proofs.Completion
import JvmLift.Proofs.Tree.Inside

namespace JvmLift

namespace Element

-- An element that no result may have: an object without its constructor call, or an increment
-- that waits for its use.
inductive Unfinished : Element → Prop where
  | allocate (ty : JvmType) (stamp : Stamp) : Unfinished ⟨.allocate ty, stamp⟩
  | increment (v : LocalRef) (delta : Int32) (ty : JvmType) (stamp : Stamp) :
    Unfinished ⟨.increment v delta ty .pending, stamp⟩

theorem isUnfinished_iff {e : Element} : e.isUnfinished ↔ e.Unfinished := by
  constructor
  · intro h
    obtain ⟨shape, stamp⟩ := e
    cases shape with
    | allocate ty => exact .allocate ty stamp
    | increment v delta ty affix =>
      cases affix with
      | pending => exact .increment v delta ty stamp
      | before | after => cases h
    | _ => cases h
  · intro h
    cases h with
    | allocate | increment => rfl

-- Nothing unfinished is stored in an element, however deep.
def Finished (e : Element) : Prop :=
  ∀ x : Element, x.Inside e → ¬x.Unfinished

theorem finished_iff {e : Element} : e.Finished ↔ e.contains isUnfinished = false := by
  rw [← Bool.not_eq_true, contains_iff_inside]
  simp only [Finished, isUnfinished_iff, not_exists, not_and]

end Element

-- Statements are passed exactly if all of them are finished.
theorem verified_eq_ok_iff {statements checked : List Element} :
    verified statements = .ok checked ↔
      checked = statements ∧ ∀ e ∈ statements, e.Finished := by
  have hnone : (statements.find? fun e => e.contains Element.isUnfinished) = none ↔
      ∀ e ∈ statements, e.Finished := by
    simp only [List.find?_eq_none, Bool.not_eq_true, Element.finished_iff]
  rw [← hnone, verified]
  cases hf : statements.find? fun e => e.contains Element.isUnfinished with
  | some e => simp
  | none => simp [eq_comm]

-- What is left on the stack becomes statements, and then all of them are checked.
theorem exec_finish_fst (s : State) :
    (exec finish s).1 = match exec Action.reduceAll s with
      | (.ok _, t) => verified t.result
      | (.error fault, _) => .error fault := by
  rw [finish, exec_bind, exec_discard]
  rcases exec Action.reduceAll s with ⟨fault | reduced, t⟩
  · rfl
  · simp only [Except.map, exec_bind, exec_get, verified]
    cases t.result.find? fun e => e.contains Element.isUnfinished <;> rfl

theorem exec_finish_eq_ok {s : State} {statements : List Element}
    (h : (exec finish s).1 = .ok statements) :
    ∀ e ∈ statements, e.Finished := by
  rw [exec_finish_fst] at h
  rcases hr : exec Action.reduceAll s with ⟨fault | reduced, t⟩
  all_goals rw [hr] at h
  · cases h
  · obtain ⟨rfl, hfinished⟩ := verified_eq_ok_iff.1 h
    exact hfinished

-- Whatever rules are used and whoever watches, a result has nothing unfinished in it.
theorem Registry.decompile_finished {σ : Type} (r : Registry) (observer : Observer σ) (memory : σ)
    (method : Method) (cursor : Cursor) {statements : List Element}
    (h : (r.decompile observer memory method cursor).result = .ok statements) :
    ∀ e ∈ statements, e.Finished := by
  rw [decompile] at h
  rcases hloop : r.runLoop observer (cursor.remaining.length + 1) memory (.start method cursor)
    with ⟨fault | ⟨⟨⟩⟩, memory', s⟩
  all_goals rw [hloop] at h
  · cases h
  · exact exec_finish_eq_ok h

-- An object is made of the old value of a variable that is incremented, and is dropped.
def constructsOldValue : Method :=
  { className := "A", name := "m", descriptor := "()V", signature := ⟨[], .void⟩
    code := [Opcode.new, 0, 2, Opcode.dup, Opcode.iload0, Opcode.iinc, 0, 1,
      Opcode.invokespecial, 0, 6, Opcode.pop, Opcode.returnVoid]
    locals := [⟨"x", .int, 0, 0, 13⟩]
    pool := ⟨#[.utf8 "A", .classRef 1, .utf8 "<init>", .utf8 "(I)V", .nameAndType 3 4,
      .methodRef 2 5]⟩ }

-- The object that was allocated and the increment that was pending come out as finished ones.
theorem decompile_finished_constructed :
    ∃ statements, constructsOldValue.decompile = .ok statements ∧
      statements.map (fun e => e.subterms.map Element.kind) =
        [[.newInstance, .increment], [.ret]] ∧
      ∀ e ∈ statements, e.Finished := by
  have hsome : (constructsOldValue.decompile.toOption.map fun statements =>
      statements.map fun e => e.subterms.map Element.kind) =
        some [[.newInstance, .increment], [.ret]] := by decide +kernel
  obtain ⟨statements, h, hkinds⟩ := exists_eq_ok_of_toOption hsome
  exact ⟨statements, h, hkinds, Registry.decompile_finished _ _ _ _ _ h⟩

end JvmLift
