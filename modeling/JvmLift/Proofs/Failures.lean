import JvmLift.Proofs.Flushing

namespace JvmLift

namespace Action

variable {α : Type}

-- An action that leaves the state as it was when it fails.
def Atomic (a : Action α) : Prop :=
  ∀ (s : State) (fault : Fault) (t : State), exec a s = (.error fault, t) → t = s

theorem atomic_popEntry : popEntry.Atomic := by
  intro s fault t h
  rw [exec_popEntry] at h
  cases hs : s.stack with
  | nil =>
    rw [hs] at h
    cases h
    rfl
  | cons top rest =>
    rw [hs] at h
    cases h

-- What is done with the result of an atomic action may not fail.
theorem Atomic.map {β : Type} {a : Action α} (h : a.Atomic) (f : α → β) :
    Atomic (do return f (← a)) := by
  intro s fault t he
  rw [exec_bind] at he
  rcases ha : exec a s with ⟨failure | x, u⟩
  · rw [ha] at he
    cases he
    exact h s fault _ ha
  · rw [ha] at he
    cases he

theorem atomic_pop : pop.Atomic :=
  atomic_popEntry.map (·.element)

theorem atomic_peek : peek.Atomic := by
  intro s fault t h
  rw [peek, exec_bind_of_ok (exec_get s)] at h
  cases hp : s.peekAt? 0 with
  | none =>
    rw [hp] at h
    cases h
    rfl
  | some e =>
    rw [hp] at h
    cases h

theorem atomic_popMany (count : Nat) : (popMany count).Atomic := by
  intro s fault t h
  rw [exec_popMany] at h
  split at h
  · cases h
    rfl
  · cases h

theorem atomic_insert (offset : Int) (e : Element) : (insert offset e).Atomic := by
  intro s fault t h
  rw [exec_insert] at h
  split at h
  · cases h
    rfl
  · cases h

theorem atomic_reduce : reduce.Atomic := by
  intro s fault t h
  rw [exec_reduce] at h
  cases hs : s.stack with
  | nil =>
    rw [hs] at h
    cases h
  | cons top rest =>
    rw [hs] at h
    dsimp only at h
    split at h
    · cases h
    · cases h
      rfl

theorem atomic_removeStatement (index : Nat) : (removeStatement index).Atomic := by
  intro s fault t h
  rw [exec_removeStatement] at h
  split at h
  · cases h
  · cases h
    rfl

theorem atomic_removeLastStatement : removeLastStatement.Atomic := by
  intro s fault t h
  rw [exec_removeLastStatement] at h
  cases hs : s.statements with
  | nil =>
    rw [hs] at h
    cases h
    rfl
  | cons last rest =>
    rw [hs] at h
    cases h

theorem atomic_replaceStatement (index : Nat) (e : Element) :
    (replaceStatement index e).Atomic := by
  intro s fault t h
  rw [exec_replaceStatement] at h
  split at h
  · cases h
  · cases h
    rfl

end Action

namespace State

variable {s : State} {moved below : List Entry} {top : Entry}

-- Reducing comes to the first entry that cannot stand as a statement, and stops there.
theorem exec_reduceMany_of_blocked (hs : s.stack = moved ++ top :: below)
    (hmoved : ∀ e ∈ moved, e.element.isStatement) (htop : top.element.isStatement = false)
    (n : Nat) : exec (Action.reduceMany (moved.length + (n + 1))) s =
      (.error (.notStatement top.element.kind), s.flushAbove moved (top :: below)) := by
  have hstack : (s.flushAbove moved (top :: below)).stack = top :: below := rfl
  rw [exec_reduceMany_append s hs hmoved, Action.reduceMany, exec_bind, Action.exec_reduce, hstack]
  dsimp only
  rw [htop, if_neg Bool.false_ne_true]
  rfl

-- A flush that fails has made statements of all that was above the entry that stopped it.
theorem exec_reduceAll_of_error {fault : Fault} {t : State}
    (h : exec Action.reduceAll s = (.error fault, t)) :
    ∃ (moved : List Entry) (top : Entry) (below : List Entry), s.stack = moved ++ top :: below ∧
      (∀ e ∈ moved, e.element.isStatement) ∧ top.element.isStatement = false ∧
      fault = .notStatement top.element.kind ∧ t = s.flushAbove moved (top :: below) := by
  cases hfind : s.stack.find? fun e => !e.element.isStatement with
  | none =>
    have hready : ∀ e ∈ s.stack, e.element.isStatement := by simpa using hfind
    rw [exec_reduceAll_of_statements s hready] at h
    cases h
  | some top =>
    obtain ⟨htop, moved, below, hs, hmoved⟩ := List.find?_eq_some_iff_append.1 hfind
    rw [Bool.not_eq_true'] at htop
    simp only [Bool.not_not] at hmoved
    have hlength : s.stack.length = moved.length + (below.length + 1) := by simp [hs]
    rw [Action.reduceAll, exec_bind_of_ok (exec_get s), hlength,
      exec_reduceMany_of_blocked hs hmoved htop] at h
    cases h
    exact ⟨moved, top, below, hs, hmoved, htop, rfl, rfl⟩

end State

-- An operation that fails leaves the state as it was. Flushing is the only one that takes effect
-- in parts: what is left on the stack starts with what cannot stand as a statement, and all that
-- was above it is among the statements, in program order if everything was before.
theorem Action.failure_effects (s : State) :
    pop.Atomic ∧ popEntry.Atomic ∧ peek.Atomic ∧ (∀ count, (popMany count).Atomic) ∧
      (∀ offset e, (Action.insert offset e).Atomic) ∧ reduce.Atomic ∧
      (∀ index, (removeStatement index).Atomic) ∧ removeLastStatement.Atomic ∧
      (∀ index e, (replaceStatement index e).Atomic) ∧
      ∀ fault t, exec reduceAll s = (.error fault, t) →
        ∃ (moved : List Entry) (top : Entry) (below : List Entry),
          s.stack = moved ++ top :: below ∧ (∀ e ∈ moved, e.element.isStatement) ∧
          top.element.isStatement = false ∧ fault = .notStatement top.element.kind ∧
          t = { s with stack := top :: below, statements := t.statements } ∧
          t.statements.Perm (moved.map Entry.settled ++ s.statements) ∧
          s.statements.Sublist t.statements ∧
          (s.Ordered → t.statements.reverse.Pairwise fun a b => a.precedes b) := by
  refine ⟨atomic_pop, atomic_popEntry, atomic_peek, atomic_popMany, atomic_insert, atomic_reduce,
    atomic_removeStatement, atomic_removeLastStatement, atomic_replaceStatement, ?_⟩
  intro fault t h
  obtain ⟨moved, top, below, hs, hmoved, htop, hfault, rfl⟩ := State.exec_reduceAll_of_error h
  refine ⟨moved, top, below, hs, hmoved, htop, hfault, rfl, Entry.foldl_fileInto_perm _ _,
    Entry.sublist_foldl_fileInto _ _, fun ho => ?_⟩
  have hordered := ho.operate .reduceAll
  rw [Operation.action, h] at hordered
  exact hordered.increasing

-- A call, a constant and a call on the stack, and a statement that was made later.
def State.blocked : State :=
  let low := ((start flushed (.ofCode flushed.code)).push (action "f")).push
    (.ofShape (.constant (.int 4) .int))
  let next := (exec Action.nextInstruction (exec Action.nextInstruction low).2).2
  (next.push (action "g")).enlist (action "e")

theorem State.ordered_blocked : blocked.Ordered := by
  have h : Reached flushed (.ofCode flushed.code) blocked :=
    .operate (.enlist (action "e")) <| .operate (.push (action "g")) <|
    .operate .nextInstruction <| .operate .nextInstruction <|
    .operate (.push (.ofShape (.constant (.int 4) .int))) <|
    .operate (.push (action "f")) .start
  exact h.ordered

-- The upper call becomes a statement in front of the one that is there.
theorem Action.failure_effects_blocked :
    State.blocked.stack.map Entry.mark = [(1, 3), (0, 2), (0, 1)] ∧
      State.blocked.statements.map Entry.mark = [(1, 4)] ∧
      exec (popMany 4) State.blocked = (.error (.popMany 4 3), State.blocked) ∧
      ∃ (moved below : List Entry) (top : Entry) (t : State),
        exec reduceAll State.blocked = (.error (.notStatement .constant), t) ∧
        State.blocked.stack = moved ++ top :: below ∧ moved.length = 1 ∧ t.stack = top :: below ∧
        t.statements.Perm (moved.map Entry.settled ++ State.blocked.statements) ∧
        (t.statements.reverse.Pairwise fun a b => a.precedes b) ∧
        t.statements.reverse.map Entry.mark = [(1, 3), (1, 4)] := by
  refine ⟨rfl, rfl, rfl, ?_⟩
  obtain ⟨-, -, -, -, -, -, -, -, -, hflush⟩ := failure_effects State.blocked
  obtain ⟨t, hexec⟩ : ∃ t, exec reduceAll State.blocked = (.error (.notStatement .constant), t) :=
    ⟨_, rfl⟩
  obtain ⟨moved, top, below, hs, -, -, -, ht, hperm, -, hincreasing⟩ := hflush _ t hexec
  have hstack : t.stack = top :: below := congrArg State.stack ht
  have hrun : t = (exec reduceAll State.blocked).2 := congrArg Prod.snd hexec.symm
  have hlength := congrArg List.length hs
  rw [List.length_append, ← hstack, hrun] at hlength
  refine ⟨moved, below, top, t, hexec, hs, Nat.add_right_cancel hlength.symm, hstack, hperm,
    hincreasing State.ordered_blocked, ?_⟩
  rw [hrun]
  rfl

end JvmLift
