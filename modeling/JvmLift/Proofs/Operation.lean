import JvmLift.Proofs.Cursor

namespace JvmLift

namespace Action

theorem exec_popEntry (s : State) :
    exec popEntry s = match s.stack with
      | [] => (.error .popEmpty, s)
      | top :: rest => (.ok top, { s with stack := rest }) := by
  simp only [popEntry, exec_bind, exec_get]
  cases s.stack <;> rfl

theorem exec_pop (s : State) :
    exec pop s = match s.stack with
      | [] => (.error .popEmpty, s)
      | top :: rest => (.ok top.element, { s with stack := rest }) := by
  simp only [pop, exec_bind, exec_popEntry]
  cases s.stack <;> rfl

theorem exec_popMany (count : Nat) (s : State) :
    exec (popMany count) s =
      if s.stack.length < count then (.error (.popMany count s.stack.length), s)
      else (.ok ((s.stack.take count).reverse.map (·.element)),
        { s with stack := s.stack.drop count }) := by
  simp only [popMany, exec_bind, exec_get]
  split <;> rfl

theorem exec_insert (offset : Int) (e : Element) (s : State) :
    exec (insert offset e) s =
      if 0 < offset || s.stack.length + offset < 0 then
        (.error (.insertOffset offset s.stack.length), s)
      else (.ok ⟨⟩, s.pushBelow (-offset).toNat e) := by
  simp only [insert, exec_bind, exec_get]
  split <;> rfl

theorem exec_reduce (s : State) :
    exec reduce s = match s.stack with
      | [] => (.ok false, s)
      | top :: rest =>
        if top.element.isStatement then
          (.ok true, ({ s with stack := rest } : State).file
            { top with element := top.element.settled })
        else (.error (.notStatement top.element.kind), s) := by
  simp only [reduce, exec_bind, exec_get]
  cases s.stack with
  | nil => rfl
  | cons top rest =>
    dsimp only
    split <;> rfl

-- What one reduction keeps is kept by any number of them.
theorem reduceMany_induct (kept : State → Prop)
    (hreduce : ∀ s, kept s → kept (exec reduce s).2) (n : Nat) {s : State} (h : kept s) :
    kept (exec (reduceMany n) s).2 := by
  induction n generalizing s with
  | zero => exact h
  | succ n ih =>
    rw [reduceMany, exec_bind]
    have hr := hreduce s h
    rcases he : exec reduce s with ⟨_ | _ | _, t⟩
    all_goals rw [he] at hr
    · exact hr
    · exact hr
    · have hm := ih hr
      simp only [if_true, exec_bind, exec_discard]
      rcases hn : exec (reduceMany n) t with ⟨_ | _, u⟩
      all_goals rw [hn] at hm
      · exact hm
      · exact hm

theorem exec_removeStatement (index : Nat) (s : State) :
    exec (removeStatement index) s =
      if h : index < s.statements.length then
        (.ok (s.statements.get ⟨s.statements.length - 1 - index,
            Nat.sub_one_sub_lt_of_lt h⟩).element,
          { s with statements := s.statements.eraseIdx (s.statements.length - 1 - index) })
      else (.error (.noStatementAt index s.statements.length), s) := by
  simp only [removeStatement, exec_bind, exec_get]
  split <;> rfl

theorem exec_removeLastStatement (s : State) :
    exec removeLastStatement s = match s.statements with
      | [] => (.error .noStatement, s)
      | last :: rest => (.ok last.element, { s with statements := rest }) := by
  simp only [removeLastStatement, exec_bind, exec_get]
  cases s.statements <;> rfl

theorem exec_replaceStatement (index : Nat) (e : Element) (s : State) :
    exec (replaceStatement index e) s =
      if index < s.statements.length then
        (.ok ⟨⟩, { s with
          statements := s.statements.modify (s.statements.length - 1 - index) fun old =>
            { old with element := e.stamped old.element.stamp } })
      else (.error (.noStatementAt index s.statements.length), s) := by
  simp only [replaceStatement, exec_bind, exec_get]
  split <;> rfl

theorem exec_nextInstruction (s : State) :
    exec nextInstruction s = match exec Reading.instruction s.cursor with
      | (.ok code, c) => (.ok code, { s with cursor := c, instructionPc := s.pc })
      | (.error e, c) => (.error e, { s with cursor := c }) := by
  simp only [nextInstruction, exec_bind, exec_get, exec_read]
  rcases exec Reading.instruction s.cursor with ⟨e | code, c⟩ <;> rfl

end Action

-- What a rule may do to a state, with the type of what it gives.
inductive Operation : Type → Type where
  | nextInstruction : Operation Opcode
  | next (count : Nat) : Operation Bytes
  | peek (count : Nat) : Operation Bytes
  | commit : Operation Unit
  | skip (count : Nat) : Operation Nat
  | push (e : Element) : Operation Unit
  | pop : Operation Entry
  | popMany (count : Nat) : Operation (List Element)
  | insert (offset : Int) (e : Element) : Operation Unit
  | reduce : Operation Bool
  | reduceAll : Operation Bool
  | enlist (e : Element) : Operation Unit
  | removeStatement (index : Nat) : Operation Element
  | removeLastStatement : Operation Element
  | replaceStatement (index : Nat) (e : Element) : Operation Unit
  | abort : Operation Unit

namespace Operation

def action {α : Type} : Operation α → Action α
  | nextInstruction => Action.nextInstruction
  | next count => Action.read (Reading.next count)
  | peek count => Action.read (Reading.peek count)
  | commit => Action.read Reading.commit
  | skip count => Action.read (Reading.skip count)
  | push e => Action.push e
  | pop => Action.popEntry
  | popMany count => Action.popMany count
  | insert offset e => Action.insert offset e
  | reduce => Action.reduce
  | reduceAll => Action.reduceAll
  | enlist e => Action.enlist e
  | removeStatement index => Action.removeStatement index
  | removeLastStatement => Action.removeLastStatement
  | replaceStatement index e => Action.replaceStatement index e
  | abort => Action.abort

end Operation

-- The states that operations lead to from the first one, whether they succeed or fail.
inductive State.Reached (method : Method) (cursor : Cursor) : State → Prop where
  | start : Reached method cursor (.start method cursor)
  | operate {α : Type} {s : State} (op : Operation α) (h : Reached method cursor s) :
    Reached method cursor (exec op.action s).2

end JvmLift
