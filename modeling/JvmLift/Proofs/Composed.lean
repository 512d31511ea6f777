import JvmLift.Proofs.Order
import JvmLift.Registry

namespace JvmLift

-- Skipping does not fail at the end of the code, and looking ahead is not consuming.
def Operation.isStrict {α : Type} : Operation α → Bool
  | peek _ | skip _ => false
  | _ => true

namespace Action

variable {α β : Type}

-- Actions that are put together from operations and from looks at everything but the bytes that
-- are left. Those that may look at the next instruction are allowed for by `ahead`.
inductive Composed (ahead : Prop) : {α : Type} → Action α → Prop where
  | pure {α : Type} (v : α) : Composed ahead (pure v)
  | throw {α : Type} (f : Fault) : Composed ahead (throw f : Action α)
  | bind {α β : Type} {a : Action α} {f : α → Action β} (ha : Composed ahead a)
    (hf : ∀ v, Composed ahead (f v)) : Composed ahead (a >>= f)
  | inspect {α : Type} {f : State → Action α}
    (blind : ∀ (s : State) (c : Cursor), c.pc = s.cursor.pc → f { s with cursor := c } = f s)
    (hf : ∀ s, Composed ahead (f s)) : Composed ahead (get >>= f)
  | operate {α : Type} (op : Operation α) (h : op.isStrict) : Composed ahead op.action
  | lookAhead (h : ahead) : Composed ahead followingCode?

-- Two actions are the same if they do the same in every state.
theorem ext_exec {a b : Action α} (h : ∀ s, exec a s = exec b s) : a = b :=
  funext h

theorem read_bind_pure (r : Reading α) (g : α → β) :
    read (r >>= fun v => pure (g v)) = read r >>= fun v => pure (g v) := by
  apply ext_exec
  intro s
  simp only [exec_read, exec_bind]
  rcases exec r s.cursor with ⟨_ | _, c⟩ <;> rfl

namespace Composed

variable {ahead : Prop}

theorem mono {other : Prop} (h : ahead → other) {a : Action α} (ha : Composed ahead a) :
    Composed other a := by
  induction ha with
  | pure v => exact .pure v
  | throw f => exact .throw f
  | bind _ _ iha ihf => exact .bind iha ihf
  | inspect blind _ ihf => exact .inspect blind ihf
  | operate op hs => exact .operate op hs
  | lookAhead ha => exact .lookAhead (h ha)

theorem map {a : Action α} (g : α → β) (ha : Composed ahead a) :
    Composed ahead (a >>= fun v => Pure.pure (g v)) :=
  ha.bind fun v => .pure (g v)

protected theorem discard {a : Action α} (ha : Composed ahead a) : Composed ahead (discard a) := by
  have h : discard a = a >>= fun _ => Pure.pure ⟨⟩ := by
    apply ext_exec
    intro s
    rw [exec_discard, exec_bind]
    rcases exec a s with ⟨_ | _, t⟩ <;> rfl
  exact h ▸ ha.map _

theorem lift (e : Except ClassFileError α) : Composed ahead (liftM e : Action α) := by
  cases e with
  | error e => exact .throw (.classFile e)
  | ok v => exact .pure v

theorem next (count : Nat) : Composed ahead (read (Reading.next count)) :=
  .operate (.next count) rfl

theorem readMap (count : Nat) (g : Bytes → α) :
    Composed ahead (read (Reading.next count >>= fun bytes => Pure.pure (g bytes))) := by
  rw [read_bind_pure]
  exact (next count).map g

theorem readMapMap (count : Nat) (g : Bytes → α) (k : α → β) :
    Composed ahead
      (read ((Reading.next count >>= fun bytes => Pure.pure (g bytes)) >>= fun v =>
        Pure.pure (k v))) := by
  rw [read_bind_pure]
  exact (readMap count g).map k

theorem u8 : Composed ahead (read Reading.u8) := readMap 1 _

theorem i8 : Composed ahead (read Reading.i8) := readMapMap 1 _ _

theorem u16 : Composed ahead (read Reading.u16) := readMap 2 _

theorem i16 : Composed ahead (read Reading.i16) := readMapMap 2 _ _

theorem i32 : Composed ahead (read Reading.i32) := readMap 4 _

theorem instruction : Composed ahead (read Reading.instruction) := u8

theorem push (e : Element) : Composed ahead (Action.push e) := .operate (.push e) rfl

theorem enlist (e : Element) : Composed ahead (Action.enlist e) := .operate (.enlist e) rfl

theorem pop : Composed ahead Action.pop :=
  (operate .pop rfl : Composed ahead popEntry).map _

theorem popMany (count : Nat) : Composed ahead (Action.popMany count) :=
  .operate (.popMany count) rfl

theorem reduce : Composed ahead Action.reduce := .operate .reduce rfl

theorem reduceAll : Composed ahead Action.reduceAll := .operate .reduceAll rfl

theorem removeLastStatement : Composed ahead Action.removeLastStatement :=
  .operate .removeLastStatement rfl

theorem replaceStatement (index : Nat) (e : Element) :
    Composed ahead (Action.replaceStatement index e) :=
  .operate (.replaceStatement index e) rfl

theorem abort : Composed ahead Action.abort := .operate .abort rfl

theorem peek : Composed ahead Action.peek := by
  refine .inspect (fun _ _ _ => rfl) ?_
  intro s
  cases s.peekAt? 0 with
  | none => exact .throw _
  | some e => exact .pure e

theorem local? (slot : UInt16) (pc : Nat) : Composed ahead (Action.local? slot pc) := by
  refine .inspect (fun _ _ _ => rfl) ?_
  intro s
  cases s.local? slot pc with
  | error e => exact .throw e
  | ok v => exact .pure v

-- A check in front of an action, where it is passed by what holds and where by what does not.
theorem require {p : Prop} [Decidable p] {f : Fault} {a : Action α} (h : Composed ahead a) :
    Composed ahead (if p then a else (MonadExcept.throw f : Action PUnit) >>= fun _ => a) := by
  split
  · exact h
  · exact (Composed.throw f).bind fun _ => h

theorem refuse {p : Prop} [Decidable p] {f : Fault} {a : Action α} (h : Composed ahead a) :
    Composed ahead (if p then (MonadExcept.throw f : Action PUnit) >>= fun _ => a else a) := by
  split
  · exact (Composed.throw f).bind fun _ => h
  · exact h

theorem forM (xs : List β) {f : β → Action PUnit} (hf : ∀ x, Composed ahead (f x)) :
    Composed ahead (xs.forM f) := by
  induction xs with
  | nil => exact .pure PUnit.unit
  | cons x xs ih => exact (hf x).bind fun _ => ih

theorem exec_followingCode? (s : State) :
    exec followingCode? s = (.ok (exec Reading.peekInstruction s.cursor).1.toOption,
      { s with cursor := (exec Reading.peekInstruction s.cursor).2 }) := by
  simp only [followingCode?, exec_bind, exec_get]
  rcases h : Reading.peekInstruction.run.run s.cursor with ⟨_ | _, c⟩
  all_goals
    have hp : exec Reading.peekInstruction s.cursor = _ := h
    rw [hp]
    rfl

-- What every strict operation keeps is kept by everything that is put together from operations.
theorem preserves (kept : State → Prop)
    (operate : ∀ {α : Type} (op : Operation α), op.isStrict → ∀ s, kept s →
      kept (exec op.action s).2)
    (look : ∀ s, kept s → kept (exec followingCode? s).2)
    {a : Action α} (ha : Composed ahead a) {s : State} (h : kept s) : kept (exec a s).2 := by
  induction ha generalizing s with
  | pure | throw => exact h
  | bind _ _ iha ihf =>
    have hs := iha h
    rw [exec_bind]
    rename_i a f _ _
    rcases he : exec a s with ⟨e | v, t⟩
    all_goals rw [he] at hs
    · exact hs
    · exact ihf v hs
  | inspect _ _ ih => exact ih s h
  | operate op hs => exact operate op hs s h
  | lookAhead => exact look s h

end Composed

end Action

end JvmLift
