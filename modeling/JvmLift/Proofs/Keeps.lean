import JvmLift.Proofs.Composed

namespace JvmLift

namespace Action

variable {α β : Type}

-- An action that keeps an invariant even if it fails, and gives values of a kind if it succeeds.
structure Keeps (inv : State → Prop) (post : α → Prop) (a : Action α) : Prop where
  state : ∀ s, inv s → inv (exec a s).2
  value : ∀ s, inv s → ∀ v, (exec a s).1 = .ok v → post v

namespace Keeps

variable {inv : State → Prop} {post : α → Prop} {after : β → Prop}

protected theorem pure {v : α} (h : post v) : Keeps inv post (pure v) where
  state _ hs := hs
  value _ _ _ hw := Except.ok.inj hw ▸ h

protected theorem throw (f : Fault) : Keeps inv post (throw f) where
  state _ hs := hs
  value _ _ _ hw := by cases hw

-- What follows a fault is not run.
theorem throw_bind (f : Fault) (g : β → Action α) :
    Keeps inv post ((MonadExcept.throw f : Action β) >>= g) where
  state _ hs := hs
  value _ _ _ hw := by cases hw

protected theorem bind {a : Action α} {f : α → Action β} (ha : Keeps inv post a)
    (hf : ∀ v, post v → Keeps inv after (f v)) : Keeps inv after (a >>= f) where
  state s hs := by
    have ht := ha.state s hs
    have hv := ha.value s hs
    rw [exec_bind]
    rcases he : exec a s with ⟨e | v, t⟩
    all_goals rw [he] at ht hv
    · exact ht
    · exact (hf v (hv v rfl)).state t ht
  value s hs w hw := by
    have ht := ha.state s hs
    have hv := ha.value s hs
    rw [exec_bind] at hw
    rcases he : exec a s with ⟨e | v, t⟩
    all_goals rw [he] at ht hv hw
    · cases hw
    · exact (hf v (hv v rfl)).value t ht w hw

-- An action that depends on the state may use the invariant.
theorem inspect {f : State → Action α} (hf : ∀ s, inv s → Keeps inv post (f s)) :
    Keeps inv post (get >>= f) where
  state s hs := (hf s hs).state s hs
  value s hs := (hf s hs).value s hs

theorem map {a : Action α} (g : α → β) (ha : Keeps inv post a)
    (h : ∀ v, post v → after (g v)) : Keeps inv after (g <$> a) where
  state s hs := by
    rw [exec_map]
    exact ha.state s hs
  value s hs w hw := by
    have hv := ha.value s hs
    rw [exec_map] at hw
    rcases he : (exec a s).1 with e | v
    all_goals rw [he] at hw hv
    · cases hw
    · cases hw
      exact h v (hv v rfl)

protected theorem discard {a : Action α} (ha : Keeps inv post a) :
    Keeps inv (fun _ => True) (discard a) :=
  ha.map _ fun _ _ => trivial

theorem lift (e : Except ClassFileError α) : Keeps inv (fun _ => True) (liftM e : Action α) := by
  cases e with
  | error e => exact .throw _
  | ok v => exact .pure trivial

-- A check in front of an action, where it is passed by what holds and where by what does not.
theorem require {p : Prop} [Decidable p] {f : Fault} {a : Action α} (h : Keeps inv post a) :
    Keeps inv post (if p then a else (MonadExcept.throw f : Action PUnit) >>= fun _ => a) := by
  split
  · exact h
  · exact .throw_bind f _

theorem refuse {p : Prop} [Decidable p] {f : Fault} {a : Action α} (h : Keeps inv post a) :
    Keeps inv post (if p then (MonadExcept.throw f : Action PUnit) >>= fun _ => a else a) := by
  split
  · exact .throw_bind f _
  · exact h

theorem forM {xs : List β} {f : β → Action PUnit}
    (hf : ∀ x ∈ xs, Keeps inv (fun _ => True) (f x)) : Keeps inv (fun _ => True) (xs.forM f) := by
  induction xs with
  | nil => exact .pure trivial
  | cons x xs ih =>
    obtain ⟨hx, hxs⟩ := List.forall_mem_cons.1 hf
    exact hx.bind fun _ _ => ih hxs

-- Reading code keeps whatever does not depend on the place in it.
theorem read (hcursor : ∀ s (c : Cursor), inv s → inv { s with cursor := c }) (r : Reading α) :
    Keeps inv (fun _ => True) (Action.read r) where
  state s hs := by
    rw [exec_read]
    exact hcursor s _ hs
  value _ _ _ _ := trivial

theorem followingCode? (hcursor : ∀ s (c : Cursor), inv s → inv { s with cursor := c }) :
    Keeps inv (fun _ => True) Action.followingCode? where
  state s hs := by
    rw [Composed.exec_followingCode?]
    exact hcursor s _ hs
  value _ _ _ _ := trivial

theorem reduceMany (hreduce : ∀ s, inv s → inv (exec Action.reduce s).2) (n : Nat) :
    Keeps inv (fun _ => True) (Action.reduceMany n) where
  state _ hs := reduceMany_induct inv hreduce n hs
  value _ _ _ _ := trivial

end Keeps

end Action

-- A rule whose action keeps an invariant.
def Rule.Keeps (inv : State → Prop) (rule : Rule) : Prop :=
  ∀ code, Action.Keeps inv (fun _ => True) (rule.run code)

namespace Registry

variable {inv : State → Prop}

theorem keeps_runAll (code : Opcode) {rules : List Rule} (h : ∀ rule ∈ rules, rule.Keeps inv) :
    Action.Keeps inv (fun _ => True) (runAll code rules) := by
  induction rules with
  | nil => exact .pure trivial
  | cons rule rest ih =>
    obtain ⟨hrule, hrest⟩ := List.forall_mem_cons.1 h
    apply Action.Keeps.inspect
    intro s _
    split
    · exact (hrule code).bind fun _ _ => ih hrest
    · exact ih hrest

-- An instruction keeps what all its rules keep.
theorem keeps_step (r : Registry) (code : Opcode)
    (h : ∀ stage, ∀ rule ∈ r.rules stage code, rule.Keeps inv) :
    Action.Keeps inv (fun _ => True) (r.step code) := by
  apply (keeps_runAll code (h .advisory)).bind
  intro _ _
  apply Action.Keeps.inspect
  intro s _
  have hlast := keeps_runAll code (h .corrective)
  cases hp : r.primary? s code with
  | none => exact .throw_bind _ _
  | some rule => exact (h .primary rule (List.mem_of_find?_eq_some hp) code).bind fun _ _ => hlast

end Registry

end JvmLift
