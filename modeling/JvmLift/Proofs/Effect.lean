import JvmLift.State

namespace JvmLift

variable {σ α β : Type}

-- What a step gives in a state, and the state that it leaves behind.
def exec (a : ExceptT Fault (StateM σ) α) (s : σ) : Except Fault α × σ :=
  a.run.run s

section Exec

@[simp]
theorem exec_pure (v : α) (s : σ) : exec (pure v) s = (.ok v, s) := rfl

@[simp]
theorem exec_throw (f : Fault) (s : σ) :
    exec (throw f : ExceptT Fault (StateM σ) α) s = (.error f, s) := rfl

@[simp]
theorem exec_get (s : σ) : exec get s = (.ok s, s) := rfl

@[simp]
theorem exec_set (s t : σ) : exec (set t) s = (.ok ⟨⟩, t) := rfl

@[simp]
theorem exec_modify (f : σ → σ) (s : σ) : exec (modify f) s = (.ok ⟨⟩, f s) := rfl

-- A step that fails hides what follows it, and what it has done stays done.
theorem exec_bind (a : ExceptT Fault (StateM σ) α) (f : α → ExceptT Fault (StateM σ) β) (s : σ) :
    exec (a >>= f) s = match exec a s with
      | (.ok v, t) => exec (f v) t
      | (.error e, t) => (.error e, t) := by
  simp only [exec, ExceptT.run_bind, StateT.run_bind]
  rcases a.run.run s with ⟨e | v, t⟩ <;> rfl

theorem exec_bind_of_ok {a : ExceptT Fault (StateM σ) α} {s t : σ} {v : α}
    (h : exec a s = (.ok v, t)) (f : α → ExceptT Fault (StateM σ) β) :
    exec (a >>= f) s = exec (f v) t := by
  rw [exec_bind, h]

-- Two steps succeed exactly if each of them does.
theorem exec_bind_eq_ok {a : ExceptT Fault (StateM σ) α} {f : α → ExceptT Fault (StateM σ) β}
    {s t : σ} {v : β} :
    exec (a >>= f) s = (.ok v, t) ↔
      ∃ w u, exec a s = (.ok w, u) ∧ exec (f w) u = (.ok v, t) := by
  constructor
  · intro h
    rw [exec_bind] at h
    rcases hu : exec a s with ⟨e | w, u⟩
    all_goals rw [hu] at h
    · cases (Prod.mk.inj h).1
    · exact ⟨w, u, rfl, h⟩
  · rintro ⟨w, u, hu, ht⟩
    rw [exec_bind_of_ok hu, ht]

theorem exec_map (g : α → β) (a : ExceptT Fault (StateM σ) α) (s : σ) :
    exec (g <$> a) s = ((exec a s).1.map g, (exec a s).2) := by
  rw [map_eq_pure_bind, exec_bind]
  rcases exec a s with ⟨e | v, t⟩ <;> rfl

theorem exec_discard (a : ExceptT Fault (StateM σ) α) (s : σ) :
    exec (discard a) s = ((exec a s).1.map fun _ => ⟨⟩, (exec a s).2) :=
  exec_map (fun _ => PUnit.unit) a s

theorem eq_ok_of_toOption {ε : Type} {result : Except ε α} {v : α}
    (h : result.toOption = some v) : result = .ok v := by
  cases result with
  | error e => cases h
  | ok w => exact congrArg Except.ok (Option.some.inj h)

-- What a success is seen to be like is true of what it gives.
theorem exists_eq_ok_of_toOption {ε : Type} {result : Except ε α} {g : α → β} {w : β}
    (h : result.toOption.map g = some w) : ∃ v, result = .ok v ∧ g v = w := by
  obtain ⟨v, hv, hw⟩ := Option.map_eq_some_iff.1 h
  exact ⟨v, eq_ok_of_toOption hv, hw⟩

theorem exists_eq_ok_of_bind {ε : Type} {result : Except ε α} {g : α → β} {w : β}
    (h : (do return g (← result)) = Except.ok w) : ∃ v, result = .ok v ∧ g v = w := by
  cases result with
  | error e => cases h
  | ok v => exact ⟨v, rfl, Except.ok.inj h⟩

end Exec

namespace Action

theorem exec_lift (e : Except ClassFileError α) (s : State) :
    exec (liftM e : Action α) s = match e with
      | .ok v => (.ok v, s)
      | .error e => (.error (.classFile e), s) := by
  cases e <;> rfl

-- Reading changes nothing but the cursor.
@[simp]
theorem exec_read (r : Reading α) (s : State) :
    exec (read r) s = ((exec r s.cursor).1, { s with cursor := (exec r s.cursor).2 }) := by
  rcases h : r.run.run s.cursor with ⟨e | v, c⟩
  all_goals
    have hr : exec r s.cursor = _ := h
    simp [read, exec_bind, exec_map, Except.map, h, hr]

@[simp]
theorem exec_push (e : Element) (s : State) : exec (push e) s = (.ok ⟨⟩, s.push e) := rfl

@[simp]
theorem exec_enlist (e : Element) (s : State) : exec (enlist e) s = (.ok ⟨⟩, s.enlist e) := rfl

@[simp]
theorem exec_abort (s : State) : exec abort s = (.ok ⟨⟩, s.abort) := rfl

end Action

end JvmLift
