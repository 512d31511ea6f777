import JvmLift.Proofs.Execution

namespace JvmLift

theorem exec_finish_snd (s : State) : (exec finish s).2 = (exec Action.reduceAll s).2 := by
  rw [finish, exec_bind, exec_discard]
  rcases exec Action.reduceAll s with ⟨f | b, t⟩
  · rfl
  · simp only [Except.map, exec_bind, exec_get]
    cases t.result.find? fun e => e.contains Element.isUnfinished <;> rfl

theorem result_of_exec_finish {s : State} {statements : List Element}
    (h : (exec finish s).1 = .ok statements) : statements = (exec finish s).2.result := by
  rw [exec_finish_snd]
  rw [finish, exec_bind, exec_discard] at h
  rcases hs : exec Action.reduceAll s with ⟨f | b, t⟩
  all_goals rw [hs] at h
  · cases h
  · simp only [Except.map, exec_bind, exec_get] at h
    cases hf : t.result.find? fun e => e.contains Element.isUnfinished with
    | some e =>
      rw [hf] at h
      cases h
    | none =>
      rw [hf] at h
      exact (Except.ok.inj h).symm

theorem result_of_exec_finish_of_nil {s : State} {statements : List Element}
    (h : (exec finish s).1 = .ok statements) (hs : s.stack = []) : statements = s.result := by
  rw [result_of_exec_finish h, exec_finish_snd, Action.reduceAll, exec_bind_of_ok (exec_get s), hs]
  rfl

namespace Registry

variable {m : Method} {code : Bytes} {start : Nat} {s t u : State}

theorem endsAt_behind (code : Bytes) (start : Nat) :
    (Cursor.behind code start).EndsAt (min start code.length + (code.drop start).length) := by
  rw [Cursor.behind_eq]
  exact Cursor.endsAt_ofBytes _ _

-- A run that is only watched and ends well has come to the end, where its result is made.
theorem exists_runs_of_decompile {σ : Type} {observer : Observer σ} {memory : σ}
    (hquiet : ∀ memory s, (observer.notice memory s).2 = s) {statements : List Element}
    (h : (core.decompile observer memory m (.behind code start)).result = .ok statements) :
    ∃ u, core.Runs (.start m (.behind code start)) u ∧ u.Done ∧
      (core.decompile observer memory m (.behind code start)).state = (exec finish u).2 ∧
      (exec finish u).1 = .ok statements := by
  have hend := endsAt_behind code start
  have hfuel : min start code.length + (code.drop start).length <
      (State.start m (.behind code start)).pc +
        ((Cursor.behind code start).remaining.length + 1) := by
    have hr := hend.reach
    show _ < (Cursor.behind code start).pc + _
    omega
  obtain ⟨hresult, hstate⟩ := runLoop_of_quiet_observer hquiet (r := core)
    ((Cursor.behind code start).remaining.length + 1) memory (.start m (.behind code start))
  rw [decompile] at h ⊢
  rcases hw : core.runLoop observer ((Cursor.behind code start).remaining.length + 1) memory
    (.start m (.behind code start)) with ⟨f | ⟨⟨⟩⟩, memory', u⟩
  all_goals rw [hw] at h
  · cases h
  · have hidle : core.runLoop Observer.idle ((Cursor.behind code start).remaining.length + 1) ⟨⟩
        (.start m (.behind code start)) = (.ok ⟨⟩, ⟨⟩, u) := by
      rw [hw] at hresult hstate
      exact Prod.ext hresult.symm (Prod.ext rfl hstate.symm)
    obtain ⟨hruns, hdone⟩ := runs_of_runLoop hidle hend hfuel
    exact ⟨u, hruns, hdone, rfl, h⟩

-- Where a run is done, nothing is executed.
theorem not_executes_of_done {stop : Nat} (hc : s.cursor.EndsAt stop) (hd : s.Done) :
    ¬core.Executes s t := by
  intro h
  rcases hd with ha | hnil
  · rw [h.1] at ha
    cases ha
  · obtain ⟨code, rest, hcons, -⟩ := h.fetched hc
    rw [hnil] at hcons
    cases hcons

-- Whatever a run executes lies on its way to the end.
theorem Executes.runs_to_end {stop : Nat} (hc : s.cursor.EndsAt stop) (hu : core.Runs s u)
    (hd : u.Done) {v : State} (hv : core.Runs s v) (he : core.Executes v t) : core.Runs t u := by
  have hunique : Relator.RightUnique core.Executes := fun _ _ _ h h' => h.unique h'
  have hend := (Runs.advances hu hc).2
  rcases Relation.ReflTransGen.total_of_right_unique hunique hv hu with hvu | huv
  · rcases hvu.cases_head with rfl | ⟨w, hw, hwu⟩
    · exact absurd he (not_executes_of_done hend hd)
    · rwa [he.unique hw]
  · rcases huv.cases_head with rfl | ⟨w, hw, -⟩
    · exact absurd he (not_executes_of_done hend hd)
    · exact absurd hw (not_executes_of_done hend hd)

end Registry

end JvmLift
