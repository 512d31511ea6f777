import JvmLift.Proofs.Line

namespace JvmLift

namespace Observer

-- Ends the run after a number of instructions. It counts them and touches nothing else.
def stopAfter (count : Nat) : Observer Nat :=
  ⟨fun noticed s => (noticed + 1, if noticed + 1 = count then s.abort else s)⟩

end Observer

-- What a step says and leaves behind, when it sees nothing but the stack and the statements.
theorem exec_reduce_congr {s t : State} (hstack : s.stack = t.stack)
    (hstatements : s.statements = t.statements) :
    (exec Action.reduce s).1 = (exec Action.reduce t).1 ∧
      (exec Action.reduce s).2.stack = (exec Action.reduce t).2.stack ∧
      (exec Action.reduce s).2.statements = (exec Action.reduce t).2.statements := by
  rw [Action.exec_reduce, Action.exec_reduce, ← hstack]
  cases s.stack with
  | nil => exact ⟨rfl, hstack, hstatements⟩
  | cons top rest =>
    dsimp only
    split
    · refine ⟨rfl, rfl, ?_⟩
      simp only [State.file, hstatements]
    · exact ⟨rfl, hstack, hstatements⟩

theorem exec_reduceMany_congr (n : Nat) {s t : State} (hstack : s.stack = t.stack)
    (hstatements : s.statements = t.statements) :
    (exec (Action.reduceMany n) s).1 = (exec (Action.reduceMany n) t).1 ∧
      (exec (Action.reduceMany n) s).2.statements =
        (exec (Action.reduceMany n) t).2.statements := by
  induction n generalizing s t with
  | zero => exact ⟨rfl, hstatements⟩
  | succ n ih =>
    obtain ⟨hvalue, hs, ht⟩ := exec_reduce_congr hstack hstatements
    rw [Action.reduceMany, exec_bind, exec_bind]
    rcases hx : exec Action.reduce s with ⟨v, u⟩
    rcases hy : exec Action.reduce t with ⟨w, u'⟩
    rw [hx, hy] at hvalue hs ht
    obtain rfl : v = w := hvalue
    obtain ⟨hmany, hafter⟩ := ih hs ht
    rcases v with f | _ | _
    · exact ⟨rfl, ht⟩
    · exact ⟨rfl, ht⟩
    · simp only [if_true, exec_bind, exec_discard]
      rcases hm : exec (Action.reduceMany n) u with ⟨v, u₁⟩
      rcases hm' : exec (Action.reduceMany n) u' with ⟨w, u₂⟩
      rw [hm, hm'] at hmany hafter
      obtain rfl : v = w := hmany
      cases v <;> exact ⟨rfl, hafter⟩

-- The result of a run depends on nothing but what it leaves.
theorem exec_finish_congr {s t : State} (hstack : s.stack = t.stack)
    (hstatements : s.statements = t.statements) : (exec finish s).1 = (exec finish t).1 := by
  obtain ⟨hvalue, hafter⟩ := exec_reduceMany_congr s.stack.length hstack hstatements
  have hs : exec Action.reduceAll s = exec (Action.reduceMany s.stack.length) s := rfl
  have ht : exec Action.reduceAll t = exec (Action.reduceMany s.stack.length) t := by
    rw [hstack]
    rfl
  rw [finish, exec_bind, exec_bind, exec_discard, exec_discard, hs, ht]
  rcases hx : exec (Action.reduceMany s.stack.length) s with ⟨v, u⟩
  rcases hy : exec (Action.reduceMany s.stack.length) t with ⟨w, u'⟩
  rw [hx, hy] at hvalue hafter
  obtain rfl : v = w := hvalue
  have hresult : u.result = u'.result := congrArg (·.reverse.map (·.element)) hafter
  cases v with
  | error f => rfl
  | ok v =>
    simp only [Except.map, exec_bind, exec_get, hresult]
    cases u'.result.find? fun e => e.contains Element.isUnfinished <;> rfl

theorem Element.isStatement_of_newArray {e : Element} (h : e.kind = .newArray) :
    e.isStatement = false := by
  obtain ⟨shape, stamp⟩ := e
  cases shape with
  | newArray => rfl
  | _ => simp [kind, Shape.kind] at h

-- A new array that is left on the stack is no statement.
theorem exec_finish_of_newArray {s : State} (h : s.topIs .newArray) :
    (exec finish s).1 = .error (.notStatement .newArray) := by
  obtain ⟨top, below, hs, hk⟩ := State.topIs_iff.1 h
  rw [exec_finish_of_not_isStatement s hs (Element.isStatement_of_newArray hk), hk]

namespace Registry

-- A number of instructions are executed, one after the other.
inductive ExecutesMany (r : Registry) : Nat → State → State → Prop where
  | zero {s : State} : ExecutesMany r 0 s s
  | succ {n : Nat} {s t u : State} (first : r.Executes s t) (rest : ExecutesMany r n t u) :
    ExecutesMany r (n + 1) s u

section Restrict

variable {s t : State} {stop : Nat} {more : Bytes}

-- The copy of a new array always succeeds. It consumes nothing, and an array is on top again.
theorem exists_exec_copy (h : s.topIs .newArray) :
    ∃ t, exec (core.step Opcode.dup) s = (.ok ⟨⟩, t) ∧ t.topIs .newArray ∧ t.pc = s.pc ∧
      t.cursor.remaining = s.cursor.remaining := by
  rw [exec_step_copy h, Instruction.Array.exec_copy]
  have hpc : (exec Reading.peekInstruction s.cursor).2.pc = s.pc :=
    Reading.pc_peekInstruction s.cursor
  have hrem : (exec Reading.peekInstruction s.cursor).2.remaining = s.cursor.remaining := by
    rw [Reading.exec_peekInstruction, Reading.exec_peek]
    split
    · exact Cursor.remaining_filled ..
    · exact Cursor.remaining_filled ..
  generalize (exec Reading.peekInstruction s.cursor).1.toOption.any _ = indexed
  cases indexed with
  | true => exact ⟨_, rfl, h, hpc, hrem⟩
  | false =>
    have hmoved : ({ s with cursor := (exec Reading.peekInstruction s.cursor).2 } : State).topIs
        .newArray := h
    rcases hc : exec (Instruction.Array.copyUnless false)
      { s with cursor := (exec Reading.peekInstruction s.cursor).2 } with ⟨f | ⟨⟨⟩⟩, t⟩
    · exfalso
      obtain ⟨top, below, hs, -⟩ := State.topIs_iff.1 h
      simp [Instruction.Array.copyUnless, Action.peek, exec_bind, State.peekAt?, hs] at hc
    · obtain ⟨htop, hcursor⟩ := Instruction.Array.topIs_of_copyUnless hc hmoved
      refine ⟨t, rfl, htop, ?_, ?_⟩
      · rw [State.pc, hcursor]
        exact hpc
      · rw [hcursor]
        exact hrem

-- An instruction that ends within the code does the same when nothing follows the code, except
-- for a copy at the end.
theorem Executes.restrict (h : core.Executes (s.extend (more.map .byte)) t)
    (hc : s.cursor.EndsAt stop) (ht : t.pc ≤ stop) :
    ∃ u, core.Executes s u ∧
      (t = u.extend (more.map .byte) ∨
        t.pc = stop ∧ u.pc = stop ∧ t.topIs .newArray ∧ u.topIs .newArray) := by
  have hadvance := (h.advances (hc.extend more)).1
  have hpc : (s.extend (more.map .byte)).pc = s.pc := rfl
  have hne : s.cursor.remaining ≠ [] := by
    intro hnil
    have hr := hc.reach
    rw [hnil, List.length_nil] at hr
    have hs : s.cursor.pc = s.pc := rfl
    omega
  obtain ⟨code, rest, hcons⟩ := List.exists_cons_of_ne_nil hne
  have ha : s.aborted = false := h.1
  obtain ⟨code', rest', hcons', hstep⟩ := h.fetched (hc.extend more)
  rw [remaining_extend_of_cons _ hcons] at hcons'
  rw [fetch_extend _ hcons] at hstep
  obtain ⟨rfl, -⟩ := List.cons.inj hcons'
  have hlen : 1 ≤ s.cursor.remaining.length := by
    rw [hcons, List.length_cons]
    omega
  have hfetched : s.fetch.cursor.EndsAt stop := hc.advance hlen
  by_cases hcopy : code = Opcode.dup ∧ s.fetch.topIs .newArray
  · obtain ⟨rfl, htop⟩ := hcopy
    have hxtop : (s.fetch.extend (more.map .byte)).topIs .newArray := htop
    obtain ⟨u, hu, hutop, hupc, hurem⟩ := exists_exec_copy htop
    obtain ⟨v, hv, hvtop, hvpc, -⟩ := exists_exec_copy hxtop
    obtain rfl : v = t := (Prod.mk.inj (hv.symm.trans hstep)).2
    have he : core.Executes s u := executes_of_cons ha hcons hu
    refine ⟨u, he, ?_⟩
    rcases he.extend hc (more.map .byte) with hx | ⟨hnil, -⟩
    · exact .inl (h.unique hx)
    · right
      have hpcv : v.pc = u.pc := hvpc.trans hupc.symm
      have hstop := (he.advances hc).2.reach
      rw [hnil] at hstop
      exact ⟨hpcv.trans hstop, hstop, hvtop, hutop⟩
  · obtain ⟨a, hcomposed, heq⟩ := step_core_blind code hcopy
    have hs : exec (core.step code) s.fetch = exec a s.fetch := heq s.fetch.cursor
    have hx : exec (core.step code) (s.fetch.extend (more.map .byte)) =
        exec a (s.fetch.extend (more.map .byte)) := heq _
    rw [hx] at hstep
    rcases hcomposed.extend s.fetch (more.map .byte) with hout | hsame
    · -- what runs out of the code gets beyond its end in the longer one
      have ho := hcomposed.overrun hfetched (more.map .byte) hout
      rw [hstep] at ho
      rcases ho with ho | ho
      · simp at ho
      · exact absurd ht (Nat.not_le_of_lt ho)
    · rw [hsame] at hstep
      obtain ⟨hok, rfl⟩ := Prod.mk.inj hstep
      refine ⟨(exec a s.fetch).2, executes_of_cons ha hcons ?_, .inl rfl⟩
      rw [hs]
      exact Prod.ext hok rfl

theorem ExecutesMany.le_pc {n : Nat} (h : core.ExecutesMany n s t) (hc : s.cursor.EndsAt stop) :
    s.pc + n ≤ t.pc ∧ t.cursor.EndsAt stop := by
  induction h with
  | zero => exact ⟨Nat.le_refl _, hc⟩
  | succ first _ ih =>
    obtain ⟨hlt, hend⟩ := first.advances hc
    obtain ⟨hle, hend⟩ := ih hend
    exact ⟨by omega, hend⟩

-- A run that ends where the code ends does the same when nothing follows the code, except for a
-- copy in the end.
theorem ExecutesMany.restrict {n : Nat} (h : core.ExecutesMany n (s.extend (more.map .byte)) t)
    (hc : s.cursor.EndsAt t.pc) :
    ∃ u, core.Runs s u ∧ u.pc = t.pc ∧
      (t = u.extend (more.map .byte) ∨ t.topIs .newArray ∧ u.topIs .newArray) := by
  generalize hx : s.extend (more.map .byte) = x at h
  induction h generalizing s with
  | zero =>
    subst hx
    exact ⟨s, .refl, rfl, .inl rfl⟩
  | @succ n x y t first rest ih =>
    subst hx
    have hend := hc.extend more
    obtain ⟨hle, -⟩ := rest.le_pc (first.advances hend).2
    obtain ⟨u, he, hu⟩ := first.restrict hc (by omega)
    rcases hu with rfl | ⟨hpc, hupc, htop, hutop⟩
    · obtain ⟨v, hruns, hv⟩ := ih (he.advances hc).2 rfl
      exact ⟨v, .head he hruns, hv⟩
    · -- nothing is left for another instruction
      obtain rfl : n = 0 := by omega
      cases rest
      exact ⟨u, .single he, hupc, .inr ⟨htop, hutop⟩⟩

-- The watched loop makes the instructions and then stops.
theorem runLoop_stopAfter {n i : Nat} (done : Nat) (h : core.ExecutesMany n s t) (hn : 0 < n)
    (hc : s.cursor.EndsAt stop) (hi : stop < s.pc + i) :
    core.runLoop (.stopAfter (done + n)) i done s = (.ok ⟨⟩, done + n, t.abort) := by
  induction h generalizing i done with
  | zero => cases hn
  | @succ n s u t first rest ih =>
    obtain ⟨hlt, hend⟩ := first.advances hc
    have hle : u.pc ≤ stop := hend.pc_le
    obtain ⟨i, rfl⟩ : ∃ k, i = k + 1 := ⟨i - 1, by omega⟩
    rw [runLoop_of_executes _ _ i first]
    rcases Nat.eq_zero_or_pos n with rfl | hpos
    · cases rest
      have hnotice : (Observer.stopAfter (done + 1)).notice done u = (done + 1, u.abort) := by
        simp [Observer.stopAfter]
      rw [hnotice]
      exact runLoop_of_aborted _ _ _ rfl
    · have hnotice : (Observer.stopAfter (done + (n + 1))).notice done u = (done + 1, u) := by
        have hne : done + 1 ≠ done + (n + 1) := by omega
        simp only [Observer.stopAfter, if_neg hne]
      have hcount : done + (n + 1) = done + 1 + n := by omega
      rw [hnotice, hcount]
      exact ih (done + 1) hpos hend (by omega)

end Restrict

section Cut

variable (m : Method) {start stop : Nat} (hstart : start ≤ stop) (hstop : stop ≤ m.code.length)
include hstart hstop

theorem behind_take : Cursor.behind (m.code.take stop) start = m.cursorOver start stop := by
  have hmin : min start (min stop m.code.length) = start := by omega
  rw [Cursor.behind_eq, List.length_take, hmin, Method.cursorOver]

-- The code is what it is cut off to, with the rest put behind.
theorem start_behind : State.start m (.behind m.code start) =
    (State.start m (m.cursorOver start stop)).extend ((m.code.drop stop).map .byte) := by
  have hmin : min start m.code.length = start := by omega
  rw [Cursor.behind_eq, hmin]
  exact (inside_start hstart).symm

end Cut

-- Stopping after a number of instructions is the same as cutting off the code behind them.
theorem decompile_stopAfter (m : Method) {start count : Nat} {t : State} (hcount : 0 < count)
    (h : core.ExecutesMany count (.start m (.behind m.code start)) t) :
    (core.decompile (.stopAfter count) 0 m (.behind m.code start)).result =
      (core.decompile Observer.idle ⟨⟩ m (.behind (m.code.take t.pc) start)).result := by
  have hwhole : (Cursor.behind m.code start).EndsAt
      (min start m.code.length + (m.code.drop start).length) := by
    rw [Cursor.behind_eq]
    exact Cursor.endsAt_ofBytes _ _
  obtain ⟨hle, hend⟩ := h.le_pc hwhole
  have hpc : (State.start m (.behind m.code start)).pc = min start m.code.length := by
    rw [Cursor.behind_eq]
    rfl
  have hlast : t.pc ≤ min start m.code.length + (m.code.drop start).length := hend.pc_le
  rw [List.length_drop] at hlast
  have hstart : start ≤ t.pc := by omega
  have hstop : t.pc ≤ m.code.length := by omega
  have hcut : (m.cursorOver start t.pc).EndsAt t.pc := by
    have hc := endsAt_cursorOver (m := m) (Nat.le_trans hstart hstop) hstart
    rwa [Nat.min_eq_left hstop] at hc
  -- both runs end with the same leftovers, or with an array that is no statement
  have hwatched := runLoop_stopAfter 0 h hcount hwhole
    (i := (Cursor.behind m.code start).remaining.length + 1) (by
      have hr := hwhole.reach
      show _ < (Cursor.behind m.code start).pc + _
      omega)
  rw [start_behind m hstart hstop] at h
  obtain ⟨u, hruns, hupc, hu⟩ := h.restrict hcut
  have hdone : u.Done := by
    have hr := (hruns.advances hcut).2.reach
    have hp : u.cursor.pc = t.pc := hupc
    exact .inr (List.eq_nil_of_length_eq_zero (by omega))
  have hidle := runLoop_of_runs hruns hdone hcut
    (n := (m.cursorOver start t.pc).remaining.length + 1) (by
      have hr := hcut.reach
      show _ < (m.cursorOver start t.pc).pc + _
      omega)
  rw [Nat.zero_add] at hwatched
  rw [behind_take m hstart hstop, decompile, decompile, hwatched, hidle]
  show (exec finish t.abort).1 = (exec finish u).1
  rcases hu with hu | ⟨htop, hutop⟩
  · have hstack : t.stack = u.stack := by
      rw [hu]
      rfl
    have hstatements : t.statements = u.statements := by
      rw [hu]
      rfl
    exact exec_finish_congr hstack hstatements
  · have habort : t.abort.topIs .newArray := htop
    rw [exec_finish_of_newArray habort, exec_finish_of_newArray hutop]

-- A run that stops at the copy of a new array. The code goes on with an index, so nothing is
-- copied, but nothing follows when the code is cut off, and there are two arrays then.
theorem decompile_stopAfter_copy :
    let m : Method :=
      { className := "A", name := "m", descriptor := "()V", signature := ⟨[], .void⟩
        code := [Opcode.nop, Opcode.iconst5, Opcode.newarray, 10, Opcode.dup, Opcode.iconst0,
          Opcode.iconst5, Opcode.iastore, Opcode.areturn] }
    ∃ t, core.ExecutesMany 3 (.start m (.behind m.code 1)) t ∧ t.pc = 5 ∧ t.stack.length = 1 ∧
      (core.decompile (.stopAfter 3) 0 m (.behind m.code 1)).result =
        (core.decompile Observer.idle ⟨⟩ m (.behind (m.code.take t.pc) 1)).result := by
  intro m
  let start := State.start m (.behind m.code 1)
  let length := (exec (core.step Opcode.iconst5) start.fetch).2
  let array := (exec (core.step Opcode.newarray) length.fetch).2
  let copied := (exec (core.step Opcode.dup) array.fetch).2
  have hlength : core.Executes start length :=
    executes_of_isOk (by decide +kernel) (by decide +kernel) (by decide +kernel)
  have harray : core.Executes length array :=
    executes_of_isOk (by decide +kernel) (by decide +kernel) (by decide +kernel)
  have hcopied : core.Executes array copied :=
    executes_of_isOk (by decide +kernel) (by decide +kernel) (by decide +kernel)
  have h := ExecutesMany.succ hlength (.succ harray (.succ hcopied .zero))
  exact ⟨copied, h, by decide +kernel, by decide +kernel, decompile_stopAfter m (by decide) h⟩

end Registry

end JvmLift
