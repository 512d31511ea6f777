import JvmLift.Location
import JvmLift.Proofs.Extension

namespace JvmLift

-- Whether an entry is left over although the machine's own stack has nothing for it: a call
-- without a value, or an increment.
def Element.isSpent (e : Element) : Bool :=
  match e.shape with
  | .call c => c.ty = .void
  | .increment _ _ _ .pending => true
  | _ => false

theorem Element.isStatement_of_isSpent {e : Element} (h : e.isSpent) : e.isStatement := by
  unfold isSpent at h
  split at h
  · rename_i he
    simp [isStatement, isExpression, he]
  · rename_i he
    simp [isStatement, isExpression, he]
  · cases h

theorem Element.kind_ne_of_isSpent {e : Element} (h : e.isSpent) : e.kind ≠ .newArray := by
  unfold isSpent at h
  split at h
  · rename_i he
    simp [kind, he, Shape.kind]
  · rename_i he
    simp [kind, he, Shape.kind]
  · cases h

theorem Element.isSpent_of_isPendingIncrementOf {e load : Element} (h : e.isPendingIncrementOf load) :
    e.isSpent := by
  obtain ⟨shape, stamp⟩ := e
  cases shape with
  | increment v delta ty affix =>
    cases affix with
    | pending => rfl
    | _ => cases h
  | _ => cases h

theorem not_topIs_of_isSpent {s : State} (h : ∀ e ∈ s.stack, e.element.isSpent) :
    ¬s.topIs .newArray := by
  intro htop
  obtain ⟨top, below, hs, hk⟩ := State.topIs_iff.1 htop
  exact Element.kind_ne_of_isSpent (h top (hs ▸ List.mem_cons_self ..)) hk

-- Whether a line that ends in the state is recognised as complete: the run has ended, or at most
-- one call without a value is left.
def State.SettlesLine (s : State) : Prop :=
  s.aborted ∨ s.stack.length ≤ 1 ∧ ∀ e ∈ s.stack, e.element.ty = .void

instance (s : State) : Decidable s.SettlesLine :=
  inferInstanceAs (Decidable (_ ∨ _))

theorem State.settlesLine_of_empty {s : State} (h : s.stack = []) : s.SettlesLine := by
  right
  simp [h]

namespace LineEnd

variable {u : State} {stop : Nat}

abbrev alone (stop : Nat) : Observer (LineEnd × Unit) :=
  (observer stop).andThen Observer.idle

-- Nothing is done in front of the end of the line.
theorem notice_before (memory : LineEnd × Unit) (h : u.aborted ∨ u.pc < stop) :
    (alone stop).notice memory u = (memory, u) := by
  have hif : (u.aborted || decide (u.pc < stop)) = true := by simpa using h
  simp only [alone, Observer.andThen, observer, hif, if_true, Observer.idle]

theorem notice_empty (stop : Nat) (memory : LineEnd × Unit) (ha : u.aborted = false)
    (hpc : stop ≤ u.pc) (hs : u.stack = []) :
    ∃ memory', (alone stop).notice memory u = (memory', u.abort) := by
  have hif : (u.aborted || decide (u.pc < stop)) = false := by simp [ha, hpc]
  refine ⟨({ memory.1 with exitSize := some (memory.1.exitSize.getD 0) }, memory.2), ?_⟩
  simp only [alone, Observer.andThen, observer, hif, hs, Observer.idle]
  rfl

-- A settled line is cut off with everything that is left made a statement.
theorem notice_settled (stop : Nat) (ha : u.aborted = false) (hpc : stop ≤ u.pc)
    (hs : u.SettlesLine) (hst : ∀ e ∈ u.stack, e.element.isStatement) :
    ∃ memory v, (alone stop).notice ({}, ⟨⟩) u = (memory, v) ∧ v.aborted ∧ v.stack = [] ∧
      v.statements = u.flush.statements := by
  rcases hs with h | ⟨hlen, hty⟩
  · rw [ha] at h
    cases h
  cases h : u.stack with
  | nil =>
    obtain ⟨memory, he⟩ := notice_empty stop ({}, ⟨⟩) ha hpc h
    refine ⟨memory, u.abort, he, rfl, h, ?_⟩
    rw [flush_of_nil u h]
    rfl
  | cons top rest =>
    obtain rfl : rest = [] := by
      rw [h, List.length_cons] at hlen
      exact List.eq_nil_of_length_eq_zero (by omega)
    have hif : (u.aborted || decide (u.pc < stop)) = false := by simp [ha, hpc]
    have htop : top.element.isStatement := hst top (by simp [h])
    have hvoid : top.element.ty = .void := hty top (by simp [h])
    have hr : Action.reduce.run.run u =
        (.ok true, ({ u with stack := [] } : State).file top.settled) := by
      have he := Action.exec_reduce u
      rw [h] at he
      dsimp only at he
      rw [if_pos htop] at he
      exact he
    refine ⟨({ exitSize := some 1 }, ⟨⟩),
      (({ u with stack := [] } : State).file top.settled).abort, ?_, rfl, rfl, ?_⟩
    · simp only [alone, Observer.andThen, observer, hif, h, hvoid, hr, Observer.idle]
      rfl
    · simp only [State.flush, h, List.foldl_cons, List.foldl_nil]
      rfl

-- A line that is not settled goes on.
theorem notice_unsettled (stop : Nat) (hs : ¬u.SettlesLine) :
    ∃ memory, (alone stop).notice ({}, ⟨⟩) u = (memory, u) := by
  by_cases hif : (u.aborted || decide (u.pc < stop)) = true
  · exact ⟨_, notice_before _ (by simpa using hif)⟩
  · simp only [alone, Observer.andThen, observer, hif, Observer.idle]
    cases h : u.stack with
    | nil => exact absurd (State.settlesLine_of_empty h) hs
    | cons top rest =>
      cases rest with
      | nil =>
        have hty : top.element.ty ≠ .void := fun hty => hs (.inr (by simp [h, hty]))
        exact ⟨_, by simp [hty]; rfl⟩
      | cons next rest => exact ⟨_, rfl⟩

end LineEnd

namespace Registry

variable {r : Registry} {s t u : State} {σ : Type} {stop : Nat}

theorem runLoop_of_aborted (observer : Observer σ) (n : Nat) (memory : σ) (h : s.aborted) :
    r.runLoop observer n memory s = (.ok ⟨⟩, memory, s) := by
  cases n with
  | zero => rfl
  | succ n => rw [runLoop, if_pos h]

-- As long as nothing is noticed, a watched run is a run.
theorem runLoop_of_quiet (observer : Observer σ) (memory : σ)
    (hq : ∀ v, v.pc < stop → observer.notice memory v = (memory, v)) {last : Nat}
    (h : core.Runs s t) (hc : s.cursor.EndsAt last) (ht : t.pc < stop) {n : Nat}
    (hn : last < s.pc + n) :
    ∃ m, last < t.pc + m ∧
      core.runLoop observer n memory s = core.runLoop observer m memory t := by
  induction h using Relation.ReflTransGen.head_induction_on generalizing n with
  | refl => exact ⟨n, hn, rfl⟩
  | @head s v he hr ih =>
    have hpc : s.pc ≤ last := hc.pc_le
    obtain ⟨hlt, hend⟩ := he.advances hc
    have hle := (Runs.advances hr hend).1
    obtain ⟨k, rfl⟩ : ∃ k, n = k + 1 := ⟨n - 1, by omega⟩
    rw [runLoop_of_executes _ _ k he, hq v (by omega)]
    exact ih hend (by omega)

end Registry

namespace Method

variable (m : Method) {line : UInt16} {start stop : Nat}

theorem codeRange?_le (h : m.codeRange? line = some (start, stop)) :
    start < stop ∨ stop = m.code.length := by
  obtain ⟨first, -, h⟩ := Option.bind_eq_some_iff.1 h
  obtain ⟨rfl, rfl⟩ := Prod.mk.inj (Option.some.inj h)
  rcases hm : ((m.lines.filter fun e => e.line ≠ line && first < e.start.toNat).map
    fun e => e.start.toNat).min? with _ | low
  · right
    rw [hm]
    rfl
  · left
    obtain ⟨e, he, rfl⟩ := List.mem_map.1 (List.min?_mem hm)
    have hlt := (Bool.and_eq_true_iff.1 (List.mem_filter.1 he).2).2
    rw [hm]
    exact of_decide_eq_true hlt

-- The code of a line, at its place in the method.
def cursorOver (start stop : Nat) : Cursor :=
  { source := .ofBytes ((m.code.take stop).drop start), pc := start }

end Method

namespace Registry

section Line

variable {m : Method} {start stop : Nat} {u : State}

-- A state in the code of a line, as one in the code of the whole method.
abbrev inside (m : Method) (stop : Nat) (u : State) : State :=
  u.extend ((m.code.drop stop).map .byte)

theorem inside_start (h : start ≤ stop) :
    inside m stop (.start m (m.cursorOver start stop)) =
      .start m { source := .ofBytes (m.code.drop start), pc := start } := by
  have hd : (m.code.take stop).drop start ++ m.code.drop stop = m.code.drop start := by
    have hs : m.code.drop stop = (m.code.drop start).drop (stop - start) := by
      rw [List.drop_drop]
      congr
      omega
    rw [List.drop_take, hs, List.take_append_drop]
  simp [inside, State.extend, State.start, Cursor.extend, Method.cursorOver, Source.ofBytes, ← hd]

theorem endsAt_cursorOver (hle : start ≤ m.code.length) (hstop : start ≤ stop) :
    (m.cursorOver start stop).EndsAt (min stop m.code.length) := by
  have h := Cursor.endsAt_ofBytes ((m.code.take stop).drop start) start
  have hlen : start + ((m.code.take stop).drop start).length = min stop m.code.length := by
    rw [List.length_drop, List.length_take]
    omega
  exact hlen ▸ h

theorem endsAt_drop (hle : start ≤ m.code.length) :
    Cursor.EndsAt { source := .ofBytes (m.code.drop start), pc := start } m.code.length := by
  have h := Cursor.endsAt_ofBytes (m.code.drop start) start
  have hlen : start + (m.code.drop start).length = m.code.length := by
    rw [List.length_drop]
    omega
  exact hlen ▸ h

variable (hle : start ≤ m.code.length) (hrange : start < stop ∨ stop = m.code.length)
  (hu : core.Runs (.start m (m.cursorOver start stop)) u) (hd : u.Done)
include hle hrange hu

theorem pc_inside : u.pc ≤ m.code.length ∧ u.pc ≤ stop ∧
    (u.cursor.remaining = [] → u.pc = min stop m.code.length) := by
  have hstop : start ≤ stop := by omega
  have hend := (Runs.advances hu (endsAt_cursorOver hle hstop)).2
  have hpc : u.pc ≤ min stop m.code.length := hend.pc_le
  refine ⟨by omega, by omega, fun hnil => ?_⟩
  have hr := hend.reach
  rw [hnil] at hr
  exact hr

theorem endsAt_inside (htop : ¬u.topIs .newArray) :
    (inside m stop u).cursor.EndsAt m.code.length := by
  have hstop : start ≤ stop := by omega
  have hx : core.Runs (inside m stop (.start m (m.cursorOver start stop))) (inside m stop u) :=
    Runs.extend hu (endsAt_cursorOver hle hstop) (fun h => htop h.2) _
  rw [inside_start hstop] at hx
  exact (Runs.advances hx (endsAt_drop hle)).2

include hd

-- The watched run comes to the end of the line in the state of the run over the line alone.
theorem runLoop_line (htop : ¬u.topIs .newArray) :
    ∃ n w, core.runLoop (LineEnd.alone stop) (m.code.length - start + 1) ({}, ⟨⟩)
        (.start m { source := .ofBytes (m.code.drop start), pc := start }) =
          core.runLoop (LineEnd.alone stop) n w.1 w.2 ∧
      m.code.length < u.pc + n ∧
      (w = (LineEnd.alone stop).notice ({}, ⟨⟩) (inside m stop u) ∨
        w = (({}, ⟨⟩), inside m stop u) ∧ m.code.length ≤ stop ∧ u.stack = []) := by
  have hstop : start ≤ stop := by omega
  have hend := endsAt_cursorOver hle hstop
  rw [← inside_start hstop]
  rcases hu.cases_tail with rfl | ⟨p, hp, he⟩
  · refine ⟨_, (({}, ⟨⟩), _), rfl, ?_, .inr ⟨rfl, ?_, rfl⟩⟩
    · show m.code.length < start + _
      omega
    · have hnil := hd.resolve_left Bool.false_ne_true
      have hpc := (pc_inside hle hrange hu).2.2 hnil
      have hpc' : start = min stop m.code.length := hpc
      omega
  · obtain ⟨hlt, -⟩ := he.advances (Runs.advances hp hend).2
    have hpcu := pc_inside hle hrange hu
    have hrest : p.cursor.remaining ≠ [] := by
      obtain ⟨code, rest, hcons, -⟩ := he.fetched (Runs.advances hp hend).2
      rw [hcons]
      exact List.cons_ne_nil _ _
    have hpx := Runs.extend hp hend (fun h => hrest h.1) ((m.code.drop stop).map .byte)
    have hex := (he.extend (Runs.advances hp hend).2
      ((m.code.drop stop).map .byte)).resolve_right fun h => htop h.2
    have hends : (inside m stop (.start m (m.cursorOver start stop))).cursor.EndsAt
        m.code.length := by
      rw [inside_start hstop]
      exact endsAt_drop hle
    have hn : m.code.length < start + (m.code.length - start + 1) := by omega
    obtain ⟨k, hk, hloop⟩ := runLoop_of_quiet (LineEnd.alone stop) ({}, ⟨⟩)
      (fun v hv => LineEnd.notice_before _ (.inr hv)) hpx hends (by show p.pc < stop; omega) hn
    have hpk : m.code.length < p.pc + k := hk
    obtain ⟨n, rfl⟩ : ∃ n, k = n + 1 := ⟨k - 1, by omega⟩
    rw [hloop, runLoop_of_executes _ _ n hex]
    exact ⟨n, _, rfl, by omega, .inl rfl⟩

-- A run that is done with the line stays as it is in the whole code, if it was aborted or nothing
-- follows.
theorem runLoop_inside (htop : ¬u.topIs .newArray) (h : u.aborted ∨ m.code.length ≤ stop)
    (memory : LineEnd × Unit) {n : Nat} (hn : 0 < n) :
    core.runLoop (LineEnd.alone stop) n memory (inside m stop u) =
      (.ok ⟨⟩, memory, inside m stop u) := by
  have hdone : (inside m stop u).Done := by
    rcases h with h | h
    · exact .inl h
    · rcases hd with ha | hr
      · exact .inl ha
      · right
        have hc : (inside m stop u).cursor =
          u.cursor.extend ((m.code.drop stop).map .byte) := rfl
        rw [hc, Cursor.remaining_extend, hr, List.drop_eq_nil_of_le h]
        rfl
  obtain ⟨k, rfl⟩ : ∃ k, n = k + 1 := ⟨n - 1, by omega⟩
  exact runLoop_of_done (LineEnd.alone stop) memory k (endsAt_inside hle hrange hu htop) hdone

-- What is left of a settled line is made statements as if the line were all there is.
theorem runLoop_settled (hs : u.SettlesLine ∨ m.code.length ≤ stop)
    (hspent : ∀ e ∈ u.stack, e.element.isSpent) :
    ∃ memory v, core.runLoop (LineEnd.alone stop) (m.code.length - start + 1) ({}, ⟨⟩)
        (.start m { source := .ofBytes (m.code.drop start), pc := start }) =
          (.ok ⟨⟩, memory, v) ∧
      (∀ e ∈ v.stack, e.element.isStatement) ∧
      v.flush.statements = u.flush.statements := by
  have hst : ∀ e ∈ u.stack, e.element.isStatement := by
    intro e he
    exact Element.isStatement_of_isSpent (hspent e he)
  have htop := not_topIs_of_isSpent hspent
  obtain ⟨hpc, hpcs, hnil⟩ := pc_inside hle hrange hu
  obtain ⟨n, w, hloop, hn, hw⟩ := runLoop_line hle hrange hu hd htop
  have hpos : 0 < n := by omega
  have hdone (memory : LineEnd × Unit) (h : u.aborted ∨ m.code.length ≤ stop) :
      ∃ v, core.runLoop (LineEnd.alone stop) n memory (inside m stop u) =
          (.ok ⟨⟩, memory, v) ∧
        (∀ e ∈ v.stack, e.element.isStatement) ∧ v.flush.statements = u.flush.statements := by
    have hv := runLoop_inside hle hrange hu hd htop h memory hpos
    exact ⟨inside m stop u, hv, hst, rfl⟩
  rw [hloop]
  rcases hw with rfl | ⟨rfl, hlen, -⟩
  · by_cases hq : u.aborted ∨ u.pc < stop
    · have hquiet := LineEnd.notice_before (u := inside m stop u) ({}, ⟨⟩) hq
      have hlast : u.aborted ∨ m.code.length ≤ stop := by
        by_cases ha : u.aborted
        · exact .inl ha
        · have hrem := hnil (hd.resolve_left ha)
          have hlt := hq.resolve_left ha
          exact .inr (by omega)
      obtain ⟨v, hv⟩ := hdone _ hlast
      rw [hquiet]
      exact ⟨_, v, hv⟩
    · obtain ⟨ha, hge⟩ := not_or.1 hq
      have ha : u.aborted = false := by simpa using ha
      by_cases hsettle : u.SettlesLine
      · obtain ⟨memory, v, hv, hab, hvs, hvst⟩ := LineEnd.notice_settled
          (u := inside m stop u) stop ha (Nat.le_of_not_lt hge) hsettle hst
        rw [hv, runLoop_of_aborted _ n memory hab]
        refine ⟨memory, v, rfl, by simp [hvs], ?_⟩
        rw [flush_of_nil v hvs, hvst]
        rfl
      · obtain ⟨memory, hm⟩ := LineEnd.notice_unsettled (u := inside m stop u) stop hsettle
        obtain ⟨v, hv⟩ := hdone memory (.inr (hs.resolve_left hsettle))
        rw [hm]
        exact ⟨memory, v, hv⟩
  · obtain ⟨v, hv⟩ := hdone ({}, ⟨⟩) (.inr hlen)
    exact ⟨_, v, hv⟩

-- A line that is not settled takes the return behind it with it.
theorem runLoop_unsettled (hs : ¬u.SettlesLine)
    (hret : m.code[stop]? = some Opcode.returnVoid)
    (hspent : ∀ e ∈ u.stack, e.element.isSpent) :
    ∃ memory v e, core.runLoop (LineEnd.alone stop) (m.code.length - start + 1) ({}, ⟨⟩)
        (.start m { source := .ofBytes (m.code.drop start), pc := start }) =
          (.ok ⟨⟩, memory, v) ∧
      v.stack = [] ∧ e.element.shape = .ret ∧ v.statements = e :: u.flush.statements := by
  have hst : ∀ e ∈ u.stack, e.element.isStatement := fun e he =>
    Element.isStatement_of_isSpent (hspent e he)
  have htop := not_topIs_of_isSpent hspent
  obtain ⟨hpc, hpcs, hnil⟩ := pc_inside hle hrange hu
  obtain ⟨n, w, hloop, hn, hw⟩ := runLoop_line hle hrange hu hd htop
  obtain ⟨hlt, hcode⟩ := List.getElem?_eq_some_iff.1 hret
  have ha : u.aborted = false := by
    simpa using fun ha => hs (.inl ha)
  have hrem : u.cursor.remaining = [] := hd.resolve_left (by simp [ha])
  have hw : w = (LineEnd.alone stop).notice ({}, ⟨⟩) (inside m stop u) := by
    rcases hw with rfl | ⟨-, hlen, -⟩
    · rfl
    · omega
  obtain ⟨memory, hm⟩ := LineEnd.notice_unsettled (u := inside m stop u) stop hs
  rw [hloop, hw, hm]
  -- the return is executed although it belongs to another line
  have hcons : (inside m stop u).cursor.remaining =
      Opcode.returnVoid :: m.code.drop (stop + 1) := by
    have hc : (inside m stop u).cursor = u.cursor.extend ((m.code.drop stop).map .byte) := rfl
    have hb : Source.bytes ⟨(m.code.drop stop).map .byte, none⟩ = m.code.drop stop :=
      Source.bytes_ofBytes _
    rw [hc, Cursor.remaining_extend, hrem, hb, List.drop_eq_getElem_cons hlt, hcode]
    rfl
  have hstep := exec_step_returnVoid (s := (inside m stop u).fetch) hst
  have he : core.Executes (inside m stop u) _ := executes_of_cons ha hcons hstep
  obtain ⟨k, rfl⟩ : ∃ k, n = k + 1 := ⟨n - 1, by omega⟩
  rw [runLoop_of_executes _ _ k he]
  have hge : stop ≤ u.pc + 1 := by
    have := hnil hrem
    omega
  obtain ⟨memory', hm'⟩ := LineEnd.notice_empty
    (u := (inside m stop u).fetch.flush.enlist (.ofShape .ret)) stop memory ha hge rfl
  rw [hm', runLoop_of_aborted _ k memory' rfl]
  exact ⟨memory', _, (inside m stop u).fetch.flush.entry (.ofShape .ret), rfl, rfl, rfl, rfl⟩

end Line

section DecompileLine

variable (m : Method) {line : UInt16} {start stop : Nat}

theorem decompileLine_result (h : m.codeRange? line = some (start, stop)) :
    (core.decompileLine Observer.idle ⟨⟩ m line >>= (·.result)) =
      (core.decompile (LineEnd.alone stop) ({}, ⟨⟩) m
        { source := .ofBytes (m.code.drop start), pc := min start m.code.length }).result := by
  have hskip : (Reading.skip start).run.run (.ofCode m.code) = _ :=
    Reading.exec_skip_ofCode start m.code
  rw [decompileLine, h]
  simp only [hskip]
  rfl

-- The run over the whole code starts where the line does.
theorem decompileLine_of_runLoop (hrange : m.codeRange? line = some (start, stop))
    (hle : start ≤ m.code.length) {memory : LineEnd × Unit} {v : State}
    (hloop : core.runLoop (LineEnd.alone stop) (m.code.length - start + 1) ({}, ⟨⟩)
      (.start m { source := .ofBytes (m.code.drop start), pc := start }) = (.ok ⟨⟩, memory, v))
    (hst : ∀ e ∈ v.stack, e.element.isStatement) :
    (core.decompileLine Observer.idle ⟨⟩ m line >>= (·.result)) = verified v.flush.result := by
  have hlength : m.code.length - start =
      (Cursor.remaining { source := .ofBytes (m.code.drop start), pc := start }).length := by
    rw [Cursor.remaining, Source.bytes_ofBytes, List.nil_append, List.length_drop]
  rw [hlength] at hloop
  rw [decompileLine_result m hrange, Nat.min_eq_left hle]
  exact decompile_of_runLoop hloop hst

theorem remaining_cursorOver (start stop : Nat) :
    (m.cursorOver start stop).remaining = (m.code.take stop).drop start := by
  rw [Method.cursorOver, Cursor.remaining, Source.bytes_ofBytes, List.nil_append]

-- What a run over the line alone leaves is its statements.
theorem decompile_cursorOver {s : State}
    (hrun : core.runLoop Observer.idle (((m.code.take stop).drop start).length + 1) ⟨⟩
      (.start m (m.cursorOver start stop)) = (.ok ⟨⟩, ⟨⟩, s))
    (hst : ∀ e ∈ s.stack, e.element.isStatement) :
    (core.decompile Observer.idle ⟨⟩ m (m.cursorOver start stop)).result =
      verified s.flush.result := by
  rw [← remaining_cursorOver] at hrun
  exact decompile_of_runLoop hrun hst

-- A line behind the end of the code has nothing to decompile.
theorem decompile_of_empty {σ : Type} (observer : Observer σ) (memory : σ) (pc : Nat) :
    (core.decompile observer memory m { source := .ofBytes [], pc }).result = .ok [] := by
  have h := runLoop_of_done (r := core) (s := .start m { source := .ofBytes [], pc })
    observer memory 0 (Cursor.endsAt_ofBytes [] pc) (.inr rfl)
  have hst : ∀ e ∈ (State.start m { source := .ofBytes [], pc }).stack,
      e.element.isStatement := by
    intro e he
    cases he
  exact decompile_of_runLoop h hst

theorem decompileLine_behind (hrange : m.codeRange? line = some (start, stop))
    (hbehind : m.code.length < start) :
    (core.decompileLine Observer.idle ⟨⟩ m line >>= (·.result)) = .ok [] := by
  have hdrop : m.code.drop start = [] := List.drop_eq_nil_of_le (by omega)
  rw [decompileLine_result m hrange, hdrop]
  apply decompile_of_empty

-- Nothing is executed of such a line, so nothing is left.
theorem decompile_cursorOver_behind (hbehind : m.code.length < start) {s : State}
    (hrun : core.runLoop Observer.idle (((m.code.take stop).drop start).length + 1) ⟨⟩
      (.start m (m.cursorOver start stop)) = (.ok ⟨⟩, ⟨⟩, s)) :
    (core.decompile Observer.idle ⟨⟩ m (m.cursorOver start stop)).result = .ok [] ∧
      s.stack = [] := by
  have hdrop : m.code.drop start = [] := List.drop_eq_nil_of_le (by omega)
  have hnone : (m.code.take stop).drop start = [] := by
    rw [List.drop_take, hdrop, List.take_nil]
  rw [Method.cursorOver, hnone] at hrun ⊢
  have he := runLoop_of_done (r := core)
    (s := .start m { source := .ofBytes [], pc := start }) Observer.idle ⟨⟩ 0
    (Cursor.endsAt_ofBytes [] start) (.inr rfl)
  rw [List.length_nil, he] at hrun
  obtain ⟨-, -, rfl⟩ := by simpa only [Prod.mk.injEq] using hrun
  exact ⟨decompile_of_empty m Observer.idle ⟨⟩ start, rfl⟩

section Inside

variable {u : State} (hrange : m.codeRange? line = some (start, stop))
  (hle : start ≤ m.code.length) (hu : core.Runs (.start m (m.cursorOver start stop)) u)
  (hd : u.Done) (hspent : ∀ e ∈ u.stack, e.element.isSpent)
include hrange hle hu hd hspent

-- A settled line, or the last one, is decompiled as if it were alone.
theorem decompileLine_settled (hs : u.SettlesLine ∨ m.code.length ≤ stop) :
    (core.decompileLine Observer.idle ⟨⟩ m line >>= (·.result)) = verified u.flush.result := by
  obtain ⟨memory, v, hloop, hv, hvst⟩ :=
    runLoop_settled hle (m.codeRange?_le hrange) hu hd hs hspent
  have hresult : v.flush.result = u.flush.result := by
    rw [State.result, hvst, State.result]
  rw [← hresult]
  exact decompileLine_of_runLoop m hrange hle hloop hv

-- Another line is decompiled with the return behind it.
theorem decompileLine_unsettled (hs : ¬u.SettlesLine)
    (hret : m.code[stop]? = some Opcode.returnVoid) :
    ∃ stamp, (core.decompileLine Observer.idle ⟨⟩ m line >>= (·.result)) =
      verified (u.flush.result ++ [⟨.ret, stamp⟩]) := by
  obtain ⟨memory, v, ⟨⟨shape, stamp⟩, pc, version⟩, hloop, hv, rfl, hvst⟩ :=
    runLoop_unsettled hle (m.codeRange?_le hrange) hu hd hs hret hspent
  have hst : ∀ e ∈ v.stack, e.element.isStatement := by
    rw [hv]
    exact List.forall_mem_nil _
  have hresult : v.flush.result = u.flush.result ++ [⟨.ret, stamp⟩] := by
    rw [flush_of_nil v hv, State.result, hvst, List.reverse_cons, List.map_append]
    rfl
  refine ⟨stamp, ?_⟩
  rw [← hresult]
  exact decompileLine_of_runLoop m hrange hle hloop hst

end Inside

end DecompileLine

-- A line whose code leaves nothing for the machine to use is decompiled as if it were alone, if
-- it is settled or the last one. If it is not settled and a return follows, it is decompiled
-- with the return.
theorem decompileLine_of_spent (m : Method) (line : UInt16) {start stop : Nat} {s : State}
    (hrange : m.codeRange? line = some (start, stop))
    (hrun : core.runLoop Observer.idle (((m.code.take stop).drop start).length + 1) ⟨⟩
      (.start m (m.cursorOver start stop)) = (.ok ⟨⟩, ⟨⟩, s))
    (hspent : ∀ e ∈ s.stack, e.element.isSpent) :
    let whole := core.decompileLine Observer.idle ⟨⟩ m line >>= (·.result)
    let alone := (core.decompile Observer.idle ⟨⟩ m (m.cursorOver start stop)).result
    (s.SettlesLine ∨ m.code.length ≤ stop → whole = alone) ∧
      (¬s.SettlesLine → m.code[stop]? = some Opcode.returnVoid →
        ∀ statements, alone = .ok statements →
          ∃ stamp, whole = .ok (statements ++ [⟨.ret, stamp⟩])) := by
  intro whole alone
  by_cases hle : start ≤ m.code.length
  · have hst : ∀ e ∈ s.stack, e.element.isStatement := by
      intro e he
      exact Element.isStatement_of_isSpent (hspent e he)
    have halone : alone = verified s.flush.result := decompile_cursorOver m hrun hst
    have hstop := m.codeRange?_le hrange
    have hend := endsAt_cursorOver hle (show start ≤ stop by omega)
    have hn : min stop m.code.length <
        start + (((m.code.take stop).drop start).length + 1) := by
      rw [List.length_drop, List.length_take]
      omega
    obtain ⟨hu, hd⟩ := runs_of_runLoop hrun hend hn
    constructor
    · intro hs
      rw [halone]
      exact decompileLine_settled m hrange hle hu hd hspent hs
    · intro hs hret statements hok
      obtain ⟨stamp, hwhole⟩ :=
        decompileLine_unsettled m hrange hle hu hd hspent hs hret
      have hfinished : (Element.mk .ret stamp).contains Element.isUnfinished = false := rfl
      have hverified : verified s.flush.result = .ok statements := halone.symm.trans hok
      rw [verified_concat _ hfinished, hverified] at hwhole
      exact ⟨stamp, hwhole⟩
  · have hbehind : m.code.length < start := by omega
    obtain ⟨halone, hnil⟩ := decompile_cursorOver_behind m hbehind hrun
    constructor
    · intro _
      exact (decompileLine_behind m hrange hbehind).trans halone.symm
    · intro hs
      exact absurd (State.settlesLine_of_empty hnil) hs

-- A method with a line of calls without a value, and a return in the line after it.
def callsThenReturn (count : Nat) : Method :=
  { className := "A", name := "m", descriptor := "()V", signature := ⟨[], .void⟩
    code := (List.replicate count [Opcode.invokestatic, 0, 6]).flatten ++ [Opcode.returnVoid]
    lines := [⟨0, 1⟩, ⟨.ofNat (3 * count), 2⟩]
    pool := ⟨#[.utf8 "A", .classRef 1, .utf8 "f", .utf8 "()V", .nameAndType 3 4,
      .methodRef 2 5]⟩ }

theorem decompileLine_of_one_call :
    (core.decompileLine Observer.idle ⟨⟩ (callsThenReturn 1) 1 >>= (·.result)) =
      (core.decompile Observer.idle ⟨⟩ (callsThenReturn 1)
        ((callsThenReturn 1).cursorOver 0 3)).result := by
  have hrun : (core.runLoop Observer.idle 4 ⟨⟩
      (.start (callsThenReturn 1) ((callsThenReturn 1).cursorOver 0 3))).1 = .ok ⟨⟩ := by
    decide +kernel
  exact (decompileLine_of_spent (callsThenReturn 1) 1 (by decide +kernel)
    (Prod.ext hrun rfl) (by decide +kernel)).1 (by decide +kernel)

-- Two calls without a value are not taken for a complete line: the return behind them is
-- decompiled with them.
theorem decompileLine_of_two_calls :
    (callsThenReturn 2).codeRange? 1 = some (0, 6) ∧
      (∃ s, core.runLoop Observer.idle 7 ⟨⟩
          (.start (callsThenReturn 2) ((callsThenReturn 2).cursorOver 0 6)) = (.ok ⟨⟩, ⟨⟩, s) ∧
        ∀ e ∈ s.stack, e.element.isSpent) ∧
      (core.decompileLine Observer.idle ⟨⟩ (callsThenReturn 2) 1 >>= (·.result)) ≠
        (core.decompile Observer.idle ⟨⟩ (callsThenReturn 2)
          ((callsThenReturn 2).cursorOver 0 6)).result := by
  have hrun : (core.runLoop Observer.idle 7 ⟨⟩
      (.start (callsThenReturn 2) ((callsThenReturn 2).cursorOver 0 6))).1 = .ok ⟨⟩ := by
    decide +kernel
  refine ⟨by decide +kernel, ⟨_, Prod.ext hrun rfl, by decide +kernel⟩, fun h => ?_⟩
  have hlength := congrArg (fun result => result.toOption.map List.length) h
  revert hlength
  decide +kernel

end Registry

end JvmLift
