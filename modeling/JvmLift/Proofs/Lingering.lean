import JvmLift.Proofs.Finished
import JvmLift.Proofs.Jumps.Runs
import JvmLift.Proofs.Line
import JvmLift.Proofs.Pending.Core

namespace JvmLift

open JvmLift.State (Survives)

-- How often an element is in a state, on the stack and among the statements.
def State.total (v : Element) (s : State) : Nat :=
  tally v s.stack + tally v s.statements

section Finish

variable {v : Element} (hv : v.kind = .call)
include hv

-- What is reduced is in the statements as often as it was on the stack.
theorem Action.total_reduceMany {n : Nat} {s t : State} {reduced : Bool}
    (h : exec (reduceMany n) s = (.ok reduced, t)) :
    t.stack = s.stack.drop n ∧ t.total v = s.total v := by
  induction n generalizing s reduced with
  | zero =>
    obtain ⟨-, rfl⟩ := Prod.mk.inj h
    exact ⟨rfl, rfl⟩
  | succ n ih =>
    rw [reduceMany] at h
    obtain ⟨more, u, hu, h⟩ := exec_bind_eq_ok.1 h
    rw [exec_reduce] at hu
    cases hs : s.stack with
    | nil =>
      rw [hs] at hu
      obtain ⟨hmore, rfl⟩ := Prod.mk.inj hu
      cases hmore
      obtain ⟨-, rfl⟩ := Prod.mk.inj h
      exact ⟨hs, rfl⟩
    | cons top rest =>
      simp only [hs] at hu
      split at hu
      · obtain ⟨hmore, rfl⟩ := Prod.mk.inj hu
        cases hmore
        rw [if_pos rfl] at h
        obtain ⟨⟨⟩, w, hw, hlast⟩ := exec_bind_eq_ok.1 h
        obtain ⟨-, rfl⟩ := Prod.mk.inj hlast
        rw [exec_discard] at hw
        rcases hmany : exec (reduceMany n) _ with ⟨fault | reduced, w'⟩
        all_goals rw [hmany] at hw
        · cases (Prod.mk.inj hw).1
        · obtain ⟨-, rfl⟩ := Prod.mk.inj hw
          obtain ⟨hstack, htotal⟩ := ih hmany
          refine ⟨hstack, htotal.trans ?_⟩
          have hfile : ((s.leaving rest).file top.settled).total v =
              tally v rest + (v.occurrences top.element + tally v s.statements) := by
            rw [State.total, tally_file, ← Element.occurrences_settled hv top.element]
            rfl
          refine hfile.trans ?_
          rw [State.total, hs, tally_cons]
          omega
      · cases (Prod.mk.inj hu).1

-- A result has everything that the last state has.
theorem count_of_exec_finish {s : State} {statements : List Element}
    (h : (exec finish s).1 = .ok statements) : v.count statements = s.total v := by
  have hresult := result_of_exec_finish h
  rw [exec_finish_fst] at h
  rw [exec_finish_snd] at hresult
  rcases hreduce : exec Action.reduceAll s with ⟨fault | reduced, t⟩
  all_goals rw [hreduce] at h hresult
  · cases h
  · rw [Action.reduceAll, exec_bind_of_ok (exec_get s)] at hreduce
    obtain ⟨hstack, htotal⟩ := Action.total_reduceMany hv hreduce
    rw [List.drop_length] at hstack
    rw [hresult, count_result, ← htotal, State.total, hstack]
    exact (Nat.zero_add _).symm

end Finish

theorem State.Survives.total_le {v : Element} {n : Nat} {statements : List Entry} {t : State}
    (h : Survives v false n statements t) : tally v statements + n ≤ t.total v := by
  cases h with
  | finalized hs hn =>
    rw [State.total]
    omega
  | covered hs hn ht =>
    rw [State.total, hs, ht, tally_cons, tally_cons]
    omega
  | alone hs hn ht hl =>
    have hle := hn.le_occurrences
    rw [State.total, hs, ht, tally_cons]
    omega

theorem State.Survives.exists_lone {v : Element} {n : Nat} {statements : List Entry} {t : State}
    (h : Survives v false n statements t) (hlen : t.stack.length = 1) :
    ∃ only, t.stack = [only] ∧ n ≤ v.occurrences only.element ∧
      tally v t.statements = tally v statements ∧
      (t.aborted = false → endsWith v t.statements → endsWith v statements) := by
  cases h with
  | finalized hs hn => simp [hs] at hlen
  | covered hs hn ht => simp [hs] at hlen
  | alone hs hn ht hl => exact ⟨_, hs, hn, ht, hl⟩

-- Whether every call site that a run comes to with a single entry on the stack has that in what
-- it makes, and takes no statement back.
def State.CallSitesKeep (v : Element) (code : Bytes) (s : State) : Prop :=
  ∀ p q, Registry.core.Runs s p → p.stack.length = 1 →
    code[p.pc]? = some Opcode.invokedynamic → Registry.core.Executes p q →
      q.statements = p.statements ∧ tally v p.stack ≤ tally v q.stack

theorem State.callSitesKeep_of_not_mem {code : Bytes} (h : Opcode.invokedynamic ∉ code)
    (v : Element) (s : State) : s.CallSitesKeep v code :=
  fun _ _ _ _ hcode => absurd (List.mem_of_getElem? hcode) h

namespace LineEnd

variable {σ : Type} {observer : Observer σ} {v : Element} {stop : Nat} {u : State}

-- The memory while a single value that the line has left is followed.
def following (v : Element) : LineEnd :=
  ⟨some 1, some v⟩

-- What is done with a state while a value is followed.
def cut (v : Element) (u : State) : State :=
  match u.stack with
  | [] => u.abort
  | _ :: rest =>
    if 1 < u.stack.length ∨ endsWith v u.statements then (u.leaving rest).abort else u

section Cut

theorem cut_of_nil (hs : u.stack = []) : cut v u = u.abort := by
  rw [cut, hs]

theorem cut_of_lone {only : Entry} (hs : u.stack = [only]) :
    cut v u = if endsWith v u.statements then (u.leaving []).abort else u := by
  simp [cut, hs]

theorem cut_of_two {top bottom : Entry} (hs : u.stack = [top, bottom]) :
    cut v u = (u.leaving [bottom]).abort := by
  simp [cut, hs]

-- What is done while a value is followed ends the run, or it is nothing.
theorem cut_aborted_or_eq : (cut v u).aborted ∨ cut v u = u ∧ u.stack.length = 1 := by
  rw [cut]
  split
  · exact .inl rfl
  · rename_i top rest hs
    split
    · exact .inl rfl
    · rename_i hnot
      refine .inr ⟨rfl, ?_⟩
      rw [hs, List.length_cons] at hnot ⊢
      omega

-- It takes nothing away, unless an earlier statement is taken for the use of the value.
theorem total_le_cut {n : Nat} {statements : List Entry} (h : Survives v false n statements u)
    (hlast : u.stack.length = 1 → endsWith v u.statements = false) :
    tally v statements + n ≤ (cut v u).total v := by
  cases h with
  | finalized hs hn =>
    rw [cut_of_nil hs]
    show _ ≤ tally v u.stack + tally v u.statements
    omega
  | @covered top bottom hs hn ht =>
    rw [cut_of_two hs]
    show _ ≤ v.occurrences bottom.element + 0 + tally v u.statements
    omega
  | alone hs hn ht hl =>
    rw [cut_of_lone hs, hlast (by rw [hs]; rfl), if_neg Bool.false_ne_true, State.total, hs,
      tally_cons]
    have hle := hn.le_occurrences
    omega

end Cut

section Quiet

variable (stop) (hquiet : ∀ memory s, (observer.notice memory s).2 = s)
include hquiet

theorem andThen_notice_before (memory : LineEnd × σ) (h : u.aborted ∨ u.pc < stop) :
    ∃ seen, ((LineEnd.observer stop).andThen observer).notice memory u = ((memory.1, seen), u) := by
  have hif : (u.aborted || decide (u.pc < stop)) = true := by simpa using h
  refine ⟨(observer.notice memory.2 u).1, ?_⟩
  simp only [Observer.andThen, LineEnd.observer, hif, if_true, hquiet]

variable (ha : u.aborted = false) (hpc : stop ≤ u.pc)
include ha hpc

theorem andThen_notice_lone {only : Entry} (hs : u.stack = [only])
    (hty : only.element.ty ≠ .void) (seen : σ) :
    ∃ seen', ((LineEnd.observer stop).andThen observer).notice ({}, seen) u =
      ((following only.element, seen'), u) := by
  have hif : (u.aborted || decide (u.pc < stop)) = false := by simp [ha, hpc]
  refine ⟨(observer.notice seen u).1, ?_⟩
  simp only [Observer.andThen, LineEnd.observer, hif, hs, if_neg hty]
  exact Prod.ext rfl (hquiet _ _)

theorem andThen_notice_following (seen : σ) :
    ∃ seen', ((LineEnd.observer stop).andThen observer).notice (following v, seen) u =
      ((following v, seen'), cut v u) := by
  have hif : (u.aborted || decide (u.pc < stop)) = false := by simp [ha, hpc]
  refine ⟨(observer.notice seen (cut v u)).1, ?_⟩
  have hend : ((LineEnd.observer stop).notice (following v) u) = (following v, cut v u) := by
    simp only [LineEnd.observer, hif, following, cut]
    rcases u.stack with _ | ⟨top, _ | ⟨next, rest⟩⟩
    · rfl
    · simp only [List.length_singleton, Option.getD_some, Nat.lt_irrefl, false_or, decide_false,
        Bool.false_or, lastStatement?_any_same, Bool.false_eq_true, if_false]
      split <;> rfl
    · simp
      rfl
  rw [Observer.andThen]
  simp only [hend]
  exact Prod.ext rfl (hquiet _ _)

end Quiet

end LineEnd

namespace Registry

section Following

variable {σ : Type} {observer : Observer σ} (hquiet : ∀ memory s, (observer.notice memory s).2 = s)
  {v : Element} {stop : Nat} {code : Bytes}

theorem callSitesKeep_of_executes {s t : State} (h : core.Executes s t)
    (hs : s.CallSitesKeep v code) : t.CallSitesKeep v code :=
  fun p q hp => hs p q (.head h hp)

theorem survives_executes (hv : v.kind = .call) {s t : State} {only : Entry}
    (hreads : s.Reads code) (hsites : s.CallSitesKeep v code) (hs : s.stack = [only])
    (hpos : 1 ≤ v.occurrences only.element) (h : core.Executes s t) :
    Survives v false (v.occurrences only.element) s.statements t := by
  obtain ⟨head, rest, hcons, ht⟩ := h.fetched hreads.ends
  have hlone : Action.Lone v (v.occurrences only.element) s.fetch.stack := ⟨only, hs, rfl⟩
  by_cases hhead : head = Opcode.invokedynamic
  · subst hhead
    have hcode : code[s.pc]? = some Opcode.invokedynamic := hreads.getElem?_of_remaining hcons
    obtain ⟨hst, hle⟩ := hsites s t .refl (by rw [hs]; rfl) hcode h
    obtain ⟨top, htop | ⟨bottom, hstack, hn⟩⟩ := leaves_step_invokedynamic (s := s.fetch) hlone ht
    · rw [hs, htop] at hle
      exact .alone htop hle (congrArg (tally v) hst) fun _ hl => hst ▸ hl
    · exact .covered hstack hn (congrArg (tally v) hst)
  · exact survives_step (s := s.fetch) hv hpos hhead hlone ht

include hquiet

-- As long as the line is not at its end, it is not looked at what is done.
theorem runLoop_before {s t : State} (h : core.Runs s t) (hreads : s.Reads code)
    (ht : t.pc < stop) {n : Nat} (hn : code.length < s.pc + n) (memory : LineEnd × σ) :
    ∃ k seen, code.length < t.pc + k ∧
      core.runLoop ((LineEnd.observer stop).andThen observer) n memory s =
        core.runLoop ((LineEnd.observer stop).andThen observer) k (memory.1, seen) t := by
  induction h using Relation.ReflTransGen.head_induction_on generalizing n memory with
  | refl => exact ⟨n, memory.2, hn, rfl⟩
  | @head s u he hr ih =>
    have hpc : s.pc ≤ code.length := hreads.ends.pc_le
    obtain ⟨hlt, -⟩ := he.advances hreads.ends
    have hle := (Runs.advances hr (he.reads hreads).ends).1
    obtain ⟨k, rfl⟩ : ∃ k, n = k + 1 := ⟨n - 1, by omega⟩
    obtain ⟨seen, hseen⟩ :=
      LineEnd.andThen_notice_before stop hquiet memory (.inr (show u.pc < stop by omega))
    rw [runLoop_of_executes _ _ k he, hseen]
    exact ih (he.reads hreads) (by omega) (memory.1, seen)

-- What is followed is in the last state as often as in the first one, unless an earlier statement
-- is taken for it.
theorem total_le_of_runLoop (hv : v.kind = .call) {n : Nat} {u w : State} {only : Entry}
    {seen : σ} {memory : LineEnd × σ} (hreads : u.Reads code) (hsites : u.CallSitesKeep v code)
    (hpc : stop ≤ u.pc) (hs : u.stack = [only]) (hpos : 1 ≤ v.occurrences only.element)
    (hnext : ∀ t, core.Executes u t → t.aborted = false → t.stack.length = 1 →
      endsWith v t.statements = false)
    (h : core.runLoop ((LineEnd.observer stop).andThen observer) n (.following v, seen) u =
      (.ok ⟨⟩, memory, w)) :
    u.total v ≤ w.total v := by
  induction n generalizing u only seen with
  | zero =>
    cases h
    exact Nat.le_refl _
  | succ n ih =>
    by_cases hd : u.Done
    · rw [runLoop_of_done _ _ n hreads.ends hd] at h
      cases h
      exact Nat.le_refl _
    · rcases exists_fault_or_executes hd with ⟨fault, x, hfault⟩ | ⟨t, he⟩
      · rw [hfault] at h
        cases (Prod.mk.inj h).1
      · have hsurvives := survives_executes hv hreads hsites hs hpos he
        have hwhole : u.total v = tally v u.statements + v.occurrences only.element := by
          rw [State.total, hs, tally_cons, Nat.add_comm]
          rfl
        rw [runLoop_of_executes _ _ n he] at h
        have hadvances := he.advances hreads.ends
        have hpct : stop ≤ t.pc := by omega
        cases ha : t.aborted with
        | true =>
          obtain ⟨seen', hseen⟩ := LineEnd.andThen_notice_before stop hquiet
            (LineEnd.following v, seen) (.inl ha)
          rw [hseen, runLoop_of_aborted _ n _ ha] at h
          cases h
          exact hwhole.trans_le hsurvives.total_le
        | false =>
          obtain ⟨seen', hseen⟩ :=
            LineEnd.andThen_notice_following (v := v) stop hquiet ha hpct seen
          have hcut := LineEnd.total_le_cut hsurvives (hnext t he ha)
          rw [← hwhole] at hcut
          rw [hseen] at h
          rcases LineEnd.cut_aborted_or_eq (v := v) (u := t) with haborted | ⟨heq, hlen⟩
          · rw [runLoop_of_aborted _ n _ haborted] at h
            cases h
            exact hcut
          · rw [heq] at h hcut
            obtain ⟨only', hs', hn, -⟩ := hsurvives.exists_lone hlen
            have hlast := hnext t he ha hlen
            have hreads' := he.reads hreads
            have hsites' := callSitesKeep_of_executes he hsites
            have hpos' := hpos.trans hn
            refine hcut.trans (ih hreads' hsites' hpct hs' hpos' (fun x hx hax hlenx => ?_) h)
            -- The value alone is not followed by an equal statement that was not there before.
            obtain ⟨_, -, -, -, hends⟩ :=
              (survives_executes hv hreads' hsites' hs' hpos' hx).exists_lone hlenx
            exact Bool.eq_false_iff.2 fun hend => Bool.eq_false_iff.1 hlast (hends hax hend)

-- An earlier statement that is equal to the call is taken for its use, and the value is dropped.
theorem total_of_runLoop (hv : v.kind = .call) {n : Nat} {u t w : State} {only : Entry} {seen : σ}
    {memory : LineEnd × σ} (hreads : u.Reads code) (hsites : u.CallSitesKeep v code)
    (hpc : stop ≤ u.pc) (hs : u.stack = [only]) (hpos : 1 ≤ v.occurrences only.element)
    (he : core.Executes u t) (ha : t.aborted = false) (hlen : t.stack.length = 1)
    (hlast : endsWith v t.statements)
    (h : core.runLoop ((LineEnd.observer stop).andThen observer) (n + 1) (.following v, seen) u =
      (.ok ⟨⟩, memory, w)) :
    w.total v = tally v u.statements := by
  have hadvances := he.advances hreads.ends
  have hpct : stop ≤ t.pc := by omega
  obtain ⟨seen', hseen⟩ := LineEnd.andThen_notice_following (v := v) stop hquiet ha hpct seen
  obtain ⟨top, htop, -, htally, -⟩ :=
    (survives_executes hv hreads hsites hs hpos he).exists_lone hlen
  have hcut : LineEnd.cut v t = (t.leaving []).abort := by
    rw [LineEnd.cut_of_lone htop, if_pos hlast]
  rw [runLoop_of_executes _ _ n he, hseen, hcut, runLoop_of_aborted _ n _ rfl] at h
  cases h
  show 0 + tally v t.statements = _
  rw [htally, Nat.zero_add]

-- Behind the end of the line, a call that is the only value left gets into the last state once
-- more than it is among the statements, unless an earlier statement is taken for its use.
theorem tally_lt_total_iff {n : Nat} {s w : State} {e : Entry} {seen : σ} {memory : LineEnd × σ}
    (hkind : e.element.kind = .call) (hty : e.element.ty ≠ .void)
    (hsame : e.element.same e.element) (hreads : s.Reads code)
    (hsites : s.CallSitesKeep e.element code) (hbehind : stop ≤ s.pc) (hstack : s.stack = [e])
    (hn : code.length < s.pc + (n + 1))
    (h : core.runLoop ((LineEnd.observer stop).andThen observer) n
      (((LineEnd.observer stop).andThen observer).notice ({}, seen) s).1
      (((LineEnd.observer stop).andThen observer).notice ({}, seen) s).2 = (.ok ⟨⟩, memory, w)) :
    tally e.element s.statements < w.total e.element ↔
      ¬∃ t, core.Executes s t ∧ t.aborted = false ∧ t.stack.length = 1 ∧
        endsWith e.element t.statements := by
  have hpos := Element.occurrences_pos hsame
  have htotal : s.total e.element =
      e.element.occurrences e.element + tally e.element s.statements := by
    rw [State.total, hstack]
    rfl
  cases ha : s.aborted with
  | true =>
    obtain ⟨seen', hseen⟩ := LineEnd.andThen_notice_before stop hquiet ({}, seen) (.inl ha)
    rw [hseen, runLoop_of_aborted _ n _ ha] at h
    cases h
    refine iff_of_true (by omega) ?_
    rintro ⟨t, he, -⟩
    rw [he.1] at ha
    cases ha
  | false =>
    obtain ⟨seen', hseen⟩ := LineEnd.andThen_notice_lone stop hquiet ha hbehind hstack hty seen
    rw [hseen] at h
    constructor
    · rintro hlt ⟨t, he, hat, hlen, hlast⟩
      have hlt' := (he.advances hreads.ends).1
      have hle : t.pc ≤ code.length := (he.reads hreads).ends.pc_le
      obtain ⟨i, rfl⟩ : ∃ i, n = i + 1 := ⟨n - 1, by omega⟩
      have hlost := total_of_runLoop hquiet hkind hreads hsites hbehind hstack hpos he hat hlen
        hlast h
      omega
    · intro hnone
      have hkept := total_le_of_runLoop hquiet hkind hreads hsites hbehind hstack hpos
        (fun t he hat hlen => Bool.eq_false_iff.2 fun hlast => hnone ⟨t, he, hat, hlen, hlast⟩) h
      omega

end Following

section DecompileLine

variable {σ : Type} {observer : Observer σ} {memory : σ} {m : Method} {line : UInt16}
  {start stop : Nat}

-- A line is decompiled by a run from its start that is watched for its end.
theorem exists_runLoop_of_decompileLine {statements : List Element}
    (hrange : m.codeRange? line = some (start, stop))
    (h : (core.decompileLine observer memory m line >>= (·.result)) = .ok statements) :
    ∃ last w, core.runLoop ((LineEnd.observer stop).andThen observer)
        ((Cursor.behind m.code start).remaining.length + 1) ({}, memory)
        (.start m (.behind m.code start)) = (.ok ⟨⟩, last, w) ∧
      (exec finish w).1 = .ok statements := by
  have hskip : (Reading.skip start).run.run (.ofCode m.code) =
      (.ok (min start m.code.length), Cursor.behind m.code start) := by
    rw [Cursor.behind_eq]
    exact Reading.exec_skip_ofCode start m.code
  rw [decompileLine, hrange] at h
  simp only [hskip] at h
  have hresult : (core.decompile ((LineEnd.observer stop).andThen observer) ({}, memory) m
      (.behind m.code start)).result = .ok statements := h
  rw [decompile] at hresult
  rcases hloop : core.runLoop ((LineEnd.observer stop).andThen observer)
    ((Cursor.behind m.code start).remaining.length + 1) ({}, memory)
    (.start m (.behind m.code start)) with ⟨fault | ⟨⟨⟩⟩, last, w⟩
  all_goals rw [hloop] at hresult
  · cases hresult
  · exact ⟨last, w, rfl, hresult⟩

end DecompileLine

-- A call whose value is the only one left at the end of a line is found once more in the result
-- of the line than among its statements so far, exactly if it is equal to itself and the
-- instruction behind the line does not leave a single entry on the stack while the last statement
-- is an earlier one that is equal to the call.
theorem pending_call_kept {σ : Type} {observer : Observer σ}
    (hquiet : ∀ memory s, (observer.notice memory s).2 = s) (memory : σ) (m : Method)
    (line : UInt16) {start stop : Nat} {p s : State} {e : Entry} {statements : List Element}
    (hrange : m.codeRange? line = some (start, stop))
    (hruns : core.Runs (.start m (.behind m.code start)) p) (hexecutes : core.Executes p s)
    (hbefore : p.pc < stop) (hbehind : stop ≤ s.pc) (hstack : s.stack = [e])
    (hkind : e.element.kind = .call) (hty : e.element.ty ≠ .void)
    (hsites : s.CallSitesKeep e.element m.code)
    (hok : (core.decompileLine observer memory m line >>= (·.result)) = .ok statements) :
    e.element.count s.result < e.element.count statements ↔
      e.element.same e.element ∧
        ¬∃ t, core.Executes s t ∧ t.aborted = false ∧ t.stack.length = 1 ∧
          (t.lastStatement? 0).any (·.same e.element) := by
  obtain ⟨last, w, hloop, hfinish⟩ := exists_runLoop_of_decompileLine hrange hok
  have hreadsp := hruns.landing.2
  have hreads := hexecutes.reads hreadsp
  have hstart := reads_start m m.code start
  have hfuel : m.code.length < (State.start m (.behind m.code start)).pc +
      ((Cursor.behind m.code start).remaining.length + 1) := by
    have hreach := hstart.ends.reach
    show _ < (Cursor.behind m.code start).pc + _
    have hsame : (State.start m (.behind m.code start)).cursor = Cursor.behind m.code start := rfl
    rw [hsame] at hreach
    omega
  obtain ⟨k, seen, hk, hbeforeLoop⟩ :=
    runLoop_before hquiet hruns hstart hbefore hfuel ({}, memory)
  have hpc : p.pc ≤ m.code.length := hreadsp.ends.pc_le
  obtain ⟨k, rfl⟩ : ∃ i, k = i + 1 := ⟨k - 1, by omega⟩
  rw [hbeforeLoop, runLoop_of_executes _ _ k hexecutes] at hloop
  rw [count_result, count_of_exec_finish hkind hfinish]
  by_cases hsame : e.element.same e.element
  · simp only [lastStatement?_any_same]
    rw [and_iff_right hsame]
    have hfuel' : m.code.length < s.pc + (k + 1) := by
      have hle := (hexecutes.advances hreadsp.ends).1
      omega
    exact tally_lt_total_iff hquiet hkind hty hsame hreads hsites hbehind hstack hfuel' hloop
  · refine iff_of_false ?_ fun h => hsame h.1
    rw [State.total, tally, tally, tally, Element.count_eq_zero hsame, Element.count_eq_zero hsame,
      Element.count_eq_zero hsame]
    omega

-- A method that discards the string of one call and uses that of another one, which is a call of
-- the same method if that is the sixth constant. The length is asked for in the next line.
def callsThenLength (discarded : UInt8) : Method :=
  { className := "A", name := "m", descriptor := "()V", signature := ⟨[], .void⟩
    code := [Opcode.invokestatic, 0, discarded, Opcode.pop, Opcode.invokestatic, 0, 6,
      Opcode.invokevirtual, 0, 12, Opcode.pop, Opcode.returnVoid]
    lines := [⟨0, 1⟩, ⟨7, 2⟩]
    pool := ⟨#[.utf8 "A", .classRef 1, .utf8 "f", .utf8 "()Ljava/lang/String;", .nameAndType 3 4,
      .methodRef 2 5, .utf8 "java/lang/String", .classRef 7, .utf8 "length", .utf8 "()I",
      .nameAndType 9 10, .methodRef 8 11, .utf8 "g", .nameAndType 13 4, .methodRef 2 14]⟩ }

-- The call that waits at the end of the first line, with how often it is found there and in the
-- result, and whether it is the last statement behind the next instruction.
theorem exists_pending {discarded : UInt8} {before after : Nat} {last : Bool}
    (h : (core.walk? 2 (.start (callsThenLength discarded)
        (.behind (callsThenLength discarded).code 0))).bind (fun p =>
      (core.next? p).bind fun s => (core.next? s).map fun t =>
        s.stack.map fun e =>
          (decide (p.pc < 7 ∧ 7 ≤ s.pc ∧ e.element.kind = .call ∧ e.element.ty ≠ .void ∧
              e.element.same e.element),
            e.element.count s.result, (t.lastStatement? 0).any (·.same e.element),
            (core.decompileLine Observer.idle ⟨⟩ (callsThenLength discarded) 1 >>=
              (·.result)).toOption.map e.element.count)) =
      some [(true, before, last, some after)]) :
    ∃ p s t e statements,
      core.Runs (.start (callsThenLength discarded)
        (.behind (callsThenLength discarded).code 0)) p ∧
      core.Executes p s ∧ core.Executes s t ∧ p.pc < 7 ∧ 7 ≤ s.pc ∧ s.stack = [e] ∧
      e.element.kind = .call ∧ e.element.ty ≠ .void ∧ e.element.same e.element ∧
      e.element.count s.result = before ∧ (t.lastStatement? 0).any (·.same e.element) = last ∧
      (core.decompileLine Observer.idle ⟨⟩ (callsThenLength discarded) 1 >>= (·.result)) =
        .ok statements ∧
      e.element.count statements = after := by
  obtain ⟨p, hp, h⟩ := Option.bind_eq_some_iff.1 h
  obtain ⟨s, hs, h⟩ := Option.bind_eq_some_iff.1 h
  obtain ⟨t, ht, h⟩ := Option.map_eq_some_iff.1 h
  obtain ⟨e, hstack, hfacts⟩ := List.map_eq_singleton_iff.1 h
  simp only [Prod.mk.injEq] at hfacts
  obtain ⟨hcall, hbefore, hlast, hafter⟩ := hfacts
  obtain ⟨hppc, hspc, hkind, hvoid, hsame⟩ := of_decide_eq_true hcall
  obtain ⟨statements, hok, hafter⟩ := exists_eq_ok_of_toOption hafter
  exact ⟨p, s, t, e, statements, runs_of_walk? hp, next?_eq_some_iff.1 hs, next?_eq_some_iff.1 ht,
    hppc, hspc, hstack, hkind, hvoid, hsame, hbefore, hlast, hok, hafter⟩

-- A call of another method in front of it does not matter.
theorem pending_call_kept_of_other_call :
    let m := callsThenLength 15
    ∃ p s e statements, m.codeRange? 1 = some (0, 7) ∧ core.Runs (.start m (.behind m.code 0)) p ∧
      core.Executes p s ∧ p.pc < 7 ∧ 7 ≤ s.pc ∧ s.stack = [e] ∧ e.element.kind = .call ∧
      e.element.ty ≠ .void ∧ s.CallSitesKeep e.element m.code ∧
      (core.decompileLine Observer.idle ⟨⟩ m 1 >>= (·.result)) = .ok statements ∧
      e.element.count s.result < e.element.count statements := by
  intro m
  have hrange : m.codeRange? 1 = some (0, 7) := by decide +kernel
  obtain ⟨p, s, t, e, statements, hruns, hexecutes, hnext, hbefore, hbehind, hstack, hkind, hty,
    hsame, -, hlast, hok, -⟩ :=
    @exists_pending 15 0 1 false (by decide +kernel)
  have hsites : s.CallSitesKeep e.element m.code :=
    State.callSitesKeep_of_not_mem (by decide) e.element s
  refine ⟨p, s, e, statements, hrange, hruns, hexecutes, hbefore, hbehind, hstack, hkind, hty,
    hsites, hok, ?_⟩
  have hquiet : ∀ memory s, (Observer.idle.notice memory s).2 = s := fun _ _ => rfl
  refine (pending_call_kept hquiet ⟨⟩ m 1 hrange hruns hexecutes hbefore hbehind hstack hkind hty
    hsites hok).2 ⟨hsame, ?_⟩
  rintro ⟨u, hu, -, -, hany⟩
  rw [← hnext.unique hu, hlast] at hany
  cases hany

-- An earlier call of the same method is taken for the use of the value, which is lost.
theorem pending_call_lost_of_equal_call :
    let m := callsThenLength 6
    ∃ p s e statements, m.codeRange? 1 = some (0, 7) ∧ core.Runs (.start m (.behind m.code 0)) p ∧
      core.Executes p s ∧ p.pc < 7 ∧ 7 ≤ s.pc ∧ s.stack = [e] ∧ e.element.kind = .call ∧
      e.element.ty ≠ .void ∧ e.element.same e.element ∧ Opcode.invokedynamic ∉ m.code ∧
      (core.decompileLine Observer.idle ⟨⟩ m 1 >>= (·.result)) = .ok statements ∧
      ¬e.element.count s.result < e.element.count statements := by
  intro m
  obtain ⟨p, s, t, e, statements, hruns, hexecutes, -, hbefore, hbehind, hstack, hkind, hty,
    hsame, hfirst, -, hok, hlast⟩ :=
    @exists_pending 6 1 1 true (by decide +kernel)
  exact ⟨p, s, e, statements, by decide +kernel, hruns, hexecutes, hbefore, hbehind, hstack, hkind,
    hty, hsame, by decide, hok, by omega⟩

end Registry

end JvmLift
