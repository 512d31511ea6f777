import JvmLift.Proofs.Leaving
import JvmLift.Proofs.Stopping

namespace JvmLift

theorem Fault.message_truncated (code : Opcode) (pc : Nat) :
    (truncated code pc).message =
      "invalid byte code: truncated " ++ Opcode.mnemonic code ++ " at pc " ++ toString pc := by
  show "invalid byte code: " ++ ("truncated " ++ _ ++ _ ++ _) = _
  simp only [← String.append_assoc]
  rfl

namespace Registry

variable {s t : State} {stop : Nat} {more : Bytes}

-- An instruction that goes beyond the end of the code comes to that end before anything else can
-- go wrong.
theorem Executes.cut (h : core.Executes (s.extend (more.map .byte)) t)
    (hc : s.cursor.EndsAt stop) (hs : s.pc < stop) (ht : stop < t.pc) :
    ∃ head u, s.cursor.remaining.head? = some head ∧
      exec (core.step head) s.fetch = (.error .endOfCode, u) ∧ u.instructionPc = s.pc := by
  have hne : s.cursor.remaining ≠ [] := by
    intro hnil
    have hr := hc.reach
    rw [hnil, List.length_nil] at hr
    have hpc : s.cursor.pc = s.pc := rfl
    omega
  obtain ⟨head, rest, hcons⟩ := List.exists_cons_of_ne_nil hne
  obtain ⟨head', rest', hcons', hstep⟩ := h.fetched (hc.extend more)
  rw [remaining_extend_of_cons _ hcons] at hcons'
  rw [fetch_extend _ hcons] at hstep
  obtain ⟨rfl, -⟩ := List.cons.inj hcons'
  have hfetched : s.fetch.cursor.EndsAt stop := by
    refine hc.advance ?_
    rw [hcons, List.length_cons]
    omega
  have hpc : s.fetch.pc = s.pc + 1 := rfl
  have hle : s.fetch.pc ≤ stop := by omega
  refine ⟨head, (exec (core.step head) s.fetch).2, by rw [hcons]; rfl, Prod.ext ?_ rfl,
    (beside_step head s.fetch).instructionPc⟩
  by_cases hcopy : head = Opcode.dup ∧ s.fetch.topIs .newArray
  · -- the copy of a new array consumes nothing but its code
    obtain ⟨rfl, htop⟩ := hcopy
    have hxtop : (s.fetch.extend (more.map .byte)).topIs .newArray := htop
    obtain ⟨v, hv, -, hvpc, -⟩ := exists_exec_copy hxtop
    obtain rfl : v = t := (Prod.mk.inj (hv.symm.trans hstep)).2
    have hsame : (s.fetch.extend (more.map .byte)).pc = s.fetch.pc := rfl
    omega
  · obtain ⟨a, hcomposed, heq⟩ := step_core_blind head hcopy
    have ha : exec (core.step head) s.fetch = exec a s.fetch := heq s.fetch.cursor
    have hx : exec a (s.fetch.extend (more.map .byte)) = (.ok ⟨⟩, t) := (heq _).symm.trans hstep
    rw [ha]
    rcases hcomposed.fault_or_extend s.fetch (more.map .byte) with hout | hsame
    · rw [hout, hfetched.fault]
    · exfalso
      have hend : (exec a s.fetch).2.pc ≤ stop := (hcomposed.endsAt hfetched).pc_le
      rw [hx] at hsame
      have hpct : t.pc = (exec a s.fetch).2.pc := congrArg (fun r => r.2.pc) hsame
      omega

-- A run that stays in front of the end of the code does the same when nothing follows the code.
theorem Runs.restrict (h : core.Runs (s.extend (more.map .byte)) t) (hc : s.cursor.EndsAt stop)
    (ht : t.pc < stop) : ∃ u, core.Runs s u ∧ t = u.extend (more.map .byte) := by
  generalize hx : s.extend (more.map .byte) = x at h
  induction h using Relation.ReflTransGen.head_induction_on generalizing s with
  | refl => exact ⟨s, .refl, hx.symm⟩
  | @head x y first rest ih =>
    subst hx
    have hle : y.pc ≤ t.pc := (Runs.advances rest (first.advances (hc.extend more)).2).1
    obtain ⟨u, he, hu⟩ := first.restrict hc (by omega)
    rcases hu with rfl | ⟨hpc, -⟩
    · obtain ⟨v, hruns, hv⟩ := ih (he.advances hc).2 rfl
      exact ⟨v, .head he hruns, hv⟩
    · omega

-- The code is what it is cut off to, with the rest put behind.
theorem start_take (m : Method) (code : Bytes) {start cut : Nat} (hstart : start ≤ cut)
    (hcut : cut ≤ code.length) : State.start m (.behind code start) =
      (State.start m (.behind (code.take cut) start)).extend ((code.drop cut).map .byte) := by
  have hlen : (code.take cut).length = cut := List.length_take_of_le hcut
  have hwhole : min start code.length = start := by omega
  have hpart : min start cut = start := by omega
  have hdrop : code.drop start = (code.take cut).drop start ++ code.drop cut := by
    have hle : start ≤ (code.take cut).length := by omega
    rw [← List.drop_append_of_le_length hle, List.take_append_drop]
  rw [Cursor.behind_eq, Cursor.behind_eq, hlen, hwhole, hpart]
  simp [State.extend, State.start, Cursor.extend, Source.ofBytes, hdrop]

section Decompile

variable {σ : Type} {observer : Observer σ} (m : Method) (code : Bytes) (start : Nat)

theorem fuel_behind : code.length < (State.start m (.behind code start)).pc +
    ((Cursor.behind code start).remaining.length + 1) := by
  have hr := (reads_start m code start).ends.reach
  have hpc : (State.start m (.behind code start)).pc = (Cursor.behind code start).pc := rfl
  have hreach : (Cursor.behind code start).pc + (Cursor.behind code start).remaining.length =
      code.length := hr
  omega

-- What a run that is only watched results in.
theorem decompile_of_quiet_observer (hquiet : ∀ memory u, (observer.notice memory u).2 = u)
    (memory : σ) (cursor : Cursor) : (core.decompile observer memory m cursor).result =
      (core.decompile Observer.idle ⟨⟩ m cursor).result := by
  obtain ⟨hresult, hstate⟩ := runLoop_of_quiet_observer hquiet (r := core)
    (cursor.remaining.length + 1) memory (.start m cursor)
  rw [decompile, decompile]
  rcases hw : core.runLoop observer (cursor.remaining.length + 1) memory (.start m cursor) with
    ⟨v, memory', u⟩
  rcases hi : core.runLoop Observer.idle (cursor.remaining.length + 1) ⟨⟩ (.start m cursor) with
    ⟨w, ⟨⟩, u'⟩
  rw [hw, hi] at hresult hstate
  obtain rfl : v = w := hresult
  obtain rfl : u = u' := hstate
  rcases v with fault | ⟨⟨⟩⟩ <;> rfl

variable {m code start}

-- Where the code is cut off inside of an instruction, that instruction is named.
theorem decompile_idle_take {head : Opcode} {cut : Nat}
    (hruns : core.Runs (.start m (.behind code start)) s) (he : core.Executes s t)
    (hhead : code[s.pc]? = some head) (hs : s.pc < cut) (ht : cut < t.pc) :
    (core.decompile Observer.idle ⟨⟩ m (.behind (code.take cut) start)).result =
      .error (.truncated head s.pc) := by
  have hreads := reads_start m code start
  obtain ⟨hle, hend⟩ := hruns.advances hreads.ends
  have hlast : t.pc ≤ code.length := (he.advances hend).2.pc_le
  have hmin : (State.start m (.behind code start)).pc = min start code.length := by
    rw [Cursor.behind_eq]
    rfl
  have hstart : start ≤ cut := by omega
  have hlen : (code.take cut).length = cut := List.length_take_of_le (by omega)
  have hcut : (State.start m (.behind (code.take cut) start)).cursor.EndsAt cut := by
    have hc := (reads_start m (code.take cut) start).ends
    rwa [hlen] at hc
  rw [start_take m code hstart (by omega)] at hruns
  obtain ⟨u, hu, rfl⟩ := hruns.restrict hcut hs
  have huend := (hu.advances hcut).2
  obtain ⟨head', v, hhead', hstep, hpc⟩ := he.cut huend hs ht
  -- the instruction begins with the same byte in the whole code
  obtain rfl : head' = head := by
    have hget := (Runs.landing hu).2.getElem?_of_remaining
      (List.head?_eq_some_iff.1 hhead').choose_spec
    have hsame : (u.extend ((code.drop cut).map .byte)).pc = u.pc := rfl
    rw [hsame] at hhead hs
    rw [List.getElem?_take_of_lt hs, hhead] at hget
    exact (Option.some.inj hget).symm
  obtain ⟨k, hloop, -⟩ := exists_runLoop_eq hu hcut (by
    have hfuel := fuel_behind m (code.take cut) start
    rwa [hlen] at hfuel)
  have hawake : u.aborted = false := he.1
  rw [runLoop_of_fault Observer.idle ⟨⟩ k hawake hhead' hstep, hpc] at hloop
  rw [decompile, hloop]
  rfl

-- A code that ends inside of an instruction is never taken for one that has ended. Wherever the
-- operands of an executed instruction are cut off, the fault names its code and position. And a run
-- that reports no fault of an instruction has come to its end between two instructions.
theorem truncation_reported (hquiet : ∀ memory u, (observer.notice memory u).2 = u) (memory : σ)
    (m : Method) (code : Bytes) (start : Nat) :
    (∀ s t head cut, core.Runs (.start m (.behind code start)) s → core.Executes s t →
      code[s.pc]? = some head → s.pc < cut → cut < t.pc →
        ∃ fault, (core.decompile observer memory m (.behind (code.take cut) start)).result =
            .error fault ∧
          fault.kind = .format ∧ fault.message = "invalid byte code: truncated " ++
            Opcode.mnemonic head ++ " at pc " ++ toString s.pc) ∧
    ((∃ u, core.Runs (.start m (.behind code start)) u ∧ u.Done ∧
        (core.decompile observer memory m (.behind code start)).result = (exec finish u).1) ∨
      ∃ u v head fault, core.Runs (.start m (.behind code start)) u ∧ code[u.pc]? = some head ∧
        exec (core.step head) u.fetch = (.error fault, v) ∧
        (core.decompile observer memory m (.behind code start)).result =
          .error (if fault.kind = .endOfStream then .truncated head u.pc else fault)) := by
  constructor
  · intro s t head cut hruns he hhead hs ht
    refine ⟨.truncated head s.pc, ?_, rfl, Fault.message_truncated head s.pc⟩
    rw [decompile_of_quiet_observer m hquiet]
    exact decompile_idle_take hruns he hhead hs ht
  · have hreads := reads_start m code start
    have hloop := runLoop_ends hreads.ends (fuel_behind m code start)
    rw [decompile_of_quiet_observer m hquiet, decompile]
    rcases hloop with ⟨u, hu, hdone, hrun⟩ | ⟨u, v, head, fault, hu, hhead, hstep, hrun⟩
    · refine .inl ⟨u, hu, hdone, ?_⟩
      rw [hrun]
      rfl
    · right
      obtain ⟨rest, hcons⟩ := List.head?_eq_some_iff.1 hhead
      have hpc : v.instructionPc = u.pc := by
        have hbeside := beside_step head u.fetch
        rw [hstep] at hbeside
        exact hbeside.instructionPc
      refine ⟨u, v, head, fault, hu, (Runs.landing hu).2.getElem?_of_remaining hcons, hstep, ?_⟩
      rw [hrun, hpc]
      rfl

end Decompile

-- An allocation, which consumes the copy behind it as well.
def allocates : Method :=
  { className := "A", name := "m", descriptor := "()V", signature := ⟨[], .void⟩
    code := [Opcode.nop, Opcode.new, 0, 2, Opcode.dup, Opcode.returnVoid]
    pool := ⟨#[.utf8 "A", .classRef 1]⟩ }

-- The allocation is named wherever it is cut off, also in front of the copy.
theorem truncation_reported_allocation :
    let m := allocates
    ∃ s t, core.Runs (.start m (.behind m.code 0)) s ∧ core.Executes s t ∧ s.pc = 1 ∧ t.pc = 5 ∧
      ∀ cut, 1 < cut → cut < 5 → ∃ fault,
        (core.decompile Observer.idle ⟨⟩ m (.behind (m.code.take cut) 0)).result = .error fault ∧
          fault.kind = .format ∧ fault.message = "invalid byte code: truncated new at pc 1" := by
  intro m
  have hwalk : (core.walk? 1 (.start m (.behind m.code 0))).bind (fun s =>
      (core.next? s).map fun t => (s.pc, t.pc)) = some (1, 5) := by decide +kernel
  obtain ⟨s, hs, hnext⟩ := Option.bind_eq_some_iff.1 hwalk
  obtain ⟨t, ht, hpcs⟩ := Option.map_eq_some_iff.1 hnext
  obtain ⟨hpc, hlast⟩ := Prod.mk.inj hpcs
  have hruns := runs_of_walk? hs
  have he := next?_eq_some_iff.1 ht
  refine ⟨s, t, hruns, he, hpc, hlast, fun cut hcut hstop => ?_⟩
  have hhead : m.code[s.pc]? = some Opcode.new := by
    rw [hpc]
    rfl
  obtain ⟨fault, hresult, hkind, hmessage⟩ :=
    (@truncation_reported Unit Observer.idle (fun _ _ => rfl) ⟨⟩ m m.code 0).1
      s t Opcode.new cut hruns he hhead (by omega) (by omega)
  have htext : "invalid byte code: truncated " ++ Opcode.mnemonic Opcode.new ++ " at pc " ++
      toString 1 = "invalid byte code: truncated new at pc 1" := by decide +kernel
  rw [hpc, htext] at hmessage
  exact ⟨fault, hresult, hkind, hmessage⟩

end Registry

end JvmLift
