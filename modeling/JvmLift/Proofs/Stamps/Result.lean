import JvmLift.Proofs.Completion
import JvmLift.Proofs.Stamps.Core

namespace JvmLift

namespace Registry

section Runs

variable {table : LineTable} {executed : Nat → Prop} {s t : State}

-- An instruction adds no stamp but its own.
theorem Executes.traced (h : core.Executes s t) (hs : s.Traced table executed)
    (hnow : executed s.pc) : t.Traced table executed := by
  obtain ⟨code, c, -, ht⟩ := h.exists_read
  have hcore (stage : Stage) : ∀ rule ∈ core.rules stage code,
      rule.Keeps (Invariant.stamps table executed).Holds := by
    intro rule hr
    obtain ⟨d, hd, rfl, -, -⟩ := mem_core hr
    exact Instruction.keeps_stamps d hd
  have hfetched : (Invariant.stamps table executed).Holds
      { s with cursor := c, instructionPc := s.pc } :=
    ⟨⟨hs.stack, hs.statements⟩, hs.lines, hnow⟩
  have hkept := (core.keeps_step code hcore).state _ hfetched
  rw [ht] at hkept
  exact ⟨hkept.toFits, hkept.around.1⟩

theorem Runs.traced (h : core.Runs s t) (hs : s.Traced table executed)
    (hall : ∀ u v, core.Runs s u → core.Executes u v → executed u.pc) :
    t.Traced table executed := by
  induction h with
  | refl => exact hs
  | tail hr he ih => exact he.traced ih (hall _ _ hr he)

end Runs

-- In the result of a run that is only watched, every statement is stamped, and so is everything
-- below that was not supplied to complete its layer. A stamp has the position of an instruction
-- that was executed, with the line of that position.
theorem decompile_stamped {σ : Type} (observer : Observer σ) (memory : σ) (m : Method)
    (code : Bytes) (start : Nat) {statements : List Element}
    (hquiet : ∀ memory s, (observer.notice memory s).2 = s)
    (h : (core.decompile observer memory m (.behind code start)).result = .ok statements) :
    ∀ e ∈ statements, e.isStamped ∧ ∀ x : Element, x.Inside e →
      (x.stamp = {} ∨ ∃ s t, core.Runs (.start m (.behind code start)) s ∧ core.Executes s t ∧
        x.stamp = ⟨(LineTable.ofEntries m.lines).lineAt? s.pc, some s.pc⟩) ∧
      ∀ c, x.shape.Holds c → c.isStamped ∨ c ∈ x.shape.supplied := by
  obtain ⟨u, hruns, -, -, hfinish⟩ := exists_runs_of_decompile hquiet h
  let executed (pc : Nat) : Prop :=
    ∃ s t, core.Runs (.start m (.behind code start)) s ∧ core.Executes s t ∧ s.pc = pc
  have hu : u.Traced (.ofEntries m.lines) executed :=
    Runs.traced hruns ⟨Invariant.fits_start m _, rfl⟩ fun s t hr he => ⟨s, t, hr, he, rfl⟩
  have hend : (exec finish u).2.Traced (.ofEntries m.lines) executed := by
    rw [exec_finish_snd]
    exact Action.reduceMany_induct _ (fun _ hs => hs.reduce) _ hu
  intro e he
  rw [result_of_exec_finish hfinish] at he
  obtain ⟨d, hd, rfl⟩ := List.mem_map.1 he
  have hplaced := hend.statements d (List.mem_reverse.1 hd)
  refine ⟨hplaced.isStamped, fun x hx => ?_⟩
  obtain ⟨hstamp, hheld⟩ := hplaced.traced x hx
  refine ⟨hstamp.imp_right ?_, hheld⟩
  rintro ⟨pc, ⟨s, t, hr, hx, rfl⟩, hgiven⟩
  exact ⟨s, t, hr, hx, hgiven⟩

-- A method that passes true in its seventh line to what it calls in the eighth.
def passesTrue : Method :=
  { className := "A", name := "m", descriptor := "()V", signature := ⟨[], .void⟩
    code := [Opcode.iconst0 + 1, Opcode.invokestatic, 0, 6, Opcode.returnVoid]
    lines := [⟨0, 7⟩, ⟨1, 8⟩]
    pool := ⟨#[.utf8 "A", .classRef 1, .utf8 "f", .utf8 "(Z)V", .nameAndType 3 4,
      .methodRef 2 5]⟩ }

-- The boolean has the line and the position of the constant that it takes the place of.
theorem decompile_stamped_boolean :
    let start := State.start passesTrue (.behind passesTrue.code 0)
    ∃ statements,
      (core.decompile Observer.idle ⟨⟩ passesTrue (.behind passesTrue.code 0)).result =
        .ok statements ∧
      statements.map (fun e => e.subterms.map fun x => (x.kind, x.stamp)) =
        [[(.call, ⟨some 8, some 1⟩), (.constant, ⟨some 7, some 0⟩)],
          [(.ret, ⟨some 8, some 4⟩)]] ∧
      ∀ e ∈ statements, e.isStamped ∧ ∀ x : Element, x.Inside e →
        (x.stamp = {} ∨ ∃ s t, core.Runs start s ∧ core.Executes s t ∧
          x.stamp = ⟨(LineTable.ofEntries passesTrue.lines).lineAt? s.pc, some s.pc⟩) ∧
        ∀ c, x.shape.Holds c → c.isStamped ∨ c ∈ x.shape.supplied := by
  intro start
  have hsome : ((core.decompile Observer.idle ⟨⟩ passesTrue
      (.behind passesTrue.code 0)).result.toOption.map fun statements =>
        statements.map fun e => e.subterms.map fun x => (x.kind, x.stamp)) =
      some [[(.call, ⟨some 8, some 1⟩), (.constant, ⟨some 7, some 0⟩)],
        [(.ret, ⟨some 8, some 4⟩)]] := by decide +kernel
  obtain ⟨statements, h, hstamps⟩ := exists_eq_ok_of_toOption hsome
  exact ⟨statements, h, hstamps, decompile_stamped _ _ _ _ _ (fun _ _ => rfl) h⟩

end Registry

end JvmLift
