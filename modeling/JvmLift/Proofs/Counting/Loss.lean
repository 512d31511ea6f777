import JvmLift.Proofs.Counting.RoundTrip

namespace JvmLift

-- Whether a statement has something in it that no result may have.
def State.Lost (s : State) : Prop :=
  ∃ e ∈ s.statements, e.element.contains Element.isUnfinished

theorem State.Lost.mono {s t : State} (h : s.Lost) (hs : s.statements ⊆ t.statements) : t.Lost := by
  obtain ⟨e, he, hu⟩ := h
  exact ⟨e, hs he, hu⟩

theorem subset_statements_file (s : State) (e : Entry) :
    s.statements ⊆ (s.file e).statements := by
  intro d hd
  have hspan : s.statements = s.statements.takeWhile e.precedes ++
    s.statements.dropWhile e.precedes := List.takeWhile_append_dropWhile.symm
  rw [hspan] at hd
  simp only [State.file, List.span_eq_takeWhile_dropWhile]
  rcases List.mem_append.1 hd with hd | hd
  · exact List.mem_append_left _ hd
  · exact List.mem_append_right _ (List.mem_cons_of_mem _ hd)

-- What is made a statement stands beside what was one before.
theorem subset_statements_reduceMany (n : Nat) (s : State) :
    s.statements ⊆ (exec (Action.reduceMany n) s).2.statements := by
  induction n generalizing s with
  | zero => exact fun _ h => h
  | succ n ih =>
    rw [Action.reduceMany, exec_bind, Action.exec_reduce]
    cases hs : s.stack with
    | nil => exact fun _ h => h
    | cons top rest =>
      by_cases htop : top.element.isStatement
      · have hfile := subset_statements_file { s with stack := rest }
          { top with element := top.element.settled }
        have hmany := ih (({ s with stack := rest } : State).file
          { top with element := top.element.settled })
        simp only [if_pos htop, if_true, exec_bind, exec_discard]
        rcases hr : exec (Action.reduceMany n) (({ s with stack := rest } : State).file
          { top with element := top.element.settled }) with ⟨_ | _, t⟩
        all_goals
          rw [hr] at hmany
          exact List.Subset.trans hfile hmany
      · simp only [if_neg htop]
        exact fun _ h => h

theorem subset_statements_reduceAll (s : State) :
    s.statements ⊆ (exec Action.reduceAll s).2.statements := by
  rw [Action.reduceAll, exec_bind, exec_get]
  exact subset_statements_reduceMany s.stack.length s

-- A run cannot end well once something is lost.
theorem exists_finish_of_lost {s : State} (h : s.Lost) :
    ∃ fault, (exec finish s).1 = .error fault := by
  have ht := h.mono (subset_statements_reduceAll s)
  rw [finish, exec_bind, exec_discard]
  rcases hr : exec Action.reduceAll s with ⟨fault | reduced, t⟩
  · exact ⟨fault, rfl⟩
  · rw [hr] at ht
    obtain ⟨e, he, hu⟩ := ht
    have hmem : e.element ∈ t.result := by
      rw [State.result]
      exact List.mem_map_of_mem (List.mem_reverse.2 he)
    have hfind : (t.result.find? fun e => e.contains Element.isUnfinished).isSome :=
      List.find?_isSome.2 ⟨e.element, hmem, hu⟩
    obtain ⟨found, hfound⟩ := Option.isSome_iff_exists.1 hfind
    refine ⟨.unfinished found.kind found.stamp.pc, ?_⟩
    simp only [Except.map, exec_bind, exec_get, hfound]
    rfl

namespace Registry

theorem lost_step_returnVoid {s t : State} (h : s.Lost)
    (ht : exec (core.step Opcode.returnVoid) s = (.ok ⟨⟩, t)) : t.Lost := by
  have hsub := subset_statements_reduceAll s
  rw [exec_step_returnVoid_eq, exec_bind, exec_discard] at ht
  rcases hr : exec Action.reduceAll s with ⟨fault | reduced, u⟩
  · rw [hr] at ht
    cases ht
  · rw [hr] at ht hsub
    obtain rfl : u.enlist (.ofShape .ret) = t := (Prod.mk.inj ht).2
    exact h.mono (List.Subset.trans hsub (List.subset_cons_self ..))

-- Code that has lost something in front of its return is not decompiled.
theorem exists_decompile_of_lost {method : Method} {cursor : Cursor} {t : State} {stop pc : Nat}
    (hc : cursor.EndsAt stop) (h : core.Runs (.start method cursor) t) (ha : t.aborted = false)
    (hct : t.cursor = .fresh [Opcode.returnVoid] pc) (hl : t.Lost) :
    ∃ fault, (core.decompile Observer.idle ⟨⟩ method cursor).result = .error fault := by
  have hn : stop < cursor.pc + (cursor.remaining.length + 1) := by
    have hr := hc.reach
    omega
  obtain ⟨k, hk, hend, hfuel⟩ := exists_runLoop_eq h hc hn
  have hrem : t.cursor.remaining = [Opcode.returnVoid] := by
    rw [hct, Cursor.remaining_fresh]
  have hreach := hend.reach
  rw [hrem, List.length_singleton] at hreach
  have hd : ¬t.Done := by
    rintro (haborted | hnil)
    · rw [ha] at haborted
      cases haborted
    · rw [hrem] at hnil
      cases hnil
  rcases exists_fault_or_executes hd with ⟨fault, u, hfault⟩ | ⟨u, hex⟩
  · rw [decompile, hk.trans (hfault ..)]
    exact ⟨fault, rfl⟩
  · obtain ⟨hlt, hendu⟩ := hex.advances hend
    obtain ⟨code, rest, hcons, hstep⟩ := hex.fetched hend
    obtain ⟨rfl, rfl⟩ := List.cons.inj (hrem.symm.trans hcons)
    have hlost : u.Lost := lost_step_returnVoid (s := t.fetch) hl hstep
    have hnil : u.cursor.remaining = [] := by
      have hreachu := hendu.reach
      unfold State.pc at hlt
      exact List.eq_nil_of_length_eq_zero (by omega)
    obtain ⟨i, rfl⟩ : ∃ i, k = i + 1 := ⟨k - 1, by unfold State.pc at hfuel; omega⟩
    have hdone := runLoop_of_done (r := core) Observer.idle ⟨⟩ i hendu (.inr hnil)
    have hloop := hk.trans ((runLoop_of_executes Observer.idle ⟨⟩ (i + 1) hex).trans hdone)
    obtain ⟨fault, hf⟩ := exists_finish_of_lost hlost
    rw [decompile, hloop]
    exact ⟨fault, hf⟩

end Registry

namespace Count

variable {m : Method} {s : State} {c : Count} {parked : Option UInt16} {rest : Bytes} {pc : Nat}

-- In either order of the load and the increment something is left for the store.
theorem exists_leaves (h : s.Tame m) {v : LocalVariable} (hv : m.Covers c.slot v)
    (hc : s.cursor = .fresh (c.value ++ rest) pc) (hlen : pc + c.value.length ≤ m.code.length) :
    ∃ below e t, s.Leaves m below e t ∧ t.cursor = .fresh rest (pc + c.value.length) := by
  have hincrease := Opcode.length_increaseInt_pos c.slot c.delta
  have hload := Opcode.length_loadInt_pos c.slot
  unfold value at hc hlen ⊢
  split_ifs at hc hlen ⊢
  all_goals
    rw [List.length_append] at hlen ⊢
    rw [List.append_assoc] at hc
    rw [← Nat.add_assoc]
  · have hlt : pc + (Opcode.increaseInt c.slot c.delta).length < m.code.length := by omega
    obtain ⟨_, _, t, ht, hct⟩ := h.exists_leaves_increase hv (by omega) c.delta hc
    obtain ⟨_, _, u, hu, hcu⟩ := ht.tame.exists_leaves_load hv hlt hct
    exact ⟨_, _, u, ht.trans hu, hcu⟩
  · have hlt : pc + (Opcode.loadInt c.slot).length < m.code.length := by omega
    obtain ⟨_, _, t, ht, hct⟩ := h.exists_leaves_load hv (by omega) hc
    obtain ⟨_, _, u, hu, hcu⟩ := ht.tame.exists_leaves_increase hv hlt c.delta hct
    exact ⟨_, _, u, ht.trans hu, hcu⟩

-- Wherever a statement stands it is executed, and keeps the statements in front of it.
theorem exists_runs (h : s.Tame m) (hd : c.Declared m)
    (hc : s.cursor = .fresh (c.code ++ rest) pc) (hlen : pc + c.code.length ≤ m.code.length) :
    ∃ t, Registry.core.Runs s t ∧ t.Tame m ∧ s.statements ⊆ t.statements ∧
      t.cursor = .fresh rest (pc + c.code.length) := by
  obtain ⟨v, hv, -⟩ := hd c.slot (List.mem_cons_self ..)
  cases ht : c.target with
  | none =>
    have hcode : c.code = Opcode.increaseInt c.slot c.delta := by simp only [code, ht]
    have hpos := Opcode.length_increaseInt_pos c.slot c.delta
    rw [hcode] at hc hlen ⊢
    obtain ⟨below, e, t, hleaves, hct⟩ := h.exists_leaves_increase hv (by omega) c.delta hc
    exact ⟨t, hleaves.runs, hleaves.tame, hleaves.statements ▸ List.Subset.refl _, hct⟩
  | some target =>
    obtain ⟨w, hw, -⟩ := hd target (by simp [slots, ht])
    have hstore := Opcode.length_storeInt_pos target
    rw [code_of_target ht, List.length_append] at hlen ⊢
    rw [code_of_target ht, List.append_assoc] at hc
    have hlt : pc + c.value.length < m.code.length := by omega
    obtain ⟨below, e, t, hleaves, hct⟩ := exists_leaves h hv hc (by omega)
    obtain ⟨u, hassigns, hcu⟩ := hleaves.assigns hw hlt hct
    obtain ⟨entry, hstatements, -⟩ := hassigns.statements
    rw [← Nat.add_assoc]
    refine ⟨u, hassigns.runs, hassigns.tame, ?_, hcu⟩
    rw [hstatements]
    exact List.subset_cons_self ..

theorem exists_runs_all {counts : List Count} (h : s.Tame m) (hd : ∀ c ∈ counts, c.Declared m)
    (hc : s.cursor = .fresh (counts.flatMap code ++ rest) pc)
    (hlen : pc + (counts.flatMap code).length ≤ m.code.length) :
    ∃ t, Registry.core.Runs s t ∧ t.Tame m ∧ s.statements ⊆ t.statements ∧
      t.cursor = .fresh rest (pc + (counts.flatMap code).length) := by
  induction counts generalizing s pc with
  | nil => exact ⟨s, .refl, h, List.Subset.refl _, hc⟩
  | cons c counts ih =>
    obtain ⟨hfirst, hrest⟩ := List.forall_mem_cons.1 hd
    rw [List.flatMap_cons, List.append_assoc] at hc
    rw [List.flatMap_cons, List.length_append] at hlen ⊢
    obtain ⟨t, hst, ht, hsub, hct⟩ := exists_runs h hfirst hc (by omega)
    obtain ⟨u, htu, hu, hsub', hcu⟩ := ih ht hrest hct (by omega)
    rw [← Nat.add_assoc]
    exact ⟨u, hst.trans htu, hu, List.Subset.trans hsub hsub', hcu⟩

section Lost

variable (hp : s.Parked m parked) (hclear : c.isClear parked = false)
include hp hclear

-- What the increment of a statement that is not clear finds below it is not the load, or is not
-- seen because it is wide.
theorem exists_leaves_pending {v : LocalVariable} (hv : m.Covers c.slot v)
    (hc : s.cursor = .fresh (c.value ++ rest) pc) (hlen : pc + c.value.length ≤ m.code.length) :
    ∃ below t, s.Leaves m below (v.pending c.slot c.delta.toInt32) t ∧
      t.cursor = .fresh rest (pc + c.value.length) := by
  have hl : c.leading = false := by
    by_contra hl
    simp [isClear, hl] at hclear
  have hincrease := Opcode.length_increaseInt_pos c.slot c.delta
  rw [value_of_not_leading hl, List.length_append] at hlen ⊢
  rw [value_of_not_leading hl, List.append_assoc] at hc
  have hlt : pc < m.code.length := by omega
  have hlt' : pc + (Opcode.loadInt c.slot).length < m.code.length := by omega
  rw [← Nat.add_assoc]
  by_cases hplain : c.slot < 256
  · obtain ⟨-, rfl⟩ : c.target.isSome ∧ parked = some c.slot := by
      simpa [isClear, hl, hplain] using hclear
    obtain ⟨top, below, u, delta, hs, hu, hbare⟩ := hp.top
    obtain rfl := hu.unique hv
    have hpending : top.element.isPendingIncrementOf (u.load c.slot) := by
      rw [← Element.isPendingIncrementOf_bare, hbare]
      exact u.isPendingIncrementOf_load c.slot delta
    obtain ⟨t, ht, hct⟩ := hp.tame.leaves_useNew hv hlt hc hplain hs hpending
    rw [hbare] at ht
    have hsettled : ∀ entry others, t.stack = entry :: others →
        (u.pending c.slot c.delta.toInt32).isPendingIncrementOf entry.element = false := by
      intro entry others hothers
      obtain ⟨merged, hstack, hmerged, -⟩ := ht.top
      obtain ⟨rfl, -⟩ := List.cons.inj (hstack.symm.trans hothers)
      rw [← Element.isPendingIncrementOf_bare, hmerged]
      rfl
    obtain ⟨t', ht', hct'⟩ := ht.tame.leaves_increase hv hlt' c.delta hct fun _ => hsettled
    exact ⟨_, t', ht.trans ht', hct'⟩
  · obtain ⟨t, ht, hct⟩ := hp.tame.leaves_load hv hlt hc fun h => absurd h hplain
    obtain ⟨t', ht', hct'⟩ := ht.tame.leaves_increase hv hlt' c.delta hct fun h =>
      absurd h hplain
    exact ⟨_, t', ht.trans ht', hct'⟩

-- A statement that is not clear assigns an increment whose use was not seen.
theorem exists_lost (hd : c.Declared m) (hc : s.cursor = .fresh (c.code ++ rest) pc)
    (hlen : pc + c.code.length ≤ m.code.length) :
    ∃ t, Registry.core.Runs s t ∧ t.Tame m ∧ t.Lost ∧
      t.cursor = .fresh rest (pc + c.code.length) := by
  obtain ⟨v, hv, -⟩ := hd c.slot (List.mem_cons_self ..)
  cases ht : c.target with
  | none => simp [isClear, ht] at hclear
  | some target =>
    obtain ⟨w, hw, -⟩ := hd target (by simp [slots, ht])
    have hstore := Opcode.length_storeInt_pos target
    rw [code_of_target ht, List.length_append] at hlen ⊢
    rw [code_of_target ht, List.append_assoc] at hc
    have hlt : pc + c.value.length < m.code.length := by omega
    obtain ⟨below, t, hleaves, hct⟩ := exists_leaves_pending hp hclear hv hc (by omega)
    obtain ⟨u, hassigns, hcu⟩ := hleaves.assigns hw hlt hct
    obtain ⟨entry, hstatements, hbare, -⟩ := hassigns.statements
    have hunfinished : entry.element.contains Element.isUnfinished := by
      rw [← Element.contains_bare Element.isUnfinished_bare, hbare]
      rfl
    have hmem : entry ∈ u.statements := by
      rw [hstatements]
      exact List.mem_cons_self ..
    rw [← Nat.add_assoc]
    exact ⟨u, hassigns.runs, hassigns.tame, ⟨entry, hmem, hunfinished⟩, hcu⟩

end Lost

-- If one of the statements is not clear, it is lost, and stays so.
theorem exists_lost_all {counts : List Count} (hp : s.Parked m parked)
    (hd : ∀ c ∈ counts, c.Declared m) (hclear : allClear parked counts = false)
    (hc : s.cursor = .fresh (counts.flatMap code ++ rest) pc)
    (hlen : pc + (counts.flatMap code).length ≤ m.code.length) :
    ∃ t, Registry.core.Runs s t ∧ t.Tame m ∧ t.Lost ∧
      t.cursor = .fresh rest (pc + (counts.flatMap code).length) := by
  induction counts generalizing s parked pc with
  | nil => cases hclear
  | cons c counts ih =>
    obtain ⟨hfirst, hrest⟩ := List.forall_mem_cons.1 hd
    rw [List.flatMap_cons, List.append_assoc] at hc
    rw [List.flatMap_cons, List.length_append] at hlen ⊢
    rw [← Nat.add_assoc]
    by_cases hone : c.isClear parked
    · have hothers : allClear (c.parks parked) counts = false := by
        simpa [allClear, hone] using hclear
      obtain ⟨t, _, ht, -, hct⟩ := exists_performs hp hfirst hone hc (by omega)
      obtain ⟨u, htu, hu, hlost, hcu⟩ := ih ht.parked hrest hothers hct (by omega)
      exact ⟨u, ht.runs.trans htu, hu, hlost, hcu⟩
    · have hlose : c.isClear parked = false := by simpa using hone
      obtain ⟨t, hst, ht, hlost, hct⟩ := exists_lost hp hlose hfirst hc (by omega)
      obtain ⟨u, htu, hu, hsub, hcu⟩ := exists_runs_all ht hrest hct (by omega)
      exact ⟨u, hst.trans htu, hu, hlost.mono hsub, hcu⟩

end Count

-- Statements that count variables are restored from their code exactly if no old value is used
-- of a variable whose increment is parked on top, or whose loads are wide.
theorem Method.decompile_counts {m : Method} {counts : List Count}
    (hcode : m.code = Count.body counts) (hd : ∀ c ∈ counts, c.Declared m) :
    (∃ result, m.decompile = .ok result ∧ Count.Restored counts result) ↔
      Count.allClear none counts := by
  refine ⟨fun h => ?_, Count.exists_restored hcode hd⟩
  obtain ⟨result, hresult, -⟩ := h
  by_contra hclear
  have hc : (State.start m (.ofCode m.code)).cursor =
      .fresh (counts.flatMap Count.code ++ [Opcode.returnVoid]) 0 := by
    rw [hcode]
    rfl
  have hlen : 0 + (counts.flatMap Count.code).length ≤ m.code.length := by
    rw [hcode, Count.body, List.length_append]
    omega
  obtain ⟨t, hruns, ht, hlost, hct⟩ :=
    Count.exists_lost_all (Count.parked_start m) hd (by simpa using hclear) hc hlen
  obtain ⟨fault, hfault⟩ := Registry.exists_decompile_of_lost (Cursor.endsAt_ofBytes m.code 0)
    hruns ht.running hct hlost
  cases hresult.symm.trans hfault

namespace Count

-- A method with two int variables and the code of some statements.
def method (counts : List Count) : Method :=
  { className := "A", name := "m", descriptor := "()V", signature := ⟨[], .void⟩
    code := body counts
    locals := [⟨"x", .int, 0, 0, 100⟩, ⟨"y", .int, 1, 0, 100⟩] }

theorem covers_method {counts : List Count} (h : (body counts).length ≤ 100) :
    (method counts).Covers 0 ⟨"x", .int, 0, 0, 100⟩ ∧
      (method counts).Covers 1 ⟨"y", .int, 1, 0, 100⟩ := by
  have hlocals : (method counts).locals = [⟨"x", .int, 0, 0, 100⟩, ⟨"y", .int, 1, 0, 100⟩] := rfl
  refine ⟨⟨?_, rfl, ?_, rfl, h, nofun⟩, ⟨?_, rfl, ?_, rfl, h, nofun⟩⟩
  all_goals
    rw [hlocals]
    decide

-- A statement on the two variables of the method.
theorem declared_method {counts : List Count} (h : (body counts).length ≤ 100) {c : Count}
    (hc : ∀ slot ∈ c.slots, slot = 0 ∨ slot = 1) : c.Declared (method counts) := by
  intro slot hslot
  rcases hc slot hslot with rfl | rfl
  · exact ⟨_, (covers_method h).1, rfl⟩
  · exact ⟨_, (covers_method h).2, rfl⟩

-- The statements `x++`, `x = y++` and `y = --x`.
def mixed : List Count :=
  [⟨0, true, false, none⟩, ⟨1, true, false, some 0⟩, ⟨0, false, true, some 1⟩]

theorem decompile_counts_mixed :
    ∃ result, (method mixed).decompile = .ok result ∧ Restored mixed result := by
  have hd : ∀ c ∈ mixed, c.Declared (method mixed) := by
    have hslots : ∀ c ∈ mixed, ∀ slot ∈ c.slots, slot = 0 ∨ slot = 1 := by
      simp [mixed, slots]
    exact fun c hc => declared_method (by decide) (hslots c hc)
  exact (Method.decompile_counts rfl hd).2 rfl

-- The statements `x++` and `y = x++`.
def repeated : List Count :=
  [⟨0, true, false, none⟩, ⟨0, true, false, some 1⟩]

-- The load of the old value is merged with the increment in front of it, and the increment behind
-- it is taken for one whose use was never seen.
theorem decompile_counts_repeated :
    (method repeated).code =
        [Opcode.iinc, 0, 1, Opcode.iload0, Opcode.iinc, 0, 1, Opcode.istore1,
          Opcode.returnVoid] ∧
      (∀ c ∈ repeated, c.Declared (method repeated)) ∧
      ¬∃ result, (method repeated).decompile = .ok result ∧ Restored repeated result := by
  refine ⟨rfl, ?_, ?_⟩
  · have hslots : ∀ c ∈ repeated, ∀ slot ∈ c.slots, slot = 0 ∨ slot = 1 := by
      simp [repeated, slots]
    exact fun c hc => declared_method (by decide) (hslots c hc)
  · rintro ⟨result, hresult, -⟩
    have hfailed : (method repeated).decompile.toOption.isNone := by decide +kernel
    rw [hresult] at hfailed
    cases hfailed

end Count

end JvmLift
