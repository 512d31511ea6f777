import JvmLift.Proofs.Corrections
import JvmLift.Proofs.Jumps.Runs
import JvmLift.Proofs.Unaware

namespace JvmLift

namespace Opcode

-- A jump that is not conditional is one of two instructions, and each has all its bytes.
theorem jump_of_distance? {bytes : Bytes} {offset : Int}
    (h : distance? bytes = some (.jump, offset)) :
    (∃ operand, bytes = goto :: operand ∧ 2 ≤ operand.length ∧
      offset = (Int16.ofNat (bigEndian (operand.take 2))).toInt) ∨
    ∃ operand, bytes = gotoW :: operand ∧ 4 ≤ operand.length ∧
      offset = (Int32.ofNat (bigEndian (operand.take 4))).toInt := by
  cases bytes with
  | nil => cases h
  | cons head operand =>
    rw [distance?] at h
    split at h
    case isTrue hwide =>
      obtain ⟨rfl, hlen⟩ := hwide
      obtain ⟨-, rfl⟩ := Prod.mk.inj (Option.some.inj h)
      exact .inr ⟨operand, rfl, hlen, rfl⟩
    case isFalse hnarrow =>
      split at h
      case isTrue => cases h
      case isFalse hlen =>
        dsimp only at h
        split at h
        case isTrue hgoto =>
          obtain ⟨-, rfl⟩ := Prod.mk.inj (Option.some.inj h)
          exact .inl ⟨operand, hgoto ▸ rfl, by omega, rfl⟩
        case isFalse =>
          split at h
          · cases h
          · cases h

end Opcode

namespace Method

variable {m : Method} {start pc : Nat} {table : List ExceptionEntry}

-- Whether protected code that begins no later than a position ends at another one.
def Leaves (m : Method) (start pc : Nat) : Prop :=
  ∃ e ∈ m.exceptions, e.stop.toNat = pc ∧ e.start.toNat ≤ start

-- Whether there is such code, but of all that ends there the first in the table begins later.
def Shadows (m : Method) (start pc : Nat) : Prop :=
  m.Leaves start pc ∧ ∃ first, m.exceptionEndingAt? pc = some first ∧ start < first.start.toNat

-- Whether the first code in the table that ends there begins no later.
def leavesFirst (m : Method) (start pc : Nat) : Bool :=
  (m.exceptionEndingAt? pc).any fun e => e.start.toNat ≤ start

theorem leavesFirst_iff : m.leavesFirst start pc ↔ m.Leaves start pc ∧ ¬m.Shadows start pc := by
  rw [leavesFirst]
  cases hfirst : m.exceptionEndingAt? pc with
  | none =>
    have hnone := List.find?_eq_none.1 hfirst
    simp only [Option.any_none, Bool.false_eq_true, false_iff]
    rintro ⟨⟨e, he, hstop, -⟩, -⟩
    exact hnone e he (decide_eq_true hstop)
  | some first =>
    have hstop : first.stop.toNat = pc := by simpa using List.find?_some hfirst
    have hmem : first ∈ m.exceptions := List.mem_of_find?_eq_some hfirst
    simp only [Option.any_some, decide_eq_true_eq]
    constructor
    · intro hstart
      refine ⟨⟨first, hmem, hstop, hstart⟩, ?_⟩
      rintro ⟨-, other, hother, hlt⟩
      obtain rfl := Option.some.inj (hfirst.symm.trans hother)
      omega
    · rintro ⟨hleaves, hnot⟩
      by_contra hlt
      exact hnot ⟨hleaves, first, hfirst, by omega⟩

-- What the first entry says is right exactly if it hides no other one.
theorem leavesFirst_iff_leaves_iff :
    (m.leavesFirst start pc ↔ m.Leaves start pc) ↔ ¬m.Shadows start pc := by
  rw [leavesFirst_iff]
  constructor
  · intro h hshadows
    exact (h.2 hshadows.1).2 hshadows
  · intro h
    exact and_iff_left h

theorem leaves_retable_of_perm (h : table.Perm m.exceptions) :
    (m.retable table).Leaves start pc ↔ m.Leaves start pc :=
  exists_congr fun _ => and_congr_left' h.mem_iff

-- In another order of the table the first entry says the same if it hides others in both or in
-- neither.
theorem leavesFirst_retable_of_perm (h : table.Perm m.exceptions)
    (hshadows : (m.retable table).Shadows start pc ↔ m.Shadows start pc) :
    (m.retable table).leavesFirst start pc = m.leavesFirst start pc := by
  rw [Bool.eq_iff_iff, leavesFirst_iff, leavesFirst_iff, leaves_retable_of_perm h, hshadows]

end Method

-- What has become of a run, as of a run with another table.
def Outcome.retable {σ : Type} (outcome : Outcome σ) (table : List ExceptionEntry) : Outcome σ :=
  { outcome with state := outcome.state.retable table }

namespace Registry

open Instruction

variable {s t : State} {code : Opcode} {table : List ExceptionEntry}

theorem leavesTry_eq (s : State) : Jump.leavesTry s =
    (!s.aborted && s.lastIs .jump && s.method.leavesFirst s.startPc s.instructionPc) :=
  rfl

section Jump

variable {bytes : Bytes} {offset : Int} {target : Nat}

-- The state behind a jump within the code, with or without the jump as a statement.
def jumped (s : State) (cursor : Cursor) (target : Nat) : State :=
  let passed := ({ s.fetch with cursor } : State)
  if s.method.leavesFirst s.startPc s.pc then
    { passed with version := s.version + 1, aborted := true }
  else passed.enlist (.ofShape (.jump target))

theorem exec_requireTarget (hpc : s.instructionPc + offset = (target : Int)) :
    exec (Jump.requireTarget offset) s = (.ok target, s) := by
  have hnot : ¬s.instructionPc + offset < 0 := by omega
  have hnat : (s.instructionPc + offset).toNat = target := by omega
  rw [Jump.requireTarget, exec_bind_of_ok (exec_get s), Jump.target]
  simp only [if_neg hnot, hnat]
  rfl

-- A jump becomes a statement unless it leads to the front of the code.
theorem exec_jump (hpc : s.instructionPc + offset = (target : Int)) (htarget : s.startPc ≤ target) :
    exec (Jump.jump offset) s = (.ok ⟨⟩, s.enlist (.ofShape (.jump target))) := by
  rw [Jump.jump, exec_bind_of_ok (exec_requireTarget hpc), exec_bind_of_ok (exec_get s)]
  simp only [Nat.not_lt.2 htarget, if_false]
  rfl

-- What is asked behind a jump takes it away again and ends the run.
theorem exec_runAll_corrective_jump (hcode : code = Opcode.goto ∨ code = Opcode.gotoW)
    (ha : s.aborted = false) (cursor : Cursor) :
    exec (runAll code (core.rules .corrective code))
        (({ s.fetch with cursor } : State).enlist (.ofShape (.jump target))) =
      (.ok ⟨⟩, jumped s cursor target) := by
  let made := ({ s.fetch with cursor } : State).enlist (.ofShape (.jump target))
  have hrules : core.rules .corrective code =
      [(Declaration.after [Opcode.goto, Opcode.gotoW] .high Jump.leavesTry do
        discard Action.removeLastStatement
        Action.abort).rule] := by
    rcases hcode with rfl | rfl <;> rfl
  have hleaves : Jump.leavesTry made = s.method.leavesFirst s.startPc s.pc := by
    have hawake : made.aborted = false := ha
    rw [leavesTry_eq, hawake]
    rfl
  rw [hrules]
  by_cases hfirst : s.method.leavesFirst s.startPc s.pc
  · rw [jumped, if_pos hfirst]
    exact exec_runAll_singleton_of_applies (hleaves.trans hfirst) rfl
  · rw [jumped, if_neg hfirst]
    apply exec_runAll_of_spared
    intro rule hrule
    rw [List.mem_singleton.1 hrule]
    exact hleaves.trans (Bool.eq_false_iff.2 hfirst)

-- A value whose bytes are all there is read.
theorem exec_read_of_length_le {α : Type} {r : Reading α} {count : Nat} {value : Bytes → α}
    (hr : ∀ c, exec r c =
      ((exec (Reading.next count) c).1.map value, (exec (Reading.next count) c).2))
    (h : count ≤ s.cursor.remaining.length) :
    exec (Action.read r) s = (.ok (value (s.cursor.remaining.take count)),
      { s with cursor := s.cursor.advance count }) := by
  rw [Action.exec_read, hr, Reading.exec_next, if_neg (Nat.not_lt.2 h)]
  rfl

-- A jump is executed if what its bytes say leads into the code.
theorem executes_jump_of_read {α : Type} {r : Reading α} {count : Nat} {value : Bytes → α}
    (hr : ∀ c, exec r c =
      ((exec (Reading.next count) c).1.map value, (exec (Reading.next count) c).2))
    {toInt : α → Int} (hcode : code = Opcode.goto ∨ code = Opcode.gotoW)
    (hprimary : core.primary? s.fetch code = some (Declaration.on [code] fun _ => do
      Jump.jump (toInt (← Action.read r))).rule)
    (ha : s.aborted = false) {operand : Bytes} (hcons : s.cursor.remaining = code :: operand)
    (hlen : count ≤ operand.length) (hpc : s.pc + toInt (value (operand.take count)) = target)
    (htarget : s.startPc ≤ target) :
    core.Executes s (jumped s (s.fetch.cursor.advance count) target) := by
  have hoperand : s.fetch.cursor.remaining = operand := s.remaining_fetch hcons
  have hread : exec (Action.read r) s.fetch = (.ok (value (operand.take count)),
      { s.fetch with cursor := s.fetch.cursor.advance count }) := by
    rw [exec_read_of_length_le hr (by rwa [hoperand]), hoperand]
  have hmade : exec (do Jump.jump (toInt (← Action.read r))) s.fetch = (.ok ⟨⟩,
      ({ s.fetch with cursor := s.fetch.cursor.advance count } : State).enlist
        (.ofShape (.jump target))) := by
    rw [exec_bind_of_ok hread]
    exact exec_jump hpc htarget
  refine executes_of_cons ha hcons ?_
  rw [exec_step_core hprimary]
  exact (exec_bind_of_ok hmade _).trans (exec_runAll_corrective_jump hcode ha _)

-- Where a run comes to a jump within its code, the first entry of the table decides what it does.
theorem executes_jump (ha : s.aborted = false) (hreads : s.Reads bytes)
    (hjump : Opcode.jumpAt? bytes s.pc = some (.jump, (target : Int)))
    (htarget : s.startPc ≤ target) : ∃ cursor, core.Executes s (jumped s cursor target) := by
  rw [Opcode.jumpAt?, ← hreads.remaining] at hjump
  obtain ⟨⟨kind, offset⟩, hdistance, hpair⟩ := Option.map_eq_some_iff.1 hjump
  obtain ⟨rfl, hpc⟩ := Prod.mk.inj hpair
  rcases Opcode.jump_of_distance? hdistance with
    ⟨operand, hcons, hlen, rfl⟩ | ⟨operand, hcons, hlen, rfl⟩
  · exact ⟨_, executes_jump_of_read Reading.exec_i16 (.inl rfl) rfl ha hcons hlen hpc htarget⟩
  · exact ⟨_, executes_jump_of_read Reading.exec_i32 (.inr rfl) rfl ha hcons hlen hpc htarget⟩

end Jump

section Table

-- Two tables say the same about an instruction that asks.
def Agree (s : State) (table : List ExceptionEntry) (code : Opcode) : Prop :=
  code = Opcode.goto ∨ code = Opcode.gotoW →
    (s.method.retable table).leavesFirst s.startPc s.instructionPc =
      s.method.leavesFirst s.startPc s.instructionPc

theorem Agree.of_beside (h : Agree s table code) (hst : s.Beside t) : Agree t table code := by
  intro hcode
  rw [hst.method, hst.startPc, hst.instructionPc]
  exact h hcode

variable {stage : Stage} {rule : Rule}

theorem unaware_core (hr : rule ∈ core.rules stage code) (head : Opcode) :
    Action.Unaware (rule.run head) := by
  obtain ⟨d, hd, rfl, -, -⟩ := mem_core hr
  exact (Instruction.unaware d hd).run head

theorem applies_retable (hr : rule ∈ core.rules stage code) (h : Agree s table code) :
    rule.applies (s.retable table) code = rule.applies s code := by
  obtain ⟨d, hd, rfl, -, hcode⟩ := mem_core hr
  refine (Instruction.unaware d hd).blind s table code hcode fun hjump => ?_
  rw [leavesTry_eq, leavesTry_eq, ← h hjump]
  rfl

-- The rules of an instruction do the same with another table that says the same about it.
theorem exec_runAll_retable {rules : List Rule} (hr : ∀ rule ∈ rules, rule ∈ core.rules stage code)
    (h : Agree s table code) :
    exec (runAll code rules) (s.retable table) =
      ((exec (runAll code rules) s).1, (exec (runAll code rules) s).2.retable table) := by
  induction rules generalizing s with
  | nil => rfl
  | cons rule rest ih =>
    obtain ⟨hrule, hrest⟩ := List.forall_mem_cons.1 hr
    have hrun := unaware_core hrule code
    rw [runAll, exec_bind_of_ok (exec_get _), exec_bind_of_ok (exec_get _),
      applies_retable hrule h]
    split
    · have hbeside := hrun.beside s
      rw [exec_bind, exec_bind, hrun.exec_retable]
      rcases he : exec (rule.run code) s with ⟨f | ⟨⟨⟩⟩, t⟩
      · rfl
      · rw [he] at hbeside
        exact ih hrest (h.of_beside hbeside)
    · exact ih hrest h

theorem beside_runAll {rules : List Rule} (hr : ∀ rule ∈ rules, rule ∈ core.rules stage code)
    (s : State) : s.Beside (exec (runAll code rules) s).2 := by
  induction rules generalizing s with
  | nil => exact .refl s
  | cons rule rest ih =>
    obtain ⟨hrule, hrest⟩ := List.forall_mem_cons.1 hr
    rw [runAll, exec_bind_of_ok (exec_get s)]
    split
    · have hbeside := (unaware_core hrule code).beside s
      rw [exec_bind]
      rcases he : exec (rule.run code) s with ⟨f | ⟨⟨⟩⟩, t⟩
      all_goals rw [he] at hbeside
      · exact hbeside
      · exact hbeside.trans (ih hrest t)
    · exact ih hrest s

theorem primary?_retable (h : Agree s table code) :
    core.primary? (s.retable table) code = core.primary? s code := by
  rw [primary?, primary?, ← List.head?_filter, ← List.head?_filter,
    List.filter_congr fun rule hrule => applies_retable hrule h]

-- An instruction does the same with another table that says the same about it.
theorem exec_step_retable (h : Agree s table code) :
    exec (core.step code) (s.retable table) =
      ((exec (core.step code) s).1, (exec (core.step code) s).2.retable table) := by
  cases hp : core.primary? s code with
  | none =>
    have hp' : core.primary? (s.retable table) code = none := (primary?_retable h).trans hp
    rw [step, rules_advisory_core]
    simp only [runAll, exec_bind, exec_pure, exec_get, hp, hp']
    rfl
  | some rule =>
    have hp' : core.primary? (s.retable table) code = some rule := (primary?_retable h).trans hp
    have hrun := unaware_core (List.mem_of_find?_eq_some hp) code
    have hbeside := hrun.beside s
    rw [exec_step_core hp, exec_step_core hp', exec_bind, exec_bind, hrun.exec_retable]
    rcases he : exec (rule.run code) s with ⟨f | ⟨⟨⟩⟩, t⟩
    · rfl
    · rw [he] at hbeside
      exact exec_runAll_retable (fun _ hrule => hrule) (h.of_beside hbeside)

-- An instruction changes neither the method nor where the run has begun.
theorem beside_step (code : Opcode) (s : State) : s.Beside (exec (core.step code) s).2 := by
  cases hp : core.primary? s code with
  | none =>
    rw [step, rules_advisory_core]
    simp only [runAll, exec_bind, exec_pure, exec_get, hp]
    exact .refl s
  | some rule =>
    have hbeside := (unaware_core (List.mem_of_find?_eq_some hp) code).beside s
    rw [exec_step_core hp, exec_bind]
    rcases he : exec (rule.run code) s with ⟨f | ⟨⟨⟩⟩, t⟩
    all_goals rw [he] at hbeside
    · exact hbeside
    · exact hbeside.trans (beside_runAll (fun _ hrule => hrule) t)

theorem Executes.method_startPc (h : core.Executes s t) :
    t.method = s.method ∧ t.startPc = s.startPc := by
  obtain ⟨code, c, -, ht⟩ := h.exists_read
  have hbeside := beside_step code { s with cursor := c, instructionPc := s.pc }
  rw [ht] at hbeside
  exact ⟨hbeside.method, hbeside.startPc⟩

theorem Runs.method_startPc (h : core.Runs s t) : t.method = s.method ∧ t.startPc = s.startPc := by
  induction h with
  | refl => exact ⟨rfl, rfl⟩
  | tail _ he ih => exact ⟨he.method_startPc.1.trans ih.1, he.method_startPc.2.trans ih.2⟩

-- A run does the same with another table that says the same wherever it comes to.
theorem runLoop_retable {bytes : Bytes} (n : Nat) (hreads : s.Reads bytes)
    (hagree : ∀ u, core.Runs s u → ∀ code, bytes[u.pc]? = some code → Agree u.fetch table code) :
    core.runLoop Observer.idle n ⟨⟩ (s.retable table) =
      ((core.runLoop Observer.idle n ⟨⟩ s).1, ⟨⟩,
        (core.runLoop Observer.idle n ⟨⟩ s).2.2.retable table) := by
  induction n generalizing s with
  | zero => rfl
  | succ n ih =>
    by_cases hdone : s.Done
    · have hends : (s.retable table).cursor.EndsAt bytes.length := hreads.ends
      rw [runLoop_of_done Observer.idle ⟨⟩ n hends hdone,
        runLoop_of_done Observer.idle ⟨⟩ n hreads.ends hdone]
    · obtain ⟨ha, hrem⟩ := not_or.1 hdone
      obtain ⟨code, rest, hcons⟩ := List.exists_cons_of_ne_nil hrem
      have hstep := exec_step_retable (hagree s .refl code (hreads.getElem?_of_remaining hcons))
      have hnext : Action.nextInstruction.run.run s = (.ok code, s.fetch) :=
        exec_nextInstruction_of_cons hcons
      have hnext' : Action.nextInstruction.run.run (s.retable table) =
          (.ok code, s.fetch.retable table) :=
        exec_nextInstruction_of_cons hcons
      rcases he : exec (core.step code) s.fetch with ⟨f | ⟨⟨⟩⟩, t⟩
      all_goals rw [he] at hstep
      · have he' : (core.step code).run.run s.fetch = (.error f, t) := he
        have hstep' : (core.step code).run.run (s.fetch.retable table) =
            (.error f, t.retable table) := hstep
        have ha' : ¬(s.retable table).aborted := ha
        rw [runLoop, runLoop, if_neg ha, if_neg ha', hnext, hnext']
        simp only [he', hstep']
        rfl
      · have hexecutes := executes_of_cons (Bool.eq_false_iff.2 ha) hcons he
        have hexecutes' : core.Executes (s.retable table) (t.retable table) :=
          ⟨Bool.eq_false_iff.2 ha, code, _, hnext', hstep⟩
        rw [runLoop_of_executes _ _ n hexecutes, runLoop_of_executes _ _ n hexecutes']
        exact ih (hexecutes.reads hreads) fun u hu => hagree u (.head hexecutes hu)

theorem unaware_finish : Action.Unaware finish := by
  refine Action.Unaware.reduceAll.discard.bind fun _ => .inspect (fun _ _ => rfl) fun s => ?_
  dsimp only
  cases s.result.find? fun e => e.contains Element.isUnfinished with
  | some e => exact .throw _
  | none => exact .pure _

variable {m : Method} {bytes : Bytes} {start : Nat}

theorem decompile_retable
    (hagree : ∀ s, core.Runs (.start m (.behind bytes start)) s →
      ∀ code, bytes[s.pc]? = some code → Agree s.fetch table code) :
    core.decompile Observer.idle ⟨⟩ (m.retable table) (.behind bytes start) =
      Outcome.retable (core.decompile Observer.idle ⟨⟩ m (.behind bytes start)) table := by
  have hloop := runLoop_retable ((Cursor.behind bytes start).remaining.length + 1)
    (reads_start m bytes start) hagree
  have hstart : State.start (m.retable table) (.behind bytes start) =
      (State.start m (.behind bytes start)).retable table := rfl
  rw [decompile, decompile, hstart, hloop]
  rcases core.runLoop Observer.idle ((Cursor.behind bytes start).remaining.length + 1) ⟨⟩
    (.start m (.behind bytes start)) with ⟨f | ⟨⟨⟩⟩, ⟨⟩, t⟩
  · rfl
  · have hfinish : finish.run.run (t.retable table) =
        ((finish.run.run t).1, (finish.run.run t).2.retable table) :=
      unaware_finish.exec_retable t table
    simp only [hfinish]
    rfl

-- A jump that leads to a place within its code is taken away and ends the run, or it becomes the
-- last statement and the run goes on. Unless one that begins later hides it, protected code that
-- begins no later than the run and ends at the jump is what decides. Where the same jumps are in
-- hidden code, the order of the table changes nothing at all.
theorem jump_leaves (m : Method) (code : Bytes) (start : Nat) :
    (∀ (s : State) (target : Nat), core.Runs (.start m (.behind code start)) s →
      s.aborted = false → Opcode.jumpAt? code s.pc = some (.jump, (target : Int)) →
      s.startPc ≤ target →
      ∃ t, core.Executes s t ∧ t.stack = s.stack ∧
        (t.aborted = true ∧ t.statements = s.statements ∨
          t.aborted = false ∧
            t.statements = s.fetch.entry (.ofShape (.jump target)) :: s.statements) ∧
        ((t.aborted = true ↔ m.Leaves s.startPc s.pc) ↔ ¬m.Shadows s.startPc s.pc)) ∧
    ∀ table : List ExceptionEntry, table.Perm m.exceptions →
      (∀ s, core.Runs (.start m (.behind code start)) s →
        code[s.pc]? = some Opcode.goto ∨ code[s.pc]? = some Opcode.gotoW →
        ((m.retable table).Shadows s.startPc s.pc ↔ m.Shadows s.startPc s.pc)) →
      core.decompile Observer.idle ⟨⟩ (m.retable table) (.behind code start) =
        Outcome.retable (core.decompile Observer.idle ⟨⟩ m (.behind code start)) table := by
  constructor
  · intro s target hruns ha hjump htarget
    obtain ⟨cursor, hexecutes⟩ := executes_jump ha hruns.landing.2 hjump htarget
    have hmethod : s.method = m := hruns.method_startPc.1
    refine ⟨jumped s cursor target, hexecutes, ?_, ?_, ?_⟩
    · rw [jumped]
      split <;> rfl
    · rw [jumped]
      split
      · exact .inl ⟨rfl, rfl⟩
      · exact .inr ⟨ha, rfl⟩
    · have haborted : (jumped s cursor target).aborted = m.leavesFirst s.startPc s.pc := by
        rw [jumped, hmethod]
        split
        case isTrue hfirst => exact hfirst.symm
        case isFalse hfirst => exact ha.trans (Bool.eq_false_iff.2 hfirst).symm
      rw [haborted]
      exact Method.leavesFirst_iff_leaves_iff
  · intro table hperm hshadows
    apply decompile_retable
    intro s hruns head hhead hcode
    have hmethod : s.fetch.method = m := hruns.method_startPc.1
    have hjump : code[s.pc]? = some Opcode.goto ∨ code[s.pc]? = some Opcode.gotoW := by
      rcases hcode with rfl | rfl
      · exact .inl hhead
      · exact .inr hhead
    rw [hmethod]
    exact Method.leavesFirst_retable_of_perm hperm (hshadows s hruns hjump)

-- A method that assigns a variable in protected code and leaves that.
def assignsInTry (table : List ExceptionEntry) : Method :=
  { className := "A", name := "m", descriptor := "()V", signature := ⟨[], .void⟩
    code := [Opcode.iconst0 + 1, Opcode.istore0, Opcode.nop, Opcode.nop, Opcode.nop, Opcode.goto,
      0, 4, Opcode.nop, Opcode.returnVoid]
    locals := [⟨"x", .int, 0, 0, 10⟩]
    exceptions := table }

-- Where the same code is protected by two handlers the jump is taken away, and it does not matter
-- which of them comes first.
theorem jump_leaves_two_handlers :
    let m := assignsInTry [⟨0, 5, 8, 0⟩, ⟨0, 5, 9, 0⟩]
    (∃ s t, core.Runs (.start m (.behind m.code 0)) s ∧ core.Executes s t ∧
      m.Leaves s.startPc s.pc ∧ t.aborted = true ∧ t.statements = s.statements) ∧
    core.decompile Observer.idle ⟨⟩ (m.retable m.exceptions.reverse) (.behind m.code 0) =
      Outcome.retable (core.decompile Observer.idle ⟨⟩ m (.behind m.code 0))
        m.exceptions.reverse := by
  intro m
  have hzero (pc : Nat) (table : List ExceptionEntry) (htable : ∀ e ∈ table, e.start = 0)
      (start : Nat) : ¬(m.retable table).Shadows start pc := by
    rintro ⟨-, first, hfirst, hlt⟩
    rw [htable first (List.mem_of_find?_eq_some hfirst)] at hlt
    exact Nat.not_lt_zero _ hlt
  obtain ⟨hjumps, hperm⟩ := jump_leaves m m.code 0
  constructor
  · have hwalk : (core.walk? 5 (.start m (.behind m.code 0))).map (fun s =>
        (s.aborted, s.pc, s.startPc)) = some (false, 5, 0) := by decide +kernel
    obtain ⟨s, hs, hfacts⟩ := Option.map_eq_some_iff.1 hwalk
    simp only [Prod.mk.injEq] at hfacts
    obtain ⟨ha, hpc, hstart⟩ := hfacts
    obtain ⟨t, he, -, hcases, hexact⟩ := hjumps s 9 (runs_of_walk? hs) ha (hpc ▸ by decide)
      (by omega)
    have hleaves : m.Leaves s.startPc s.pc := by
      rw [hpc, hstart]
      exact ⟨⟨0, 5, 8, 0⟩, List.mem_cons_self .., rfl, Nat.le_refl _⟩
    have haborted := (hexact.2 (hzero s.pc m.exceptions (by decide) s.startPc)).2 hleaves
    obtain ⟨-, hstatements⟩ | ⟨hawake, -⟩ := hcases
    · exact ⟨s, t, runs_of_walk? hs, he, hleaves, haborted, hstatements⟩
    · rw [haborted] at hawake
      cases hawake
  · exact hperm _ (List.reverse_perm _) fun s _ _ =>
      iff_of_false (hzero s.pc _ (by decide) _) (hzero s.pc m.exceptions (by decide) _)

-- Of two entries that end at the jump the first begins behind the run. It hides the other one: the
-- run goes on, and with the entries exchanged it ends.
theorem jump_leaves_of_hidden_entry :
    let m := assignsInTry [⟨3, 5, 8, 0⟩, ⟨0, 5, 8, 0⟩]
    (∃ s t, core.Runs (.start m (.behind m.code 0)) s ∧ s.aborted = false ∧
      Opcode.jumpAt? m.code s.pc = some (.jump, 9) ∧ s.startPc ≤ 9 ∧ m.Leaves s.startPc s.pc ∧
      core.Executes s t ∧ t.aborted = false) ∧
    m.decompile.map List.length = .ok 3 ∧
    (m.retable m.exceptions.reverse).decompile.map List.length = .ok 1 := by
  intro m
  refine ⟨?_, by decide +kernel, by decide +kernel⟩
  have hwalk : (core.walk? 5 (.start m (.behind m.code 0))).bind (fun s =>
      (core.next? s).map fun t => (s.aborted, s.pc, s.startPc, t.aborted)) =
      some (false, 5, 0, false) := by decide +kernel
  obtain ⟨s, hs, hnext⟩ := Option.bind_eq_some_iff.1 hwalk
  obtain ⟨t, ht, hfacts⟩ := Option.map_eq_some_iff.1 hnext
  simp only [Prod.mk.injEq] at hfacts
  obtain ⟨ha, hpc, hstart, hawake⟩ := hfacts
  refine ⟨s, t, runs_of_walk? hs, ha, hpc ▸ by decide, by omega, ?_, next?_eq_some_iff.1 ht, hawake⟩
  rw [hpc, hstart]
  exact ⟨⟨0, 5, 8, 0⟩, by decide, rfl, Nat.le_refl _⟩

end Table

end Registry

end JvmLift
