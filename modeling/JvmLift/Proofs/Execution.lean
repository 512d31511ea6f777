import JvmLift.Decompile
import JvmLift.Proofs.Composed.Core
import JvmLift.Proofs.Frame
import JvmLift.Proofs.Tree
import Mathlib.Logic.Relation

namespace JvmLift

-- The statements with the entry put among them at the place of its position and turn.
def Entry.fileInto (e : Entry) (statements : List Entry) : List Entry :=
  let (later, earlier) := statements.span e.precedes
  later ++ e :: earlier

-- What an entry of the stack becomes when it is made a statement.
def Entry.settled (e : Entry) : Entry :=
  { e with element := e.element.settled }

namespace State

-- The state behind a code, with the cursor at what follows it.
def fetch (s : State) : State :=
  { s with cursor := s.cursor.advance 1, instructionPc := s.pc }

theorem remaining_fetch (s : State) {code : Opcode} {rest : Bytes}
    (h : s.cursor.remaining = code :: rest) : s.fetch.cursor.remaining = rest := by
  show (s.cursor.advance 1).remaining = rest
  rw [Cursor.remaining_advance, h]
  rfl

-- Whether no more instructions are executed.
def Done (s : State) : Prop :=
  s.aborted ∨ s.cursor.remaining = []

-- The state with the entries above some others made statements, the top first.
def flushAbove (s : State) (moved below : List Entry) : State :=
  { s with
    stack := below
    statements := moved.foldl (fun statements e => e.settled.fileInto statements) s.statements }

-- The state with everything on the stack made a statement, the top first.
def flush (s : State) : State :=
  { s with
    stack := []
    statements := s.stack.foldl (fun statements e => e.settled.fileInto statements) s.statements }

theorem topIs_iff {s : State} {kind : Kind} :
    s.topIs kind ↔ ∃ top below, s.stack = top :: below ∧ top.element.kind = kind := by
  cases hs : s.stack with
  | nil => simp [topIs, peekAt?, hs]
  | cons top below => simp [topIs, peekAt?, hs]

theorem result_enlist (s : State) (e : Element) :
    (s.enlist e).result = s.result ++ [(s.entry e).element] := by
  rw [result, enlist, List.reverse_cons, List.map_append]
  rfl

end State

-- A list of statements, or the fault of the first one that is unfinished.
def verified (statements : List Element) : Except Fault (List Element) :=
  match statements.find? fun e => e.contains Element.isUnfinished with
  | some e => .error (.unfinished e.kind e.stamp.pc)
  | none => .ok statements

-- A statement that is finished is added to a list of statements or to its fault.
theorem verified_concat (statements : List Element) {e : Element}
    (h : e.contains Element.isUnfinished = false) :
    verified (statements ++ [e]) = (verified statements).map (· ++ [e]) := by
  have he : [e].find? (fun e => e.contains Element.isUnfinished) = none := by simp [h]
  rw [verified, verified, List.find?_append, he, Option.or_none]
  cases statements.find? fun e => e.contains Element.isUnfinished <;> rfl

theorem verified_of_finished {statements : List Element}
    (h : ∀ e ∈ statements, e.contains Element.isUnfinished = false) :
    verified statements = .ok statements := by
  have hnone : (statements.find? fun e => e.contains Element.isUnfinished) = none := by
    rw [List.find?_eq_none]
    intro e he
    rw [h e he]
    exact Bool.false_ne_true
  rw [verified, hnone]

-- The statements that some entries have become are finished if they are in the source.
theorem verified_of_bare {statements source : List Element}
    (hb : statements.map Element.bare = source)
    (h : ∀ e ∈ source, e.contains Element.isUnfinished = false) :
    verified statements = .ok statements := by
  apply verified_of_finished
  intro e he
  have hmem : e.bare ∈ source := hb ▸ List.mem_map_of_mem he
  rw [← Element.contains_bare Element.isUnfinished_bare]
  exact h e.bare hmem

section Last

variable {e : Entry} {stack statements : List Entry}

-- An entry that comes after all statements is filed behind them.
theorem fileInto_of_last (h : ∀ d ∈ statements, d.precedes e) :
    e.fileInto statements = e :: statements := by
  have hnot : ∀ d ∈ statements, e.precedes d = false := by
    intro d hd
    have hde := h d hd
    by_contra hed
    rw [Entry.precedes_iff] at hde
    rw [Bool.not_eq_false, Entry.precedes_iff] at hed
    omega
  cases statements with
  | nil => rfl
  | cons last rest =>
    have hlast := hnot last (List.mem_cons_self ..)
    rw [Entry.fileInto, List.span_eq_takeWhile_dropWhile, List.takeWhile_cons, hlast,
      List.dropWhile_cons, hlast]
    rfl

-- What is filed in front of the last statement leaves it the last one.
theorem foldl_fileInto_of_last (h : ∀ d ∈ stack, d.precedes e) :
    stack.foldl (fun statements d => d.settled.fileInto statements) (e :: statements) =
      e :: stack.foldl (fun statements d => d.settled.fileInto statements) statements := by
  induction stack generalizing statements with
  | nil => rfl
  | cons d rest ih =>
    obtain ⟨hd, hrest⟩ := List.forall_mem_cons.1 h
    have hsettled : d.settled.precedes e := hd
    have hfile : d.settled.fileInto (e :: statements) = e :: d.settled.fileInto statements := by
      rw [Entry.fileInto, List.span_eq_takeWhile_dropWhile, List.takeWhile_cons, hsettled,
        List.dropWhile_cons, hsettled, Entry.fileInto, List.span_eq_takeWhile_dropWhile]
      rfl
    rw [List.foldl_cons, hfile, List.foldl_cons, ih hrest]

-- A new entry comes last in the end, on the stack as well as among the statements.
theorem flush_of_last {s t : State} (h : ∀ d ∈ s.entries, d.precedes e)
    (ht : t.stack = s.stack ∧ t.statements = e.settled :: s.statements ∨
      t.stack = e :: s.stack ∧ t.statements = s.statements) :
    t.flush.statements = e.settled :: s.flush.statements := by
  obtain ⟨hstack, hstatements⟩ := List.forall_mem_append.1 h
  have hsettled : ∀ d : Entry, d.precedes e → d.precedes e.settled := fun d hd => hd
  rw [State.flush, State.flush]
  rcases ht with ⟨hs, hst⟩ | ⟨hs, hst⟩
  · simp only [hs, hst]
    exact foldl_fileInto_of_last fun d hd => hsettled d (hstack d hd)
  · have hfile := fileInto_of_last fun d hd => hsettled d (hstatements d hd)
    simp only [hs, hst, List.foldl_cons, hfile]
    exact foldl_fileInto_of_last fun d hd => hsettled d (hstack d hd)

end Last

section Finish

variable (s : State)

theorem flush_of_nil (hs : s.stack = []) : s.flush = s := by
  simp only [State.flush, hs, List.foldl_nil]
  rw [← hs]

-- Reducing goes on below the entries that can stand as statements.
theorem exec_reduceMany_append {moved below : List Entry} (hs : s.stack = moved ++ below)
    (h : ∀ e ∈ moved, e.element.isStatement) (n : Nat) :
    exec (Action.reduceMany (moved.length + n)) s =
      ((exec (Action.reduceMany n) (s.flushAbove moved below)).1.map (!moved.isEmpty || ·),
        (exec (Action.reduceMany n) (s.flushAbove moved below)).2) := by
  induction moved generalizing s with
  | nil =>
    have hsame : s.flushAbove [] below = s := by
      rw [List.nil_append] at hs
      rw [State.flushAbove, List.foldl_nil, ← hs]
    rw [hsame, List.length_nil, Nat.zero_add]
    rcases exec (Action.reduceMany n) s with ⟨fault | more, t⟩ <;> rfl
  | cons top rest ih =>
    obtain ⟨htop, hrest⟩ := List.forall_mem_cons.1 h
    let t := ({ s with stack := rest ++ below } : State).file top.settled
    have hr := ih t rfl hrest
    have hmoved : t.flushAbove rest below = s.flushAbove (top :: rest) below := rfl
    have hsettled : { top with element := top.element.settled } = top.settled := rfl
    rw [List.length_cons, Nat.add_right_comm, Action.reduceMany, exec_bind, Action.exec_reduce, hs,
      List.cons_append]
    dsimp only
    rw [if_pos htop]
    dsimp only
    rw [if_pos rfl, exec_bind, exec_discard, hsettled, hr, hmoved]
    rcases exec (Action.reduceMany n) _ with ⟨fault | more, u⟩ <;> rfl

theorem exec_reduceMany_of_statements (h : ∀ e ∈ s.stack, e.element.isStatement) :
    exec (Action.reduceMany s.stack.length) s = (.ok !s.stack.isEmpty, s.flush) := by
  have hall := exec_reduceMany_append s (List.append_nil s.stack).symm h 0
  rw [Nat.add_zero] at hall
  rw [hall]
  exact Prod.ext (congrArg Except.ok (Bool.or_false _)) rfl

-- What has no effect of its own cannot be left on top.
theorem exec_finish_of_not_isStatement {top : Entry} {below : List Entry}
    (hs : s.stack = top :: below) (h : top.element.isStatement = false) :
    (exec finish s).1 = .error (.notStatement top.element.kind) := by
  have hreduce : exec Action.reduce s = (.error (.notStatement top.element.kind), s) := by
    rw [Action.exec_reduce, hs]
    dsimp only
    rw [h, if_neg Bool.false_ne_true]
  rw [finish, exec_bind, exec_discard, Action.reduceAll, exec_bind_of_ok (exec_get s), hs,
    List.length_cons, Action.reduceMany, exec_bind, hreduce]
  rfl

theorem exec_reduceAll_of_statements (h : ∀ e ∈ s.stack, e.element.isStatement) :
    exec Action.reduceAll s = (.ok !s.stack.isEmpty, s.flush) := by
  rw [Action.reduceAll, exec_bind, exec_get]
  exact exec_reduceMany_of_statements s h

-- A run whose leftovers are statements ends with all of them in their places.
theorem exec_finish_of_statements (h : ∀ e ∈ s.stack, e.element.isStatement) :
    (exec finish s).1 = verified s.flush.result := by
  rw [finish, exec_bind, exec_discard, exec_reduceAll_of_statements s h]
  simp only [Except.map, exec_bind, exec_get, verified]
  cases s.flush.result.find? fun e => e.contains Element.isUnfinished <;> rfl

end Finish

theorem Cursor.endsAt_ofBytes (bytes : Bytes) (pc : Nat) :
    Cursor.EndsAt { source := .ofBytes bytes, pc } (pc + bytes.length) where
  intact := rfl
  steady := by
    rw [Source.bytes_ofBytes]
    rfl
  looked := Nat.le_refl _
  reach := by
    rw [Cursor.remaining, Source.bytes_ofBytes]
    rfl

section Fetch

variable {s : State}

theorem exec_nextInstruction_of_cons {code : Opcode} {rest : Bytes}
    (h : s.cursor.remaining = code :: rest) :
    exec Action.nextInstruction s = (.ok code, s.fetch) := by
  have hlen : ¬s.cursor.remaining.length < 1 := by
    rw [h, List.length_cons]
    omega
  have hcode : UInt8.ofNat (bigEndian (s.cursor.remaining.take 1)) = code := by
    rw [h]
    simp [bigEndian]
  rw [Action.exec_nextInstruction, Reading.instruction, Reading.exec_u8, Reading.exec_next,
    if_neg hlen]
  simp only [Except.map, hcode]
  rfl

-- At the end of the code there is no instruction, and nothing changes.
theorem exec_nextInstruction_of_nil {stop : Nat} (hc : s.cursor.EndsAt stop)
    (h : s.cursor.remaining = []) :
    exec Action.nextInstruction s = (.error .endOfCode, s) := by
  have hcursor := hc.exhausted h
  rw [Action.exec_nextInstruction, hcursor]
  obtain ⟨cursor⟩ := s
  cases hcursor
  rfl

end Fetch

namespace Registry

-- One instruction is executed.
def Executes (r : Registry) (s t : State) : Prop :=
  s.aborted = false ∧ ∃ code u, exec Action.nextInstruction s = (.ok code, u) ∧
    exec (r.step code) u = (.ok ⟨⟩, t)

-- Any number of instructions are executed, one after the other.
abbrev Runs (r : Registry) : State → State → Prop :=
  Relation.ReflTransGen r.Executes

section Loop

variable {r : Registry} {s t : State} {σ : Type} (observer : Observer σ) (memory : σ)

theorem executes_of_cons {code : Opcode} {rest : Bytes} (ha : s.aborted = false)
    (hc : s.cursor.remaining = code :: rest) (h : exec (r.step code) s.fetch = (.ok ⟨⟩, t)) :
    r.Executes s t :=
  ⟨ha, code, s.fetch, exec_nextInstruction_of_cons hc, h⟩

theorem executes_of_isOk {code : Opcode} (ha : s.aborted = false)
    (hc : s.cursor.remaining.head? = some code) (h : (exec (r.step code) s.fetch).1.isOk) :
    r.Executes s (exec (r.step code) s.fetch).2 := by
  obtain ⟨rest, hcons⟩ := List.head?_eq_some_iff.1 hc
  refine executes_of_cons ha hcons ?_
  rcases hs : exec (r.step code) s.fetch with ⟨f | ⟨⟨⟩⟩, t⟩
  · rw [hs] at h
    cases h
  · rfl

-- What is executed is an instruction that the cursor has read.
theorem Executes.exists_read (h : r.Executes s t) :
    ∃ code c, exec Reading.instruction s.cursor = (.ok code, c) ∧
      exec (r.step code) { s with cursor := c, instructionPc := s.pc } = (.ok ⟨⟩, t) := by
  obtain ⟨-, code, u, hu, ht⟩ := h
  rw [Action.exec_nextInstruction] at hu
  rcases hread : exec Reading.instruction s.cursor with ⟨f | head, c⟩
  all_goals rw [hread] at hu
  · cases hu
  · cases hu
    exact ⟨_, c, rfl, ht⟩

-- What an instruction does is determined by the state.
theorem Executes.unique {u : State} (h : r.Executes s t) (h' : r.Executes s u) : t = u := by
  obtain ⟨-, code, v, hv, ht⟩ := h
  obtain ⟨-, code', v', hv', hu⟩ := h'
  rw [hv] at hv'
  obtain ⟨hcode, rfl⟩ := Prod.mk.inj hv'
  cases hcode
  exact (Prod.mk.inj (ht.symm.trans hu)).2

theorem runLoop_of_executes (n : Nat) (h : r.Executes s t) :
    r.runLoop observer (n + 1) memory s =
      r.runLoop observer n (observer.notice memory t).1 (observer.notice memory t).2 := by
  obtain ⟨ha, code, u, hu, ht⟩ := h
  have hu' : Action.nextInstruction.run.run s = (.ok code, u) := hu
  have ht' : (r.step code).run.run u = (.ok ⟨⟩, t) := ht
  rw [runLoop, ha]
  simp only [hu', ht']
  rfl

theorem runLoop_of_done {stop : Nat} (n : Nat) (hc : s.cursor.EndsAt stop) (h : s.Done) :
    r.runLoop observer (n + 1) memory s = (.ok ⟨⟩, memory, s) := by
  rw [runLoop]
  by_cases ha : s.aborted
  · rw [if_pos ha]
  · have he : Action.nextInstruction.run.run s = _ :=
      exec_nextInstruction_of_nil hc (h.resolve_left ha)
    rw [if_neg ha, he]
    rfl

end Loop

section Walk

variable {r : Registry} {s t : State}

-- The state behind the next instruction, if it is executed.
def next? (r : Registry) (s : State) : Option State :=
  if s.aborted then none
  else
    match exec Action.nextInstruction s with
    | (.ok code, u) =>
      match exec (r.step code) u with
      | (.ok ⟨⟩, t) => some t
      | (.error _, _) => none
    | (.error _, _) => none

-- The state behind a number of instructions, if all of them are executed.
def walk? (r : Registry) : Nat → State → Option State
  | 0, s => some s
  | n + 1, s => (r.next? s).bind (r.walk? n)

-- Whether an instruction is executed can be computed.
theorem next?_eq_some_iff : r.next? s = some t ↔ r.Executes s t := by
  constructor
  · intro h
    rw [next?] at h
    split at h
    · cases h
    · rename_i ha
      split at h
      · rename_i code u hu
        split at h
        · rename_i v hv
          obtain rfl := Option.some.inj h
          exact ⟨Bool.eq_false_iff.2 ha, code, u, hu, hv⟩
        · cases h
      · cases h
  · rintro ⟨ha, code, u, hu, ht⟩
    simp [next?, ha, hu, ht]

theorem runs_of_walk? {n : Nat} (h : r.walk? n s = some t) : r.Runs s t := by
  induction n generalizing s with
  | zero =>
    obtain rfl := Option.some.inj h
    exact .refl
  | succ n ih =>
    obtain ⟨u, hu, ht⟩ := Option.bind_eq_some_iff.1 h
    exact .head (next?_eq_some_iff.1 hu) (ih ht)

end Walk

section Core

variable {s t : State} {stop : Nat}

theorem composed_step_core (code : Opcode) : Action.Composed True (core.step code) :=
  composed_step core code fun stage => composed_core stage code

-- What is executed is the next code.
theorem Executes.fetched {r : Registry} (h : r.Executes s t) (hc : s.cursor.EndsAt stop) :
    ∃ code rest, s.cursor.remaining = code :: rest ∧
      exec (r.step code) s.fetch = (.ok ⟨⟩, t) := by
  obtain ⟨-, code, u, hu, ht⟩ := h
  have hne : s.cursor.remaining ≠ [] := by
    intro hnil
    rw [exec_nextInstruction_of_nil hc hnil] at hu
    cases hu
  obtain ⟨first, rest, hcons⟩ := List.exists_cons_of_ne_nil hne
  rw [exec_nextInstruction_of_cons hcons] at hu
  obtain ⟨hcode, rfl⟩ := Prod.mk.inj hu
  exact ⟨code, rest, by rw [hcons, Except.ok.inj hcode], ht⟩

-- An instruction leads further towards the end of the code.
theorem Executes.advances (h : core.Executes s t) (hc : s.cursor.EndsAt stop) :
    s.pc < t.pc ∧ t.cursor.EndsAt stop := by
  obtain ⟨code, rest, hcons, ht⟩ := h.fetched hc
  have hlen : 1 ≤ s.cursor.remaining.length := by
    rw [hcons, List.length_cons]
    omega
  have hpc := (composed_step_core code).pc_le s.fetch
  have hend := (composed_step_core code).endsAt (s := s.fetch) (hc.advance hlen)
  rw [ht] at hpc hend
  exact ⟨hpc, hend⟩

theorem Runs.advances (h : core.Runs s t) (hc : s.cursor.EndsAt stop) :
    s.pc ≤ t.pc ∧ t.cursor.EndsAt stop := by
  induction h with
  | refl => exact ⟨Nat.le_refl _, hc⟩
  | tail _ he ih =>
    obtain ⟨hpc, hend⟩ := he.advances ih.2
    exact ⟨by omega, hend⟩

-- The loop follows a run, whatever fuel it has to spare.
theorem exists_runLoop_eq (h : core.Runs s t) (hc : s.cursor.EndsAt stop) {n : Nat}
    (hn : stop < s.pc + n) :
    ∃ k, core.runLoop Observer.idle n ⟨⟩ s = core.runLoop Observer.idle (k + 1) ⟨⟩ t ∧
      t.cursor.EndsAt stop ∧ stop < t.pc + (k + 1) := by
  induction h using Relation.ReflTransGen.head_induction_on generalizing n with
  | refl =>
    have hpc := hc.pc_le
    obtain ⟨k, rfl⟩ : ∃ k, n = k + 1 := ⟨n - 1, by unfold State.pc at hn; omega⟩
    exact ⟨k, rfl, hc, hn⟩
  | @head s u he _ ih =>
    have hpc := hc.pc_le
    obtain ⟨hlt, hend⟩ := he.advances hc
    obtain ⟨k, rfl⟩ : ∃ k, n = k + 1 := ⟨n - 1, by unfold State.pc at hn; omega⟩
    rw [runLoop_of_executes _ _ k he]
    exact ih hend (by omega)

theorem runLoop_of_runs (h : core.Runs s t) (ht : t.Done) (hc : s.cursor.EndsAt stop) {n : Nat}
    (hn : stop < s.pc + n) :
    core.runLoop Observer.idle n ⟨⟩ s = (.ok ⟨⟩, ⟨⟩, t) := by
  obtain ⟨k, hk, hend, -⟩ := exists_runLoop_eq h hc hn
  exact hk.trans (runLoop_of_done Observer.idle ⟨⟩ k hend ht)

theorem runLoop_of_fault {σ : Type} (observer : Observer σ) (memory : σ) (n : Nat)
    {head : Opcode} {fault : Fault} (ha : s.aborted = false)
    (hhead : s.cursor.remaining.head? = some head)
    (h : exec (core.step head) s.fetch = (.error fault, t)) :
    core.runLoop observer (n + 1) memory s =
      (.error (fault.inside head t.instructionPc), memory, t) := by
  obtain ⟨rest, hcons⟩ := List.head?_eq_some_iff.1 hhead
  have hnext : Action.nextInstruction.run.run s = (.ok head, s.fetch) :=
    exec_nextInstruction_of_cons hcons
  have hstep : (core.step head).run.run s.fetch = (.error fault, t) := h
  rw [runLoop, ha, if_neg Bool.false_ne_true, hnext]
  simp only [hstep]

-- Where a run is not done, an instruction ends it with a fault or is executed.
theorem exists_fault_or_executes (hd : ¬s.Done) :
    (∃ fault u, ∀ {σ : Type} (observer : Observer σ) (memory : σ) (n : Nat),
      core.runLoop observer (n + 1) memory s = (.error fault, memory, u)) ∨
    ∃ t, core.Executes s t := by
  obtain ⟨ha, hrem⟩ := not_or.1 hd
  obtain ⟨code, rest, hcons⟩ := List.exists_cons_of_ne_nil hrem
  have hawake : s.aborted = false := by simpa using ha
  rcases hstep : exec (core.step code) s.fetch with ⟨fault | ⟨⟨⟩⟩, u⟩
  · left
    have hhead : s.cursor.remaining.head? = some code := by rw [hcons]; rfl
    exact ⟨_, u, fun observer memory n => runLoop_of_fault observer memory n hawake hhead hstep⟩
  · exact .inr ⟨u, executes_of_cons hawake hcons hstep⟩

-- A loop that is only watched is the loop that nobody watches.
theorem runLoop_of_quiet_observer {σ : Type} {observer : Observer σ}
    (hquiet : ∀ memory u, (observer.notice memory u).2 = u) {r : Registry} (n : Nat) (memory : σ)
    (s : State) :
    (r.runLoop observer n memory s).1 = (r.runLoop Observer.idle n ⟨⟩ s).1 ∧
      (r.runLoop observer n memory s).2.2 = (r.runLoop Observer.idle n ⟨⟩ s).2.2 := by
  induction n generalizing memory s with
  | zero => exact ⟨rfl, rfl⟩
  | succ n ih =>
    rw [runLoop, runLoop]
    split
    · exact ⟨rfl, rfl⟩
    · rcases Action.nextInstruction.run.run s with ⟨f | code, u⟩
      · exact ⟨rfl, rfl⟩
      · dsimp only
        rcases (r.step code).run.run u with ⟨f | ⟨⟨⟩⟩, t⟩
        · exact ⟨rfl, rfl⟩
        · have hnotice := hquiet memory t
          dsimp only
          rw [hnotice]
          exact ih _ t

-- A run comes to an end between two instructions, or one of its instructions fails.
theorem runLoop_ends {n : Nat} (hc : s.cursor.EndsAt stop) (hn : stop < s.pc + n) :
    (∃ u, core.Runs s u ∧ u.Done ∧ core.runLoop Observer.idle n ⟨⟩ s = (.ok ⟨⟩, ⟨⟩, u)) ∨
    ∃ u v head fault, core.Runs s u ∧ u.cursor.remaining.head? = some head ∧
      exec (core.step head) u.fetch = (.error fault, v) ∧
      core.runLoop Observer.idle n ⟨⟩ s = (.error (fault.inside head v.instructionPc), ⟨⟩, v) := by
  have hpc : s.pc ≤ stop := hc.pc_le
  induction n generalizing s with
  | zero => omega
  | succ n ih =>
    by_cases hd : s.Done
    · exact .inl ⟨s, .refl, hd, runLoop_of_done Observer.idle ⟨⟩ n hc hd⟩
    obtain ⟨ha, hrem⟩ := not_or.1 hd
    obtain ⟨head, rest, hcons⟩ := List.exists_cons_of_ne_nil hrem
    have hawake : s.aborted = false := by simpa using ha
    have hhead : s.cursor.remaining.head? = some head := by rw [hcons]; rfl
    rcases hstep : exec (core.step head) s.fetch with ⟨fault | ⟨⟨⟩⟩, t⟩
    · exact .inr ⟨s, t, head, fault, .refl, hhead, hstep,
        runLoop_of_fault Observer.idle ⟨⟩ n hawake hhead hstep⟩
    · have he : core.Executes s t := executes_of_cons hawake hcons hstep
      obtain ⟨hlt, hend⟩ := he.advances hc
      have hloop : core.runLoop Observer.idle (n + 1) ⟨⟩ s = core.runLoop Observer.idle n ⟨⟩ t :=
        runLoop_of_executes Observer.idle ⟨⟩ n he
      rw [hloop]
      rcases ih hend (by omega) hend.pc_le with ⟨u, hu, hrest⟩ | ⟨u, v, head, fault, hu, hrest⟩
      · exact .inl ⟨u, .head he hu, hrest⟩
      · exact .inr ⟨u, v, head, fault, .head he hu, hrest⟩

-- A loop that ends without a fault has run to the end.
theorem runs_of_runLoop {n : Nat} (h : core.runLoop Observer.idle n ⟨⟩ s = (.ok ⟨⟩, ⟨⟩, t))
    (hc : s.cursor.EndsAt stop) (hn : stop < s.pc + n) :
    core.Runs s t ∧ t.Done := by
  rcases runLoop_ends hc hn with ⟨u, hu, hdone, hloop⟩ | ⟨u, v, head, fault, -, -, -, hloop⟩
  · rw [h] at hloop
    obtain ⟨-, -, rfl⟩ := by simpa only [Prod.mk.injEq] using hloop
    exact ⟨hu, hdone⟩
  · rw [h] at hloop
    cases (Prod.mk.inj hloop).1

end Core

-- Nothing corrects a return.
theorem exec_step_returnVoid_eq (s : State) :
    exec (core.step Opcode.returnVoid) s = exec (do
      discard Action.reduceAll
      Action.enlist (.ofShape .ret)) s := by
  have hp : core.primary? s Opcode.returnVoid = some (Declaration.on [Opcode.returnVoid] fun _ => do
      discard Action.reduceAll
      Action.enlist (.ofShape .ret)).rule := rfl
  have hlast : core.rules .corrective Opcode.returnVoid = [] := rfl
  rw [exec_step_core hp, hlast]
  simp only [Declaration.on, runAll, exec_bind, exec_discard]
  rcases exec Action.reduceAll s with ⟨fault | reduced, t⟩ <;> rfl

-- A return makes statements of everything that is left.
theorem exec_step_returnVoid (h : ∀ e ∈ s.stack, e.element.isStatement) :
    exec (core.step Opcode.returnVoid) s = (.ok ⟨⟩, s.flush.enlist (.ofShape .ret)) := by
  rw [exec_step_returnVoid_eq, exec_bind, exec_discard, exec_reduceAll_of_statements s h]
  rfl

-- Decompiling is running to the end and making statements of what is left.
theorem decompile_of_runLoop {r : Registry} {σ : Type} {observer : Observer σ}
    {memory memory' : σ} {method : Method} {cursor : Cursor} {t : State}
    (h : r.runLoop observer (cursor.remaining.length + 1) memory (.start method cursor) =
      (.ok ⟨⟩, memory', t)) (hs : ∀ e ∈ t.stack, e.element.isStatement) :
    (r.decompile observer memory method cursor).result = verified t.flush.result := by
  rw [decompile, h]
  exact exec_finish_of_statements t hs

theorem decompile_of_runs {method : Method} {cursor : Cursor} {t : State} {stop : Nat}
    (hc : cursor.EndsAt stop) (h : core.Runs (.start method cursor) t) (ht : t.Done)
    (hs : ∀ e ∈ t.stack, e.element.isStatement) :
    (core.decompile Observer.idle ⟨⟩ method cursor).result = verified t.flush.result := by
  have hn : stop < cursor.pc + (cursor.remaining.length + 1) := by
    have hr := hc.reach
    omega
  exact decompile_of_runLoop (runLoop_of_runs h ht hc hn) hs

end Registry

end JvmLift
