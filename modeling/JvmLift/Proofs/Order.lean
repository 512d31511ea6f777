import JvmLift.Proofs.Operation
import Mathlib.Data.List.Nodup
import Mathlib.Data.List.TakeDrop
import Mathlib.Data.List.TakeWhile

namespace JvmLift

-- A change of an element that a function does not see is not seen behind the function.
theorem map_modify_of_eq {α β : Type} {f : α → α} {g : α → β} (h : ∀ a, g (f a) = g a)
    (xs : List α) (i : Nat) : (xs.modify i f).map g = xs.map g := by
  induction xs generalizing i with
  | nil => simp
  | cons x xs ih => cases i <;> simp [h, ih]

namespace Entry

theorem precedes_iff {a b : Entry} :
    a.precedes b ↔ a.pc < b.pc ∨ a.pc = b.pc ∧ a.version < b.version := by
  simp [precedes]

theorem precedes_trans {a b c : Entry} (hab : a.precedes b) (hbc : b.precedes c) :
    a.precedes c := by
  rw [precedes_iff] at *
  omega

-- Of two entries with different turns one belongs in front of the other.
theorem precedes_of_not_precedes {a b : Entry} (hv : a.version ≠ b.version)
    (h : ¬a.precedes b) : b.precedes a := by
  rw [precedes_iff] at *
  omega

-- What an entry is sorted by.
def mark (e : Entry) : Nat × Nat :=
  (e.pc, e.version)

theorem pairwise_precedes_iff (entries : List Entry) :
    (entries.Pairwise fun a b => a.precedes b) ↔
      (entries.map mark).Pairwise fun a b => a.1 < b.1 ∨ a.1 = b.1 ∧ a.2 < b.2 := by
  simp only [List.pairwise_map, precedes_iff, mark]

end Entry

namespace State

def entries (s : State) : List Entry :=
  s.stack ++ s.statements

-- The statements stand in the order of position and turn, no two entries have the same turn,
-- and every entry was made at an instruction of this run.
structure Ordered (s : State) : Prop where
  increasing : s.statements.reverse.Pairwise fun a b => a.precedes b
  distinct : (s.entries.map (·.version)).Nodup
  counted : ∀ e ∈ s.entries, e.version ≤ s.version
  placed : ∀ e ∈ s.entries, s.startPc ≤ e.pc ∧ e.pc ≤ s.instructionPc
  started : s.startPc ≤ s.instructionPc
  read : s.instructionPc ≤ s.pc

theorem ordered_start (method : Method) (cursor : Cursor) : (start method cursor).Ordered where
  increasing := .nil
  distinct := .nil
  counted := by simp [start, entries]
  placed := by simp [start, entries]
  started := Nat.le_refl _
  read := Nat.le_refl _

namespace Ordered

variable {s : State}

theorem precedes_later (h : s.Ordered) : s.statements.Pairwise fun a b => b.precedes a := by
  simpa [List.pairwise_reverse] using h.increasing

-- Reading on keeps what was recorded.
theorem read_on (h : s.Ordered) {c : Cursor} (hc : s.cursor.pc ≤ c.pc) :
    Ordered { s with cursor := c } :=
  { h with read := Nat.le_trans h.read hc }

-- The next instruction lies behind everything recorded so far.
theorem next_instruction (h : s.Ordered) {c : Cursor} (hc : s.cursor.pc ≤ c.pc) :
    Ordered { s with cursor := c, instructionPc := s.pc } where
  increasing := h.increasing
  distinct := h.distinct
  counted := h.counted
  placed e he := ⟨(h.placed e he).1, Nat.le_trans (h.placed e he).2 h.read⟩
  started := Nat.le_trans h.started h.read
  read := hc

-- Taking entries away leaves the others in order.
theorem of_sublist (h : s.Ordered) {stack statements : List Entry}
    (hs : stack.Sublist s.stack) (ht : statements.Sublist s.statements) :
    Ordered { s with stack, statements } := by
  have he : (stack ++ statements).Sublist s.entries := hs.append ht
  exact {
    increasing := h.increasing.sublist ht.reverse
    distinct := h.distinct.sublist (he.map _)
    counted := fun e hm => h.counted e (he.subset hm)
    placed := fun e hm => h.placed e (he.subset hm)
    started := h.started
    read := h.read }

-- Only the marks of the entries matter, not what is in them.
theorem of_marks (h : s.Ordered) {stack statements : List Entry}
    (hs : (stack ++ statements).map Entry.mark |>.Perm (s.entries.map Entry.mark))
    (ht : statements.reverse.Pairwise fun a b => a.precedes b) :
    Ordered { s with stack, statements } := by
  have hm : ∀ e ∈ stack ++ statements, ∃ d ∈ s.entries, d.mark = e.mark := by
    intro e he
    simpa using hs.subset (List.mem_map_of_mem he)
  refine ⟨ht, ?_, fun e he => ?_, fun e he => ?_, h.started, h.read⟩
  · have hv := hs.map (·.2)
    rw [List.map_map, List.map_map] at hv
    exact hv.nodup_iff.2 h.distinct
  · obtain ⟨d, hd, hde⟩ := hm e he
    have hv : d.version = e.version := congrArg (·.2) hde
    exact hv ▸ h.counted d hd
  · obtain ⟨d, hd, hde⟩ := hm e he
    have hp : d.pc = e.pc := congrArg (·.1) hde
    exact hp ▸ h.placed d hd

theorem of_map_mark (h : s.Ordered) {statements : List Entry}
    (hm : statements.map Entry.mark = s.statements.map Entry.mark) :
    Ordered { s with statements } := by
  refine h.of_marks (.of_eq ?_) ?_
  · rw [List.map_append, hm, entries, List.map_append]
  · have hi := h.increasing
    rw [Entry.pairwise_precedes_iff, List.map_reverse] at hi ⊢
    rwa [hm]

theorem precedes_entry (h : s.Ordered) {d : Entry} (hd : d ∈ s.entries) (e : Element) :
    d.precedes (s.entry e) := by
  have hv := h.counted d hd
  have hp := (h.placed d hd).2
  rw [Entry.precedes_iff]
  simp only [State.entry]
  omega

-- A new entry has a turn of its own, wherever it is put.
theorem with_entry (h : s.Ordered) (e : Element) {stack statements : List Entry}
    (hp : (stack ++ statements).Perm (s.entry e :: s.entries))
    (ht : statements.reverse.Pairwise fun a b => a.precedes b) :
    Ordered { s with stack, statements, version := s.version + 1 } where
  increasing := ht
  distinct := by
    have hnew : s.version + 1 ∉ s.entries.map (·.version) := by
      intro hm
      obtain ⟨d, hd, hv⟩ := List.mem_map.1 hm
      have := h.counted d hd
      omega
    rw [entries, (hp.map (·.version)).nodup_iff, List.map_cons, List.nodup_cons]
    exact ⟨hnew, h.distinct⟩
  counted d hd := by
    rcases List.mem_cons.1 (hp.subset hd) with rfl | hd
    · exact Nat.le_refl _
    · exact Nat.le_succ_of_le (h.counted d hd)
  placed d hd := by
    rcases List.mem_cons.1 (hp.subset hd) with rfl | hd
    · exact ⟨h.started, Nat.le_refl _⟩
    · exact h.placed d hd
  started := h.started
  read := h.read

theorem push (h : s.Ordered) (e : Element) : (s.push e).Ordered :=
  h.with_entry e (.refl _) h.increasing

theorem pushBelow (h : s.Ordered) (depth : Nat) (hd : depth ≤ s.stack.length) (e : Element) :
    (s.pushBelow depth e).Ordered :=
  h.with_entry e ((List.perm_insertIdx _ _ hd).append_right _) h.increasing

-- A statement that is appended belongs behind all others without a look at them.
theorem enlist (h : s.Ordered) (e : Element) : (s.enlist e).Ordered := by
  refine h.with_entry e List.perm_middle ?_
  rw [List.reverse_cons, List.pairwise_append]
  refine ⟨h.increasing, List.pairwise_singleton _ _, fun d hd b hb => ?_⟩
  obtain rfl : b = s.entry e := by simpa using hb
  exact h.precedes_entry (List.mem_append_right _ (List.mem_reverse.1 hd)) e

end Ordered

theorem mem_file {s : State} {d e : Entry} :
    d ∈ (s.file e).statements ↔ d = e ∨ d ∈ s.statements := by
  have hs : s.statements.takeWhile e.precedes ++ s.statements.dropWhile e.precedes =
      s.statements := List.takeWhile_append_dropWhile
  have hf : (s.file e).statements =
      s.statements.takeWhile e.precedes ++ e :: s.statements.dropWhile e.precedes := by
    simp [file, List.span_eq_takeWhile_dropWhile]
  rw [hf, ← hs]
  simp only [List.mem_append, List.mem_cons]
  rw [hs]
  tauto

-- The place that a search finds: everything behind it belongs behind the entry, and everything in
-- front of it in front.
theorem file_place {s : State} (h : s.Ordered) {e : Entry}
    (hv : ∀ d ∈ s.statements, d.version ≠ e.version) :
    ∃ later earlier, s.statements = later ++ earlier ∧
      (s.file e).statements = later ++ e :: earlier ∧
      (∀ d ∈ later, e.precedes d) ∧ ∀ d ∈ earlier, d.precedes e := by
  refine ⟨s.statements.takeWhile e.precedes, s.statements.dropWhile e.precedes,
    List.takeWhile_append_dropWhile.symm, ?_, fun d hd => List.mem_takeWhile_imp hd, ?_⟩
  · simp [file, List.span_eq_takeWhile_dropWhile]
  -- the first statement that does not belong behind the entry takes all earlier ones with it
  have hsub := List.dropWhile_sublist (l := s.statements) e.precedes
  have hsorted := h.precedes_later.sublist hsub
  have hfirst := List.head?_dropWhile_not e.precedes s.statements
  cases hd : s.statements.dropWhile e.precedes with
  | nil => simp
  | cons first rest =>
    rw [hd] at hsub hsorted hfirst
    have hf : first.precedes e :=
      Entry.precedes_of_not_precedes (hv first (hsub.subset (List.mem_cons_self ..))).symm
        (by simpa using hfirst)
    intro d hm
    rcases List.mem_cons.1 hm with rfl | hm
    · exact hf
    · exact Entry.precedes_trans (List.rel_of_pairwise_cons hsorted hm) hf

-- An entry that leaves the stack for the statements keeps its mark.
theorem Ordered.file {s : State} (h : s.Ordered) {top : Entry} {rest : List Entry}
    (hs : s.stack = top :: rest) (e : Element) :
    (({ s with stack := rest } : State).file { top with element := e }).Ordered := by
  have hsub : s.entries = top :: (rest ++ s.statements) := by rw [entries, hs]; rfl
  have hd := h.distinct
  rw [hsub, List.map_cons, List.nodup_cons] at hd
  have hv : ∀ d ∈ s.statements, d.version ≠ top.version := fun d hm hv =>
    hd.1 (hv ▸ List.mem_map_of_mem (List.mem_append_right _ hm))
  have hrest : rest.Sublist s.stack := hs ▸ List.sublist_cons_self ..
  have hr := h.of_sublist hrest (.refl s.statements)
  obtain ⟨later, earlier, hst, hf, hl, he⟩ := file_place hr (e := { top with element := e }) hv
  have hst : s.statements = later ++ earlier := hst
  have hfile : ({ s with stack := rest } : State).file { top with element := e } =
      { s with stack := rest, statements := later ++ { top with element := e } :: earlier } := by
    rw [← hf]
    rfl
  rw [hfile]
  refine h.of_marks ?_ ?_
  · rw [hsub, hst]
    have hp : (rest ++ (later ++ { top with element := e } :: earlier)).Perm
        ({ top with element := e } :: (rest ++ (later ++ earlier))) := by
      rw [← List.append_assoc, ← List.append_assoc]
      exact List.perm_middle
    exact hp.map Entry.mark
  · have hsort := h.precedes_later
    rw [hst, List.pairwise_append] at hsort
    rw [List.pairwise_reverse, List.pairwise_append, List.pairwise_cons]
    refine ⟨hsort.1, ⟨fun d hm => he d hm, hsort.2.1⟩, fun d hm b hb => ?_⟩
    rcases List.mem_cons.1 hb with rfl | hb
    · exact hl d hm
    · exact hsort.2.2 d hm b hb

theorem Ordered.reduce {s : State} (h : s.Ordered) : (exec Action.reduce s).2.Ordered := by
  rw [Action.exec_reduce]
  cases hs : s.stack with
  | nil => exact h
  | cons top rest =>
    dsimp only
    split
    · exact h.file hs _
    · exact h

theorem Ordered.reduceMany (n : Nat) {s : State} (h : s.Ordered) :
    (exec (Action.reduceMany n) s).2.Ordered :=
  Action.reduceMany_induct State.Ordered (fun _ h => h.reduce) n h

-- No operation disturbs the order, whether it succeeds or fails.
theorem Ordered.operate {s : State} (h : s.Ordered) {α : Type} (op : Operation α) :
    (exec op.action s).2.Ordered := by
  cases op with
  | nextInstruction =>
    rw [Operation.action, Action.exec_nextInstruction]
    have hc := Reading.pc_le_instruction s.cursor
    rcases hi : exec Reading.instruction s.cursor with ⟨_ | _, c⟩
    all_goals rw [hi] at hc
    · exact h.read_on hc
    · exact h.next_instruction hc
  | next count =>
    rw [Operation.action, Action.exec_read]
    exact h.read_on (Reading.pc_le_next count s.cursor)
  | peek count =>
    rw [Operation.action, Action.exec_read]
    exact h.read_on (Nat.le_of_eq (Reading.pc_peek count s.cursor).symm)
  | commit =>
    rw [Operation.action, Action.exec_read]
    exact h.read_on (Reading.pc_le_commit s.cursor)
  | skip count =>
    rw [Operation.action, Action.exec_read]
    exact h.read_on (Reading.pc_le_skip count s.cursor)
  | push e => exact h.push e
  | pop =>
    simp only [Operation.action, Action.exec_popEntry]
    cases hs : s.stack with
    | nil => exact h
    | cons top rest => exact h.of_sublist (hs ▸ List.sublist_cons_self ..) (.refl _)
  | popMany count =>
    simp only [Operation.action, Action.exec_popMany]
    split
    · exact h
    · exact h.of_sublist (List.drop_sublist ..) (.refl _)
  | insert offset e =>
    simp only [Operation.action, Action.exec_insert]
    split
    · exact h
    · rename_i ho
      simp only [Bool.or_eq_true, decide_eq_true_eq] at ho
      exact h.pushBelow _ (by omega) e
  | reduce => exact h.reduce
  | reduceAll => exact h.reduceMany _
  | enlist e => exact h.enlist e
  | removeStatement index =>
    simp only [Operation.action, Action.exec_removeStatement]
    split
    · exact h.of_sublist (.refl _) (List.eraseIdx_sublist ..)
    · exact h
  | removeLastStatement =>
    simp only [Operation.action, Action.exec_removeLastStatement]
    cases hs : s.statements with
    | nil => exact h
    | cons last rest => exact h.of_sublist (.refl _) (hs ▸ List.sublist_cons_self ..)
  | replaceStatement index e =>
    simp only [Operation.action, Action.exec_replaceStatement]
    split
    · refine h.of_map_mark (map_modify_of_eq ?_ ..)
      exact fun _ => rfl
    · exact h
  | abort => exact { h with }

theorem Reached.ordered {method : Method} {cursor : Cursor} {s : State}
    (h : Reached method cursor s) : s.Ordered := by
  induction h with
  | start => exact ordered_start method cursor
  | operate op _ ih => exact ih.operate op

-- Whatever is done to a state, its statements stand in strict order, all turns differ, and all
-- positions lie in the run. So the search for the place of a statement finds the only one.
theorem reached_order {method : Method} {cursor : Cursor} {s : State}
    (h : Reached method cursor s) :
    (s.statements.reverse.Pairwise fun a b => a.precedes b) ∧
      ((s.stack ++ s.statements).map (·.version)).Nodup ∧
      (∀ e ∈ s.stack ++ s.statements, e.version ≤ s.version) ∧
      (∀ e ∈ s.stack ++ s.statements, s.startPc ≤ e.pc ∧ e.pc ≤ s.instructionPc) ∧
      ∀ e ∈ s.stack, ∃ later earlier, s.statements = later ++ earlier ∧
        (s.file e).statements = later ++ e :: earlier ∧
        (∀ d ∈ later, e.precedes d) ∧ ∀ d ∈ earlier, d.precedes e := by
  have ho := h.ordered
  refine ⟨ho.increasing, ho.distinct, ho.counted, ho.placed, fun e he => file_place ho ?_⟩
  have hd := ho.distinct
  rw [entries, List.map_append, List.nodup_append] at hd
  exact fun d hm hv => hd.2.2 _ (List.mem_map_of_mem he) _ (List.mem_map_of_mem hm) hv.symm

-- Two objects are made and one is dropped after the return: it is filed in front of it.
theorem reached_order_late_reduction :
    let method : Method :=
      { className := "A", name := "run", descriptor := "()V", signature := ⟨[], .void⟩,
        code := [0x00, 0xb1] }
    ∃ s, Reached method (.ofCode method.code) s ∧ s.stack.map (·.version) = [1] ∧
      s.statements.map (·.version) = [3, 2] ∧
      s.statements.reverse.Pairwise fun a b => a.precedes b :=
  let object : Element := .ofShape (.newInstance .object ⟨[], .void⟩ [])
  have h := Reached.operate .reduce <| .operate (.enlist (.ofShape .ret)) <|
    .operate .nextInstruction <| .operate (.push object) <| .operate (.push object) <|
    .operate .nextInstruction .start
  ⟨_, h, rfl, rfl, (reached_order h).1⟩

end State

end JvmLift
