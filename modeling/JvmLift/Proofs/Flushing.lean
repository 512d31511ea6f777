import JvmLift.Proofs.ProgramOrder
import JvmLift.Proofs.Sorting

namespace JvmLift

namespace Entry

-- Filing an entry adds it to the statements and leaves them as they stand.
theorem fileInto_perm (e : Entry) (statements : List Entry) :
    (e.fileInto statements).Perm (e :: statements) := by
  have hsplit : statements.takeWhile e.precedes ++ statements.dropWhile e.precedes = statements :=
    List.takeWhile_append_dropWhile
  rw [fileInto, List.span_eq_takeWhile_dropWhile]
  refine List.perm_middle.trans ?_
  rw [hsplit]

theorem sublist_fileInto (e : Entry) (statements : List Entry) :
    statements.Sublist (e.fileInto statements) := by
  have hsplit : statements.takeWhile e.precedes ++ statements.dropWhile e.precedes = statements :=
    List.takeWhile_append_dropWhile
  rw [fileInto, List.span_eq_takeWhile_dropWhile]
  have hadd := (List.sublist_cons_self e (statements.dropWhile e.precedes)).append_left
    (statements.takeWhile e.precedes)
  rwa [hsplit] at hadd

variable (moved statements : List Entry)

theorem foldl_fileInto_perm :
    (moved.foldl (fun statements e => e.settled.fileInto statements) statements).Perm
      (moved.map settled ++ statements) := by
  induction moved generalizing statements with
  | nil => rfl
  | cons e rest ih =>
    rw [List.foldl_cons, List.map_cons, List.cons_append]
    exact (ih _).trans (((fileInto_perm e.settled statements).append_left _).trans
      List.perm_middle)

theorem sublist_foldl_fileInto :
    statements.Sublist
      (moved.foldl (fun statements e => e.settled.fileInto statements) statements) := by
  induction moved generalizing statements with
  | nil => exact .refl _
  | cons e rest ih => exact (sublist_fileInto e.settled statements).trans (ih _)

end Entry

namespace State

variable {method : Method} {cursor : Cursor} {s : State}

-- No entry was made at an earlier position than one with an earlier turn.
def Aligned (s : State) : Prop :=
  ∀ a ∈ s.entries, ∀ b ∈ s.entries, a.version < b.version → a.pc ≤ b.pc

theorem Aligned.operate (h : s.Aligned) (ho : s.Ordered) {α : Type} (op : Operation α) :
    (exec op.action s).2.Aligned := by
  intro a ha b hb hlt
  rcases op.label_mem s a ha with ha | ⟨x, rfl⟩
  · obtain ⟨d, hd, hda⟩ := List.mem_map.1 ha
    rw [← Entry.version_of_label hda] at hlt
    rw [← Entry.pc_of_label hda]
    rcases op.label_mem s b hb with hb | ⟨y, rfl⟩
    · obtain ⟨e, he, heb⟩ := List.mem_map.1 hb
      rw [← Entry.version_of_label heb] at hlt
      rw [← Entry.pc_of_label heb]
      exact h d hd e he hlt
    · exact (ho.placed d hd).2
  · -- a new entry has the latest turn
    rcases op.label_mem s b hb with hb | ⟨y, rfl⟩
    · obtain ⟨e, he, heb⟩ := List.mem_map.1 hb
      have hcounted := ho.counted e he
      rw [Entry.version_of_label heb] at hcounted
      have hnew : (s.entry x).version = s.version + 1 := rfl
      omega
    · exact Nat.le_refl _

theorem Reached.aligned (h : Reached method cursor s) : s.Aligned := by
  induction h with
  | start => intro a ha; cases ha
  | operate op hs ih => exact ih.operate hs.ordered op

-- An entry with a later turn belongs behind.
theorem Aligned.precedes (h : s.Aligned) {a b : Entry} (ha : a ∈ s.entries) (hb : b ∈ s.entries)
    (hlt : a.version < b.version) : a.precedes b := by
  have hle := h a ha b hb hlt
  rw [Entry.precedes_iff]
  omega

-- The entries of the stack in the order of their turns.
def turns (s : State) : List Entry :=
  sorted (fun a b => a.version ≤ b.version) s.stack

theorem turns_perm (s : State) : s.turns.Perm s.stack :=
  sorted_perm _ s.stack

theorem Ordered.pairwise_turns (h : s.Ordered) :
    s.turns.Pairwise fun a b => a.version < b.version := by
  have hle := pairwise_sorted (fun a b : Entry => decide (a.version ≤ b.version))
    (by simp only [decide_eq_true_eq]; omega) (by simp only [decide_eq_true_eq]; omega) s.stack
  have hne : s.turns.Pairwise fun a b => a.version ≠ b.version := by
    have hdistinct := h.distinct
    rw [entries, List.map_append, List.nodup_append] at hdistinct
    exact List.pairwise_map.1 ((s.turns_perm.map Entry.version).nodup_iff.2 hdistinct.1)
  exact (hle.and hne).imp fun h => Nat.lt_of_le_of_ne (of_decide_eq_true h.1) h.2

-- The last statement is the one with the latest turn.
theorem Reached.version_le_last (h : Reached method cursor s) {last : Entry} {rest : List Entry}
    (hs : s.statements = last :: rest) : ∀ d ∈ s.statements, d.version ≤ last.version := by
  have hlast : last ∈ s.entries := List.mem_append_right _ (hs ▸ List.mem_cons_self)
  have hlater := h.ordered.precedes_later
  rw [hs, List.pairwise_cons] at hlater
  intro d hd
  have hentry : d ∈ s.entries := List.mem_append_right _ hd
  rw [hs] at hd
  rcases List.mem_cons.1 hd with rfl | hd
  · exact Nat.le_refl _
  · have hdl := hlater.1 d hd
    by_contra hlt
    have hld := h.aligned.precedes hlast hentry (Nat.lt_of_not_le hlt)
    rw [Entry.precedes_iff] at hdl hld
    omega

-- What was put on the stack behind the last statement belongs behind all statements.
theorem Reached.precedes_of_later (h : Reached method cursor s) {e : Entry} (he : e ∈ s.stack)
    (hlater : ∀ last ∈ s.statements.head?, last.version < e.version) {d : Entry}
    (hd : d ∈ s.statements) : d.precedes e := by
  cases hs : s.statements with
  | nil =>
    rw [hs] at hd
    cases hd
  | cons last rest =>
    have hle := h.version_le_last hs d hd
    have hlt := hlater last (by rw [hs]; rfl)
    exact h.aligned.precedes (List.mem_append_right _ hd) (List.mem_append_left _ he) (by omega)

-- Where all of the stack was put there behind the last statement, flushing appends it in the order
-- of the turns. There is one order of position and turn, and these are in it.
theorem Reached.statements_flush (h : Reached method cursor s)
    (hready : ∀ e ∈ s.stack, e.element.isStatement)
    (hlater : ∀ last ∈ s.statements.head?, ∀ e ∈ s.stack, last.version < e.version) :
    s.flush.statements.reverse = s.statements.reverse ++ s.turns.map Entry.settled := by
  have hflushed : s.flush.Ordered := by
    have hreduced := h.ordered.operate .reduceAll
    rwa [Operation.action, exec_reduceAll_of_statements s hready] at hreduced
  have hstack {e : Entry} (he : e ∈ s.turns) : e ∈ s.stack := s.turns_perm.subset he
  have hturns : (s.turns.map Entry.settled).Pairwise fun a b => a.precedes b := by
    refine List.pairwise_map.2 (h.ordered.pairwise_turns.imp_of_mem fun ha hb hlt => ?_)
    have hab := h.aligned.precedes (List.mem_append_left _ (hstack ha))
      (List.mem_append_left _ (hstack hb)) hlt
    exact hab
  have hperm : s.flush.statements.reverse.Perm
      (s.statements.reverse ++ s.turns.map Entry.settled) := by
    refine (List.reverse_perm _).trans ((Entry.foldl_fileInto_perm _ _).trans ?_)
    refine List.perm_append_comm.trans ?_
    exact (List.reverse_perm _).symm.append (s.turns_perm.map _).symm
  refine hperm.eq_of_pairwise ?_ hflushed.increasing ?_
  · intro a b _ _ hab hba
    rw [Entry.precedes_iff] at hab hba
    omega
  · refine List.pairwise_append.2 ⟨h.ordered.increasing, hturns, fun d hd e he => ?_⟩
    obtain ⟨x, hx, rfl⟩ := List.mem_map.1 he
    have hdx := h.precedes_of_later (hstack hx) (fun last hlast => hlater last hlast x (hstack hx))
      (List.mem_reverse.1 hd)
    exact hdx

-- The order of the turns goes from bottom to top if no entry was put below another one.
theorem Ordered.turns_eq_iff (h : s.Ordered) :
    s.turns.map Entry.settled = s.stack.reverse.map Entry.settled ↔
      s.stack.Pairwise fun above below => below.version < above.version := by
  rw [← List.pairwise_reverse]
  constructor
  · intro heq
    have hversions := congrArg (List.map Entry.version) heq
    rw [List.map_map, List.map_map] at hversions
    have hturns := List.pairwise_map.2 h.pairwise_turns
    exact List.pairwise_map.1 (hversions ▸ hturns)
  · intro hsorted
    have hperm := s.turns_perm.trans (List.reverse_perm s.stack).symm
    rw [hperm.eq_of_pairwise (fun a b _ _ hab hba => by omega) h.pairwise_turns hsorted]

-- Flushing succeeds if all that is on the stack can stand as a statement. Where all of it was put
-- there behind the last statement, it is appended in the order in which it was pushed or inserted.
-- This is the order of the stack from bottom to top exactly if nothing was inserted below what is
-- still there.
theorem reached_flush {method : Method} {cursor : Cursor} {s : State}
    (h : Reached method cursor s) (hready : ∀ e ∈ s.stack, e.element.isStatement)
    (hlater : ∀ last ∈ s.statements.head?, ∀ e ∈ s.stack, last.version < e.version) :
    ∃ (order : List Entry) (t : State), order.Perm s.stack ∧
      (order.Pairwise fun a b => a.version < b.version) ∧
      exec Action.reduceAll s = (.ok !s.stack.isEmpty, t) ∧
      t = { s with stack := [], statements := t.statements } ∧
      t.statements.reverse = s.statements.reverse ++ order.map Entry.settled ∧
      (t.statements.reverse = s.statements.reverse ++ s.stack.reverse.map Entry.settled ↔
        s.stack.Pairwise fun above below => below.version < above.version) := by
  have hflush := h.statements_flush hready hlater
  refine ⟨s.turns, s.flush, s.turns_perm, h.ordered.pairwise_turns,
    exec_reduceAll_of_statements s hready, rfl, hflush, ?_⟩
  rw [hflush, List.append_cancel_left_eq]
  exact h.ordered.turns_eq_iff

section Examples

def flushed : Method :=
  { className := "A", name := "m", descriptor := "()V", signature := ⟨[], .void⟩
    code := [Opcode.nop, Opcode.nop, Opcode.nop] }

-- A call that gives nothing.
def action (name : String) : Element :=
  .ofShape (.call { owner := .reference "A", name, signature := ⟨[], .void⟩, target := none
                    args := [], ty := .void })

-- What the entries are called that are calls.
def actionNames (entries : List Entry) : List (Option String) :=
  entries.map fun e => e.element.call?.map (·.name)

-- An increment waits above a call, and another call is inserted between them later.
theorem reached_flush_inserted :
    ∃ s, Reached flushed (.ofCode flushed.code) s ∧
      s.stack.map Entry.mark = [(1, 3), (2, 4), (1, 2)] ∧ s.statements.map Entry.mark = [(0, 1)] ∧
      ∃ (order : List Entry) (t : State), order.Perm s.stack ∧
        exec Action.reduceAll s = (.ok true, t) ∧
        t.statements.reverse = s.statements.reverse ++ order.map Entry.settled ∧
        t.statements.reverse.map Entry.mark = [(0, 1), (1, 2), (1, 3), (2, 4)] := by
  let increment : Element := .ofShape (.increment ⟨"x", .int, 0⟩ 1 .int .pending)
  have h : Reached flushed (.ofCode flushed.code) _ :=
    .operate (.insert (-1) (action "g")) <| .operate .nextInstruction <|
    .operate (.push increment) <| .operate (.push (action "f")) <| .operate .nextInstruction <|
    .operate (.enlist (action "e")) <| .operate .nextInstruction .start
  refine ⟨_, h, rfl, rfl, ?_⟩
  obtain ⟨order, t, hperm, -, hexec, -, hstatements, -⟩ :=
    reached_flush h (by decide +kernel) (by decide +kernel)
  refine ⟨order, t, hperm, hexec, hstatements, ?_⟩
  have ht : t = (exec Action.reduceAll _).2 := congrArg Prod.snd hexec.symm
  rw [ht]
  rfl

-- A call that is inserted below another one becomes a statement behind it.
theorem not_reached_flush_in_stack_order :
    ∃ s, Reached flushed (.ofCode flushed.code) s ∧ (∀ e ∈ s.stack, e.element.isStatement) ∧
      s.statements = [] ∧ actionNames s.stack.reverse = ["g", "f"] ∧
      actionNames (exec Action.reduceAll s).2.statements.reverse = ["f", "g"] ∧
      (exec Action.reduceAll s).2.statements.reverse ≠ s.stack.reverse.map Entry.settled := by
  have h : Reached flushed (.ofCode flushed.code) _ :=
    .operate (.insert (-1) (action "g")) <| .operate (.push (action "f")) .start
  refine ⟨_, h, by decide +kernel, rfl, rfl, rfl, fun heq => ?_⟩
  have hversions := congrArg (List.map Entry.version) heq
  revert hversions
  decide +kernel

end Examples

end State

end JvmLift
