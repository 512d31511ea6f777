import JvmLift.Instruction
import JvmLift.Proofs.Keeps
import JvmLift.Proofs.Order

namespace JvmLift

namespace Shape

-- Whether a layer is neither a jump nor a cast.
def isOther : Shape Element → Bool
  | .jump _ | .branch .. | .cast .. => false
  | _ => true

-- Whether a layer may have been completed by an element that was never on the stack: by the operand
-- that a jump leaves out, or by a piece of a joined text.
def isCompleted : Shape Element → Bool
  | .branch .. | .binary .. => true
  | _ => false

end Shape

-- An invariant by what it asks of every element for itself: of those on the stack, of the
-- statements, of what a layer holds, of the parts of a joined text, and of what may come onto the
-- stack or among the statements. The laws say that it is enough to look at one layer at a time.
-- They leave out the jumps, which an invariant may treat in its own way.
structure Invariant where
  Stacked : Element → Prop
  Listed : Element → Prop
  Held : Element → Prop
  Part : Element → Prop
  Fit : Element → Prop
  -- what is asked of the rest of the state
  Around : State → Prop
  around_congr : ∀ {s t : State}, Around s → t.lines = s.lines →
    t.instructionPc = s.instructionPc → Around t
  stacked_entry : ∀ {s : State} {e}, Around s → Fit e → Stacked (s.entry e).element
  listed_entry : ∀ {s : State} {e}, Around s → Fit e → Listed (s.entry e).element
  listed_settled : ∀ {e}, Stacked e → Listed e.settled
  listed_stamped : ∀ {e t}, Listed e → Fit t → Listed (t.stamped e.stamp)
  listed_of_stacked : ∀ {e}, Stacked e → Listed e
  held_of_stacked : ∀ {e}, Stacked e → Held e
  part_of_stacked : ∀ {e}, Stacked e → Part e
  fit_of_part : ∀ {e}, Part e → Fit e
  fit_layer : ∀ {shape}, shape.isOther → (∀ c ∈ shape.children, Held c) → Fit (.ofShape shape)
  fit_cast : ∀ {e} ty, Stacked e → Fit (.ofShape (.cast e ty))
  fit_value : ∀ {e value ty}, Stacked e → e.shape = .cast value ty → Fit value
  fit_reshape : ∀ {e shape}, Listed e → shape.isOther → (∀ c ∈ shape.children, Held c) →
    Fit ⟨shape, e.stamp⟩
  fit_untaken : ∀ {e condition}, Listed e → e.untaken = .ok condition → Fit condition
  held_children : ∀ {e shape}, Listed e → e.shape = shape → shape.isCompleted = false →
    ∀ c ∈ shape.children, Held c
  held_boolean : ∀ {e} value, Held e → Held ((Element.boolean value).stamped e.stamp)
  part_string : ∀ text, Part (.string text)
  part_plus : ∀ {left right}, Part left → Part right →
    Part (.ofShape (.binary left .plus right .string))

theorem Action.around_reduce (s : State) : (exec Action.reduce s).2.lines = s.lines ∧
    (exec Action.reduce s).2.instructionPc = s.instructionPc := by
  rw [exec_reduce]
  cases s.stack with
  | nil => exact ⟨rfl, rfl⟩
  | cons top rest =>
    dsimp only
    split <;> exact ⟨rfl, rfl⟩

namespace Invariant

variable (inv : Invariant)

-- What is asked of the stack and of the statements.
structure Fits (s : State) : Prop where
  stack : ∀ e ∈ s.stack, inv.Stacked e.element
  statements : ∀ e ∈ s.statements, inv.Listed e.element

structure Holds (s : State) : Prop extends inv.Fits s where
  around : inv.Around s

variable {inv} {s t : State} {e : Element} {shape : Shape Element}

-- Nothing is asked where a run begins.
theorem fits_start (m : Method) (c : Cursor) : inv.Fits (.start m c) :=
  ⟨List.forall_mem_nil _, List.forall_mem_nil _⟩

theorem fit_of_stacked (h : inv.Stacked e) : inv.Fit e :=
  inv.fit_of_part (inv.part_of_stacked h)

theorem fit_of_none (ho : shape.isOther) (h : shape.children = []) : inv.Fit (.ofShape shape) :=
  inv.fit_layer ho (h ▸ List.forall_mem_nil _)

theorem fit_of_one {a : Element} (ho : shape.isOther) (h : shape.children = [a])
    (ha : inv.Stacked a) : inv.Fit (.ofShape shape) :=
  inv.fit_layer ho (h ▸ List.forall_mem_singleton.2 (inv.held_of_stacked ha))

theorem fit_of_two {a b : Element} (ho : shape.isOther) (h : shape.children = [a, b])
    (ha : inv.Stacked a) (hb : inv.Stacked b) : inv.Fit (.ofShape shape) :=
  inv.fit_layer ho (h ▸ List.forall_mem_cons.2
    ⟨inv.held_of_stacked ha, List.forall_mem_singleton.2 (inv.held_of_stacked hb)⟩)

-- What becomes a statement was on the stack, and is settled.
theorem Fits.reduce (h : inv.Fits s) : inv.Fits (exec Action.reduce s).2 := by
  rw [Action.exec_reduce]
  cases hs : s.stack with
  | nil => exact h
  | cons top rest =>
    obtain ⟨htop, hrest⟩ := List.forall_mem_cons.1 (hs ▸ h.stack)
    dsimp only
    split
    · refine ⟨hrest, fun d hd => ?_⟩
      rcases State.mem_file.1 hd with rfl | hd
      · exact inv.listed_settled htop
      · exact h.statements d hd
    · exact h

-- An action that leaves what is around the stack and the statements alone keeps that.
theorem Holds.of_fits (h : inv.Holds s) (ht : inv.Fits t) (hlines : t.lines = s.lines)
    (hpc : t.instructionPc = s.instructionPc) : inv.Holds t :=
  { ht with around := inv.around_congr h.around hlines hpc }

end Invariant

namespace Action.Keeps

open Invariant

variable {inv : Invariant} {e : Element}

theorem move (s : State) (c : Cursor) (h : inv.Holds s) : inv.Holds { s with cursor := c } :=
  h.of_fits ⟨h.stack, h.statements⟩ rfl rfl

theorem reading {α : Type} (r : Reading α) :
    Keeps inv.Holds (fun _ => True) (Action.read r) :=
  .read move r

theorem push (he : inv.Fit e) : Keeps inv.Holds (fun _ => True) (Action.push e) where
  state s hs := by
    refine hs.of_fits ⟨List.forall_mem_cons.2 ⟨?_, hs.stack⟩, hs.statements⟩ rfl rfl
    exact inv.stacked_entry hs.around he
  value _ _ _ _ := trivial

theorem enlist (he : inv.Fit e) : Keeps inv.Holds (fun _ => True) (Action.enlist e) where
  state s hs := by
    refine hs.of_fits ⟨hs.stack, List.forall_mem_cons.2 ⟨?_, hs.statements⟩⟩ rfl rfl
    exact inv.listed_entry hs.around he
  value _ _ _ _ := trivial

theorem pop : Keeps inv.Holds inv.Stacked Action.pop where
  state s hs := by
    rw [exec_pop]
    cases he : s.stack with
    | nil => exact hs
    | cons top rest =>
      exact hs.of_fits ⟨(List.forall_mem_cons.1 (he ▸ hs.stack)).2, hs.statements⟩ rfl rfl
  value s hs e he := by
    rw [exec_pop] at he
    cases hstack : s.stack with
    | nil =>
      rw [hstack] at he
      cases he
    | cons top rest =>
      rw [hstack] at he
      cases he
      exact hs.stack top (hstack ▸ List.mem_cons_self ..)

theorem popMany (count : Nat) :
    Keeps inv.Holds (fun es => ∀ e ∈ es, inv.Stacked e) (Action.popMany count) where
  state s hs := by
    rw [exec_popMany]
    split
    · exact hs
    · refine hs.of_fits ⟨fun e he => ?_, hs.statements⟩ rfl rfl
      exact hs.stack e (List.mem_of_mem_drop he)
  value s hs es he e hmem := by
    rw [exec_popMany] at he
    split at he
    · cases he
    · cases he
      obtain ⟨d, hd, rfl⟩ := List.mem_map.1 hmem
      exact hs.stack d (List.mem_of_mem_take (List.mem_reverse.1 hd))

-- The object that a field is read from or a method is called on.
theorem popTarget : Keeps inv.Holds (fun target => ∀ c ∈ target.toList, inv.Held c)
    (some <$> Action.pop) :=
  pop.map some fun _ he => List.forall_mem_singleton.2 (inv.held_of_stacked he)

theorem peek : Keeps inv.Holds inv.Stacked Action.peek := by
  apply Keeps.inspect
  intro s hs
  cases hp : s.peekAt? 0 with
  | none => exact .throw _
  | some e =>
    obtain ⟨d, hd, rfl⟩ := Option.map_eq_some_iff.1 hp
    exact .pure (hs.stack d (List.mem_of_getElem? hd))

theorem reduce : Keeps inv.Holds (fun _ => True) Action.reduce where
  state s hs := hs.of_fits hs.reduce (around_reduce s).1 (around_reduce s).2
  value _ _ _ _ := trivial

theorem reduceAll : Keeps inv.Holds (fun _ => True) Action.reduceAll :=
  .inspect fun _ _ => .reduceMany (fun s hs => reduce.state s hs) _

theorem removeLastStatement : Keeps inv.Holds inv.Listed Action.removeLastStatement where
  state s hs := by
    rw [exec_removeLastStatement]
    cases he : s.statements with
    | nil => exact hs
    | cons last rest =>
      exact hs.of_fits ⟨hs.stack, (List.forall_mem_cons.1 (he ▸ hs.statements)).2⟩ rfl rfl
  value s hs e he := by
    rw [exec_removeLastStatement] at he
    cases hstatements : s.statements with
    | nil =>
      rw [hstatements] at he
      cases he
    | cons last rest =>
      rw [hstatements] at he
      cases he
      exact hs.statements last (hstatements ▸ List.mem_cons_self ..)

-- What takes the place of a statement takes over its stamp.
theorem replaceStatement (index : Nat) (he : inv.Fit e) :
    Keeps inv.Holds (fun _ => True) (Action.replaceStatement index e) where
  state s hs := by
    rw [exec_replaceStatement]
    split
    · refine hs.of_fits ⟨hs.stack, fun d hmem => ?_⟩ rfl rfl
      obtain ⟨i, hi⟩ := List.getElem?_of_mem hmem
      rw [List.getElem?_modify] at hi
      obtain ⟨old, hold, rfl⟩ := Option.map_eq_some_iff.1 hi
      have hlisted := hs.statements old (List.mem_of_getElem? hold)
      split
      · exact inv.listed_stamped hlisted he
      · exact hlisted
    · exact hs
  value _ _ _ _ := trivial

theorem abort : Keeps inv.Holds (fun _ => True) Action.abort where
  state _ hs := hs.of_fits ⟨hs.stack, hs.statements⟩ rfl rfl
  value _ _ _ _ := trivial

end Action.Keeps

namespace Declaration

open JvmLift.Action (Keeps)

variable {inv : Invariant} (codes : List Opcode) (priority : Priority)

theorem keeps_rewriteTop {rewrite? : Element → Option Element}
    (h : ∀ e t, inv.Listed e → rewrite? e = some t → inv.Fit t) :
    (rewriteTop codes priority rewrite?).rule.Keeps inv.Holds := by
  intro _
  apply Keeps.pop.bind
  intro e he
  cases hr : rewrite? e with
  | none => exact .push (Invariant.fit_of_stacked he)
  | some t => exact .push (h e t (inv.listed_of_stacked he) hr)

theorem keeps_rewriteLast {rewrite? : State → Element → Option Element}
    (h : ∀ s e t, inv.Listed e → rewrite? s e = some t → inv.Fit t) :
    (rewriteLast codes priority rewrite?).rule.Keeps inv.Holds := by
  intro _
  apply Keeps.inspect
  intro s hs
  cases hr : (s.lastStatement? 0).bind (rewrite? s) with
  | none => exact .pure trivial
  | some t =>
    obtain ⟨e, he, ht⟩ := Option.bind_eq_some_iff.1 hr
    obtain ⟨d, hd, rfl⟩ := Option.map_eq_some_iff.1 he
    exact .replaceStatement _ (h s _ t (hs.statements d (List.mem_of_getElem? hd)) ht)

end Declaration

end JvmLift
