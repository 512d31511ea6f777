import JvmLift.Proofs.Composed

namespace JvmLift

variable {α : Type}

-- Code that ends at a position without a failure or an interruption, of which no more was looked at
-- than there is.
structure Cursor.EndsAt (c : Cursor) (stop : Nat) : Prop where
  intact : c.source.failure = none
  steady : c.source.deliveries = c.source.bytes.map .byte
  looked : c.peeked ≤ c.buffer.length
  reach : c.pc + c.remaining.length = stop

namespace Cursor.EndsAt

variable {c : Cursor} {stop : Nat}

theorem pc_le (h : c.EndsAt stop) : c.pc ≤ stop :=
  h.reach ▸ Nat.le_add_right _ _

theorem fault (h : c.EndsAt stop) : c.source.fault = .endOfCode := by
  rw [Source.fault, h.intact]

-- There is only one cursor at the end.
theorem exhausted (h : c.EndsAt stop) (hnil : c.remaining = []) :
    c = { source := .ofBytes [], pc := stop } := by
  obtain ⟨hbuffer, hbytes⟩ := List.append_eq_nil_iff.1 hnil
  have hlooked : c.peeked = 0 := by
    have hl := h.looked
    rw [hbuffer, List.length_nil] at hl
    omega
  have hpc : c.pc = stop := by
    have hr := h.reach
    rwa [hnil] at hr
  have hdeliveries : c.source.deliveries = [] := by
    rw [h.steady, hbytes, List.map_nil]
  have hfailure := h.intact
  obtain ⟨⟨deliveries, failure⟩, buffer, peeked, pc⟩ := c
  cases hbuffer
  cases hlooked
  cases hpc
  cases hdeliveries
  cases hfailure
  rfl

theorem filled (h : c.EndsAt stop) (n : Nat) : (c.filled n).EndsAt stop where
  intact := h.intact
  steady := by
    rw [bytes_filled]
    show (Source.pull (n - c.buffer.length) c.source.deliveries).2 = _
    rw [h.steady, Source.pull_map_byte]
  looked := by
    have hl : c.peeked ≤ c.buffer.length := h.looked
    have hb := congrArg List.length (buffer_filled c n)
    rw [List.length_append] at hb
    show c.peeked ≤ (c.filled n).buffer.length
    omega
  reach := by
    rw [remaining_filled]
    exact h.reach

theorem forget (h : c.EndsAt stop) : Cursor.EndsAt { c with peeked := 0 } stop where
  intact := h.intact
  steady := h.steady
  looked := Nat.zero_le _
  reach := h.reach

theorem advance (h : c.EndsAt stop) {n : Nat} (hn : n ≤ c.remaining.length) :
    (c.advance n).EndsAt stop where
  intact := h.intact
  steady := (h.filled n).steady
  looked := Nat.zero_le _
  reach := by
    have hr := h.reach
    rw [remaining_advance, List.length_drop, pc_advance]
    omega

theorem next (h : c.EndsAt stop) (n : Nat) : (exec (Reading.next n) c).2.EndsAt stop := by
  rw [Reading.exec_next]
  by_cases hn : c.remaining.length < n
  · rw [if_pos hn]
    exact (h.filled n).forget
  · rw [if_neg hn]
    exact h.advance (Nat.le_of_not_lt hn)

theorem peek (h : c.EndsAt stop) (n : Nat) : (exec (Reading.peek n) c).2.EndsAt stop := by
  rw [Reading.exec_peek]
  have hf := h.filled (c.peeked + n)
  by_cases hn : c.remaining.length < c.peeked + n
  · rw [if_pos hn]
    exact hf
  · rw [if_neg hn]
    have hb := mt (length_buffer_filled c (c.peeked + n)).1 hn
    exact ⟨h.intact, hf.steady, Nat.le_of_not_lt hb, hf.reach⟩

theorem commit (h : c.EndsAt stop) : (exec Reading.commit c).2.EndsAt stop where
  intact := h.intact
  steady := h.steady
  looked := Nat.zero_le _
  reach := by
    have hl := h.looked
    have hr := h.reach
    show c.pc + c.peeked + (c.buffer.drop c.peeked ++ c.source.bytes).length = stop
    rw [remaining, List.length_append] at hr
    rw [List.length_append, List.length_drop]
    omega

theorem instruction (h : c.EndsAt stop) : (exec Reading.instruction c).2.EndsAt stop := by
  rw [Reading.instruction, Reading.exec_u8]
  exact h.next 1

end Cursor.EndsAt

namespace Operation

def isReading : Operation α → Bool
  | nextInstruction | next _ | peek _ | commit | skip _ => true
  | _ => false

theorem exec_reduce_with_cursor (s : State) (c : Cursor) :
    exec Action.reduce { s with cursor := c } =
      ((exec Action.reduce s).1, { (exec Action.reduce s).2 with cursor := c }) := by
  rcases s with ⟨_, _, _, stack⟩
  simp only [Action.exec_reduce]
  cases stack with
  | nil => rfl
  | cons top rest =>
    dsimp only
    split <;> rfl

theorem exec_reduceMany_with_cursor (n : Nat) (s : State) (c : Cursor) :
    exec (Action.reduceMany n) { s with cursor := c } =
      ((exec (Action.reduceMany n) s).1,
        { (exec (Action.reduceMany n) s).2 with cursor := c }) := by
  induction n generalizing s with
  | zero => rfl
  | succ n ih =>
    rw [Action.reduceMany, exec_bind, exec_bind, exec_reduce_with_cursor]
    rcases exec Action.reduce s with ⟨e | _ | _, t⟩
    · rfl
    · rfl
    · have hr := ih t
      dsimp only at hr ⊢
      rw [if_pos rfl, exec_bind, exec_bind, exec_discard, exec_discard, hr]
      rcases exec (Action.reduceMany n) t with ⟨e | v, u⟩ <;> rfl

-- What does not read code neither sees nor moves the cursor.
theorem exec_with_cursor (op : Operation α) (h : op.isReading = false) (s : State) (c : Cursor) :
    exec op.action { s with cursor := c } =
      ((exec op.action s).1, { (exec op.action s).2 with cursor := c }) := by
  cases op with
  | nextInstruction | next | peek | commit | skip => cases h
  | push | enlist | abort => rfl
  | pop =>
    rcases s with ⟨_, _, _, stack⟩
    simp only [action, Action.exec_popEntry]
    cases stack <;> rfl
  | popMany count =>
    simp only [action, Action.exec_popMany]
    split <;> rfl
  | insert offset e =>
    simp only [action, Action.exec_insert]
    split <;> rfl
  | reduce => exact exec_reduce_with_cursor s c
  | reduceAll => exact exec_reduceMany_with_cursor _ s c
  | removeStatement index =>
    simp only [action, Action.exec_removeStatement]
    split <;> rfl
  | removeLastStatement =>
    rcases s with ⟨_, _, _, _, statements⟩
    simp only [action, Action.exec_removeLastStatement]
    cases statements <;> rfl
  | replaceStatement index e =>
    simp only [action, Action.exec_replaceStatement]
    split <;> rfl

theorem cursor_exec (op : Operation α) (h : op.isReading = false) (s : State) :
    (exec op.action s).2.cursor = s.cursor := by
  have hc := exec_with_cursor op h s s.cursor
  exact congrArg (·.2.cursor) hc

-- No operation moves the position backwards.
theorem pc_le (op : Operation α) (hs : op.isStrict) (s : State) :
    s.pc ≤ (exec op.action s).2.pc := by
  cases op with
  | nextInstruction =>
    rw [action, Action.exec_nextInstruction]
    have hi := Reading.pc_le_instruction s.cursor
    rcases he : exec Reading.instruction s.cursor with ⟨e | code, c⟩
    all_goals
      rw [he] at hi
      exact hi
  | next count =>
    rw [action, Action.exec_read]
    exact Reading.pc_le_next count s.cursor
  | commit =>
    rw [action, Action.exec_read]
    exact Reading.pc_le_commit s.cursor
  | peek | skip => cases hs
  | _ =>
    rw [State.pc, State.pc, cursor_exec _ rfl]

-- The end of the code stays where it is.
theorem endsAt (op : Operation α) (hs : op.isStrict) {s : State} {stop : Nat}
    (h : s.cursor.EndsAt stop) : (exec op.action s).2.cursor.EndsAt stop := by
  cases op with
  | nextInstruction =>
    rw [action, Action.exec_nextInstruction]
    have hi := h.instruction
    rcases he : exec Reading.instruction s.cursor with ⟨e | code, c⟩
    all_goals
      rw [he] at hi
      exact hi
  | next count =>
    rw [action, Action.exec_read]
    exact h.next count
  | commit =>
    rw [action, Action.exec_read]
    exact h.commit
  | peek | skip => cases hs
  | _ =>
    rw [cursor_exec _ rfl]
    exact h

-- Whether the source will fail does not depend on what is read of it.
theorem failure_eq (op : Operation α) (hs : op.isStrict) (s : State) :
    (exec op.action s).2.cursor.source.failure = s.cursor.source.failure := by
  have hnext : ∀ n, (exec (Reading.next n) s.cursor).2.source.failure = s.cursor.source.failure := by
    intro n
    rw [Reading.exec_next]
    split <;> rfl
  cases op with
  | nextInstruction =>
    have hi := hnext 1
    rw [action, Action.exec_nextInstruction, Reading.instruction, Reading.exec_u8]
    rcases he : exec (Reading.next 1) s.cursor with ⟨e | bytes, c⟩
    all_goals
      rw [he] at hi
      exact hi
  | next count =>
    rw [action, Action.exec_read]
    exact hnext count
  | commit => rfl
  | peek | skip => cases hs
  | _ => rw [cursor_exec _ rfl]

-- What is left of the code is the end of what was left before.
theorem remaining_suffix (op : Operation α) (hs : op.isStrict) (s : State) :
    (exec op.action s).2.cursor.remaining <:+ s.cursor.remaining := by
  cases op with
  | nextInstruction =>
    have hn := Reading.remaining_next_suffix 1 s.cursor
    rw [action, Action.exec_nextInstruction, Reading.instruction, Reading.exec_u8]
    rcases he : exec (Reading.next 1) s.cursor with ⟨e | bytes, c⟩
    all_goals
      rw [he] at hn
      exact hn
  | next count =>
    rw [action, Action.exec_read]
    exact Reading.remaining_next_suffix count s.cursor
  | commit =>
    rw [action, Action.exec_read]
    show s.cursor.buffer.drop s.cursor.peeked ++ s.cursor.source.bytes <:+
      s.cursor.buffer ++ s.cursor.source.bytes
    refine ⟨s.cursor.buffer.take s.cursor.peeked, ?_⟩
    rw [← List.append_assoc, List.take_append_drop]
  | peek | skip => cases hs
  | _ => exact ⟨[], congrArg Cursor.remaining (cursor_exec _ rfl _)⟩

end Operation

-- Whether a fault says that the code has no more bytes.
def Fault.isAtEnd : Fault → Bool
  | endOfCode | unreadable _ => true
  | _ => false

theorem Source.isAtEnd_fault (s : Source) : s.fault.isAtEnd := by
  rw [fault]
  cases s.failure <;> rfl

-- Whether an action has asked for bytes that were not there.
def Except.RanOut (result : Except Fault α) : Prop :=
  ∃ f, result = .error f ∧ f.isAtEnd

@[simp]
theorem Except.ranOut_error {f : Fault} : Except.RanOut (.error f : Except Fault α) ↔ f.isAtEnd := by
  simp [RanOut]

@[simp]
theorem Except.ranOut_ok {v : α} : ¬Except.RanOut (.ok v) := by
  simp [RanOut]

namespace Cursor

-- The cursor in code that goes on.
def extend (c : Cursor) (tail : List Delivery) : Cursor :=
  { c with source := { c.source with deliveries := c.source.deliveries ++ tail } }

variable (c : Cursor) (tail : List Delivery)

theorem remaining_extend :
    (c.extend tail).remaining = c.remaining ++ Source.bytes ⟨tail, none⟩ := by
  simp [remaining, extend, Source.bytes, List.filterMap_append, List.append_assoc]

theorem filled_extend {n : Nat} (h : n ≤ c.remaining.length) :
    (c.extend tail).filled n = (c.filled n).extend tail := by
  have hb : n - c.buffer.length ≤ (Source.bytes c.source).length := by
    rw [remaining, List.length_append] at h
    omega
  have hp := Source.pull_append c.source.deliveries c.source.failure _ tail hb
  simp only [filled, extend, hp]

theorem advance_extend {n : Nat} (h : n ≤ c.remaining.length) :
    (c.extend tail).advance n = (c.advance n).extend tail := by
  rw [advance, filled_extend c tail h]
  rfl

-- Bytes that are put behind the code move its end.
theorem EndsAt.extend {c : Cursor} {stop : Nat} (h : c.EndsAt stop) (more : Bytes) :
    (c.extend (more.map .byte)).EndsAt (stop + more.length) where
  intact := h.intact
  steady := by
    have hb : Source.bytes ⟨c.source.deliveries ++ more.map .byte, c.source.failure⟩ =
        c.source.bytes ++ more := by
      have hm := Source.bytes_ofBytes more
      rw [Source.bytes, List.filterMap_append]
      exact congrArg (c.source.bytes ++ ·) hm
    show c.source.deliveries ++ more.map .byte = _
    rw [Cursor.extend, hb, h.steady, ← List.map_append]
  looked := h.looked
  reach := by
    have hr := h.reach
    have hm : Source.bytes ⟨more.map .byte, none⟩ = more := Source.bytes_ofBytes more
    have hpc : (c.extend (more.map .byte)).pc = c.pc := rfl
    rw [remaining_extend, hm, List.length_append, hpc]
    omega

end Cursor

namespace Reading

variable (c : Cursor) (tail : List Delivery)

-- Bytes are either missing or the same in code that goes on.
theorem next_extend (n : Nat) :
    (exec (next n) c).1 = .error c.source.fault ∨
      exec (next n) (c.extend tail) =
        ((exec (next n) c).1, (exec (next n) c).2.extend tail) := by
  simp only [exec_next, Cursor.remaining_extend]
  by_cases hn : c.remaining.length < n
  · rw [if_pos hn]
    exact .inl rfl
  · have hle := Nat.le_of_not_lt hn
    have hlong : ¬(c.remaining ++ Source.bytes ⟨tail, none⟩).length < n := by
      rw [List.length_append]
      omega
    rw [if_neg hn, if_neg hlong, Cursor.advance_extend c tail hle,
      List.take_append_of_le_length hle]
    exact .inr rfl

theorem peek_extend (n : Nat) :
    Except.RanOut (exec (peek n) c).1 ∨
      exec (peek n) (c.extend tail) =
        ((exec (peek n) c).1, (exec (peek n) c).2.extend tail) := by
  have hp : (c.extend tail).peeked = c.peeked := rfl
  simp only [exec_peek, Cursor.remaining_extend, hp]
  by_cases hn : c.remaining.length < c.peeked + n
  · rw [if_pos hn]
    exact .inl ⟨_, rfl, Source.isAtEnd_fault _⟩
  · have hle := Nat.le_of_not_lt hn
    have hlong : ¬(c.remaining ++ Source.bytes ⟨tail, none⟩).length < c.peeked + n := by
      rw [List.length_append]
      omega
    have hd : c.peeked ≤ c.remaining.length := by omega
    have ht : n ≤ (c.remaining.drop c.peeked).length := by
      rw [List.length_drop]
      omega
    rw [if_neg hn, if_neg hlong, Cursor.filled_extend c tail hle,
      List.drop_append_of_le_length hd, List.take_append_of_le_length ht]
    exact .inr rfl

-- Bytes that are missing are beyond the end if they are not missing in code that goes on.
theorem next_overrun {c : Cursor} {stop : Nat} (hc : c.EndsAt stop) (tail : List Delivery) (n : Nat)
    (h : Except.RanOut (exec (next n) c).1) :
    Except.RanOut (exec (next n) (c.extend tail)).1 ∨
      stop < (exec (next n) (c.extend tail)).2.pc := by
  have hn : c.remaining.length < n := by
    by_contra hn
    rw [exec_next, if_neg hn] at h
    obtain ⟨f, hf, -⟩ := h
    cases hf
  rw [exec_next]
  by_cases hlong : (c.extend tail).remaining.length < n
  · rw [if_pos hlong]
    exact .inl ⟨_, rfl, Source.isAtEnd_fault _⟩
  · rw [if_neg hlong]
    right
    have hr := hc.reach
    show stop < c.pc + n
    omega

theorem instruction_extend :
    (exec instruction c).1 = .error c.source.fault ∨
      exec instruction (c.extend tail) =
        ((exec instruction c).1, (exec instruction c).2.extend tail) := by
  rw [instruction, exec_u8, exec_u8]
  rcases next_extend c tail 1 with h | h
  · exact .inl (by rw [h]; rfl)
  · exact .inr (by rw [h])

end Reading

-- The state in code that goes on.
def State.extend (s : State) (tail : List Delivery) : State :=
  { s with cursor := s.cursor.extend tail }

theorem Operation.extend (op : Operation α) (hs : op.isStrict) (s : State) (tail : List Delivery) :
    (exec op.action s).1 = .error s.cursor.source.fault ∨
      exec op.action (s.extend tail) =
        ((exec op.action s).1, (exec op.action s).2.extend tail) := by
  have hc : (s.extend tail).cursor = s.cursor.extend tail := rfl
  cases op with
  | nextInstruction =>
    rw [action, Action.exec_nextInstruction, Action.exec_nextInstruction, hc]
    rcases Reading.instruction_extend s.cursor tail with h | h
    · left
      rcases hi : exec Reading.instruction s.cursor with ⟨e | code, c⟩
      all_goals rw [hi] at h
      · exact congrArg Except.error (Except.error.inj h)
      · cases h
    · rw [h]
      refine .inr ?_
      rcases exec Reading.instruction s.cursor with ⟨e | code, c⟩ <;> rfl
  | next count =>
    rw [action, Action.exec_read, Action.exec_read]
    rcases Reading.next_extend s.cursor tail count with h | h
    · exact .inl h
    · exact .inr (by rw [State.extend, h]; rfl)
  | commit => exact .inr rfl
  | peek | skip => cases hs
  | _ =>
    refine .inr ?_
    rw [State.extend, exec_with_cursor _ rfl, State.extend, cursor_exec _ rfl]

-- An operation that runs out of bytes runs out of them in code that goes on as well, or gets
-- beyond the end.
theorem Operation.overrun (op : Operation α) (hs : op.isStrict) {s : State} {stop : Nat}
    (hc : s.cursor.EndsAt stop) (tail : List Delivery)
    (h : Except.RanOut (exec op.action s).1) :
    Except.RanOut (exec op.action (s.extend tail)).1 ∨
      stop < (exec op.action (s.extend tail)).2.pc := by
  cases op with
  | nextInstruction =>
    rw [action, Action.exec_nextInstruction] at h ⊢
    have hx : (s.extend tail).cursor = s.cursor.extend tail := rfl
    have hout : Except.RanOut (exec (Reading.next 1) s.cursor).1 := by
      rw [Reading.instruction, Reading.exec_u8] at h
      rcases he : exec (Reading.next 1) s.cursor with ⟨e | bytes, c⟩
      all_goals simp_all [Except.map]
    have ho := Reading.next_overrun hc tail 1 hout
    rw [hx, Reading.instruction, Reading.exec_u8]
    rcases he : exec (Reading.next 1) (s.cursor.extend tail) with ⟨e | bytes, c⟩
    all_goals rw [he] at ho
    · exact ho.imp (by simp [Except.map]) id
    · exact ho.imp (by simp) id
  | next count =>
    rw [action, Action.exec_read] at h ⊢
    exact Reading.next_overrun hc tail count h
  | commit =>
    obtain ⟨f, hf, -⟩ := h
    cases hf
  | peek | skip => cases hs
  | _ =>
    left
    rw [State.extend, exec_with_cursor _ rfl]
    exact h

namespace Action.Composed

variable {ahead : Prop} {a : Action α}

-- The end of the code stays where it is.
theorem endsAt (ha : Composed ahead a) {s : State} {stop : Nat} (h : s.cursor.EndsAt stop) :
    (exec a s).2.cursor.EndsAt stop := by
  refine ha.preserves (fun s => s.cursor.EndsAt stop) (fun op hs s h => op.endsAt hs h)
    (fun s h => ?_) h
  rw [exec_followingCode?, Reading.exec_peekInstruction]
  exact h.peek 1

-- No action moves the position backwards.
theorem pc_le (ha : Composed ahead a) (s : State) : s.pc ≤ (exec a s).2.pc := by
  refine ha.preserves (fun t => s.pc ≤ t.pc) (fun op hs t h => ?_) (fun t h => ?_)
    (Nat.le_refl _)
  · exact Nat.le_trans h (op.pc_le hs t)
  · rw [exec_followingCode?]
    exact Nat.le_trans h (Nat.le_of_eq (Reading.pc_peekInstruction t.cursor).symm)

-- What is left of the code is the end of what was left before.
theorem remaining_suffix (ha : Composed ahead a) (s : State) :
    (exec a s).2.cursor.remaining <:+ s.cursor.remaining := by
  refine ha.preserves (fun t => t.cursor.remaining <:+ s.cursor.remaining)
    (fun op hs t h => (op.remaining_suffix hs t).trans h) (fun t h => ?_) (List.suffix_refl _)
  rw [exec_followingCode?, Reading.exec_peekInstruction]
  show (exec (Reading.peek 1) t.cursor).2.remaining <:+ _
  rwa [Reading.remaining_peek]

-- Whether the source will fail stays as it is.
theorem failure_eq (ha : Composed ahead a) (s : State) :
    (exec a s).2.cursor.source.failure = s.cursor.source.failure := by
  refine ha.preserves (fun t => t.cursor.source.failure = s.cursor.source.failure)
    (fun op hs t h => (op.failure_eq hs t).trans h) (fun t h => ?_) rfl
  rw [exec_followingCode?, Reading.exec_peekInstruction, Reading.exec_peek]
  dsimp only
  split <;> exact h

-- What does not look ahead either comes to the end of the code, and to nothing else, or does the
-- same in code that goes on.
theorem fault_or_extend (ha : Composed False a) (s : State) (tail : List Delivery) :
    (exec a s).1 = .error s.cursor.source.fault ∨
      exec a (s.extend tail) = ((exec a s).1, (exec a s).2.extend tail) := by
  induction ha generalizing s with
  | pure | throw => exact .inr rfl
  | @bind _ _ a f ha _ iha ihf =>
    rw [exec_bind, exec_bind]
    have hfailure := ha.failure_eq s
    rcases iha s with he | h
    · left
      rcases ht : exec a s with ⟨_ | _, t⟩
      all_goals rw [ht] at he
      · exact congrArg Except.error (Except.error.inj he)
      · cases he
    · rw [h]
      rcases ht : exec a s with ⟨e | v, t⟩
      · exact .inr rfl
      · rw [ht] at hfailure
        have hfault : t.cursor.source.fault = s.cursor.source.fault := by
          rw [Source.fault, Source.fault, hfailure]
        rw [← hfault]
        exact ihf v t
  | @inspect _ f blind _ ih =>
    have hf : f (s.extend tail) = f s := blind s (s.cursor.extend tail) rfl
    have h := ih s s
    rw [exec_bind, exec_bind, exec_get, exec_get]
    dsimp only
    rw [hf]
    exact h
  | operate op hs => exact op.extend hs s tail
  | lookAhead h => exact h.elim

theorem extend (ha : Composed False a) (s : State) (tail : List Delivery) :
    Except.RanOut (exec a s).1 ∨
      exec a (s.extend tail) = ((exec a s).1, (exec a s).2.extend tail) :=
  (ha.fault_or_extend s tail).imp_left fun h => ⟨_, h, Source.isAtEnd_fault _⟩

-- What runs out of bytes runs out of them in code that goes on as well, or gets beyond the end.
theorem overrun (ha : Composed False a) {s : State} {stop : Nat} (hc : s.cursor.EndsAt stop)
    (tail : List Delivery) (h : Except.RanOut (exec a s).1) :
    Except.RanOut (exec a (s.extend tail)).1 ∨ stop < (exec a (s.extend tail)).2.pc := by
  induction ha generalizing s with
  | pure | throw => exact .inl h
  | @bind _ _ a f ha hf iha ihf =>
    rw [exec_bind] at h ⊢
    rcases hs : exec a s with ⟨e | v, t⟩
    all_goals rw [hs] at h
    · -- the first action has run out, and what follows it goes no further back
      have ho := iha hc (by simpa [hs] using h)
      rcases hx : exec a (s.extend tail) with ⟨e | v, u⟩
      all_goals rw [hx] at ho
      · simpa using ho
      · have hlt : stop < u.pc := by simpa using ho
        exact .inr (Nat.lt_of_lt_of_le hlt ((hf v).pc_le u))
    · have hend := ha.endsAt hc
      rcases ha.extend s tail with ⟨g, hg, -⟩ | hx
      · rw [hs] at hg
        cases hg
      · rw [hs] at hx hend
        rw [hx]
        exact ihf v hend h
  | @inspect _ f blind _ ih =>
    have hf : f (s.extend tail) = f s := blind s (s.cursor.extend tail) rfl
    rw [exec_bind, exec_get] at h ⊢
    dsimp only at h ⊢
    rw [hf]
    exact ih s hc h
  | operate op hs => exact op.overrun hs hc tail h
  | lookAhead ha => exact ha.elim

end Action.Composed

end JvmLift
