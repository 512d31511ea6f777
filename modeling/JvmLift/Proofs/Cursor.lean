import JvmLift.Proofs.Effect

namespace JvmLift

namespace Source

@[simp]
theorem bytes_ofBytes (code : Bytes) : (ofBytes code).bytes = code := by
  rw [ofBytes, bytes, List.filterMap_map]
  exact List.filterMap_some

variable (ds : List Delivery) (failure : Option String)

-- A source gives what it is asked for as long as it has that much.
theorem pull_fst (n : Nat) : (pull n ds).1 = (bytes ⟨ds, failure⟩).take n := by
  fun_induction pull n ds with
  | case1 => rfl
  | case2 => rfl
  | case3 n rest ih => simpa [bytes] using ih
  | case4 n b rest more rest' hp ih =>
    rw [hp] at ih
    simpa [bytes] using ih

theorem bytes_pull_snd (n : Nat) :
    bytes ⟨(pull n ds).2, failure⟩ = (bytes ⟨ds, failure⟩).drop n := by
  fun_induction pull n ds with
  | case1 => rfl
  | case2 => rfl
  | case3 n rest ih => simpa [bytes] using ih
  | case4 n b rest more rest' hp ih =>
    rw [hp] at ih
    simpa [bytes] using ih

-- More deliveries behind those that suffice are left alone.
theorem pull_append (n : Nat) (es : List Delivery) (h : n ≤ (bytes ⟨ds, failure⟩).length) :
    pull n (ds ++ es) = ((pull n ds).1, (pull n ds).2 ++ es) := by
  fun_induction pull n ds with
  | case1 => simp [pull]
  | case2 => simp [bytes] at h
  | case3 n rest ih => exact ih h
  | case4 n b rest more rest' hp ih =>
    rw [hp] at ih
    have hn : n ≤ (bytes ⟨rest, failure⟩).length := by simpa [bytes] using h
    simp [pull, ih hn]

theorem pull_map_byte (n : Nat) (code : Bytes) :
    pull n (code.map .byte) = (code.take n, (code.drop n).map .byte) := by
  induction n generalizing code with
  | zero => simp [pull]
  | succ n ih =>
    cases code with
    | nil => simp [pull]
    | cons b rest => simp [pull, ih]

end Source

namespace Cursor

-- The cursor with `n` bytes in its buffer, if there are so many.
def filled (c : Cursor) (n : Nat) : Cursor :=
  { c with
    source := { c.source with
      deliveries := (Source.pull (n - c.buffer.length) c.source.deliveries).2 }
    buffer := c.buffer ++ (Source.pull (n - c.buffer.length) c.source.deliveries).1 }

-- The cursor behind the next `n` bytes.
def advance (c : Cursor) (n : Nat) : Cursor :=
  { c.filled n with buffer := (c.filled n).buffer.drop n, peeked := 0, pc := c.pc + n }

@[simp]
theorem pc_advance (c : Cursor) (n : Nat) : (c.advance n).pc = c.pc + n := rfl

theorem buffer_filled (c : Cursor) (n : Nat) :
    (c.filled n).buffer = c.buffer ++ c.source.bytes.take (n - c.buffer.length) := by
  simp only [filled, Source.pull_fst _ c.source.failure]

theorem bytes_filled (c : Cursor) (n : Nat) :
    (c.filled n).source.bytes = c.source.bytes.drop (n - c.buffer.length) := by
  simp only [filled, Source.bytes_pull_snd]

-- Filling the buffer consumes nothing.
@[simp]
theorem remaining_filled (c : Cursor) (n : Nat) : (c.filled n).remaining = c.remaining := by
  rw [remaining, buffer_filled, bytes_filled, List.append_assoc, List.take_append_drop, remaining]

theorem length_buffer_filled (c : Cursor) (n : Nat) :
    (c.filled n).buffer.length < n ↔ c.remaining.length < n := by
  simp only [buffer_filled, remaining, List.length_append, List.length_take]
  omega

@[simp]
theorem remaining_advance (c : Cursor) (n : Nat) :
    (c.advance n).remaining = c.remaining.drop n := by
  have hs : (c.advance n).source = (c.filled n).source := rfl
  have hb : (c.advance n).buffer = (c.filled n).buffer.drop n := rfl
  rw [remaining, hs, hb, bytes_filled, buffer_filled, remaining]
  simp [List.drop_append]

end Cursor

namespace Reading

theorem exec_fill (n : Nat) (c : Cursor) :
    exec (fill n) c =
      (if c.remaining.length < n then .error c.source.fault else .ok ⟨⟩, c.filled n) := by
  have h : exec (fill n) c = exec
      (if (c.filled n).buffer.length < n then throw c.source.fault else pure ⟨⟩) (c.filled n) := rfl
  rw [h]
  simp only [Cursor.length_buffer_filled]
  split <;> rfl

-- The next bytes are given if there are enough, and are kept if there are not.
theorem exec_next (n : Nat) (c : Cursor) :
    exec (next n) c =
      if c.remaining.length < n then (.error c.source.fault, { c.filled n with peeked := 0 })
      else (.ok (c.remaining.take n), c.advance n) := by
  have hf : ({ c with peeked := 0 } : Cursor).filled n = { c.filled n with peeked := 0 } := rfl
  have hr : ({ c with peeked := 0 } : Cursor).remaining = c.remaining := rfl
  simp only [next, exec_bind, exec_modify, exec_fill, hf, hr]
  by_cases hn : c.remaining.length < n
  · simp only [if_pos hn]
  · simp only [if_neg hn, exec_get, exec_set, exec_pure]
    have hb := mt (Cursor.length_buffer_filled c n).1 hn
    have ht : (c.filled n).buffer.take n = c.remaining.take n := by
      rw [← Cursor.remaining_filled c n, Cursor.remaining,
        List.take_append_of_le_length (Nat.le_of_not_lt hb)]
    simp only [ht]
    rfl

-- Looking ahead consumes nothing and moves on only behind bytes that are there.
theorem exec_peek (n : Nat) (c : Cursor) :
    exec (peek n) c =
      if c.remaining.length < c.peeked + n then
        (.error c.source.fault, c.filled (c.peeked + n))
      else
        (.ok ((c.remaining.drop c.peeked).take n),
          { c.filled (c.peeked + n) with peeked := c.peeked + n }) := by
  simp only [peek, exec_bind, exec_get, exec_fill]
  by_cases hn : c.remaining.length < c.peeked + n
  · simp only [if_pos hn]
  · simp only [if_neg hn, exec_set, exec_pure]
    have hb := mt (Cursor.length_buffer_filled c (c.peeked + n)).1 hn
    have ht : ((c.filled (c.peeked + n)).buffer.drop c.peeked).take n =
        (c.remaining.drop c.peeked).take n := by
      rw [← Cursor.remaining_filled c (c.peeked + n), Cursor.remaining,
        List.drop_append_of_le_length (by omega),
        List.take_append_of_le_length (by rw [List.length_drop]; omega)]
    exact congrArg (fun bytes => (Except.ok bytes, _)) ht

-- No reading moves the position backwards.
theorem pc_le_next (n : Nat) (c : Cursor) : c.pc ≤ (exec (next n) c).2.pc := by
  rw [exec_next]
  split
  · exact Nat.le_refl _
  · exact Nat.le_add_right _ _

theorem remaining_next_suffix (n : Nat) (c : Cursor) :
    (exec (next n) c).2.remaining <:+ c.remaining := by
  rw [exec_next]
  split
  · have hr : ({ c.filled n with peeked := 0 } : Cursor).remaining = (c.filled n).remaining := rfl
    exact (hr.trans (Cursor.remaining_filled c n)) ▸ List.suffix_refl _
  · rw [Cursor.remaining_advance]
    exact List.drop_suffix n _

theorem exec_u8 (c : Cursor) :
    exec u8 c = ((exec (next 1) c).1.map fun bytes => .ofNat (bigEndian bytes),
      (exec (next 1) c).2) := by
  rw [u8, exec_bind]
  rcases exec (next 1) c with ⟨e | bytes, d⟩ <;> rfl

theorem pc_le_instruction (c : Cursor) : c.pc ≤ (exec instruction c).2.pc := by
  rw [instruction, exec_u8]
  exact pc_le_next 1 c

theorem pc_peek (n : Nat) (c : Cursor) : (exec (peek n) c).2.pc = c.pc := by
  rw [exec_peek]
  split <;> rfl

theorem remaining_peek (n : Nat) (c : Cursor) : (exec (peek n) c).2.remaining = c.remaining := by
  rw [exec_peek]
  split <;> exact Cursor.remaining_filled c (c.peeked + n)

theorem exec_peekInstruction (c : Cursor) :
    exec peekInstruction c = ((exec (peek 1) c).1.map fun bytes => .ofNat (bigEndian bytes),
      (exec (peek 1) c).2) := by
  rw [peekInstruction, peekU8, exec_bind]
  rcases exec (peek 1) c with ⟨e | bytes, d⟩ <;> rfl

theorem pc_peekInstruction (c : Cursor) : (exec peekInstruction c).2.pc = c.pc := by
  rw [exec_peekInstruction]
  exact pc_peek 1 c

theorem pc_le_commit (c : Cursor) : c.pc ≤ (exec commit c).2.pc :=
  Nat.le_add_right _ _

theorem pc_le_skip (n : Nat) (c : Cursor) : c.pc ≤ (exec (skip n) c).2.pc := by
  by_cases hn : n = 0
  · simp [skip, hn]
  · simp only [skip, if_neg hn, exec_bind, exec_get, exec_set]
    split <;> simp [exec_map]

-- Skipping leads to the code behind, or to the end.
theorem exec_skip_ofCode (n : Nat) (code : Bytes) :
    exec (skip n) (.ofCode code) =
      (.ok (min n code.length),
        { source := .ofBytes (code.drop n), pc := min n code.length }) := by
  by_cases hn : n = 0
  · subst hn
    simp [skip, Cursor.ofCode]
  · have hp := Source.pull_map_byte n code
    simp only [skip, if_neg hn, exec_bind, exec_get, exec_set, Cursor.ofCode, Source.ofBytes,
      List.length_nil, Nat.sub_zero, hp]
    simp [exec_map, Except.map]

end Reading

-- The cursor behind the first bytes of a code.
def Cursor.behind (code : Bytes) (start : Nat) : Cursor :=
  (exec (Reading.skip start) (.ofCode code)).2

theorem Cursor.behind_eq (code : Bytes) (start : Nat) :
    behind code start = { source := .ofBytes (code.drop start), pc := min start code.length } := by
  rw [behind, Reading.exec_skip_ofCode]

end JvmLift
