import JvmLift.Proofs.Cursor

namespace JvmLift

-- A sequence of requests. What those before a request gave may decide which one it is.
inductive Script (κ : Type → Type) (α : Type) : Type 1 where
  | done (v : α)
  | request {β : Type} (k : κ β) (next : Except Fault β → Script κ α)

namespace Script

variable {κ : Type → Type} {α σ τ : Type}

-- What the answers amount to, and the state that the last request leaves.
def run (serve : {β : Type} → κ β → σ → Except Fault β × σ) : Script κ α → σ → α × σ
  | done v, s => (v, s)
  | request k next, s => (next (serve k s).1).run serve (serve k s).2

-- Two servers that answer every request alike and stay related give every script the same.
theorem run_related {serve : {β : Type} → κ β → σ → Except Fault β × σ}
    {serve' : {β : Type} → κ β → τ → Except Fault β × τ} {R : σ → τ → Prop}
    (hstep : ∀ {β : Type} (k : κ β) {s : σ} {t : τ}, R s t →
      (serve k s).1 = (serve' k t).1 ∧ R (serve k s).2 (serve' k t).2)
    (script : Script κ α) {s : σ} {t : τ} (h : R s t) :
    (script.run serve s).1 = (script.run serve' t).1 ∧
      R (script.run serve s).2 (script.run serve' t).2 := by
  induction script generalizing s t with
  | done v => exact ⟨rfl, h⟩
  | request k next ih =>
    obtain ⟨hanswer, hstate⟩ := hstep k h
    rw [run, run, hanswer]
    exact ih _ hstate

end Script

-- A position in bytes that are all at hand, and how many of those behind it were looked at.
structure PlainCursor where
  bytes : Bytes
  pc : Nat := 0
  peeked : Nat := 0
  -- why there is nothing behind the bytes, if that is not just their end
  failure : Option String

namespace PlainCursor

variable {α : Type}

def ahead (p : PlainCursor) : Bytes :=
  p.bytes.drop p.pc

-- The fault of asking for more than there is.
def fault (p : PlainCursor) : Fault :=
  match p.failure with
  | none => .endOfCode
  | some reason => .unreadable reason

def forget (p : PlainCursor) : PlainCursor :=
  { p with peeked := 0 }

def next (width : Nat) (value : Bytes → α) (p : PlainCursor) : Except Fault α × PlainCursor :=
  if width ≤ p.ahead.length then
    (.ok (value (p.ahead.take width)), { p.forget with pc := p.pc + width })
  else (.error p.fault, p.forget)

def peek (width : Nat) (value : Bytes → α) (p : PlainCursor) : Except Fault α × PlainCursor :=
  if p.peeked + width ≤ p.ahead.length then
    (.ok (value ((p.ahead.drop p.peeked).take width)), { p with peeked := p.peeked + width })
  else (.error p.fault, p)

def commit (p : PlainCursor) : Except Fault Unit × PlainCursor :=
  (.ok ⟨⟩, { p.forget with pc := p.pc + p.peeked })

-- Moves on by so many bytes, or to the end. A failure is met there, behind bytes that are lost.
def skip (count : Nat) (p : PlainCursor) : Except Fault Nat × PlainCursor :=
  if count = 0 then (.ok 0, p)
  else if p.ahead.length < count ∧ p.failure.isSome then
    (.error p.fault, { p.forget with bytes := p.bytes.take p.pc })
  else
    let skipped := min count p.ahead.length
    (.ok skipped, { p.forget with pc := p.pc + skipped })

end PlainCursor

namespace Reading

-- What a cursor can be asked for, with the type of the answer.
inductive Request : Type → Type where
  | instruction : Request Opcode
  | u8 : Request UInt8
  | i8 : Request Int8
  | u16 : Request UInt16
  | i16 : Request Int16
  | i32 : Request Int32
  | peekInstruction : Request Opcode
  | peekU8 : Request UInt8
  | peekU16 : Request UInt16
  | commit : Request Unit
  | skip (count : Nat) : Request Nat

namespace Request

variable {α : Type}

def reading : Request α → Reading α
  | instruction => Reading.instruction
  | u8 => Reading.u8
  | i8 => Reading.i8
  | u16 => Reading.u16
  | i16 => Reading.i16
  | i32 => Reading.i32
  | peekInstruction => Reading.peekInstruction
  | peekU8 => Reading.peekU8
  | peekU16 => Reading.peekU16
  | commit => Reading.commit
  | skip count => Reading.skip count

def serve (k : Request α) (c : Cursor) : Except Fault α × Cursor :=
  exec k.reading c

-- What a request means: the number that the bytes at the position spell, in the type asked for.
def meaning (k : Request α) (p : PlainCursor) : Except Fault α × PlainCursor :=
  match k with
  | instruction | u8 => p.next 1 fun bytes => .ofNat (bigEndian bytes)
  | i8 => p.next 1 fun bytes => .ofNat (bigEndian bytes)
  | u16 => p.next 2 fun bytes => .ofNat (bigEndian bytes)
  | i16 => p.next 2 fun bytes => .ofNat (bigEndian bytes)
  | i32 => p.next 4 fun bytes => .ofNat (bigEndian bytes)
  | peekInstruction | peekU8 => p.peek 1 fun bytes => .ofNat (bigEndian bytes)
  | peekU16 => p.peek 2 fun bytes => .ofNat (bigEndian bytes)
  | commit => p.commit
  | skip count => p.skip count

end Request

section Exec

variable {α β : Type} (c : Cursor)

theorem exec_bind_pure (r : Reading α) (g : α → β) :
    exec (r >>= fun v => pure (g v)) c = ((exec r c).1.map g, (exec r c).2) := by
  rw [exec_bind]
  rcases exec r c with ⟨f | v, d⟩ <;> rfl

theorem exec_i8 :
    exec i8 c = ((exec (next 1) c).1.map fun bytes => .ofNat (bigEndian bytes),
      (exec (next 1) c).2) := by
  rw [i8, exec_bind_pure, exec_u8]
  rcases exec (next 1) c with ⟨f | bytes, d⟩
  · rfl
  · simp [Except.map, UInt8.toInt8_ofNat']

theorem exec_u16 :
    exec u16 c = ((exec (next 2) c).1.map fun bytes => .ofNat (bigEndian bytes),
      (exec (next 2) c).2) :=
  exec_bind_pure c (next 2) _

theorem exec_i16 :
    exec i16 c = ((exec (next 2) c).1.map fun bytes => .ofNat (bigEndian bytes),
      (exec (next 2) c).2) := by
  rw [i16, exec_bind_pure, exec_u16]
  rcases exec (next 2) c with ⟨f | bytes, d⟩
  · rfl
  · simp [Except.map, UInt16.toInt16_ofNat']

theorem exec_i32 :
    exec i32 c = ((exec (next 4) c).1.map fun bytes => .ofNat (bigEndian bytes),
      (exec (next 4) c).2) := by
  rw [i32, exec_bind]
  rcases exec (next 4) c with ⟨f | bytes, d⟩
  · rfl
  · simp [Except.map, UInt32.toInt32_ofNat']

theorem exec_peekU8 :
    exec peekU8 c = ((exec (peek 1) c).1.map fun bytes => .ofNat (bigEndian bytes),
      (exec (peek 1) c).2) :=
  exec_peekInstruction c

theorem exec_peekU16 :
    exec peekU16 c = ((exec (peek 2) c).1.map fun bytes => .ofNat (bigEndian bytes),
      (exec (peek 2) c).2) :=
  exec_bind_pure c (peek 2) _

-- A skip that meets a failure has taken everything there was, and has not moved.
theorem exec_skip (n : Nat) :
    exec (skip n) c =
      if n = 0 then (.ok 0, c)
      else
        let behind : Cursor := { c.filled n with buffer := c.buffer.drop n, peeked := 0 }
        if c.remaining.length < n ∧ c.source.failure.isSome then (.error c.source.fault, behind)
        else
          (.ok (min n c.remaining.length), { behind with pc := c.pc + min n c.remaining.length }) := by
  by_cases hn : n = 0
  · simp [skip, hn]
  · have hpulled : (Source.pull (n - c.buffer.length) c.source.deliveries).1.length =
        min (n - c.buffer.length) c.source.bytes.length := by
      rw [Source.pull_fst _ c.source.failure, List.length_take]
    have hlength : c.remaining.length = c.buffer.length + c.source.bytes.length :=
      List.length_append
    have hshort : (Source.pull (n - c.buffer.length) c.source.deliveries).1.length <
        n - c.buffer.length ↔ c.remaining.length < n := by omega
    have hskipped : n - (n - c.buffer.length) +
        (Source.pull (n - c.buffer.length) c.source.deliveries).1.length =
          min n c.remaining.length := by omega
    simp only [skip, if_neg hn, exec_bind, exec_get, exec_set, hskipped, Bool.and_eq_true,
      decide_eq_true_eq, hshort]
    split <;> rfl

end Exec

end Reading

-- A cursor that is asked through its buffer is at the same place as a plain one. No more was looked
-- at than the buffer holds.
structure Cursor.Shows (c : Cursor) (p : PlainCursor) : Prop where
  ahead : c.remaining = p.ahead
  pc : c.pc = p.pc
  peeked : c.peeked = p.peeked
  failure : c.source.failure = p.failure
  buffered : c.peeked ≤ c.buffer.length

namespace Cursor.Shows

open JvmLift.Reading (Request)

variable {α : Type} {c : Cursor} {p : PlainCursor}

theorem fault (h : c.Shows p) : c.source.fault = p.fault := by
  cases hf : c.source.failure with
  | none => simp only [Source.fault, PlainCursor.fault, ← h.failure, hf]
  | some reason => simp only [Source.fault, PlainCursor.fault, ← h.failure, hf]

theorem filled (h : c.Shows p) (n : Nat) : (c.filled n).Shows p where
  ahead := by rw [remaining_filled, h.ahead]
  pc := h.pc
  peeked := h.peeked
  failure := h.failure
  buffered := by
    rw [buffer_filled, List.length_append]
    exact Nat.le_add_right_of_le h.buffered

theorem forget (h : c.Shows p) : Cursor.Shows { c with peeked := 0 } p.forget where
  ahead := h.ahead
  pc := h.pc
  peeked := rfl
  failure := h.failure
  buffered := Nat.zero_le _

theorem next (h : c.Shows p) (width : Nat) (value : Bytes → α) :
    (exec (Reading.next width) c).1.map value = (p.next width value).1 ∧
      (exec (Reading.next width) c).2.Shows (p.next width value).2 := by
  rw [Reading.exec_next, PlainCursor.next, h.ahead, h.fault]
  by_cases hw : p.ahead.length < width
  · rw [if_pos hw, if_neg (Nat.not_le_of_lt hw)]
    exact ⟨rfl, (h.filled width).forget⟩
  · rw [if_neg hw, if_pos (Nat.le_of_not_lt hw)]
    refine ⟨rfl, ?_, ?_, rfl, h.failure, Nat.zero_le _⟩
    · rw [remaining_advance, h.ahead, PlainCursor.ahead, PlainCursor.ahead, List.drop_drop]
      rfl
    · rw [pc_advance, h.pc]

theorem peek (h : c.Shows p) (width : Nat) (value : Bytes → α) :
    (exec (Reading.peek width) c).1.map value = (p.peek width value).1 ∧
      (exec (Reading.peek width) c).2.Shows (p.peek width value).2 := by
  rw [Reading.exec_peek, PlainCursor.peek, h.peeked, h.ahead, h.fault]
  have hf := h.filled (p.peeked + width)
  by_cases hw : p.ahead.length < p.peeked + width
  · rw [if_pos hw, if_neg (Nat.not_le_of_lt hw)]
    exact ⟨rfl, hf⟩
  · rw [if_neg hw, if_pos (Nat.le_of_not_lt hw)]
    have hbuffer : ¬(c.filled (p.peeked + width)).buffer.length < p.peeked + width := by
      rwa [length_buffer_filled, h.ahead]
    exact ⟨rfl, hf.ahead, h.pc, rfl, h.failure, Nat.le_of_not_lt hbuffer⟩

-- What is committed is in the buffer, so that nothing of the source is passed over.
theorem commit (h : c.Shows p) : (exec Reading.commit c).2.Shows p.commit.2 where
  ahead := by
    show c.buffer.drop c.peeked ++ c.source.bytes = p.bytes.drop (p.pc + p.peeked)
    rw [← List.drop_append_of_le_length h.buffered, ← List.drop_drop, ← h.peeked]
    exact congrArg (List.drop c.peeked) h.ahead
  pc := by
    show c.pc + c.peeked = p.pc + p.peeked
    rw [h.pc, h.peeked]
  peeked := rfl
  failure := h.failure
  buffered := Nat.zero_le _

theorem skip (h : c.Shows p) (count : Nat) :
    (exec (Reading.skip count) c).1 = (p.skip count).1 ∧
      (exec (Reading.skip count) c).2.Shows (p.skip count).2 := by
  have hrest : c.buffer.drop count ++ (c.filled count).source.bytes = p.ahead.drop count := by
    rw [bytes_filled, ← List.drop_append, ← h.ahead]
    rfl
  rw [Reading.exec_skip, PlainCursor.skip, h.ahead, h.failure, h.fault]
  by_cases hcount : count = 0
  · rw [if_pos hcount, if_pos hcount]
    exact ⟨rfl, h⟩
  · rw [if_neg hcount, if_neg hcount]
    dsimp only
    by_cases hfails : p.ahead.length < count ∧ p.failure.isSome
    · rw [if_pos hfails, if_pos hfails]
      refine ⟨rfl, ?_, h.pc, rfl, h.failure, Nat.zero_le _⟩
      have hlost : (p.bytes.take p.pc).drop p.pc = [] :=
        List.drop_eq_nil_of_le (List.length_take_le ..)
      rw [remaining, hrest, List.drop_eq_nil_of_le (Nat.le_of_lt hfails.1)]
      exact hlost.symm
    · rw [if_neg hfails, if_neg hfails]
      refine ⟨rfl, ?_, ?_, rfl, h.failure, Nat.zero_le _⟩
      · have hmin : p.ahead.drop count = p.ahead.drop (min count p.ahead.length) := by
          rw [List.drop_eq_drop_iff]
          omega
        rw [remaining, hrest, hmin]
        exact List.drop_drop
      · show c.pc + _ = p.pc + _
        rw [h.pc]

-- Every request is answered by what it means, and leaves the two cursors at the same place.
theorem serve (h : c.Shows p) (k : Request α) :
    (k.serve c).1 = (k.meaning p).1 ∧ (k.serve c).2.Shows (k.meaning p).2 := by
  cases k with
  | instruction =>
    rw [Request.serve, Request.reading, Reading.instruction, Reading.exec_u8]
    exact h.next 1 _
  | u8 =>
    rw [Request.serve, Request.reading, Reading.exec_u8]
    exact h.next 1 _
  | i8 =>
    rw [Request.serve, Request.reading, Reading.exec_i8]
    exact h.next 1 _
  | u16 =>
    rw [Request.serve, Request.reading, Reading.exec_u16]
    exact h.next 2 _
  | i16 =>
    rw [Request.serve, Request.reading, Reading.exec_i16]
    exact h.next 2 _
  | i32 =>
    rw [Request.serve, Request.reading, Reading.exec_i32]
    exact h.next 4 _
  | peekInstruction =>
    rw [Request.serve, Request.reading, Reading.exec_peekInstruction]
    exact h.peek 1 _
  | peekU8 =>
    rw [Request.serve, Request.reading, Reading.exec_peekU8]
    exact h.peek 1 _
  | peekU16 =>
    rw [Request.serve, Request.reading, Reading.exec_peekU16]
    exact h.peek 2 _
  | commit => exact ⟨rfl, h.commit⟩
  | skip count => exact h.skip count

end Cursor.Shows

-- What can be looked at before it is consumed.
inductive Reading.Glance : Type → Type where
  | instruction : Glance Opcode
  | u8 : Glance UInt8
  | u16 : Glance UInt16

namespace Reading.Glance

variable {α : Type}

def peek : Glance α → Request α
  | instruction => .peekInstruction
  | u8 => .peekU8
  | u16 => .peekU16

def next : Glance α → Request α
  | instruction => .instruction
  | u8 => .u8
  | u16 => .u16

end Reading.Glance

namespace Cursor

open JvmLift.Reading (Request Glance)

-- The cursor behind what was looked at.
def committed (c : Cursor) : Cursor :=
  (exec Reading.commit c).2

theorem committed_of_peeked_eq_zero {c : Cursor} (h : c.peeked = 0) : c.committed = c := by
  obtain ⟨source, buffer, peeked, pc⟩ := c
  obtain rfl : peeked = 0 := h
  rfl

section Committed

variable {c : Cursor} (h : c.peeked ≤ c.buffer.length)
include h

theorem remaining_committed : c.committed.remaining = c.remaining.drop c.peeked :=
  (List.drop_append_of_le_length h).symm

-- Looking further ahead asks the source for the bytes that consuming would ask for.
theorem filled_committed (n : Nat) :
    c.committed.filled n = (c.filled (c.peeked + n)).committed := by
  have hasked : n - c.committed.buffer.length = c.peeked + n - c.buffer.length := by
    have hb : c.committed.buffer.length = c.buffer.length - c.peeked := List.length_drop
    omega
  have hdrop (more : Bytes) : c.buffer.drop c.peeked ++ more = (c.buffer ++ more).drop c.peeked :=
    (List.drop_append_of_le_length h).symm
  rw [filled, hasked]
  exact congrArg (fun buffer => { c.committed.filled n with
    source := (c.filled (c.peeked + n)).source, buffer }) (hdrop _)

theorem peek_committed (n : Nat) :
    (exec (Reading.peek n) c).1 = (exec (Reading.next n) c.committed).1 ∧
      (exec (Reading.peek n) c).2.peeked ≤ (exec (Reading.peek n) c).2.buffer.length ∧
      (exec (Reading.next n) c.committed).2 = (exec (Reading.peek n) c).2.committed := by
  have hlength : c.committed.remaining.length < n ↔ c.remaining.length < c.peeked + n := by
    have hr : c.remaining.length = c.buffer.length + c.source.bytes.length := List.length_append
    rw [remaining_committed h, List.length_drop]
    omega
  have hbuffer := length_buffer_filled c (c.peeked + n)
  rw [Reading.exec_peek, Reading.exec_next]
  by_cases hn : c.remaining.length < c.peeked + n
  · rw [if_pos hn, if_pos (hlength.2 hn), filled_committed h]
    refine ⟨rfl, ?_, rfl⟩
    rw [buffer_filled, List.length_append]
    exact Nat.le_add_right_of_le h
  · rw [if_neg hn, if_neg (mt hlength.1 hn), advance, filled_committed h, remaining_committed h]
    have hdrop : ((c.filled (c.peeked + n)).buffer.drop c.peeked).drop n =
        (c.filled (c.peeked + n)).buffer.drop (c.peeked + n) := List.drop_drop
    have hpc : c.pc + c.peeked + n = c.pc + (c.peeked + n) := Nat.add_assoc ..
    exact ⟨rfl, Nat.le_of_not_lt (mt hbuffer.1 hn),
      congr (congrArg (Cursor.mk (c.filled (c.peeked + n)).source · 0) hdrop) hpc⟩

theorem glance_committed {α : Type} (g : Glance α) :
    (g.peek.serve c).1 = (g.next.serve c.committed).1 ∧
      (g.peek.serve c).2.peeked ≤ (g.peek.serve c).2.buffer.length ∧
      (g.next.serve c.committed).2 = (g.peek.serve c).2.committed := by
  cases g with
  | instruction =>
    obtain ⟨hanswer, hbuffered, hplace⟩ := peek_committed h 1
    simp only [Glance.peek, Glance.next, Request.serve, Request.reading, Reading.instruction,
      Reading.exec_peekInstruction, Reading.exec_u8]
    exact ⟨by rw [hanswer], hbuffered, hplace⟩
  | u8 =>
    obtain ⟨hanswer, hbuffered, hplace⟩ := peek_committed h 1
    simp only [Glance.peek, Glance.next, Request.serve, Request.reading, Reading.exec_peekU8,
      Reading.exec_u8]
    exact ⟨by rw [hanswer], hbuffered, hplace⟩
  | u16 =>
    obtain ⟨hanswer, hbuffered, hplace⟩ := peek_committed h 2
    simp only [Glance.peek, Glance.next, Request.serve, Request.reading, Reading.exec_peekU16,
      Reading.exec_u16]
    exact ⟨by rw [hanswer], hbuffered, hplace⟩

end Committed

-- Through its buffer, and whatever the source does between the bytes, a cursor answers like one
-- that has all bytes at hand. Looking and then committing is the same as consuming.
theorem refines_plain (source : Source) :
    (∀ {α : Type} (script : Script Request α),
      let ran := script.run Request.serve { source }
      let plain := script.run Request.meaning { bytes := source.bytes, failure := source.failure }
      ran.1 = plain.1 ∧ ran.2.Shows plain.2) ∧
    ∀ {α : Type} (script : Script Glance α) (c : Cursor), c.peeked = 0 →
      let looked := script.run (fun g => g.peek.serve) c
      let consumed := script.run (fun g => g.next.serve) c
      looked.1 = consumed.1 ∧ looked.2.committed = consumed.2 := by
  constructor
  · intro α script
    have hstart : Cursor.Shows { source } { bytes := source.bytes, failure := source.failure } :=
      ⟨rfl, rfl, rfl, rfl, Nat.le_refl _⟩
    apply script.run_related (R := Cursor.Shows) _ hstart
    intro β k c p h
    exact h.serve k
  · intro α script c hc
    have hstart : c.peeked ≤ c.buffer.length ∧ c = c.committed :=
      ⟨hc ▸ Nat.zero_le _, (committed_of_peeked_eq_zero hc).symm⟩
    have hstep {β : Type} (g : Glance β) {looking consuming : Cursor}
        (h : looking.peeked ≤ looking.buffer.length ∧ consuming = looking.committed) :
        (g.peek.serve looking).1 = (g.next.serve consuming).1 ∧
          (g.peek.serve looking).2.peeked ≤ (g.peek.serve looking).2.buffer.length ∧
          (g.next.serve consuming).2 = (g.peek.serve looking).2.committed := by
      obtain ⟨hbuffered, rfl⟩ := h
      exact glance_committed hbuffered g
    obtain ⟨hanswer, -, hplace⟩ := script.run_related (R := fun looking consuming : Cursor =>
      looking.peeked ≤ looking.buffer.length ∧ consuming = looking.committed) hstep hstart
    exact ⟨hanswer, hplace.symm⟩

-- Two words are looked at where the source stalls inside the first one and fails in the second.
theorem refines_plain_stalling :
    let source : Source := ⟨[.byte 0x59, .interrupted, .byte 0x03, .byte 0x10], some "boom"⟩
    let words : Script Glance (Except Fault UInt16 × Except Fault UInt16) :=
      .request .u16 fun first => .request .u16 fun second => .done (first, second)
    let looked := words.run (fun g => g.peek.serve) { source }
    let consumed := words.run (fun g => g.next.serve) { source }
    Cursor.peeked { source } = 0 ∧ looked.1 = (.ok 0x5903, .error (.unreadable "boom")) ∧
      looked.1 = consumed.1 ∧ looked.2.committed = consumed.2 := by
  intro source words
  exact ⟨rfl, rfl, (refines_plain source).2 words { source } rfl⟩

end Cursor

end JvmLift
