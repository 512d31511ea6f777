import JvmLift.Proofs.Extension
import JvmLift.Proofs.Fragment.Steps

namespace JvmLift

variable {α : Type}

namespace Cursor

-- Two cursors at the same place, whatever was pulled or looked at.
structure Alike (c d : Cursor) : Prop where
  remaining : c.remaining = d.remaining
  pc : c.pc = d.pc

-- Nothing was looked at since a byte was consumed last.
structure Poised (c d : Cursor) : Prop extends Alike c d where
  left : c.peeked = 0
  right : d.peeked = 0

variable {c d : Cursor}

theorem Alike.symm (h : c.Alike d) : d.Alike c :=
  ⟨h.remaining.symm, h.pc.symm⟩

theorem alike_fresh (c : Cursor) : c.Alike (.fresh c.remaining c.pc) :=
  ⟨(remaining_fresh ..).symm, rfl⟩

theorem Alike.advance (h : c.Alike d) (n : Nat) : (c.advance n).Poised (d.advance n) where
  remaining := by rw [remaining_advance, remaining_advance, h.remaining]
  pc := congrArg (· + n) h.pc
  left := rfl
  right := rfl

end Cursor

namespace Reading

variable {c d : Cursor}

-- Bytes that are there are there for every cursor at the same place.
theorem next_alike {n : Nat} {bytes : Bytes} {after : Cursor} (hd : d.Alike c)
    (h : exec (next n) c = (.ok bytes, after)) :
    ∃ behind, exec (next n) d = (.ok bytes, behind) ∧ behind.Poised after := by
  rw [exec_next] at h
  split at h
  · cases (Prod.mk.inj h).1
  · rename_i hn
    obtain ⟨hbytes, rfl⟩ := Prod.mk.inj h
    refine ⟨d.advance n, ?_, hd.advance n⟩
    rw [exec_next, hd.remaining, if_neg hn, Except.ok.inj hbytes]

end Reading

-- The state with another cursor.
def State.at (s : State) (cursor : Cursor) : State :=
  { s with cursor }

namespace Operation

variable {s t : State} {v : α} {c : Cursor}

theorem poised_of_not_reading (op : Operation α) (hr : op.isReading = false)
    (hc : c.Poised s.cursor) (h : exec op.action s = (.ok v, t)) :
    ∃ d, exec op.action (s.at c) = (.ok v, t.at d) ∧ d.Poised t.cursor := by
  have hcursor := cursor_exec op hr s
  rw [h] at hcursor
  refine ⟨c, ?_, hcursor ▸ hc⟩
  rw [State.at, exec_with_cursor op hr, h]
  rfl

theorem poised (op : Operation α) (hs : op.isStrict) (hc : c.Poised s.cursor)
    (h : exec op.action s = (.ok v, t)) :
    ∃ d, exec op.action (s.at c) = (.ok v, t.at d) ∧ d.Poised t.cursor := by
  cases op with
  | nextInstruction =>
    rw [action, Action.exec_nextInstruction, Reading.instruction, Reading.exec_u8] at h
    rcases hn : exec (Reading.next 1) s.cursor with ⟨f | bytes, after⟩
    all_goals rw [hn] at h
    · cases (Prod.mk.inj h).1
    · obtain ⟨hv, rfl⟩ := Prod.mk.inj h
      obtain ⟨d, hd, hplace⟩ := Reading.next_alike hc.toAlike hn
      refine ⟨d, ?_, hplace⟩
      have hpc : (s.at c).pc = s.pc := hc.pc
      rw [action, Action.exec_nextInstruction, Reading.instruction, Reading.exec_u8, State.at, hd]
      exact Prod.ext hv (congrArg (fun pc => { s with cursor := d, instructionPc := pc }) hpc)
  | next count =>
    rw [action, Action.exec_read] at h
    obtain ⟨hv, rfl⟩ := Prod.mk.inj h
    obtain ⟨d, hd, hplace⟩ := Reading.next_alike hc.toAlike (Prod.ext hv rfl)
    refine ⟨d, ?_, hplace⟩
    rw [action, Action.exec_read, State.at, hd]
    rfl
  | commit =>
    obtain ⟨hv, rfl⟩ := Prod.mk.inj h
    have hstay {e : Cursor} (he : e.peeked = 0) : (exec Reading.commit e).2 = e := by
      obtain ⟨source, buffer, peeked, pc⟩ := e
      obtain rfl : peeked = 0 := he
      rfl
    refine ⟨(exec Reading.commit c).2, Prod.ext hv rfl, ?_⟩
    show Cursor.Poised _ (exec Reading.commit s.cursor).2
    rw [hstay hc.left, hstay hc.right]
    exact hc
  | peek | skip => cases hs
  | push | enlist | abort | pop | popMany | insert | reduce | reduceAll | removeStatement
  | removeLastStatement | replaceStatement => exact poised_of_not_reading _ rfl hc h

end Operation

namespace Action.Composed

variable {a : Action α} {s t : State} {v : α} {c : Cursor}

-- What does not look ahead does the same wherever its bytes come from.
theorem poised (ha : Composed False a) (hc : c.Poised s.cursor) (h : exec a s = (.ok v, t)) :
    ∃ d, exec a (s.at c) = (.ok v, t.at d) ∧ d.Poised t.cursor := by
  induction ha generalizing s t c with
  | pure w =>
    obtain ⟨hv, rfl⟩ := Prod.mk.inj h
    exact ⟨c, Prod.ext hv rfl, hc⟩
  | throw f => cases (Prod.mk.inj h).1
  | bind _ _ iha ihf =>
    obtain ⟨w, u, hu, ht⟩ := exec_bind_eq_ok.1 h
    obtain ⟨d, hd, hmid⟩ := iha hc hu
    obtain ⟨e, he, hplace⟩ := ihf w hmid ht
    exact ⟨e, exec_bind_eq_ok.2 ⟨w, u.at d, hd, he⟩, hplace⟩
  | @inspect _ f blind _ ih =>
    rw [exec_bind_of_ok (exec_get s)] at h
    obtain ⟨d, hd, hplace⟩ := ih s hc h
    refine ⟨d, ?_, hplace⟩
    rw [exec_bind_of_ok (exec_get _), State.at, blind s c hc.pc]
    exact hd
  | operate op hs => exact op.poised hs hc h
  | lookAhead hahead => exact hahead.elim

end Action.Composed

namespace Registry

variable {s t : State} {head : Opcode} {rest : Bytes} {c : Cursor}

theorem fetch_at (hc : c.Alike s.cursor) : (s.at c).fetch = s.fetch.at (c.advance 1) := by
  have hpc : (s.at c).pc = s.pc := hc.pc
  rw [State.fetch, hpc]
  rfl

-- Apart from the copy of a new array, an instruction does the same wherever its bytes come from.
theorem Executes.alike (h : core.Executes s t) (hcons : s.cursor.remaining = head :: rest)
    (hc : c.Alike s.cursor) (hcopy : head = Opcode.dup → ¬s.topIs .newArray) :
    ∃ d, core.Executes (s.at c) (t.at d) ∧ d.Alike t.cursor := by
  obtain ⟨hrunning, code, u, hu, ht⟩ := h
  rw [exec_nextInstruction_of_cons hcons] at hu
  obtain ⟨hcode, rfl⟩ := Prod.mk.inj hu
  obtain rfl := Except.ok.inj hcode
  obtain ⟨a, ha, heq⟩ := step_core_blind (s := s.fetch) head fun h => hcopy h.1 h.2
  obtain ⟨d, hd, hplace⟩ := ha.poised (hc.advance 1) ((heq s.fetch.cursor).symm.trans ht)
  refine ⟨d, executes_of_cons hrunning (hc.remaining.trans hcons) ?_, hplace.toAlike⟩
  rw [fetch_at hc]
  exact (heq _).trans hd

end Registry

end JvmLift
