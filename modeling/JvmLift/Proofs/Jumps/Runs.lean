import JvmLift.Proofs.Jumps

namespace JvmLift

open JvmLift.Action (Keeps)

section Rules

variable {code : Bytes}

-- A rule after which every jump leads where the code says, if it is run at its instruction.
def Rule.LandsAt (code : Bytes) (head : Opcode) (rule : Rule) : Prop :=
  ∀ s t : State, s.Landing code → code.drop s.instructionPc = head :: s.cursor.remaining →
    exec (rule.run head) s = (.ok ⟨⟩, t) → t.Landing code

theorem Rule.Keeps.landsAt {rule : Rule} (h : rule.Keeps (State.Landing code)) (head : Opcode) :
    rule.LandsAt code head := by
  intro s t hs _ ht
  have hkept := (h head).state s hs
  rwa [ht] at hkept

namespace Instruction

open Declaration

namespace Jump

section Making

variable {s t : State}

-- A value that is read is that of the bytes in front.
theorem read_eq_ok {α : Type} {r : Reading α} {count : Nat} {value : Bytes → α}
    (hr : ∀ c, exec r c =
      ((exec (Reading.next count) c).1.map value, (exec (Reading.next count) c).2))
    {v : α} (h : exec (Action.read r) s = (.ok v, t)) :
    count ≤ s.cursor.remaining.length ∧ v = value (s.cursor.remaining.take count) ∧
      ∃ c, t = { s with cursor := c } := by
  rw [Action.exec_read, hr, Reading.exec_next] at h
  split at h
  · cases (Prod.mk.inj h).1
  · obtain ⟨hv, rfl⟩ := Prod.mk.inj h
    exact ⟨by omega, (Except.ok.inj hv).symm, _, rfl⟩

theorem requireTarget_eq_ok {offset : Int} {pc : Nat}
    (h : exec (requireTarget offset) s = (.ok pc, t)) :
    s.instructionPc + offset = pc ∧ t = s := by
  rw [requireTarget, exec_bind_of_ok (exec_get s), target] at h
  by_cases hneg : s.instructionPc + offset < 0
  · simp only [hneg, if_true] at h
    cases (Prod.mk.inj h).1
  · simp only [hneg, if_false] at h
    obtain ⟨hpc, rfl⟩ := Prod.mk.inj h
    obtain rfl := Except.ok.inj hpc
    exact ⟨by omega, rfl⟩

-- A jump that the code has at the current position may become a statement.
theorem landing_enlist {e : Element} {target : Nat} (hs : s.Landing code)
    (ht : e.target? = some target) (hstamp : e.stamp = {})
    (hat : Opcode.jumpAt? code s.instructionPc = some (e.kind, (target : Int)))
    (hop : ∀ left op right target, e.shape = .branch left op right target →
      op.inverse?.isSome) : (s.enlist e).Landing code := by
  obtain ⟨shape, stamp⟩ := e
  cases hstamp
  refine hs.of_fits ⟨hs.stack, List.forall_mem_cons.2 ⟨⟨fun other hother => ?_, hop⟩,
    hs.statements⟩⟩ rfl rfl
  obtain rfl := Option.some.inj (ht.symm.trans hother)
  exact ⟨s.instructionPc, rfl, hat⟩

variable {head : Opcode}

theorem landing_branch {left right : Element} {op : BinaryOp} (hs : s.Landing code)
    (hat : code.drop s.instructionPc = head :: s.cursor.remaining)
    (hhead : head ∈ Opcode.conditional) (hop : op.inverse?.isSome)
    (h : exec (branch left op right) s = (.ok ⟨⟩, t)) : t.Landing code := by
  rw [branch, exec_bind_eq_ok] at h
  obtain ⟨offset, u, hread, h⟩ := h
  obtain ⟨hlen, rfl, c, rfl⟩ := read_eq_ok Reading.exec_i16 hread
  rw [exec_bind_eq_ok] at h
  obtain ⟨target, u, htarget, h⟩ := h
  obtain ⟨hpc, rfl⟩ := requireTarget_eq_ok htarget
  obtain ⟨-, rfl⟩ := Prod.mk.inj h
  refine landing_enlist (Keeps.move s c hs) rfl rfl ?_ ?_
  · rw [← hpc, Opcode.jumpAt?, hat, Opcode.distance?_conditional hhead hlen]
    rfl
  · rintro _ _ _ _ ⟨⟩
    exact hop

theorem landing_jump {offset : Int} (hs : s.Landing code)
    (hat : Opcode.jumpAt? code s.instructionPc = some (.jump, s.instructionPc + offset))
    (h : exec (jump offset) s = (.ok ⟨⟩, t)) : t.Landing code := by
  rw [jump, exec_bind_eq_ok] at h
  obtain ⟨target, u, htarget, h⟩ := h
  obtain ⟨hpc, rfl⟩ := requireTarget_eq_ok htarget
  rw [exec_bind_of_ok (exec_get _)] at h
  split at h
  · obtain ⟨-, rfl⟩ := Prod.mk.inj h
    exact hs.of_fits ⟨hs.stack, hs.statements⟩ rfl rfl
  · obtain ⟨-, rfl⟩ := Prod.mk.inj h
    refine landing_enlist hs rfl rfl (hpc ▸ hat) ?_
    rintro _ _ _ _ ⟨⟩

theorem inverse?_comparison (position : Opcode) : (comparison position).inverse?.isSome := by
  have hall : ∀ op ∈ comparisons, op.inverse?.isSome := by decide
  rw [comparison, List.getD_eq_getElem?_getD]
  cases hop : comparisons[position.toNat]? with
  | none => rfl
  | some op => exact hall op (List.mem_of_getElem? hop)

theorem landing_goto (hs : s.Landing code)
    (hat : code.drop s.instructionPc = Opcode.goto :: s.cursor.remaining)
    (h : exec (do jump (← Action.read Reading.i16).toInt) s = (.ok ⟨⟩, t)) : t.Landing code := by
  rw [exec_bind_eq_ok] at h
  obtain ⟨offset, u, hread, h⟩ := h
  obtain ⟨hlen, rfl, c, rfl⟩ := read_eq_ok Reading.exec_i16 hread
  refine landing_jump (Keeps.move s c hs) ?_ h
  rw [Opcode.jumpAt?, hat, Opcode.distance?_goto hlen]
  rfl

theorem landing_gotoW (hs : s.Landing code)
    (hat : code.drop s.instructionPc = Opcode.gotoW :: s.cursor.remaining)
    (h : exec (do jump (← Action.read Reading.i32).toInt) s = (.ok ⟨⟩, t)) : t.Landing code := by
  rw [exec_bind_eq_ok] at h
  obtain ⟨offset, u, hread, h⟩ := h
  obtain ⟨hlen, rfl, c, rfl⟩ := read_eq_ok Reading.exec_i32 hread
  refine landing_jump (Keeps.move s c hs) ?_ h
  rw [Opcode.jumpAt?, hat, Opcode.distance?_gotoW hlen]
  rfl

theorem landing_leaving {top : Entry} {below : List Entry} (hs : s.Landing code)
    (hstack : s.stack = top :: below) : (s.leaving below).Landing code :=
  hs.of_fits ⟨(List.forall_mem_cons.1 (hstack ▸ hs.stack)).2, hs.statements⟩ rfl rfl

-- A conditional jump that takes one operand from the stack.
theorem landing_branch_pop {op : BinaryOp} {right : Element} (hs : s.Landing code)
    (hat : code.drop s.instructionPc = head :: s.cursor.remaining)
    (hhead : head ∈ Opcode.conditional) (hop : op.inverse?.isSome)
    (h : exec (do branch (← Action.pop) op right) s = (.ok ⟨⟩, t)) : t.Landing code := by
  rw [exec_bind_eq_ok] at h
  obtain ⟨left, u, hpop, h⟩ := h
  obtain ⟨top, below, hstack, -, rfl⟩ := Action.pop_eq_ok hpop
  have hleaving := landing_leaving hs hstack
  exact landing_branch hleaving hat hhead hop h

end Making

-- Only the jumps themselves make any, and those lead where they say.
theorem lands : ∀ d ∈ rules, d.rule.Keeps (State.Landing code) ∨
    d.stage = .primary ∧ ∀ head ∈ d.codes, d.rule.LandsAt code head := by
  simp only [rules, List.forall_mem_cons]
  refine ⟨.inl fun _ => Keeps.reduceAll.discard.bind fun _ _ => .enlist (.of_isOther rfl),
    .inl fun _ => Keeps.pop.bind fun _ _ => .require (.enlist (.of_isOther rfl)),
    .inr ⟨rfl, ?goto⟩, .inr ⟨rfl, ?gotoW⟩,
    .inl fun _ => Keeps.removeLastStatement.discard.bind fun _ _ => .abort,
    .inr ⟨rfl, ?zero⟩, .inr ⟨rfl, ?two⟩, .inr ⟨rfl, ?null⟩,
    .inl fun _ => Keeps.pop.bind fun _ _ => .enlist (.of_isOther rfl), List.forall_mem_nil _⟩
  case goto =>
    intro head hhead s t hs hat h
    obtain rfl := List.mem_singleton.1 hhead
    exact landing_goto hs hat h
  case gotoW =>
    intro head hhead s t hs hat h
    obtain rfl := List.mem_singleton.1 hhead
    exact landing_gotoW hs hat h
  case zero =>
    intro head hhead s t hs hat h
    have hconditional : head ∈ Opcode.conditional := by
      obtain ⟨hfirst, hlast⟩ := Opcode.mem_range.1 hhead
      exact List.mem_append_left _ (Opcode.mem_range.2 ⟨hfirst, UInt8.le_trans hlast (by decide)⟩)
    exact landing_branch_pop hs hat hconditional (inverse?_comparison _) h
  case two =>
    intro head hhead s t hs hat h
    have hconditional : head ∈ Opcode.conditional := by
      obtain ⟨hfirst, hlast⟩ := Opcode.mem_range.1 hhead
      exact List.mem_append_left _ (Opcode.mem_range.2 ⟨UInt8.le_trans (by decide) hfirst, hlast⟩)
    obtain ⟨right, u, hpop, h⟩ := exec_bind_eq_ok.1 h
    obtain ⟨top, below, hstack, -, rfl⟩ := Action.pop_eq_ok hpop
    refine landing_branch_pop (landing_leaving hs hstack) hat hconditional ?_ h
    split
    · rfl
    · split
      · rfl
      · exact inverse?_comparison _
  case null =>
    intro head hhead s t hs hat h
    refine landing_branch_pop hs hat (List.mem_append_right _ hhead) ?_ h
    split <;> rfl

end Jump

theorem lands : ∀ d ∈ rules, d.rule.Keeps (State.Landing code) ∨
    d.stage = .primary ∧ ∀ head ∈ d.codes, d.rule.LandsAt code head := by
  intro d hd
  rcases keeps d hd with hjump | hkeeps
  · exact Jump.lands d hjump
  · exact .inl hkeeps

end Instruction

end Rules

-- The bytes that a run has not read yet are the end of a code.
structure State.Reads (code : Bytes) (s : State) : Prop where
  ends : s.cursor.EndsAt code.length
  suffix : s.cursor.remaining <:+ code

theorem State.Reads.remaining {code : Bytes} {s : State} (h : s.Reads code) :
    s.cursor.remaining = code.drop s.pc := by
  obtain ⟨front, hfront⟩ := h.suffix
  have hlen := congrArg List.length hfront
  have hreach := h.ends.reach
  rw [List.length_append] at hlen
  have hpc : s.pc = front.length := by
    show s.cursor.pc = front.length
    omega
  rw [hpc, ← hfront, List.drop_left]

-- What remains begins with the instruction that the cursor is at.
theorem State.Reads.remaining_of_getElem? {code : Bytes} {s : State} {head : Opcode}
    (h : s.Reads code) (hcode : code[s.pc]? = some head) :
    s.cursor.remaining = head :: code.drop (s.pc + 1) := by
  obtain ⟨hlt, hget⟩ := List.getElem?_eq_some_iff.1 hcode
  rw [h.remaining, List.drop_eq_getElem_cons hlt, hget]

theorem State.Reads.getElem?_of_remaining {code rest : Bytes} {s : State} {head : Opcode}
    (h : s.Reads code) (hcons : s.cursor.remaining = head :: rest) :
    code[s.pc]? = some head := by
  rw [← List.head?_drop, ← h.remaining, hcons]
  rfl

namespace Registry

variable {code : Bytes} {s t : State} {head : Opcode}

theorem landsAt_core : ∀ rule ∈ core.rules .primary head, rule.LandsAt code head := by
  intro rule hr
  obtain ⟨d, hd, rfl, -, hhead⟩ := mem_core hr
  rcases Instruction.lands d hd with h | ⟨-, h⟩
  · exact h.landsAt head
  · exact h head hhead

theorem lands_corrective_core : ∀ rule ∈ core.rules .corrective head,
    rule.Keeps (State.Landing code) := by
  intro rule hr
  obtain ⟨d, hd, rfl, hstage, -⟩ := mem_core hr
  rcases Instruction.lands d hd with h | ⟨hprimary, -⟩
  · exact h
  · rw [hprimary] at hstage
    cases hstage

theorem reads_start (m : Method) (code : Bytes) (start : Nat) :
    State.Reads code (.start m (.behind code start)) where
  ends := by
    have hend := endsAt_behind code start
    have hlen : min start code.length + (code.drop start).length = code.length := by
      rw [List.length_drop]
      omega
    rwa [hlen] at hend
  suffix := by
    show (Cursor.behind code start).remaining <:+ code
    rw [Cursor.behind_eq, Cursor.remaining, Source.bytes_ofBytes]
    exact List.drop_suffix start code

theorem Executes.reads (h : core.Executes s t) (hs : s.Reads code) : t.Reads code where
  ends := (h.advances hs.ends).2
  suffix := by
    obtain ⟨head, rest, -, ht⟩ := h.fetched hs.ends
    have hsuffix := (composed_step_core head).remaining_suffix s.fetch
    rw [ht] at hsuffix
    refine (hsuffix.trans ?_).trans hs.suffix
    show (s.cursor.advance 1).remaining <:+ _
    rw [Cursor.remaining_advance]
    exact List.drop_suffix 1 _

-- An instruction makes no jump but the one that it is.
theorem Executes.landing (h : core.Executes s t) (hs : s.Landing code) (hreads : s.Reads code) :
    t.Landing code := by
  obtain ⟨head, rest, hcons, ht⟩ := h.fetched hreads.ends
  have hfetch : s.fetch.Landing code := ⟨⟨hs.stack, hs.statements⟩, trivial⟩
  have hdrop : code.drop s.fetch.instructionPc = head :: s.fetch.cursor.remaining := by
    have hrest : s.fetch.cursor.remaining = rest := s.remaining_fetch hcons
    rw [hrest, ← hcons, hreads.remaining]
    rfl
  cases hp : core.primary? s.fetch head with
  | none =>
    rw [step, rules_advisory_core] at ht
    simp [runAll, exec_bind, hp] at ht
  | some rule =>
    rw [exec_step_core hp, exec_bind_eq_ok] at ht
    obtain ⟨⟨⟩, u, hrun, ht⟩ := ht
    have hu := landsAt_core rule (List.mem_of_find?_eq_some hp) _ _ hfetch hdrop hrun
    have hcorrective : ∀ rule ∈ core.rules .corrective head,
        rule.Keeps (State.Landing code) := lands_corrective_core
    have hkept := (keeps_runAll head hcorrective).state u hu
    rwa [ht] at hkept

-- Wherever a run has come to, every jump among the statements leads where the instruction does
-- that has made it.
theorem Runs.landing {m : Method} {start : Nat}
    (h : core.Runs (.start m (.behind code start)) s) : s.Landing code ∧ s.Reads code := by
  induction h with
  | refl => exact ⟨⟨Invariant.fits_start m _, trivial⟩, reads_start m code start⟩
  | tail _ he ih => exact ⟨he.landing ih.1 ih.2, he.reads ih.2⟩

end Registry

end JvmLift
