import JvmLift.Proofs.Conditions
import JvmLift.Proofs.Jumps.Fold
import JvmLift.Proofs.Leaving

namespace JvmLift

namespace Opcode

-- The code that puts a one on the stack unless a conditional jump is taken, and otherwise a zero.
def choice (head : Opcode) : Bytes :=
  [head, 0, 7, iconst0 + 1, goto, 0, 4, iconst0]

section Conditions

variable {head : Opcode} {compared : Compared} {op : BinaryOp}

theorem conditional_of_conditions (h : (head, compared, op) ∈ conditions) :
    head ∈ conditional ∧ head ≠ iconst0 ∧ head ≠ iconst0 + 1 ∧ head ≠ goto ∧
      conditions.lookup head = some (compared, op) := by
  have hall : ∀ entry ∈ conditions, entry.1 ∈ conditional ∧ entry.1 ≠ iconst0 ∧
      entry.1 ≠ iconst0 + 1 ∧ entry.1 ≠ goto ∧ conditions.lookup entry.1 = some entry.2 := by decide
  exact hall _ h

end Conditions

section Choice

variable {head : Opcode} {code : Bytes} {pc : Nat}

theorem drop_choice {after : Bytes} (h : choice head ++ after = code.drop pc) (n : Nat) :
    code.drop (pc + n) = (choice head ++ after).drop n := by
  rw [← List.drop_drop, h]

theorem getElem?_choice (h : choice head <+: code.drop pc) {n : Nat} (hn : n < 8) :
    code[pc + n]? = (choice head)[n]? := by
  obtain ⟨after, hafter⟩ := h
  rw [← List.getElem?_drop, ← hafter, List.getElem?_append_left hn]

-- The conditional jump leads to the zero and the other one behind it.
theorem jumpAt?_choice_branch (h : choice head <+: code.drop pc) (hhead : head ∈ conditional) :
    jumpAt? code pc = some (.branch, ((pc + 7 : Nat) : Int)) := by
  obtain ⟨after, hafter⟩ := h
  have hlen : 2 ≤ ((choice head ++ after).drop 1).length := by simp [choice]
  rw [jumpAt?, ← hafter]
  exact congrArg (Option.map _) (distance?_conditional hhead hlen)

theorem jumpAt?_choice_goto (h : choice head <+: code.drop pc) :
    jumpAt? code (pc + 4) = some (.jump, ((pc + 8 : Nat) : Int)) := by
  obtain ⟨after, hafter⟩ := h
  have hlen : 2 ≤ ((choice head ++ after).drop 5).length := by simp [choice]
  rw [jumpAt?, drop_choice hafter]
  refine (congrArg (Option.map _) (distance?_goto hlen)).trans ?_
  have htarget : ((pc + 4 : Nat) : Int) + (4 : Int16).toInt = ((pc + 8 : Nat) : Int) := by
    show ((pc + 4 : Nat) : Int) + 4 = _
    omega
  exact congrArg (fun target => some (Kind.jump, target)) htarget

end Choice

end Opcode

namespace Machine

open Opcode

variable {F : Type} {ν : Valuation F} {code : Bytes} {pc : Nat} {stack rest : List (Value F)}
  {head : Opcode} {compared : Compared} {op : BinaryOp} {taken : Bool}

theorem step?_condition (hhead : (head, compared, op) ∈ conditions) {target : Nat}
    (hcode : code[pc]? = some head) (hjump : jumpAt? code pc = some (.branch, (target : Int)))
    (hdecide : ν.decide? compared op stack = some (taken, rest)) :
    step? ν code ⟨pc, stack⟩ = some ⟨if taken then target else pc + 3, rest⟩ := by
  obtain ⟨-, hzero, hone, hgoto, hlookup⟩ := conditional_of_conditions hhead
  simp [step?, hcode, hzero, hone, hgoto, hlookup, hdecide, hjump]

theorem step?_iconst0 (hcode : code[pc]? = some iconst0) :
    step? ν code ⟨pc, stack⟩ = some ⟨pc + 1, .int 0 :: stack⟩ := by
  simp [step?, hcode]

theorem step?_iconst1 (hcode : code[pc]? = some (iconst0 + 1)) :
    step? ν code ⟨pc, stack⟩ = some ⟨pc + 1, .int 1 :: stack⟩ := by
  have hne : iconst0 + 1 ≠ iconst0 := by decide
  simp [step?, hcode, hne]

theorem step?_goto {target : Nat} (hcode : code[pc]? = some goto)
    (hjump : jumpAt? code pc = some (.jump, (target : Int))) :
    step? ν code ⟨pc, stack⟩ = some ⟨target, stack⟩ := by
  have hne : goto ≠ iconst0 ∧ goto ≠ iconst0 + 1 := by decide
  simp [step?, hcode, hne, hjump]

theorem step?_compare {a b : Value F} {value : Int32} (hhead : head ∈ range lcmp dcmpg)
    (hcode : code[pc]? = some head) (hvalue : ν.threeWay? head a b = some value) :
    step? ν code ⟨pc, b :: a :: rest⟩ = some ⟨pc + 1, .int value :: rest⟩ := by
  have hall : ∀ head ∈ range lcmp dcmpg, head ≠ iconst0 ∧ head ≠ iconst0 + 1 ∧ head ≠ goto ∧
      conditions.lookup head = none :=
    List.forall_iff_forall_mem.1 (by decide)
  obtain ⟨hzero, hone, hgoto, hlookup⟩ := hall head hhead
  simp [step?, hcode, hzero, hone, hgoto, hlookup, hvalue]

-- The machine leaves a one exactly if the jump is not taken.
theorem runs_choice (hhead : (head, compared, op) ∈ conditions)
    (hcode : choice head <+: code.drop pc)
    (hdecide : ν.decide? compared op stack = some (taken, rest)) :
    Runs ν code ⟨pc, stack⟩ ⟨pc + 8, .int (if taken then 0 else 1) :: rest⟩ := by
  have hbranch := jumpAt?_choice_branch hcode (conditional_of_conditions hhead).1
  have hfirst := step?_condition hhead (getElem?_choice hcode (n := 0) (by decide)) hbranch hdecide
  cases taken with
  | true => exact .head hfirst (.single (step?_iconst0 (getElem?_choice hcode (by decide))))
  | false =>
    have hone := getElem?_choice hcode (n := 3) (by decide)
    have hgoto := getElem?_choice hcode (n := 4) (by decide)
    exact .head hfirst (.head (step?_iconst1 hone)
      (.single (step?_goto hgoto (jumpAt?_choice_goto hcode))))

end Machine

-- The operands on top of a symbolic stack that a conditional jump compares, with what it compares
-- them with if it takes one only.
inductive Operands : Compared → List Entry → Element → Element → List Entry → Prop where
  | zero (e : Entry) (below : List Entry) : Operands .zero (e :: below) e.element (.int 0) below
  | null (e : Entry) (below : List Entry) : Operands .null (e :: below) e.element .null below
  | ints (right left : Entry) (below : List Entry) :
    Operands .ints (right :: left :: below) left.element right.element below
  | references (right left : Entry) (below : List Entry) :
    Operands .references (right :: left :: below) left.element right.element below

theorem Operands.exists_left {compared : Compared} {stack below : List Entry} {left right : Element}
    (h : Operands compared stack left right below) : ∃ e ∈ stack, e.element = left := by
  cases h with
  | zero e | null e => exact ⟨e, List.mem_cons_self .., rfl⟩
  | ints f e | references f e => exact ⟨e, List.mem_cons_of_mem f (List.mem_cons_self ..), rfl⟩

namespace Valuation

variable {F : Type} {ν : Valuation F} {compared : Compared} {op : BinaryOp} {stack : List Entry}
  {taken : Bool} {rest : List (Value F)}

theorem readAll_eq_cons {value : Value F} (h : ν.readAll stack = value :: rest) :
    ∃ e below, stack = e :: below ∧ ν.read e.element = value ∧ ν.readAll below = rest := by
  obtain ⟨e, below, rfl, hvalue, hbelow⟩ := List.map_eq_cons_iff.1 h
  exact ⟨e, below, rfl, hvalue, hbelow⟩

-- Where the machine can tell whether a jump is taken, the operands are there, and it has compared
-- their values.
theorem exists_operands_of_decide?
    (h : ν.decide? compared op (ν.readAll stack) = some (taken, rest))
    (hop : compared = .null ∨ compared = .references → op = .eq ∨ op = .ne) :
    ∃ left right below, Operands compared stack left right below ∧ rest = ν.readAll below ∧
      ν.Comparable left op right ∧
      op.accepts? (ν.compared (ν.read left) (ν.read right)) = some taken := by
  obtain ⟨⟨a, b, _⟩, hvalues, hfound⟩ := Option.bind_eq_some_iff.1 h
  obtain ⟨_, htaken, rfl, rfl⟩ := Option.map_eq_some_iff.1 hfound
  unfold Compared.operands? at hvalues
  split at hvalues
  case h_1 hstack =>
    obtain ⟨e, below, rfl, ha, rfl⟩ := readAll_eq_cons hstack
    cases hvalues
    exact ⟨_, _, below, .zero e below, rfl, .inl ⟨_, 0, ha, rfl⟩, ha ▸ htaken⟩
  case h_2 hstack =>
    obtain ⟨e, below, rfl, ha, rfl⟩ := readAll_eq_cons hstack
    cases hvalues
    exact ⟨_, _, below, .null e below, rfl, .inr ⟨hop (.inl rfl), _, none, ha, rfl⟩, ha ▸ htaken⟩
  case h_3 hstack =>
    obtain ⟨f, more, rfl, hb, hmore⟩ := readAll_eq_cons hstack
    obtain ⟨e, below, rfl, ha, rfl⟩ := readAll_eq_cons hmore
    cases hvalues
    exact ⟨_, _, below, .ints f e below, rfl, .inl ⟨_, _, ha, hb⟩, ha ▸ hb ▸ htaken⟩
  case h_4 hstack =>
    obtain ⟨f, more, rfl, hb, hmore⟩ := readAll_eq_cons hstack
    obtain ⟨e, below, rfl, ha, rfl⟩ := readAll_eq_cons hmore
    cases hvalues
    exact ⟨_, _, below, .references f e below, rfl, .inr ⟨hop (.inr rfl), _, _, ha, hb⟩,
      ha ▸ hb ▸ htaken⟩
  case h_5 => cases hvalues

-- A comparison whose operands stand for what an instruction compared.
theorem respects_of_threeWay? {e left right : Element} {head : Opcode} {value : Int32}
    (hshape : e.shape = .compare left right)
    (hvalue : ν.threeWay? head (ν.read left) (ν.read right) = some value)
    (hread : ν.read e = .int value) : ν.Respects e := by
  intro l r hother
  obtain ⟨rfl, rfl⟩ := Shape.compare.inj (hshape.symm.trans hother)
  exact ⟨head, value, hvalue, hread⟩

end Valuation

namespace Registry

open Instruction

variable {s : State} {code : Bytes} {head : Opcode} {compared : Compared} {op : BinaryOp}
  {left right : Element} {below : List Entry}

theorem primary?_of_conditions (hhead : (head, compared, op) ∈ Opcode.conditions) {d : Declaration}
    (hd : d ∈ Jump.rules) (hstage : d.stage = .primary) (hcode : head ∈ d.codes)
    (happlies : d.rule.applies s head) : core.primary? s head = some d.rule := by
  have hspared : ∀ entry ∈ Opcode.conditions, entry.1 ≠ Opcode.dup ∧ entry.1 ≠ Opcode.pop := by
    decide
  exact primary?_core (mem_rules_jump hd) hstage hcode (hspared _ hhead).1 (hspared _ hhead).2
    happlies

-- A conditional jump takes its operands from the stack.
theorem exec_primary_of_conditions (hhead : (head, compared, op) ∈ Opcode.conditions)
    (hoperands : Operands compared s.stack left right below) :
    ∃ rule, core.primary? s head = some rule ∧
      exec (rule.run head) s = exec (Jump.branch left op right) (s.leaving below) := by
  have hzero : ∀ entry ∈ Opcode.conditions, entry.2.1 = .zero →
      entry.1 ∈ Opcode.range Opcode.ifeq Opcode.ifle ∧
        Jump.comparison (entry.1 - Opcode.ifeq) = entry.2.2 := by decide
  have hnull : ∀ entry ∈ Opcode.conditions, entry.2.1 = .null →
      entry.1 ∈ [Opcode.ifnull, Opcode.ifnonnull] ∧
        (if entry.1 = Opcode.ifnull then .eq else .ne) = entry.2.2 := by decide
  have htwo : ∀ entry ∈ Opcode.conditions, entry.2.1 = .ints ∨ entry.2.1 = .references →
      entry.1 ∈ Opcode.range Opcode.ifIcmpeq Opcode.ifAcmpne ∧
        (if entry.1 = Opcode.ifAcmpeq then .eq
          else if entry.1 = Opcode.ifAcmpne then .ne
          else Jump.comparison (entry.1 - Opcode.ifIcmpeq)) = entry.2.2 := by decide
  generalize hstack : s.stack = stack at hoperands
  cases hoperands with
  | zero e =>
    obtain ⟨hcode, hop⟩ := hzero _ hhead rfl
    refine ⟨_, primary?_of_conditions hhead
      (List.mem_of_getElem? (rfl : Jump.rules[5]? = some _)) rfl hcode rfl, ?_⟩
    refine (exec_bind_of_ok (Action.exec_pop_of_cons hstack) _).trans ?_
    exact congrArg (fun op => exec (Jump.branch _ op _) _) hop
  | null e =>
    obtain ⟨hcode, hop⟩ := hnull _ hhead rfl
    refine ⟨_, primary?_of_conditions hhead
      (List.mem_of_getElem? (rfl : Jump.rules[7]? = some _)) rfl hcode rfl, ?_⟩
    refine (exec_bind_of_ok (Action.exec_pop_of_cons hstack) _).trans ?_
    exact congrArg (fun op => exec (Jump.branch _ op _) _) hop
  | ints f e | references f e =>
    obtain ⟨hcode, hop⟩ := htwo _ hhead (by simp)
    refine ⟨_, primary?_of_conditions hhead
      (List.mem_of_getElem? (rfl : Jump.rules[6]? = some _)) rfl hcode rfl, ?_⟩
    refine (exec_bind_of_ok (Action.exec_pop_of_cons hstack) _).trans ?_
    refine (exec_bind_of_ok (Action.exec_pop_of_cons rfl) _).trans ?_
    exact congrArg (fun op => exec (Jump.branch _ op _) _) hop

-- Nothing is corrected after an instruction that no correction is declared for.
theorem corrective_eq_nil
    (h : ∀ d ∈ Instruction.rules, d.stage = .corrective → head ∉ d.codes) :
    core.rules .corrective head = [] := by
  rw [List.eq_nil_iff_forall_not_mem]
  intro rule hr
  obtain ⟨d, hd, -, hstage, hcode⟩ := mem_core hr
  exact h d hd hstage hcode

theorem corrective_of_conditions (hhead : (head, compared, op) ∈ Opcode.conditions) :
    core.rules .corrective head = [] := by
  have hnone : ∀ d ∈ Instruction.rules, d.stage = .corrective →
      ∀ entry ∈ Opcode.conditions, entry.1 ∉ d.codes := by decide +kernel
  exact corrective_eq_nil fun d hd hstage => hnone d hd hstage _ hhead

-- The state behind a conditional jump that leads somewhere in the code.
def branched (s : State) (below : List Entry) (left : Element) (op : BinaryOp) (right : Element)
    (target : Nat) : State :=
  ({ s.fetch.leaving below with cursor := s.fetch.cursor.advance 2 } : State).enlist
    (.ofShape (.branch left op right target))

theorem executes_condition (hhead : (head, compared, op) ∈ Opcode.conditions)
    (ha : s.aborted = false) (hreads : s.Reads code)
    (hcode : Opcode.choice head <+: code.drop s.pc)
    (hoperands : Operands compared s.stack left right below) :
    core.Executes s (branched s below left op right (s.pc + 7)) := by
  obtain ⟨after, hafter⟩ := hcode
  have hcons : s.cursor.remaining = head :: (Opcode.choice head ++ after).drop 1 := by
    rw [hreads.remaining, ← hafter]
    rfl
  have hremaining : s.fetch.cursor.remaining = (Opcode.choice head ++ after).drop 1 :=
    s.remaining_fetch hcons
  have hread : exec (Action.read Reading.i16) (s.fetch.leaving below) = (.ok 7,
      { s.fetch.leaving below with cursor := s.fetch.cursor.advance 2 }) := by
    have hlen : 2 ≤ (s.fetch.leaving below).cursor.remaining.length := by
      show 2 ≤ s.fetch.cursor.remaining.length
      rw [hremaining]
      simp [Opcode.choice]
    have hbytes : (s.fetch.leaving below).cursor.remaining.take 2 = [0, 7] := by
      show s.fetch.cursor.remaining.take 2 = _
      rw [hremaining]
      rfl
    rw [exec_read_of_length_le Reading.exec_i16 hlen, hbytes]
    rfl
  have hbranch : exec (Jump.branch left op right) (s.fetch.leaving below) =
      (.ok ⟨⟩, branched s below left op right (s.pc + 7)) := by
    rw [Jump.branch, exec_bind_of_ok hread, exec_bind_of_ok (exec_requireTarget rfl)]
    rfl
  obtain ⟨rule, hrule, hexec⟩ := exec_primary_of_conditions (s := s.fetch) hhead hoperands
  refine executes_of_cons ha hcons ?_
  rw [exec_step_core hrule, corrective_of_conditions hhead]
  exact exec_bind_of_ok (hexec.trans hbranch) _

theorem executes_iconst1 (ha : s.aborted = false) (hreads : s.Reads code)
    (hcode : code[s.pc]? = some (Opcode.iconst0 + 1)) :
    core.Executes s (s.fetch.push (.int 1)) := by
  exact executes_of_cons ha (hreads.remaining_of_getElem? hcode) rfl

-- The four instructions leave the condition of the jump on the stack and nothing else.
theorem runs_choice (hhead : (head, compared, op) ∈ Opcode.conditions) (ha : s.aborted = false)
    (hreads : s.Reads code) (hcode : Opcode.choice head <+: code.drop s.pc)
    (hstart : s.startPc ≤ s.pc) (hstays : s.method.leavesFirst s.startPc (s.pc + 4) = false)
    (hoperands : Operands compared s.stack left right below) {condition : Element}
    (hcondition : (Element.ofShape (.branch left op right (s.pc + 7))).untaken = .ok condition) :
    ∃ t, core.Runs s t ∧ t.aborted = false ∧ t.pc = s.pc + 8 ∧ t.statements = s.statements ∧
      ∃ entry, t.stack = entry :: below ∧ entry.element.shape = condition.shape := by
  let chosen := branched s below left op right (s.pc + 7)
  let passed := chosen.fetch.push (.int 1)
  have hbranch : core.Executes s chosen :=
    executes_condition hhead ha hreads hcode hoperands
  have hone : core.Executes chosen passed :=
    executes_iconst1 ha (hbranch.reads hreads)
      (Opcode.getElem?_choice hcode (n := 3) (by decide))
  have hpassed := hone.reads (hbranch.reads hreads)
  -- The jump stays, so the zero finds it behind the branch and a one on the stack.
  let jumping := jumped passed (passed.fetch.cursor.advance 2) (s.pc + 8)
  have hjumping : jumping =
      ({ passed.fetch with cursor := passed.fetch.cursor.advance 2 } : State).enlist
        (.ofShape (.jump (s.pc + 8))) := by
    have hfirst : ¬passed.method.leavesFirst passed.startPc passed.pc :=
      Bool.eq_false_iff.1 hstays
    exact if_neg hfirst
  have hgoto : core.Executes passed jumping := by
    obtain ⟨after, hafter⟩ := hcode
    have hcons : passed.cursor.remaining = Opcode.goto :: 0 :: 4 :: Opcode.iconst0 :: after :=
      hpassed.remaining.trans (Opcode.drop_choice hafter 4)
    refine executes_jump_of_read Reading.exec_i16 (.inl rfl) rfl ha hcons (by simp) ?_ ?_
    · show ((s.pc + 4 : Nat) : Int) + 4 = ((s.pc + 8 : Nat) : Int)
      omega
    · exact Nat.le_trans hstart (Nat.le_add_right ..)
  have hjumped := hgoto.reads hpassed
  have hawake : jumping.aborted = false := by
    rw [hjumping]
    exact ha
  have hpc : jumping.pc = s.pc + 7 := by
    rw [hjumping]
    rfl
  have hchooses : jumping.Chooses (chosen.fetch.entry (.int 1)) below
      (State.entry { s.fetch.leaving below with cursor := s.fetch.cursor.advance 2 }
        (.ofShape (.branch left op right (s.pc + 7))))
      (State.entry { passed.fetch with cursor := passed.fetch.cursor.advance 2 }
        (.ofShape (.jump (s.pc + 8)))) s.statements := by
    rw [hjumping]
    exact ⟨rfl, rfl, rfl, rfl, rfl⟩
  have hzero : core.Executes jumping (jumping.folded below s.statements condition) := by
    have hbyte : code[jumping.pc]? = some Opcode.iconst0 :=
      hpc ▸ Opcode.getElem?_choice hcode (by decide)
    exact executes_of_cons hawake (hjumped.remaining_of_getElem? hbyte)
      (exec_step_iconst0_of_chooses hchooses hcondition)
  let emptied : State :=
    { jumping.fetch with
      stack := below, statements := s.statements, version := jumping.version + 1 }
  obtain ⟨stamp, hstamp⟩ := emptied.exists_entry_eq condition
  refine ⟨_, .head hbranch (.head hone (.head hgoto (.single hzero))), ?_, ?_, rfl, _, rfl, ?_⟩
  · exact hawake
  · exact congrArg (· + 1) hpc
  · exact (congrArg Element.shape hstamp).trans rfl

theorem startPc_le_pc {m : Method} {start : Nat}
    (hruns : core.Runs (.start m (.behind code start)) s) : s.startPc ≤ s.pc := by
  rw [hruns.method_startPc.2]
  exact (Runs.advances hruns (endsAt_behind code start)).1

theorem exec_step_compare (hhead : head ∈ Opcode.range Opcode.lcmp Opcode.dcmpg) :
    exec (core.step head) s = exec Arithmetic.compare s := by
  have hspared : ∀ head ∈ Opcode.range Opcode.lcmp Opcode.dcmpg,
      head ≠ Opcode.dup ∧ head ≠ Opcode.pop :=
    List.forall_iff_forall_mem.1 (by decide)
  have hnone : ∀ d ∈ Instruction.rules, d.stage = .corrective →
      ∀ head ∈ Opcode.range Opcode.lcmp Opcode.dcmpg, head ∉ d.codes := by decide +kernel
  have hd : Declaration.on (Opcode.range Opcode.lcmp Opcode.dcmpg) (fun _ => Arithmetic.compare) ∈
      Arithmetic.rules :=
    List.mem_append_right _ (List.mem_cons_of_mem _ (List.mem_singleton_self _))
  have hprimary := primary?_core (s := s) (mem_rules_arithmetic hd) rfl hhead (hspared _ hhead).1
    (hspared _ hhead).2 rfl
  rw [exec_step_core hprimary,
    corrective_eq_nil fun d hd hstage => hnone d hd hstage head hhead]
  show exec (Arithmetic.compare >>= fun _ => (pure ⟨⟩ : Action Unit)) s = _
  rw [exec_bind]
  rcases exec Arithmetic.compare s with ⟨f | ⟨⟨⟩⟩, t⟩ <;> rfl

-- A comparison of the two values on top of the stack is left there in their place.
theorem executes_compare {right left : Entry} (ha : s.aborted = false) (hreads : s.Reads code)
    (hhead : head ∈ Opcode.range Opcode.lcmp Opcode.dcmpg) (hcode : code[s.pc]? = some head)
    (hstack : s.stack = right :: left :: below) :
    ∃ t e, core.Executes s t ∧ t.aborted = false ∧ t.pc = s.pc + 1 ∧ t.stack = e :: below ∧
      t.statements = s.statements ∧ e.element.shape = .compare left.element right.element := by
  have hfetched : s.fetch.stack = right :: left :: below := hstack
  have hexec : exec Arithmetic.compare s.fetch = (.ok ⟨⟩,
      (s.fetch.leaving below).push (.ofShape (.compare left.element right.element))) := by
    rw [Arithmetic.compare, exec_bind_of_ok (Action.exec_pop_of_cons hfetched),
      exec_bind_of_ok (Action.exec_pop_of_cons rfl)]
    rfl
  have hexecutes := executes_of_cons (r := core) ha (hreads.remaining_of_getElem? hcode)
    ((exec_step_compare hhead).trans hexec)
  obtain ⟨stamp, hstamp⟩ := (s.fetch.leaving below).exists_entry_eq
    (.ofShape (.compare left.element right.element))
  exact ⟨_, _, hexecutes, ha, rfl, rfl, rfl, congrArg Element.shape hstamp⟩

-- A branch on a comparison has a condition for the way on which it is not taken.
theorem exists_untaken_of_conditions (hhead : (head, compared, op) ∈ Opcode.conditions)
    (left right : Element) (target : Nat) :
    ∃ condition, (Element.ofShape (.branch left op right target)).untaken = .ok condition := by
  have hall : ∀ entry ∈ Opcode.conditions, entry.2.2.inverse?.isSome := by decide
  obtain ⟨inverse, hinverse⟩ := Option.isSome_iff_exists.1 (hall _ hhead)
  simp only [Element.untaken, Element.ofShape, hinverse]
  split
  · exact ⟨_, rfl⟩
  · split <;> exact ⟨_, rfl⟩

-- Where a run comes to a conditional jump that chooses between a one and a zero, the condition that
-- is put on the stack is true exactly if the machine leaves a one, unless the jump is misled by
-- unordered operands. Then it is not.
theorem choice_holds {F : Type} (ν : Valuation F) (m : Method) (code : Bytes) (start : Nat)
    (hruns : core.Runs (.start m (.behind code start)) s) (ha : s.aborted = false)
    (hhead : (head, compared, op) ∈ Opcode.conditions)
    (hcode : Opcode.choice head <+: code.drop s.pc)
    (hstays : m.leavesFirst s.startPc (s.pc + 4) = false)
    (hrespects : ∀ e ∈ s.stack, ν.Respects e.element) {taken : Bool} {rest : List (Value F)}
    (hdecide : ν.decide? compared op (ν.readAll s.stack) = some (taken, rest)) :
    ∃ t condition below left right bit holds, core.Runs s t ∧ t.aborted = false ∧
      t.pc = s.pc + 8 ∧ t.statements = s.statements ∧ t.stack = condition :: below ∧
      Machine.Runs ν code ⟨s.pc, ν.readAll s.stack⟩ ⟨t.pc, .int bit :: ν.readAll below⟩ ∧
      (bit = 0 ∨ bit = 1) ∧ Operands compared s.stack left right below ∧
      ν.holds? condition.element = some holds ∧
      ((holds = true ↔ bit = 1) ↔ ¬ν.Misled left op right) := by
  have hequality : compared = .null ∨ compared = .references → op = .eq ∨ op = .ne := by
    have hall : ∀ entry ∈ Opcode.conditions, entry.2.1 = .null ∨ entry.2.1 = .references →
        entry.2.2 = .eq ∨ entry.2.2 = .ne := by decide
    exact hall _ hhead
  obtain ⟨left, right, below, hoperands, rfl, hcomparable, htaken⟩ :=
    ν.exists_operands_of_decide? hdecide hequality
  obtain ⟨condition, hcondition⟩ := exists_untaken_of_conditions hhead left right (s.pc + 7)
  obtain ⟨t, ht, hawake, hpc, hstatements, entry, hstack, hshape⟩ := runs_choice hhead ha
    hruns.landing.2 hcode (startPc_le_pc hruns) (hruns.method_startPc.1 ▸ hstays) hoperands
    hcondition
  have hleft : ν.Respects left := by
    obtain ⟨e, he, rfl⟩ := hoperands.exists_left
    exact hrespects e he
  obtain ⟨holds, hholds, hiff⟩ := Valuation.holds?_untaken rfl hcondition hleft hcomparable htaken
  refine ⟨t, entry, below, left, right, if taken then 0 else 1, holds, ht, hawake, hpc, hstatements,
    hstack, ?_, ?_, hoperands, ?_, ?_⟩
  · rw [hpc]
    exact Machine.runs_choice hhead hcode hdecide
  · cases taken
    · exact .inr rfl
    · exact .inl rfl
  · rw [← hholds, Valuation.holds?, Valuation.holds?, hshape]
  · rw [← hiff]
    cases taken <;> cases holds <;> decide

-- A method that compares two float parameters and returns whether the first one is not at least the
-- second one.
def comparesFloats (comparison : Opcode) : Method :=
  { className := "A", name := "m", descriptor := "(FF)Z", signature := ⟨[.float, .float], .boolean⟩
    flags := 9
    code := [Opcode.fload0, Opcode.fload0 + 1, comparison] ++ Opcode.choice 0x9c ++ [Opcode.ireturn]
    locals := [⟨"x", .float, 0, 0, 12⟩, ⟨"y", .float, 1, 0, 12⟩] }

-- Numbers of which one is not ordered. The first variable is one and the second one is that number,
-- and their comparison gives a result.
def oneAndUnordered (result : Int32) : Valuation (Option Int) where
  order a b := a.bind fun a => b.map fun b => compare a b
  value e :=
    match e.shape with
    | .localVar v => .floating (if v.slot = 0 then some 1 else none)
    | _ => .int result

-- A comparison of the two parameters, the second one of which is not ordered, puts an element on
-- the stack that stands for its result.
theorem exists_compared (comparison : Opcode) (result : Int32)
    (hhead : comparison ∈ Opcode.range Opcode.lcmp Opcode.dcmpg)
    (hresult : (oneAndUnordered result).threeWay? comparison (.floating (some 1)) (.floating none) =
      some result)
    (hwalk : (core.walk? 2 (.start (comparesFloats comparison)
        (.behind (comparesFloats comparison).code 0))).map (fun s =>
          (s.aborted, s.pc, (oneAndUnordered result).readAll s.stack)) =
      some (false, 2, [.floating none, .floating (some 1)])) :
    ∃ s e, core.Runs (.start (comparesFloats comparison)
        (.behind (comparesFloats comparison).code 0)) s ∧
      s.aborted = false ∧ s.pc = 3 ∧ s.stack = [e] ∧
      (oneAndUnordered result).read e.element = .int result ∧
      (oneAndUnordered result).Respects e.element ∧
      Machine.step? (oneAndUnordered result) (comparesFloats comparison).code
        ⟨2, [.floating none, .floating (some 1)]⟩ = some ⟨3, [.int result]⟩ := by
  obtain ⟨s, hs, hfacts⟩ := Option.map_eq_some_iff.1 hwalk
  simp only [Prod.mk.injEq] at hfacts
  obtain ⟨ha, hpc, hvalues⟩ := hfacts
  obtain ⟨right, more, hstack, hright, hmore⟩ := Valuation.readAll_eq_cons hvalues
  obtain ⟨left, below, rfl, hleft, hbelow⟩ := Valuation.readAll_eq_cons hmore
  obtain rfl := List.map_eq_nil_iff.1 hbelow
  have hcode : (comparesFloats comparison).code[2]? = some comparison := rfl
  obtain ⟨t, e, ht, hawake, htpc, he, -, hshape⟩ := executes_compare ha
    (runs_of_walk? hs).landing.2 hhead (hpc ▸ hcode) hstack
  have hread : (oneAndUnordered result).read e.element = .int result := by
    simp only [Valuation.read, oneAndUnordered, hshape]
  have hvalue : (oneAndUnordered result).threeWay? comparison
      ((oneAndUnordered result).read left.element)
      ((oneAndUnordered result).read right.element) = some result := by
    rw [hleft, hright, hresult]
  exact ⟨t, e, .tail (runs_of_walk? hs) ht, hawake, htpc.trans (congrArg (· + 1) hpc), he, hread,
    Valuation.respects_of_threeWay? hshape hvalue hread,
    Machine.step?_compare hhead hcode hresult⟩

-- A comparison that gives a one for unordered numbers makes a zero of the choice, and the condition
-- does not hold either.
theorem choice_holds_of_unordered :
    let m := comparesFloats 0x96
    let ν := oneAndUnordered 1
    ∃ s t condition bit holds, core.Runs (.start m (.behind m.code 0)) s ∧ s.pc = 3 ∧
      core.Runs s t ∧ t.stack = [condition] ∧
      Machine.Runs ν m.code ⟨2, [.floating none, .floating (some 1)]⟩ ⟨t.pc, [.int bit]⟩ ∧
      ν.holds? condition.element = some holds ∧ (holds = true ↔ bit = 1) := by
  intro m ν
  obtain ⟨s, e, hruns, ha, hpc, hstack, hread, hrespects, hcompared⟩ :=
    exists_compared 0x96 1 (by decide) (by decide) (by decide +kernel)
  have hvalues : ν.readAll s.stack = [.int 1] := by
    rw [hstack, Valuation.readAll, List.map_singleton, hread]
  have hmachine : Machine.step? ν m.code ⟨2, [.floating none, .floating (some 1)]⟩ =
      some ⟨s.pc, ν.readAll s.stack⟩ := by
    rw [hpc, hvalues]
    exact hcompared
  obtain ⟨t, condition, below, left, right, bit, holds, ht, -, -, -, hcondition, hchoice, -,
      hoperands, hholds, hexact⟩ :=
    choice_holds ν m m.code 0 hruns ha (show (0x9c, .zero, .ge) ∈ Opcode.conditions by decide)
      (by rw [hpc]; decide) (by rw [hpc, hruns.method_startPc.2]; decide)
      (by rw [hstack]; exact List.forall_mem_singleton.2 hrespects)
      (show ν.decide? .zero .ge (ν.readAll s.stack) = some (true, []) by rw [hvalues]; decide)
  obtain ⟨rfl, rfl⟩ : left = e.element ∧ below = [] := by
    rw [hstack] at hoperands
    cases hoperands
    exact ⟨rfl, rfl⟩
  refine ⟨s, t, condition, bit, holds, hruns, hpc, ht, hcondition, .head hmachine hchoice, hholds,
    hexact.2 ?_⟩
  rintro ⟨-, l, r, code, value, -, hnone, hresult, hvalue, hmisleads⟩
  obtain rfl := Value.int.inj (hread.symm.trans hvalue)
  rcases Valuation.compared_of_threeWay? hresult with ⟨order, horder, -⟩ | ⟨-, hbias⟩
  · rw [hnone] at horder
    cases horder
  · rw [Opcode.misleads, hbias] at hmisleads
    revert hmisleads
    decide

-- One that gives minus one makes a one of it, and the condition still does not hold.
theorem choice_holds_of_misled :
    let m := comparesFloats 0x95
    let ν := oneAndUnordered (-1)
    ∃ s t condition, core.Runs (.start m (.behind m.code 0)) s ∧ s.pc = 3 ∧
      core.Runs s t ∧ t.pc = 11 ∧ t.stack = [condition] ∧
      Machine.Runs ν m.code ⟨2, [.floating none, .floating (some 1)]⟩ ⟨11, [.int 1]⟩ ∧
      ν.holds? condition.element = some false := by
  intro m ν
  have hwalk : (core.walk? 3 (.start m (.behind m.code 0))).bind (fun s =>
      (core.walk? 4 s).map fun t =>
        (s.pc, t.pc, t.stack.map fun e => ν.holds? e.element)) = some (3, 11, [some false]) := by
    decide +kernel
  obtain ⟨s, hs, hmore⟩ := Option.bind_eq_some_iff.1 hwalk
  obtain ⟨t, ht, hfacts⟩ := Option.map_eq_some_iff.1 hmore
  simp only [Prod.mk.injEq] at hfacts
  obtain ⟨hpc, htpc, hstack⟩ := hfacts
  obtain ⟨condition, hcondition, hholds⟩ := List.map_eq_singleton_iff.1 hstack
  have hmachine : Machine.step? ν m.code ⟨2, [.floating none, .floating (some 1)]⟩ =
      some ⟨3, [.int (-1)]⟩ := Machine.step?_compare (by decide) rfl (by decide)
  have hchoice : Machine.Runs ν m.code ⟨3, [.int (-1)]⟩ ⟨11, [.int 1]⟩ :=
    Machine.runs_choice (show (0x9c, .zero, .ge) ∈ Opcode.conditions by decide) (by decide)
      (show ν.decide? .zero .ge [.int (-1)] = some (false, []) by decide)
  exact ⟨s, t, condition, runs_of_walk? hs, hpc, runs_of_walk? ht, htpc, hcondition,
    .head hmachine hchoice, hholds⟩

end Registry

end JvmLift
