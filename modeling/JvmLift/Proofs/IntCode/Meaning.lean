import JvmLift.Proofs.Completion
import JvmLift.Proofs.IntCode
import JvmLift.Proofs.Line
import JvmLift.Proofs.Outcomes

namespace JvmLift

-- An element has a value and keeps it for as long as some variables keep theirs.
def Element.Stands (e : Element) (slots : List UInt16) (value : Int32) (locals : Locals) : Prop :=
  ∀ other : Locals, (∀ slot ∈ slots, other slot = locals slot) → e.int? other = some value

namespace Element.Stands

variable {e left right : Element} {slots leftSlots rightSlots : List UInt16}
  {value a b : Int32} {locals : Locals}

theorem int? (h : e.Stands slots value locals) : e.int? locals = some value :=
  h locals fun _ _ => rfl

theorem isSome (h : e.Stands slots value locals) : (e.int? locals).isSome := by
  rw [h.int?]
  rfl

-- It keeps its value when another variable is written.
theorem update (h : e.Stands slots value locals) {slot : UInt16} (hslot : slot ∉ slots)
    (new : Int32) : e.Stands slots value (Function.update locals slot new) := by
  intro other hother
  apply h
  intro read hread
  have hne : read ≠ slot := fun heq => hslot (heq ▸ hread)
  rw [hother read hread, Function.update_of_ne hne]

theorem entry (h : e.Stands slots value locals) (s : State) :
    (s.entry e).element.Stands slots value locals := by
  obtain ⟨stamp, hstamp⟩ := s.exists_entry_eq e
  intro other hother
  rw [hstamp, int?_stamped]
  exact h other hother

theorem int (value : Int32) (locals : Locals) : (Element.int value).Stands [] value locals :=
  fun _ _ => rfl

theorem localVar (v : LocalRef) (locals : Locals) :
    (ofShape (.localVar v)).Stands [v.slot] (locals v.slot) locals :=
  fun _ h => congrArg some (h v.slot (List.mem_singleton_self _))

theorem binary (hl : left.Stands leftSlots a locals) (hr : right.Stands rightSlots b locals)
    {op : BinaryOp} (hop : op.int? a b = some value) (ty : JvmType) :
    (ofShape (.binary left op right ty)).Stands (leftSlots ++ rightSlots) value locals := by
  intro other hother
  have hleft := hl other fun slot h => hother slot (List.mem_append_left _ h)
  have hright := hr other fun slot h => hother slot (List.mem_append_right _ h)
  rw [int?_binary, hleft, hright]
  exact hop

theorem neg (h : e.Stands slots value locals) (ty : JvmType) :
    (ofShape (.unary e .neg ty)).Stands slots (-value) locals := by
  intro other hother
  rw [int?_neg, h other hother]
  rfl

end Element.Stands

-- The entries of the symbolic stack stand for the values on the machine's.
inductive Stacked (locals : Locals) : List Entry → List (List UInt16) → List Int32 → Prop where
  | nil : Stacked locals [] [] []
  | cons {e : Entry} {entries : List Entry} {slots : List UInt16} {reads : List (List UInt16)}
    {value : Int32} {values : List Int32} (h : e.element.Stands slots value locals)
    (hs : Stacked locals entries reads values) :
    Stacked locals (e :: entries) (slots :: reads) (value :: values)

theorem Stacked.update {locals : Locals} {entries : List Entry} {reads : List (List UInt16)}
    {values : List Int32} (h : Stacked locals entries reads values) {slot : UInt16}
    (hslot : ∀ slots ∈ reads, slot ∉ slots) (new : Int32) :
    Stacked (Function.update locals slot new) entries reads values := by
  induction h with
  | nil => exact .nil
  | cons h _ ih =>
    obtain ⟨htop, hbelow⟩ := List.forall_mem_cons.1 hslot
    exact .cons (h.update htop new) (ih hbelow)

-- A state of a run beside the machine: what waits on the symbolic stack stands for the operands,
-- and the statements that are there have brought the variables to where the machine has them.
structure State.Tracks (m : Method) (first : Locals) (s : State) (reads : List (List UInt16))
    (values : List Int32) (locals : Locals) : Prop where
  plain : s.Plain m
  awake : s.aborted = false
  stacked : Stacked locals s.stack reads values
  executed : ∀ more, Element.runInts? (s.result ++ more) first = Element.runInts? more locals

theorem State.result_enlist_restating (s : State) (e d : Element) :
    ∃ stamp, ((s.enlist e).restating d).result = s.result ++ [d.stamped stamp] := by
  refine ⟨(s.entry e).element.stamp, ?_⟩
  rw [result, restating, enlist, List.modify_zero_cons, List.reverse_cons, List.map_append]
  rfl

-- A statement that comes last is executed last.
theorem State.runInts?_enlist {s t : State} {e : Element} {replaced? : Element → Option Element}
    (hreplaced : ∀ e d, replaced? e = some d → ∀ es locals,
      Element.runInts? (d :: es) locals = Element.runInts? (e :: es) locals)
    (ht : t = s.enlist e ∨
      ∃ d, replaced? (s.entry e).element = some d ∧ t = (s.enlist e).restating d)
    {first locals : Locals}
    (hs : ∀ more, Element.runInts? (s.result ++ more) first = Element.runInts? more locals)
    (more : List Element) :
    Element.runInts? (t.result ++ more) first = Element.runInts? (e :: more) locals := by
  obtain ⟨stamp, hstamp⟩ := s.exists_entry_eq e
  rcases ht with rfl | ⟨d, hd, rfl⟩
  · rw [State.result_enlist, hstamp, List.append_assoc, hs]
    rfl
  · obtain ⟨stamp', hresult⟩ := s.result_enlist_restating e d
    rw [hstamp] at hd
    rw [hresult, List.append_assoc, hs]
    exact hreplaced _ _ hd more locals

namespace State.Tracks

open Registry Opcode Fragment

variable {m : Method} {first locals : Locals} {s t u : State} {reads : List (List UInt16)}
  {values : List Int32} {code rest : Bytes} {pc : Nat} {op : IntOp} {ops : List IntOp}
  (h : s.Tracks m first reads values locals)
include h

-- No operand is an increment that waits for its use.
theorem not_isPendingIncrementOf {increment : Entry} {below : List Entry}
    (hs : s.stack = increment :: below) (load : Element) :
    ¬increment.element.isPendingIncrementOf load := by
  intro hp
  have hstacked := h.stacked
  rw [hs] at hstacked
  obtain - | ⟨hstands, -⟩ := hstacked
  have hstatement := Element.isStatement_of_isSpent (Element.isSpent_of_isPendingIncrementOf hp)
  rw [Element.isStatement_of_int? hstands.isSome] at hstatement
  cases hstatement

theorem not_topIs_newArray : ¬s.topIs .newArray := by
  intro htop
  obtain ⟨top, below, hs, hk⟩ := topIs_iff.1 htop
  have hstacked := h.stacked
  rw [hs] at hstacked
  obtain - | ⟨hstands, -⟩ := hstacked
  exact Element.kind_ne_newArray_of_int? hstands.isSome hk

-- An operator takes two operands and makes an expression of them.
theorem binary {code : Opcode} {operator : BinaryOp} {ty : JvmType}
    (hop : (code, operator, ty) ∈ Instruction.Arithmetic.binaryOperators)
    (hc : s.cursor = .fresh ([code] ++ rest) pc) (he : core.Executes s t) :
    ∃ right left rightSlots leftSlots reads' values', reads = rightSlots :: leftSlots :: reads' ∧
      values = right :: left :: values' ∧ t.cursor = .fresh rest (pc + 1) ∧
      ∀ value, operator.int? left right = some value →
        t.Tracks m first ((leftSlots ++ rightSlots) :: reads') (value :: values') locals := by
  obtain ⟨ht, right, left, below, hstack, rfl⟩ := executed_binary h.plain he hop hc
  have hstacked := h.stacked
  rw [hstack] at hstacked
  obtain - | ⟨hr, hstacked⟩ := hstacked
  obtain - | ⟨hl, hstacked⟩ := hstacked
  refine ⟨_, _, _, _, _, _, rfl, rfl, rfl, fun value hvalue => ?_⟩
  exact ⟨ht, h.awake, .cons ((hl.binary hr hvalue ty).entry _) hstacked, h.executed⟩

-- One instruction keeps the state beside the machine, unless it writes a variable of which a
-- value was made that waits.
theorem step (hop : op.Encodes m code) (hclear : op.isClear reads)
    (hc : s.cursor = .fresh (code ++ rest) pc) (he : core.Executes s t) :
    ∃ values' locals', op.run (values, locals) = some (values', locals') ∧
      t.Tracks m first (op.reads reads) values' locals' ∧
      t.cursor = .fresh rest (pc + code.length) := by
  cases hop with
  | @push value _ hconstant =>
    obtain ⟨ht, rfl⟩ := hconstant.executed h.plain he hc
    have hstands := (Element.Stands.int value locals).entry (s.moved rest (pc + code.length) pc)
    exact ⟨_, _, rfl, ⟨ht, h.awake, .cons hstands h.stacked, h.executed⟩, rfl⟩
  | @load slot _ hload =>
    obtain ⟨ht, v, -, rfl | ⟨load, increment, below, hstack, hp, -⟩⟩ :=
      hload.executed h.plain he hc
    · have hstands := (Element.Stands.localVar ⟨v.name, v.ty, slot⟩ locals).entry
        (s.moved rest (pc + code.length) pc)
      exact ⟨_, _, rfl, ⟨ht, h.awake, .cons hstands h.stacked, h.executed⟩, rfl⟩
    · exact absurd hp (h.not_isPendingIncrementOf hstack _)
  | @store slot _ hstore =>
    obtain ⟨ht, top, below, v, place, hstack, -, hresult⟩ := hstore.executed h.plain he hc
    have hstacked := h.stacked
    rw [hstack] at hstacked
    obtain - | ⟨htop, hstacked⟩ := hstacked
    have hwaiting := List.all_eq_true.1 hclear
    have hbelow := hstacked.update (fun slots hslots => of_decide_eq_true (hwaiting slots hslots))
    have hexecuted := State.runInts?_enlist
      (fun _ _ hd es locals => Element.runInts?_booleanAssignment? es hd locals) hresult h.executed
    refine ⟨_, _, rfl, ⟨ht, ?_, ?_, fun more => ?_⟩, ?_⟩
    · rcases hresult with rfl | ⟨d, -, rfl⟩ <;> exact h.awake
    · rcases hresult with rfl | ⟨d, -, rfl⟩ <;> exact hbelow _
    · rw [hexecuted more, Element.runInts?]
      simp only [Element.ofShape, htop.int?, Option.bind_some]
    · rcases hresult with rfl | ⟨d, -, rfl⟩ <;> rfl
  | dup =>
    obtain ⟨ht, top, below, hstack, rfl⟩ := executed_dup h.plain he hc h.not_topIs_newArray
    have hstacked := h.stacked
    rw [hstack] at hstacked
    obtain - | ⟨htop, hstacked⟩ := hstacked
    exact ⟨_, _, rfl,
      ⟨ht, h.awake, .cons (htop.entry _) (.cons (htop.entry _) hstacked), h.executed⟩, rfl⟩
  | add =>
    have hrule : (iadd, .plus, .int) ∈ Instruction.Arithmetic.binaryOperators := by decide
    obtain ⟨_, _, _, _, _, _, rfl, rfl, hcursor, htracks⟩ := h.binary hrule hc he
    exact ⟨_, _, rfl, htracks _ rfl, hcursor⟩
  | sub =>
    have hrule : (isub, .minus, .int) ∈ Instruction.Arithmetic.binaryOperators := by decide
    obtain ⟨_, _, _, _, _, _, rfl, rfl, hcursor, htracks⟩ := h.binary hrule hc he
    exact ⟨_, _, rfl, htracks _ rfl, hcursor⟩
  | mul =>
    have hrule : (imul, .multiply, .int) ∈ Instruction.Arithmetic.binaryOperators := by decide
    obtain ⟨_, _, _, _, _, _, rfl, rfl, hcursor, htracks⟩ := h.binary hrule hc he
    exact ⟨_, _, rfl, htracks _ rfl, hcursor⟩
  | neg =>
    obtain ⟨ht, operand, below, hstack, rfl⟩ := executed_negate h.plain he (by decide) hc
    have hstacked := h.stacked
    rw [hstack] at hstacked
    obtain - | ⟨htop, hstacked⟩ := hstacked
    exact ⟨_, _, rfl,
      ⟨ht, h.awake, .cons ((htop.neg _).entry _) hstacked, h.executed⟩, rfl⟩

theorem not_done {bytes : Bytes} (hc : s.cursor = .fresh bytes pc) (hne : bytes ≠ []) :
    ¬s.Done := by
  rintro (ha | hnil)
  · rw [h.awake] at ha
    cases ha
  · rw [hc, Cursor.remaining_fresh] at hnil
    exact hne hnil

-- A run over instructions keeps the state beside the machine.
theorem run (hops : IntOp.Code m ops code) (hclear : IntOp.allClear reads ops)
    (hc : s.cursor = .fresh (code ++ rest) pc) (hrest : rest ≠ []) (hu : core.Runs s u)
    (hd : u.Done) :
    ∃ t reads' values' locals', IntOp.runAll ops (values, locals) = some (values', locals') ∧
      t.Tracks m first reads' values' locals' ∧ t.cursor = .fresh rest (pc + code.length) ∧
      core.Runs t u := by
  induction hops generalizing s reads values locals pc with
  | nil => exact ⟨s, reads, values, locals, rfl, h, hc, hu⟩
  | @cons op ops code more hop _ ih =>
    obtain ⟨hfirst, hlater⟩ := Bool.and_eq_true_iff.1 hclear
    rw [List.append_assoc] at hc
    rcases hu.cases_head with rfl | ⟨t, he, htu⟩
    · have hne : code ++ (more ++ rest) ≠ [] := by simp [hrest]
      exact absurd hd (h.not_done hc hne)
    · obtain ⟨values', locals', hrun, ht, hct⟩ := h.step hop hfirst hc he
      obtain ⟨v, reads'', values'', locals'', hall, hv, hcv, hvu⟩ := ih ht hlater hct htu
      refine ⟨v, reads'', values'', locals'', ?_, hv, ?_, hvu⟩
      · rw [IntOp.runAll, List.foldlM_cons, hrun]
        exact hall
      · rw [hcv, List.length_append, Nat.add_assoc]

-- A return at the end gives the only value that is left.
theorem returns (hc : s.cursor = .fresh [ireturn] pc) (hu : core.Runs s u) (hd : u.Done)
    {statements : List Element} (hfinish : (exec finish u).1 = .ok statements) :
    ∃ value, values = [value] ∧ Element.runInts? statements first = some (value, locals) := by
  rcases hu.cases_head with rfl | ⟨t, he, htu⟩
  · exact absurd hd (h.not_done hc nofun)
  obtain ⟨top, below, hstack, hresult⟩ := executed_ireturn he hc
  have hct : t.cursor = .fresh [] (pc + 1) := by
    rcases hresult with rfl | ⟨d, -, rfl⟩ <;> rfl
  have hbelow : t.stack = below := by
    rcases hresult with rfl | ⟨d, -, rfl⟩ <;> rfl
  have hstop : t.Done := .inr (hct ▸ rfl)
  rcases htu.cases_head with rfl | ⟨v, hv, -⟩
  swap
  · have hend : t.cursor.EndsAt (pc + 1) := hct ▸ Cursor.endsAt_ofBytes [] (pc + 1)
    exact absurd hv (not_executes_of_done hend hstop)
  have hstacked := h.stacked
  rw [hstack] at hstacked
  obtain - | @⟨_, _, _, _, value, _, htop, hstacked⟩ := hstacked
  -- an operand that is left over has no effect, so no statement can be made of it
  obtain - | ⟨hleft, -⟩ := hstacked
  swap
  · have hfails := exec_finish_of_not_isStatement t hbelow
      (Element.isStatement_of_int? hleft.isSome)
    cases hfinish.symm.trans hfails
  have hreturned := State.runInts?_enlist
    (fun _ _ hd es locals => Element.runInts?_booleanReturn? es hd locals) hresult h.executed []
  rw [List.append_nil, ← result_of_exec_finish_of_nil hfinish hbelow] at hreturned
  refine ⟨value, rfl, ?_⟩
  rw [hreturned, Element.runInts?]
  simp only [Element.ofShape, htop.int?, Option.map_some]

end State.Tracks

-- The statements of a method on ints give the value that its code returns and leave the variables
-- as the code does, wherever they start, if no variable is written while a value that was made of
-- it waits.
theorem Method.decompile_ints {m : Method} {ops : List IntOp} {code : Bytes}
    {statements : List Element} (hcode : m.code = code ++ [Opcode.ireturn])
    (hops : IntOp.Code m ops code) (hclear : IntOp.allClear [] ops)
    (h : m.decompile = .ok statements) (locals : Locals) :
    ∃ value final, IntOp.runAll ops ([], locals) = some ([value], final) ∧
      Element.runInts? statements locals = some (value, final) := by
  have hbehind : Cursor.behind m.code 0 = .ofCode m.code := by
    rw [Cursor.behind_eq, Nat.zero_min]
    rfl
  rw [decompile, ← hbehind] at h
  obtain ⟨u, hruns, hdone, -, hfinish⟩ := Registry.exists_runs_of_decompile (fun _ _ => rfl) h
  rw [hbehind] at hruns
  have hstart : (State.start m (.ofCode m.code)).Tracks m locals [] [] locals :=
    ⟨State.plain_start m rfl, rfl, .nil, fun _ => rfl⟩
  have hc : (State.start m (.ofCode m.code)).cursor = .fresh (code ++ [Opcode.ireturn]) 0 :=
    congrArg Cursor.ofCode hcode
  obtain ⟨s, reads, values, final, hrun, hs, hcs, hsu⟩ :=
    hstart.run hops hclear hc nofun hruns hdone
  obtain ⟨value, rfl, hreturned⟩ := hs.returns hcs hsu hdone hfinish
  exact ⟨value, final, hrun, hreturned⟩

namespace IntOp

-- A method with two int variables.
def method (code : Bytes) : Method :=
  { className := "A", name := "m", descriptor := "()I", signature := ⟨[], .int⟩, code
    locals := [⟨"x", .int, 0, 0, 100⟩, ⟨"y", .int, 1, 0, 100⟩] }

-- The assignment `y = x * x` in front of the return of `-y`.
def square : Method :=
  method [Opcode.iload0, Opcode.dup, Opcode.imul, Opcode.istore1, Opcode.iload1, Opcode.ineg,
    Opcode.ireturn]

-- The assignment `y = x = x + 5` in front of the return of `y`.
def chained : Method :=
  method [Opcode.iload0, Opcode.iconst5, Opcode.iadd, Opcode.dup, Opcode.istore0, Opcode.istore1,
    Opcode.iload1, Opcode.ireturn]

section Encodes

variable (m : Method)

theorem encodes_load_zero : Encodes m (.load 0) [Opcode.iload0] :=
  .load (@Fragment.Loads.short Opcode.iload0 (by decide)) (by decide)

theorem encodes_load_one : Encodes m (.load 1) [Opcode.iload1] :=
  .load (@Fragment.Loads.short Opcode.iload1 (by decide)) (by decide)

theorem encodes_store_zero : Encodes m (.store 0) [Opcode.istore0] :=
  .store (@Fragment.Stores.short Opcode.istore0 (by decide)) (by decide)

theorem encodes_store_one : Encodes m (.store 1) [Opcode.istore1] :=
  .store (@Fragment.Stores.short Opcode.istore1 (by decide)) (by decide)

end Encodes

theorem decompile_ints_of_square :
    ∃ statements, square.decompile = .ok statements ∧ ∀ locals, ∃ value final,
      runAll [.load 0, .dup, .mul, .store 1, .load 1, .neg] ([], locals) = some ([value], final) ∧
        Element.runInts? statements locals = some (value, final) := by
  have hops : Code square [.load 0, .dup, .mul, .store 1, .load 1, .neg] _ :=
    .cons (encodes_load_zero _) (.cons .dup (.cons .mul (.cons (encodes_store_one _)
      (.cons (encodes_load_one _) (.cons .neg .nil)))))
  have hok : square.decompile.isOk := by decide +kernel
  cases h : square.decompile with
  | error f =>
    rw [h] at hok
    cases hok
  | ok statements => exact ⟨statements, rfl, Method.decompile_ints rfl hops rfl h⟩

-- The sum that was copied is computed again, behind the assignment to the variable that it was
-- made of.
theorem not_decompile_ints_of_chained :
    let ops := [.load 0, .push 5, .add, .dup, .store 0, .store 1, .load 1]
    (∃ code, chained.code = code ++ [Opcode.ireturn] ∧ Code chained ops code) ∧
      (∀ slot ∈ [0, 1], ∃ v, chained.Covers slot v ∧ v.ty = .int) ∧
      (runAll ops ([], fun _ => 0)).map (·.1) = some [5] ∧
      ∃ statements, chained.decompile = .ok statements ∧
        (Element.runInts? statements fun _ => 0).map (·.1) = some 10 := by
  have hpush : Encodes chained (.push 5) [Opcode.iconst5] :=
    .push (@Fragment.Constants.int _ Opcode.iconst5 (by decide))
  refine ⟨⟨_, rfl, .cons (encodes_load_zero _) (.cons hpush (.cons .add (.cons .dup
    (.cons (encodes_store_zero _) (.cons (encodes_store_one _)
      (.cons (encodes_load_one _) .nil))))))⟩, ?_, by decide +kernel, ?_⟩
  · simp only [List.forall_mem_cons]
    refine ⟨⟨⟨"x", .int, 0, 0, 100⟩, ⟨?_, rfl, ?_, rfl, ?_, nofun⟩, rfl⟩,
      ⟨⟨"y", .int, 1, 0, 100⟩, ⟨?_, rfl, ?_, rfl, ?_, nofun⟩, rfl⟩, List.forall_mem_nil _⟩
    all_goals decide
  · have hten : (chained.decompile.toOption.bind fun statements =>
        (Element.runInts? statements fun _ => 0).map (·.1)) = some 10 := by decide +kernel
    cases h : chained.decompile with
    | error f =>
      rw [h] at hten
      cases hten
    | ok statements =>
      rw [h] at hten
      exact ⟨statements, rfl, hten⟩

end IntOp

end JvmLift
