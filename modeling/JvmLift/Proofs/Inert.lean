import JvmLift.Proofs.Lookup
import JvmLift.Proofs.Tree

namespace JvmLift

namespace Element

def isNarrowCast (e : Element) : Bool :=
  match e.shape with
  | .cast _ ty => ty.isNarrow
  | _ => false

-- Whether no corrective rule has anything to do with the element: it is no pending increment and
-- no jump, and it uses no boolean or narrow type that an int may stand for.
def isInert (e : Element) : Bool :=
  match e.shape with
  | .increment _ _ _ .pending | .jump _ => false
  | .call c => .boolean ∉ c.signature.parameters
  | .newInstance _ signature _ => .boolean ∉ signature.parameters
  | .assign _ _ ty value => ty ≠ .boolean && !value.isNarrowCast
  | _ => true

theorem isNarrowCast_bare (e : Element) : e.bare.isNarrowCast = e.isNarrowCast := by
  obtain ⟨shape, stamp⟩ := e
  rw [bare_mk]
  cases shape <;> rfl

@[simp]
theorem isInert_bare (e : Element) : e.bare.isInert = e.isInert := by
  obtain ⟨shape, stamp⟩ := e
  rw [bare_mk]
  cases shape with
  | assign slot name ty value =>
    simp only [ofShape, Shape.map, isInert, isNarrowCast_bare]
  | _ => rfl

@[simp]
theorem isInert_stamped (e : Element) (stamp : Stamp) : (e.stamped stamp).isInert = e.isInert :=
  rfl

theorem booleanArguments?_eq_none {parameters : List JvmType} (hp : .boolean ∉ parameters)
    (args : List Element) : booleanArguments? parameters args = none := by
  have hnone : ((List.zipWith (fun ty arg => if ty = .boolean then booleanLiteral? arg else none)
      parameters args).any Option.isSome) = false := by
    induction parameters generalizing args with
    | nil => rfl
    | cons ty parameters ih =>
      obtain ⟨hne, hrest⟩ := not_or.1 (mt List.mem_cons.2 hp)
      cases args with
      | nil => rfl
      | cons arg args =>
        rw [List.zipWith_cons_cons, if_neg (Ne.symm hne), List.any_cons, ih hrest]
        rfl
  rw [booleanArguments?]
  simp only [hnone]
  rfl

section Inert

variable {e : Element} (h : e.isInert)
include h

theorem settled_of_isInert : e.settled = e := by
  obtain ⟨shape, stamp⟩ := e
  cases shape with
  | increment v delta ty affix =>
    cases affix with
    | pending => cases h
    | _ => rfl
  | _ => rfl

theorem isPendingIncrementOf_eq_false (load : Element) : e.isPendingIncrementOf load = false := by
  obtain ⟨shape, stamp⟩ := e
  cases shape with
  | increment v delta ty affix =>
    cases affix with
    | pending => cases h
    | _ => rfl
  | _ => rfl

theorem booleanCall?_eq_none : e.booleanCall? = none := by
  obtain ⟨shape, stamp⟩ := e
  cases shape with
  | call c =>
    have hp : .boolean ∉ c.signature.parameters := of_decide_eq_true h
    simp only [booleanCall?, booleanArguments?_eq_none hp, Option.map_none]
  | newInstance ty signature args =>
    have hp : .boolean ∉ signature.parameters := of_decide_eq_true h
    simp only [booleanCall?, booleanArguments?_eq_none hp, Option.map_none]
  | _ => rfl

theorem booleanAssignment?_eq_none : e.booleanAssignment? = none := by
  obtain ⟨shape, stamp⟩ := e
  cases shape with
  | assign slot name ty value =>
    have hty : ty ≠ .boolean := of_decide_eq_true (Bool.and_eq_true_iff.1 h).1
    cases ty with
    | boolean => exact absurd rfl hty
    | _ => rfl
  | _ => rfl

theorem narrowIncrement?_eq_none (v : LocalRef) : e.narrowIncrement? v = none := by
  obtain ⟨shape, stamp⟩ := e
  cases shape with
  | assign slot name ty value =>
    have hvalue := (Bool.and_eq_true_iff.1 h).2
    obtain ⟨shape, stamp⟩ := value
    cases shape with
    | cast inner target =>
      have hto : target.isNarrow = false := by simpa [isNarrowCast] using hvalue
      obtain ⟨shape, stamp⟩ := inner
      cases shape with
      | binary left op right ty =>
        simp only [narrowIncrement?, hto, Bool.and_false, Bool.false_and]
        cases op <;> rfl
      | _ => rfl
    | _ => rfl
  | _ => rfl

end Inert

end Element

theorem Entry.settled_of_isInert {e : Entry} (h : e.element.isInert) : e.settled = e := by
  rw [Entry.settled, Element.settled_of_isInert h]

namespace State

variable (s : State) (e : Element)

-- An entry differs from its element in the stamp at most.
theorem exists_entry_eq : ∃ stamp, (s.entry e).element = e.stamped stamp := by
  obtain ⟨shape, stamp⟩ := e
  by_cases hs : Element.isStamped ⟨shape, stamp⟩
  · exact ⟨stamp, if_pos hs⟩
  · exact ⟨_, if_neg hs⟩

@[simp]
theorem bare_entry : (s.entry e).element.bare = e.bare := by
  obtain ⟨stamp, h⟩ := s.exists_entry_eq e
  rw [h, Element.bare_stamped]

@[simp]
theorem isInert_entry : (s.entry e).element.isInert = e.isInert := by
  obtain ⟨stamp, h⟩ := s.exists_entry_eq e
  rw [h, Element.isInert_stamped]

@[simp]
theorem isStatement_entry : (s.entry e).element.isStatement = e.isStatement := by
  obtain ⟨stamp, h⟩ := s.exists_entry_eq e
  rw [h]
  rfl

end State

-- Whether no corrective rule has anything to do in the state.
structure State.Inert (s : State) : Prop where
  entries : ∀ e ∈ s.entries, e.element.isInert
  result : s.method.signature.result ≠ .boolean

namespace State.Inert

variable {s : State} (h : s.Inert)
include h

theorem peek {depth : Nat} {e : Element} (he : s.peekAt? depth = some e) : e.isInert := by
  obtain ⟨entry, hentry, rfl⟩ := Option.map_eq_some_iff.1 he
  exact h.entries entry (List.mem_append_left _ (List.mem_of_getElem? hentry))

theorem last {depth : Nat} {e : Element} (he : s.lastStatement? depth = some e) : e.isInert := by
  obtain ⟨entry, hentry, rfl⟩ := Option.map_eq_some_iff.1 he
  exact h.entries entry (List.mem_append_right _ (List.mem_of_getElem? hentry))

theorem lastIs_jump : s.lastIs .jump = false := by
  rw [lastIs]
  cases he : s.lastStatement? 0 with
  | none => rfl
  | some e => simpa using Element.kind_ne_jump (fun _ _ => rfl) (h.last he)

theorem narrowIncrement? : Instruction.Local.narrowIncrement? s = none := by
  cases he : s.lastStatement? 0 with
  | none => simp [Instruction.Local.narrowIncrement?, he]
  | some statement =>
    simp [Instruction.Local.narrowIncrement?, he, Element.narrowIncrement?_eq_none (h.last he)]

theorem topTwo {related : Element → Element → Bool}
    (hr : ∀ below top : Element, below.isInert → top.isInert → related below top = false) :
    Instruction.Local.topTwo s related = false := by
  rw [Instruction.Local.topTwo]
  cases hb : s.peekAt? 1 with
  | none => rfl
  | some below =>
    cases ht : s.peekAt? 0 with
    | none => rfl
    | some top => exact hr below top (h.peek hb) (h.peek ht)

theorem rewriteTop {rewrite? : Element → Option Element}
    (hr : ∀ e : Element, e.isInert → rewrite? e = none) :
    ((s.peekAt? 0).bind rewrite?).isSome = false := by
  cases he : s.peekAt? 0 with
  | none => rfl
  | some e =>
    rw [Option.bind_some, hr e (h.peek he)]
    rfl

theorem rewriteLast {rewrite? : Element → Option Element}
    (hr : ∀ e : Element, e.isInert → rewrite? e = none) :
    ((s.lastStatement? 0).bind rewrite?).isSome = false := by
  cases he : s.lastStatement? 0 with
  | none => rfl
  | some e =>
    rw [Option.bind_some, hr e (h.last he)]
    rfl

end State.Inert

-- Whether a rule that a family declares leaves an inert state alone after an instruction.
def Declaration.Spares (s : State) (code : Opcode) (d : Declaration) : Prop :=
  d.stage = .corrective → code ∈ d.codes → d.rule.applies s code = false

theorem Declaration.Spares.of_primary {s : State} {code : Opcode} {d : Declaration}
    (h : d.stage = .primary) : d.Spares s code := by
  intro hs
  rw [h] at hs
  cases hs

namespace Instruction

variable {s : State} {code : Opcode}

open Declaration

theorem Local.spares (h : s.Inert) : ∀ d ∈ Local.rules, d.Spares s code := by
  simp only [Local.rules, List.forall_mem_cons]
  refine ⟨.of_primary rfl, .of_primary rfl, .of_primary rfl, .of_primary rfl, .of_primary rfl,
    .of_primary rfl, fun _ _ => ?_, fun _ _ => ?_, fun _ _ => ?_, fun _ _ => ?_,
    List.forall_mem_nil _⟩
  · exact h.topTwo fun below top _ ht => Element.isPendingIncrementOf_eq_false ht below
  · exact h.topTwo fun below top hb _ => Element.isPendingIncrementOf_eq_false hb top
  · exact congrArg Option.isSome h.narrowIncrement?
  · exact congrArg Option.isSome h.narrowIncrement?

theorem Boolean.spares (h : s.Inert) : ∀ d ∈ Boolean.rules, d.Spares s code := by
  simp only [Boolean.rules, List.forall_mem_cons]
  refine ⟨fun _ _ => ?_, fun _ _ => ?_, fun _ _ => ?_, fun _ _ => ?_, List.forall_mem_nil _⟩
  · have hj := h.lastIs_jump
    rw [State.lastIs] at hj
    show Boolean.choosesBit s = false
    rw [Boolean.choosesBit, hj, Bool.and_false, Bool.false_and]
  · exact h.rewriteLast fun e he => Element.booleanAssignment?_eq_none he
  · show ((s.lastStatement? 0).bind _).isSome = false
    simp [h.result]
  · exact h.rewriteTop fun e he => Element.booleanCall?_eq_none he

theorem Jump.spares (h : s.Inert) : ∀ d ∈ Jump.rules, d.Spares s code := by
  simp only [Jump.rules, List.forall_mem_cons]
  refine ⟨.of_primary rfl, .of_primary rfl, .of_primary rfl, .of_primary rfl, fun _ _ => ?_,
    .of_primary rfl, .of_primary rfl, .of_primary rfl, .of_primary rfl, List.forall_mem_nil _⟩
  show Jump.leavesTry s = false
  rw [Jump.leavesTry, h.lastIs_jump, Bool.and_false, Bool.false_and]

theorem spares (h : s.Inert) (hspecial : code ≠ Opcode.invokespecial)
    (hdynamic : code ≠ Opcode.invokedynamic) : ∀ d ∈ rules, d.Spares s code := by
  have hprimary : ∀ d ∈ Literal.rules ++ Array.rules ++ Call.rules ++ Arithmetic.rules ++
      Shuffle.rules, d.stage = .primary := by
    decide +kernel
  simp only [List.forall_mem_append] at hprimary
  obtain ⟨⟨⟨⟨hliteral, harray⟩, hcall⟩, harithmetic⟩, hshuffle⟩ := hprimary
  have hnever {ds : List Declaration} (hp : ∀ d ∈ ds, d.stage = .primary) :
      ∀ d ∈ ds, d.Spares s code := fun d hd => .of_primary (hp d hd)
  have hobject : ∀ d ∈ Object.rules, d.Spares s code := by
    simp only [Object.rules, List.forall_mem_cons]
    exact ⟨.of_primary rfl, .of_primary rfl, .of_primary rfl,
      fun _ hc => absurd (List.mem_singleton.1 hc) hspecial, .of_primary rfl, .of_primary rfl,
      .of_primary rfl, List.forall_mem_nil _⟩
  have hsite : ∀ d ∈ CallSite.rules, d.Spares s code := by
    simp only [CallSite.rules, List.forall_mem_cons]
    exact ⟨.of_primary rfl, fun _ hc => absurd (List.mem_singleton.1 hc) hdynamic,
      List.forall_mem_nil _⟩
  simp only [rules, List.forall_mem_append]
  exact ⟨⟨⟨⟨⟨⟨⟨⟨⟨hnever hliteral, Local.spares h⟩, hnever harray⟩, hobject⟩, hnever hcall⟩,
    hnever harithmetic⟩, hnever hshuffle⟩, Jump.spares h⟩, Boolean.spares h⟩, hsite⟩

end Instruction

namespace Opcode

variable {first last code other : Opcode}

theorem mem_range : code ∈ range first last ↔ first ≤ code ∧ code ≤ last := by
  have hcode := code.toNat_lt
  have hlast := last.toNat_lt
  simp only [range, List.mem_map, List.mem_range'_1, UInt8.le_iff_toNat_le]
  constructor
  · rintro ⟨n, hn, rfl⟩
    have hmod : n % 2 ^ 8 = n := Nat.mod_eq_of_lt (by omega)
    rw [UInt8.toNat_ofNat', hmod]
    omega
  · intro hle
    exact ⟨code.toNat, by omega, UInt8.ofNat_toNat⟩

theorem ne_of_mem_range (h : code ∈ range first last) (ho : other < first ∨ last < other) :
    code ≠ other := by
  rintro rfl
  obtain ⟨hfirst, hlast⟩ := mem_range.1 h
  rcases ho with ho | ho
  · exact UInt8.not_lt.2 hfirst ho
  · exact UInt8.not_lt.2 hlast ho

end Opcode

namespace Registry

variable {s t : State} {code : Opcode}

-- The instructions with an override, or with a correction that has to do with inert elements.
abbrev special : List Opcode :=
  [Opcode.dup, Opcode.pop, Opcode.invokespecial, Opcode.invokedynamic]

theorem not_mem_special_of_mem_range {first last : Opcode} (h : code ∈ Opcode.range first last)
    (hs : special.all fun other => other < first || last < other) : code ∉ special := by
  intro hspecial
  have ho := List.all_eq_true.1 hs code hspecial
  rw [Bool.or_eq_true, decide_eq_true_eq, decide_eq_true_eq] at ho
  exact Opcode.ne_of_mem_range h ho rfl

theorem exec_runAll_of_spared {rules : List Rule}
    (h : ∀ rule ∈ rules, rule.applies s code = false) :
    exec (runAll code rules) s = (.ok ⟨⟩, s) := by
  induction rules with
  | nil => rfl
  | cons rule rest ih =>
    obtain ⟨hrule, hrest⟩ := List.forall_mem_cons.1 h
    rw [runAll, exec_bind, exec_get]
    simp only [hrule]
    exact ih hrest

section Special

variable (hspared : code ∉ special)
include hspared

-- An instruction does what its rule does, and what corrections there are for that.
theorem exec_step_of_primary {d : Declaration} (hd : d ∈ Instruction.rules)
    (hs : d.stage = .primary) (hc : code ∈ d.codes) (ha : d.rule.applies s code)
    (h : exec (d.rule.run code) s = (.ok ⟨⟩, t)) :
    exec (core.step code) s = exec (runAll code (core.rules .corrective code)) t := by
  simp only [special, List.mem_cons, not_or] at hspared
  rw [exec_step_core (primary?_core hd hs hc hspared.1 hspared.2.1 ha), exec_bind_of_ok h]

theorem exec_corrections_of_inert (h : t.Inert) :
    exec (runAll code (core.rules .corrective code)) t = (.ok ⟨⟩, t) := by
  simp only [special, List.mem_cons, not_or] at hspared
  obtain ⟨-, -, hspecial, hdynamic, -⟩ := hspared
  apply exec_runAll_of_spared
  intro rule hr
  obtain ⟨other, ho, rfl, hstage, hcodes⟩ := mem_core hr
  exact Instruction.spares h hspecial hdynamic other ho hstage hcodes

-- Where nothing is to be corrected, an instruction is what its primary rule does.
theorem exec_step_of_inert {d : Declaration} (hd : d ∈ Instruction.rules)
    (hs : d.stage = .primary) (hc : code ∈ d.codes) (ha : d.rule.applies s code)
    (h : exec (d.rule.run code) s = (.ok ⟨⟩, t)) (ht : t.Inert) :
    exec (core.step code) s = (.ok ⟨⟩, t) := by
  rw [exec_step_of_primary hspared hd hs hc ha h]
  exact exec_corrections_of_inert hspared ht

end Special

end Registry

end JvmLift
