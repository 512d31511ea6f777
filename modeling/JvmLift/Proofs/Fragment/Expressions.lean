import JvmLift.Proofs.Fragment.Instructions

namespace JvmLift

theorem JvmType.isNarrow_of_ofClassName? {name : String} {ty : JvmType}
    (h : ofClassName? name = some ty) : ty.isNarrow = false := by
  rw [ofClassName?] at h
  split at h
  · cases h
  · rename_i rest hname
    rw [ofDescriptor?, hname, read] at h
    cases hr : read rest with
    | none => simp [hr] at h
    | some found =>
      obtain ⟨component, _ | _⟩ := found
      all_goals simp only [hr, Option.map_some] at h
      · obtain rfl := Option.some.inj h
        rfl
      · cases h
  · obtain rfl := Option.some.inj h
    rfl

-- An element that no rule rewrites and that may stand in a result.
structure Element.Plain (e : Element) : Prop where
  inert : e.isInert
  broad : e.isNarrowCast = false
  finished : e.contains Element.isUnfinished = false

theorem Element.finished_of_children {e : Element} (h : e.isUnfinished = false)
    (hc : ∀ c ∈ e.children, c.contains isUnfinished = false) :
    e.contains isUnfinished = false := by
  obtain ⟨shape, stamp⟩ := e
  rw [contains_mk, h, Bool.false_or, List.any_eq_false]
  intro c hm
  rw [hc c hm]
  exact Bool.false_ne_true

namespace Fragment

variable {m : Method} {operands : List Element} {e : Element} {code : Bytes}

theorem Constants.plain (h : Constants m e code) : e.Plain ∧ e.children = [] := by
  have hpool {value : Loadable} (he : value.expression? = some e) :
      e.Plain ∧ e.children = [] := by
    cases value with
    | int | long | string =>
      cases he
      exact ⟨⟨rfl, rfl, rfl⟩, rfl⟩
    | _ => cases he
  cases h with
  | pool _ he _ | poolWide _ he _ | poolDouble _ he _ => exact hpool he
  | _ => exact ⟨⟨rfl, rfl, rfl⟩, rfl⟩

-- What an instruction makes has its operands and nothing else below it.
theorem Yields.children (h : Yields m operands e code) : e.children = operands := by
  cases h with
  | constant hc => exact hc.plain.2
  | call hc _ => cases hc <;> rfl
  | _ => rfl

theorem Calls.isInert {c : Call Element} (h : Calls m operands c code) :
    (Element.ofShape (.call c)).isInert := by
  cases h with
  | ofClass hn _ _ | ofObject hn _ _ | ofInterface hn _ _ _ => exact decide_eq_true hn.noBoolean

theorem Yields.length_pos (h : Yields m operands e code) : 0 < code.length := by
  cases h with
  | constant hc => cases hc <;> exact Nat.succ_pos _
  | localVar hl _ => exact hl.length_pos
  | call hc _ => cases hc <;> exact Nat.succ_pos _
  | _ => exact Nat.succ_pos _

theorem Yields.plain (h : Yields m operands e code)
    (ho : ∀ o ∈ operands, o.contains Element.isUnfinished = false) : e.Plain := by
  have hchildren := h.children
  have hfinished (hu : e.isUnfinished = false) : e.contains Element.isUnfinished = false :=
    Element.finished_of_children hu (hchildren ▸ ho)
  cases h with
  | constant hc => exact hc.plain.1
  | convert _ hty => exact ⟨rfl, hty, hfinished rfl⟩
  | checkcast _ hty => exact ⟨rfl, JvmType.isNarrow_of_ofClassName? hty, hfinished rfl⟩
  | call hc _ => exact ⟨hc.isInert, rfl, hfinished rfl⟩
  | _ => exact ⟨rfl, rfl, hfinished rfl⟩

theorem Compiled.plain {es : List Element} (h : Compiled m es code) : ∀ e ∈ es, e.Plain := by
  induction h with
  | nil => exact List.forall_mem_nil _
  | apply _ _ he ihb iho =>
    rw [List.forall_mem_append, List.forall_mem_singleton]
    exact ⟨ihb, he.plain fun o hm => (iho o hm).finished⟩
  | construct _ _ _ _ hn _ _ ihb iho =>
    rw [List.forall_mem_append, List.forall_mem_singleton]
    exact ⟨ihb, decide_eq_true hn.noBoolean, rfl,
      Element.finished_of_children rfl fun o hm => (iho o hm).finished⟩

end Fragment

namespace State

variable {s : State}

-- What is made at the next instruction comes after everything that is there.
theorem Ordered.moved (h : s.Ordered) {bytes : Bytes} {pc : Nat} (hc : s.cursor = .fresh bytes pc)
    (rest : Bytes) {after : Nat} (hle : pc ≤ after) : (s.moved rest after pc).Ordered := by
  have hpc : s.pc = pc := by
    rw [State.pc, hc]
    rfl
  have hn := h.next_instruction (c := .fresh rest after) (by rw [hc]; exact hle)
  rwa [hpc] at hn

theorem Ordered.leaving (h : s.Ordered) {below : List Entry} (hb : below.Sublist s.stack) :
    (s.leaving below).Ordered :=
  h.of_sublist hb (.refl _)

end State

namespace Registry

open Instruction Declaration Opcode

variable {u : State} {below : List Entry} {top : Entry}

theorem exec_rewriteTop (codes : List Opcode) (priority : Priority)
    {rewrite? : Element → Option Element} (code : Opcode) {e : Element}
    (hs : u.stack = top :: below) (h : rewrite? top.element = some e) :
    exec ((rewriteTop codes priority rewrite?).rule.run code) u =
      (.ok ⟨⟩, (u.leaving below).push e) := by
  have hrun : exec (do
      let e ← Action.pop
      Action.push ((rewrite? e).getD e)) u = (.ok ⟨⟩, (u.leaving below).push e) := by
    rw [exec_bind_of_ok (Action.exec_pop_of_cons hs), h]
    rfl
  exact hrun

-- The call of a constructor on a new object becomes the construction of the object.
theorem exec_step_constructor {s : State} {c : Call Element} {stamp : Stamp}
    (h : exec (do Call.call (← Action.read Reading.u16) false) s = (.ok ⟨⟩, u))
    (hs : u.stack = top :: below) (htop : top.element = ⟨.call c, stamp⟩)
    (hc : c.isConstructor) {object : Stamp} {ty : JvmType}
    (htarget : c.target = some ⟨.allocate ty, object⟩)
    (hp : .boolean ∉ c.signature.parameters) :
    exec (core.step invokespecial) s =
      (.ok ⟨⟩, (u.leaving below).push ⟨.newInstance c.ty c.signature c.args, stamp⟩) := by
  have hd : on [invokevirtual, invokespecial, invokestatic] (fun code => do
      Call.call (← Action.read Reading.u16) (code = invokestatic)) ∈ Call.rules := by
    simp only [Call.rules, List.mem_cons, true_or]
  have hrules : core.rules .corrective invokespecial =
      [(rewriteTop [invokespecial] .high Element.constructed?).rule,
        (rewriteTop invocations .low Element.booleanCall?).rule] := rfl
  have hrewrite : top.element.constructed? =
      some ⟨.newInstance c.ty c.signature c.args, stamp⟩ := by
    rw [htop]
    simp only [Element.constructed?, hc, htarget]
  have happlies : (rewriteTop [invokespecial] .high Element.constructed?).rule.applies u
      invokespecial = true := by
    show ((u.peekAt? 0).bind Element.constructed?).isSome = true
    rw [State.peekAt?, hs]
    show (some top.element |>.bind Element.constructed?).isSome = true
    rw [Option.bind_some, hrewrite]
    rfl
  have hspared : (rewriteTop invocations .low Element.booleanCall?).rule.applies
      ((u.leaving below).push ⟨.newInstance c.ty c.signature c.args, stamp⟩) invokespecial =
        false := by
    have hinert := ((u.leaving below).isInert_entry
      ⟨.newInstance c.ty c.signature c.args, stamp⟩).trans (decide_eq_true hp)
    have hnone := Element.booleanCall?_eq_none hinert
    exact congrArg Option.isSome hnone
  have hcode : invokespecial ∈ [invokevirtual, invokespecial, invokestatic] := by decide
  have hprimary := primary?_core (mem_rules_call hd) rfl hcode (by decide) (by decide) (s := s) rfl
  refine ((exec_step_core hprimary).trans (exec_bind_of_ok h _)).trans ?_
  rw [hrules, runAll, exec_bind_of_ok (exec_get u), happlies, if_pos rfl,
    exec_bind_of_ok (exec_rewriteTop _ _ _ hs hrewrite), runAll, exec_bind_of_ok (exec_get _),
    hspared]
  rfl

end Registry

namespace Fragment

open Opcode

variable {m : Method}

-- A run that leaves the values of some expressions on the stack and does nothing else.
structure Evaluates (m : Method) (es : List Element) (s t : State) (entries : List Entry) :
    Prop where
  runs : Registry.core.Runs s t
  ready : t.Ready m
  ordered : t.Ordered
  stack : t.stack = entries.reverse ++ s.stack
  statements : t.statements = s.statements
  values : entries.map (·.element.bare) = es
  later : ∀ e ∈ entries, ∀ d ∈ s.entries, d.precedes e

namespace Evaluates

variable {es ds : List Element} {s t u : State} {entries others : List Entry}

theorem refl {s : State} (hr : s.Ready m) (ho : s.Ordered) : Evaluates m [] s s [] :=
  ⟨.refl, hr, ho, rfl, rfl, rfl, List.forall_mem_nil _⟩

theorem entries_subset (h : Evaluates m es s t entries) : s.entries ⊆ t.entries := by
  rw [State.entries, State.entries, h.stack, h.statements]
  intro d hd
  rcases List.mem_append.1 hd with hd | hd
  · exact List.mem_append_left _ (List.mem_append_right _ hd)
  · exact List.mem_append_right _ hd

theorem sublist (h : Evaluates m es s t entries) : s.stack.Sublist t.stack := by
  rw [h.stack]
  exact List.sublist_append_right ..

-- A value is made of those above the ones that stay.
theorem replace (h : Evaluates m es s t entries) {v : State} (hv : Registry.core.Runs t v)
    {w : State} (hready : w.Ready m) (hordered : w.Ordered)
    (hsub : s.entries ⊆ w.entries) (hstack : t.stack.Sublist w.stack)
    (hstatements : w.statements = t.statements) {e : Element} (he : e.isInert)
    (hw : v = (w.leaving t.stack).push e) :
    Evaluates m (es ++ [e.bare]) s v (entries ++ [w.entry e]) := by
  subst hw
  refine ⟨h.runs.trans hv, ?_, ?_, ?_, ?_, ?_, ?_⟩
  · exact hready.pushing hstack.subset he
  · exact (hordered.leaving hstack).push e
  · rw [List.reverse_append]
    show w.entry e :: t.stack = _
    rw [h.stack]
    rfl
  · exact hstatements.trans h.statements
  · rw [List.map_append, h.values, List.map_singleton, State.bare_entry]
  · rw [List.forall_mem_append, List.forall_mem_singleton]
    exact ⟨h.later, fun d hd => hordered.precedes_entry (hsub hd) e⟩

end Evaluates

-- An object is allocated in front of the arguments of its constructor.
theorem executes_new {s : State} (hr : s.Ready m) {index : UInt16} {name : String}
    {ty : JvmType} (hname : m.pool.className index = .ok name)
    (hty : JvmType.ofClassName? name = some ty) {rest : Bytes} {pc : Nat}
    (hc : s.cursor = .fresh (new :: (wideBytes index ++ dup :: rest)) pc) :
    Registry.core.Executes s
      (s.yielding s.stack (.ofShape (.allocate ty)) rest (pc + 4) pc) := by
  have hd : Declaration.on [new] (fun _ => Instruction.Object.allocate) ∈
      Instruction.Object.rules := by
    simp only [Instruction.Object.rules, List.mem_cons, true_or, or_true]
  have hc' : s.cursor = .fresh (new :: (wideBytes index ++ [dup]) ++ rest) pc := by
    rw [hc, List.cons_append, List.append_assoc]
    rfl
  refine Registry.executes_yielding (Instruction.mem_rules_object hd) (by decide) (by decide) hr
    hc' (fun _ he => he) rfl ?_
  rw [List.append_assoc]
  refine (Action.exec_bind_classType (hr.method ▸ hname) hty).trans ?_
  refine (Action.exec_bind_read (Reading.exec_instruction_fresh ..)).trans ?_
  rw [if_neg (not_not.2 rfl)]
  rfl

-- A constructor takes its arguments and the object below them, and leaves the construction.
theorem executes_constructor (below : List Entry) {s : State} (hr : s.Ready m) {index : UInt16}
    {member : MemberRef} {signature : MethodDescriptor} (hn : m.Names index member signature)
    (hname : member.name = "<init>") {rest : Bytes} {pc : Nat}
    (hc : s.cursor = .fresh (invokespecial :: (wideBytes index ++ rest)) pc)
    {object : Entry} {entries : List Entry} {ty : JvmType} {stamp : Stamp}
    (hs : s.stack = entries.reverse ++ object :: below)
    (hobject : object.element = ⟨.allocate ty, stamp⟩)
    (hargs : entries.length = signature.parameters.length) :
    ∃ e : Element,
      e.bare = .ofShape (.newInstance (.reference member.owner) signature
        (entries.map (·.element.bare))) ∧
      Registry.core.Executes s (((s.yielding below (.ofShape (.call ⟨.reference member.owner,
        member.name, signature, some object.element, entries.map (·.element),
        .reference member.owner⟩)) rest (pc + 3) pc).leaving below).push e) := by
  have hnames : (s.moved rest (pc + 1 + 2) pc).method.Names index member signature :=
    hr.method ▸ hn
  have hcall := Instruction.Call.exec_call hnames hargs hs
  rw [if_pos hname] at hcall
  have hread : exec (do Instruction.Call.call (← Action.read Reading.u16) false)
      (s.moved (wideBytes index ++ rest) (pc + 1) pc) = _ :=
    (Action.exec_bind_read (Reading.exec_u16_fresh ..)).trans hcall
  let c : Call Element := ⟨.reference member.owner, member.name, signature,
    some object.element, entries.map (·.element), .reference member.owner⟩
  have hconstructor : c.isConstructor := decide_eq_true hname
  have hstep := Registry.exec_step_constructor hread rfl rfl hconstructor
    (congrArg some hobject) hn.noBoolean
  refine ⟨_, ?_, Registry.executes_of_fresh hr.running hc hstep⟩
  rw [Element.bare_mk]
  simp only [Shape.map, List.map_map]
  rfl

namespace Evaluates

variable {below operands : List Element} {s t u : State} {entries others : List Entry}
  {rest : Bytes} {pc : Nat} (ht : Evaluates m below s t entries)
include ht

-- The operands are evaluated and one instruction makes a value of them.
theorem yields (hu : Evaluates m operands t u others) {e : Element} {instruction : Bytes}
    (he : Yields m operands e instruction) (hinert : e.isInert)
    (hc : u.cursor = .fresh (instruction ++ rest) pc)
    (hlen : pc + instruction.length ≤ m.code.length) :
    ∃ v vs, Evaluates m (below ++ [e]) s v vs ∧
      v.cursor = .fresh rest (pc + instruction.length) := by
  have hpos := he.length_pos
  obtain ⟨e', rfl, hex⟩ := he.executes hu.ready (by omega) hc hu.stack hu.values
  rw [Element.isInert_bare] at hinert
  have hordered := hu.ordered.moved hc rest (Nat.le_add_right _ instruction.length)
  have hentries := List.Subset.trans ht.entries_subset hu.entries_subset
  exact ⟨_, _, ht.replace (hu.runs.tail hex) (hu.ready.moved rest _ _) hordered hentries
    hu.sublist hu.statements hinert rfl, rfl⟩

-- A new object lies below the arguments until its constructor is called.
theorem constructs {classIndex index : UInt16} {member : MemberRef}
    {signature : MethodDescriptor} {args : Bytes}
    (hclass : m.pool.className classIndex = .ok member.owner)
    (hty : JvmType.ofClassName? member.owner = some (.reference member.owner))
    (hn : m.Names index member signature) (hname : member.name = "<init>")
    (hargs : operands.length = signature.parameters.length)
    (hc : t.cursor = .fresh (new :: (wideBytes classIndex ++
      dup :: (args ++ invokespecial :: (wideBytes index ++ rest)))) pc)
    (evaluate : ∀ w : State, w.Ready m → w.Ordered →
      w.cursor = .fresh (args ++ invokespecial :: (wideBytes index ++ rest)) (pc + 4) →
      ∃ u others, Evaluates m operands w u others ∧
        u.cursor = .fresh (invokespecial :: (wideBytes index ++ rest)) (pc + 4 + args.length)) :
    ∃ v vs, Evaluates m
        (below ++ [.ofShape (.newInstance (.reference member.owner) signature operands)]) s v vs ∧
      v.cursor = .fresh rest (pc + 4 + args.length + 3) := by
  have hnew := executes_new ht.ready hclass hty hc
  let object : Element := .ofShape (.allocate (.reference member.owner))
  let w := t.yielding t.stack object (args ++ invokespecial :: (wideBytes index ++ rest)) (pc + 4)
    pc
  have hready : w.Ready m := ht.ready.yielding (fun _ he => he) rfl _ _ _
  have hordered : w.Ordered :=
    ((ht.ordered.moved hc _ (Nat.le_add_right _ 4)).leaving (List.Sublist.refl _)).push object
  obtain ⟨u, others, hu, hcu⟩ := evaluate w hready hordered rfl
  have hothers : others.length = signature.parameters.length := by
    rw [← hargs, ← hu.values, List.length_map]
  have hobject : (w.entry object).element = ⟨.allocate (.reference member.owner), _⟩ := rfl
  obtain ⟨e, he, hex⟩ :=
    executes_constructor t.stack hu.ready hn hname hcu hu.stack hobject hothers
  rw [hu.values] at he
  have hinert : e.isInert := by
    rw [← Element.isInert_bare, he]
    exact decide_eq_true hn.noBoolean
  have hstack : t.stack.Sublist u.stack := by
    rw [hu.stack]
    exact (List.sublist_cons_self ..).trans (List.sublist_append_right ..)
  -- between the call and its rewriting the object still is an operand of the call
  let call : Element := .ofShape (.call ⟨.reference member.owner, member.name, signature,
    some (w.entry object).element, others.map (·.element), .reference member.owner⟩)
  let v := u.yielding t.stack call rest (pc + 4 + args.length + 3) (pc + 4 + args.length)
  have hcall : call.isInert := decide_eq_true hn.noBoolean
  have hvready : v.Ready m := hu.ready.yielding hstack.subset hcall _ _ _
  have hvordered : v.Ordered :=
    ((hu.ordered.moved hcu _ (Nat.le_add_right ..)).leaving hstack).push call
  have hst : u.statements = t.statements := hu.statements
  have hentries : t.entries ⊆ v.entries := by
    show t.entries ⊆ _ :: (t.stack ++ u.statements)
    rw [hst]
    exact List.subset_cons_self ..
  rw [← he]
  exact ⟨_, _, ht.replace (.tail (.head hnew hu.runs) hex) hvready hvordered
    (List.Subset.trans ht.entries_subset hentries) (List.sublist_cons_self ..) hst hinert rfl, rfl⟩

end Evaluates

-- The code of some expressions leaves their values, in whatever code it stands.
theorem Compiled.evaluates {es : List Element} {code : Bytes} (h : Compiled m es code) {s : State}
    (hr : s.Ready m) (ho : s.Ordered) {rest : Bytes} {pc : Nat}
    (hc : s.cursor = .fresh (code ++ rest) pc) (hlen : pc + code.length ≤ m.code.length) :
    ∃ t entries, Evaluates m es s t entries ∧ t.cursor = .fresh rest (pc + code.length) := by
  have hplain := h.plain
  induction h generalizing s rest pc with
  | nil => exact ⟨s, [], .refl hr ho, hc⟩
  | @apply below operands e code args instruction hb ha he ihb iha =>
    obtain ⟨hplainb, hplaine⟩ := List.forall_mem_append.1 hplain
    have hinert := (hplaine e (List.mem_singleton_self e)).inert
    simp only [List.length_append] at hlen
    simp only [List.append_assoc] at hc
    obtain ⟨t, entries, ht, hct⟩ := ihb hr ho hc (by omega) hplainb
    obtain ⟨u, others, hu, hcu⟩ := iha ht.ready ht.ordered hct (by omega) ha.plain
    obtain ⟨v, vs, hv, hcv⟩ := ht.yields hu he hinert hcu (by omega)
    refine ⟨v, vs, hv, ?_⟩
    simp only [hcv, List.length_append, ← Nat.add_assoc]
  | @construct below operands code args classIndex index member signature hb ha hclass hty hn
      hname hargs ihb iha =>
    obtain ⟨hplainb, -⟩ := List.forall_mem_append.1 hplain
    simp only [List.length_append, List.length_cons, length_wideBytes] at hlen
    simp only [List.append_assoc, List.cons_append] at hc
    obtain ⟨t, entries, ht, hct⟩ := ihb hr ho hc (by omega) hplainb
    obtain ⟨v, vs, hv, hcv⟩ := ht.constructs hclass hty hn hname hargs hct (by
      intro w hready hordered hcw
      exact iha hready hordered hcw (by omega) ha.plain)
    have hpc : pc + code.length + 4 + args.length + 3 =
        pc + (code.length + (2 + (args.length + (2 + 1) + 1) + 1)) := by
      omega
    refine ⟨v, vs, hv, ?_⟩
    simp only [hcv, List.length_append, List.length_cons, length_wideBytes, ← hpc]

end Fragment

end JvmLift
