import JvmLift.Proofs.Straight

namespace JvmLift

-- The state behind an instruction that leaves some entries and pushes an element on them.
def State.yielding (s : State) (below : List Entry) (e : Element) (rest : Bytes)
    (after pc : Nat) : State :=
  ((s.moved rest after pc).leaving below).push e

-- The state behind an instruction that leaves some entries and adds a statement.
def State.stating (s : State) (below : List Entry) (e : Element) (rest : Bytes)
    (after pc : Nat) : State :=
  ((s.moved rest after pc).leaving below).enlist e

-- A state in which a method goes on and no corrective rule interferes.
structure State.Ready (m : Method) (s : State) : Prop where
  method : s.method = m
  running : s.aborted = false
  inert : s.Inert

namespace State.Ready

variable {m : Method} {s : State}

theorem moved (h : s.Ready m) (rest : Bytes) (after pc : Nat) :
    (s.moved rest after pc).Ready m :=
  ⟨h.method, h.running, h.inert.entries, h.inert.result⟩

theorem pushing (h : s.Ready m) {below : List Entry} (hb : below ⊆ s.stack) {e : Element}
    (he : e.isInert) : ((s.leaving below).push e).Ready m where
  method := h.method
  running := h.running
  inert := by
    refine ⟨fun entry hentry => ?_, h.inert.result⟩
    rcases List.mem_cons.1 hentry with rfl | hentry
    · exact ((s.leaving below).isInert_entry e).trans he
    · rcases List.mem_append.1 hentry with hm | hm
      · exact h.inert.entries entry (List.mem_append_left _ (hb hm))
      · exact h.inert.entries entry (List.mem_append_right _ hm)

theorem yielding (h : s.Ready m) {below : List Entry} (hb : below ⊆ s.stack) {e : Element}
    (he : e.isInert) (rest : Bytes) (after pc : Nat) :
    (s.yielding below e rest after pc).Ready m :=
  (h.moved rest after pc).pushing hb he

end State.Ready

namespace Registry

variable {s t : State} {code : Opcode} {rest : Bytes} {pc : Nat}

theorem executes_of_fresh (ha : s.aborted = false) (hc : s.cursor = .fresh (code :: rest) pc)
    (h : exec (core.step code) (s.moved rest (pc + 1) pc) = (.ok ⟨⟩, t)) :
    core.Executes s t := by
  have hrem : s.cursor.remaining = code :: rest := by
    rw [hc, Cursor.remaining_fresh]
  rw [← State.fetch_eq hc] at h
  exact executes_of_cons ha hrem h

-- A return at the end of the code ends a run that has left nothing but statements.
theorem exists_executes_return (ha : s.aborted = false)
    (hc : s.cursor = .fresh [Opcode.returnVoid] pc)
    (hp : ∀ e ∈ s.stack, e.element.isStatement) :
    ∃ t, core.Executes s t ∧ t.cursor.remaining = [] ∧ t.stack = [] ∧
      t.flush.result.map Element.bare = s.flush.result.map Element.bare ++ [.ofShape .ret] := by
  let u := (s.moved [] (pc + 1) pc).flush
  have hex := executes_of_fresh ha hc (exec_step_returnVoid (s := s.moved [] (pc + 1) pc) hp)
  have hflush := flush_of_nil (u.enlist (.ofShape .ret)) rfl
  have hresult : u.result = s.flush.result := rfl
  have hret : (Element.ofShape .ret).bare = .ofShape .ret := rfl
  refine ⟨u.enlist (.ofShape .ret), hex, Cursor.remaining_fresh .., rfl, ?_⟩
  rw [hflush, State.result_enlist, List.map_append, List.map_singleton, State.bare_entry, hret,
    hresult]

section Ready

variable {m : Method} {codes : List Opcode} {run : Opcode → Action Unit}
  (hd : .on codes run ∈ Instruction.rules) (hcode : code ∈ codes) (hspared : code ∉ special)
  (hr : s.Ready m)
include hd hcode hspared hr

-- An instruction that leaves nothing to correct does what its rule does.
theorem executes_of_ready (hc : s.cursor = .fresh (code :: rest) pc) (ht : t.Ready m)
    (h : exec (run code) (s.moved rest (pc + 1) pc) = (.ok ⟨⟩, t)) : core.Executes s t :=
  executes_of_fresh hr.running hc (exec_step_of_inert hspared hd rfl hcode rfl h ht.inert)

theorem executes_yielding {operand : Bytes}
    (hc : s.cursor = .fresh (code :: operand ++ rest) pc) {below : List Entry}
    (hb : below ⊆ s.stack) {e : Element} (he : e.isInert)
    (h : exec (run code) (s.moved (operand ++ rest) (pc + 1) pc) =
      (.ok ⟨⟩, s.yielding below e rest (pc + (code :: operand).length) pc)) :
    core.Executes s (s.yielding below e rest (pc + (code :: operand).length) pc) :=
  executes_of_ready hd hcode hspared hr hc (hr.yielding hb he rest _ pc) h

end Ready

end Registry

theorem eq_singleton_of_map {entries : List Entry} {e : Element}
    (h : entries.map (·.element.bare) = [e]) : ∃ o, entries = [o] ∧ o.element.bare = e := by
  simpa [List.map_eq_cons_iff] using h

theorem eq_pair_of_map {entries : List Entry} {d e : Element}
    (h : entries.map (·.element.bare) = [d, e]) :
    ∃ l r, entries = [l, r] ∧ l.element.bare = d ∧ r.element.bare = e := by
  obtain ⟨l, others, rfl, hl, ho⟩ := List.map_eq_cons_iff.1 h
  obtain ⟨r, rfl, hr⟩ := eq_singleton_of_map ho
  exact ⟨l, r, rfl, hl, hr⟩

namespace Fragment

open Instruction Declaration Opcode

theorem mem_rules_get : on [Opcode.getstatic, Opcode.getfield] (fun code => do
    Action.push (.ofShape (.field (← Object.field (code = Opcode.getfield))))) ∈
      Object.rules := by
  simp only [Object.rules, List.mem_cons, true_or]

theorem Constants.bare {m : Method} {e : Element} {code : Bytes} (h : Constants m e code) :
    e.bare = e := by
  have hpool {value : Loadable} (he : value.expression? = some e) : e.bare = e := by
    cases value with
    | int | long | string =>
      cases he
      rfl
    | _ => cases he
  cases h with
  | pool _ he _ | poolWide _ he _ | poolDouble _ he _ => exact hpool he
  | _ => rfl

theorem Constants.isInert {e : Element} {code : Bytes} (h : Constants m e code) : e.isInert := by
  have hpool {value : Loadable} (he : value.expression? = some e) : e.isInert := by
    cases value with
    | int | long | string =>
      cases he
      rfl
    | _ => cases he
  cases h with
  | pool _ he _ | poolWide _ he _ | poolDouble _ he _ => exact hpool he
  | _ => rfl

theorem Loads.length_pos {slot : UInt16} {code : Bytes} (h : Loads slot code) :
    0 < code.length := by
  cases h <;> exact Nat.succ_pos _

theorem Stores.length_pos {slot : UInt16} {code : Bytes} (h : Stores slot code) :
    0 < code.length := by
  cases h <;> exact Nat.succ_pos _

section Locals

variable {m : Method} {s : State} {pc : Nat} (hm : s.method = m)
  {slot : UInt16} {v : LocalVariable} (hv : m.Covers slot v) (hlt : pc < m.code.length)
include hm hv hlt

-- A load pushes the variable, whatever is corrected then.
theorem Loads.exec_step (rest : Bytes) {code : Bytes} (h : Loads slot code) :
    ∃ head operand, code = head :: operand ∧ head ∉ Registry.special ∧
      exec (Registry.core.step head) (s.moved (operand ++ rest) (pc + 1) pc) =
        exec (Registry.runAll head (Registry.core.rules .corrective head))
          (s.yielding s.stack (.ofShape (.localVar ⟨v.name, v.ty, slot⟩)) rest
            (pc + code.length) pc) := by
  have hat (bytes : Bytes) (after : Nat) :
      (s.moved bytes after pc).method.localAt? slot (s.moved bytes after pc).instructionPc =
        some v := by
    have hmoved : (s.moved bytes after pc).method = m := hm
    rw [hmoved]
    exact hv.localAt?_of_lt hlt
  obtain ⟨head, operand, rfl, hspared, hdoes⟩ := h.implements
  refine ⟨head, operand, rfl, hspared, ?_⟩
  rw [hdoes s rest pc]
  exact exec_bind_of_ok (Local.exec_load (hat _ _)) _

-- A store makes an assignment of the entry on top of the stack, whatever is corrected then.
theorem Stores.exec_step (rest : Bytes) {code : Bytes} (h : Stores slot code) {top : Entry}
    {below : List Entry} (hs : s.stack = top :: below) :
    ∃ head operand, code = head :: operand ∧ head ∉ Registry.special ∧
      exec (Registry.core.step head) (s.moved (operand ++ rest) (pc + 1) pc) =
        exec (Registry.runAll head (Registry.core.rules .corrective head))
          (s.stating below (.ofShape (.assign slot v.name v.ty top.element)) rest
            (pc + code.length) pc) := by
  have hcovers (bytes : Bytes) (after : Nat) : (s.moved bytes after pc).method.Covers slot v := by
    have hmoved : (s.moved bytes after pc).method = m := hm
    rwa [hmoved]
  have hlen (bytes : Bytes) (after : Nat) : (s.moved bytes after pc).instructionPc <
      (s.moved bytes after pc).method.code.length := by
    have hmoved : (s.moved bytes after pc).method = m := hm
    rwa [hmoved]
  obtain ⟨head, operand, rfl, hspared, hdoes⟩ := h.implements
  refine ⟨head, operand, rfl, hspared, ?_⟩
  rw [hdoes s rest pc]
  exact exec_bind_of_ok (Local.exec_store (s := s.moved rest _ pc) hs (hcovers _ _) (hlen _ _)) _

end Locals

variable {m : Method} {s : State} {rest : Bytes} {pc : Nat} (hr : s.Ready m)
include hr

theorem Constants.executes {e : Element} {code : Bytes} (h : Constants m e code)
    (hc : s.cursor = .fresh (code ++ rest) pc) :
    Registry.core.Executes s (s.yielding s.stack e rest (pc + code.length) pc) := by
  obtain ⟨a, hpushes, ha⟩ := h.exists_pushes
  obtain ⟨head, operand, rfl, hspared, hdoes⟩ := hpushes.implements
  have hready := hr.yielding (List.Subset.refl _) h.isInert rest (pc + (head :: operand).length) pc
  have hpushed := ha (s.moved rest (pc + (head :: operand).length) pc) hr.method
  refine Registry.executes_of_fresh hr.running hc ((hdoes s rest pc).trans ?_)
  exact (exec_bind_of_ok hpushed _).trans
    (Registry.exec_corrections_of_inert hspared hready.inert)

theorem Loads.executes {slot : UInt16} {v : LocalVariable} {code : Bytes} (h : Loads slot code)
    (hv : m.Covers slot v) (hlt : pc < m.code.length)
    (hc : s.cursor = .fresh (code ++ rest) pc) :
    Registry.core.Executes s
      (s.yielding s.stack (.ofShape (.localVar ⟨v.name, v.ty, slot⟩)) rest (pc + code.length)
        pc) := by
  obtain ⟨head, operand, hcode, hspared, hstep⟩ := h.exec_step hr.method hv hlt rest
  have hready := hr.yielding (fun _ he => he)
    (e := .ofShape (.localVar ⟨v.name, v.ty, slot⟩)) rfl rest (pc + code.length) pc
  have hcorrect := Registry.exec_corrections_of_inert hspared hready.inert
  subst hcode
  exact Registry.executes_of_fresh hr.running hc (hstep.trans hcorrect)

-- A call on an object takes the object from below the arguments.
theorem exists_call {index : UInt16} {member : MemberRef} {signature : MethodDescriptor}
    {target : Element} {args : List Element} (hn : m.Names index member signature)
    (hname : member.name ≠ "<init>") (hargs : args.length = signature.parameters.length)
    {entries below : List Entry} (hs : s.stack = entries.reverse ++ below)
    (hops : entries.map (·.element.bare) = target :: args) :
    ∃ e : Element, e.bare = .ofShape (.call ⟨.reference member.owner, member.name, signature,
        some target, args, signature.result⟩) ∧ e.isInert ∧
      ∀ rest after pc, exec (Call.call index false) (s.moved rest after pc) =
        (.ok ⟨⟩, s.yielding below e rest after pc) := by
  obtain ⟨first, others, rfl, rfl, hothers⟩ := List.map_eq_cons_iff.1 hops
  have hlen : others.length = signature.parameters.length := by
    rw [← hargs, ← hothers, List.length_map]
  have hs' : s.stack = others.reverse ++ first :: below := by
    rw [hs, List.reverse_cons, List.append_assoc]
    rfl
  refine ⟨.ofShape (.call ⟨.reference member.owner, member.name, signature, some first.element,
    others.map (·.element), signature.result⟩), ?_, decide_eq_true hn.noBoolean, ?_⟩
  · rw [Element.ofShape, Element.bare_mk, ← hothers]
    simp only [Shape.map, List.map_map, Option.map_some]
    rfl
  · intro rest after pc
    have hm : (s.moved rest after pc).method.Names index member signature := hr.method ▸ hn
    have hcall := Call.exec_call hm hlen hs'
    rwa [if_neg hname] at hcall

-- A call takes its operands and leaves itself with what they have become.
theorem Calls.executes {operands : List Element} {c : Call Element} {code : Bytes}
    (h : Calls m operands c code) (hc : s.cursor = .fresh (code ++ rest) pc)
    {entries below : List Entry} (hs : s.stack = entries.reverse ++ below)
    (hops : entries.map (·.element.bare) = operands) :
    ∃ e : Element, e.bare = .ofShape (.call c) ∧
      Registry.core.Executes s (s.yielding below e rest (pc + code.length) pc) := by
  have hb : below ⊆ s.stack := fun e he => hs ▸ List.mem_append_right _ he
  have hcodes : on [invokevirtual, invokespecial, invokestatic] (fun code => do
      Call.call (← Action.read Reading.u16) (code = invokestatic)) ∈ Call.rules := by
    simp only [Call.rules, List.mem_cons, true_or]
  cases h with
  | @ofClass index member signature _ hn hname hargs =>
    have hlen : entries.length = signature.parameters.length := by
      rw [← hargs, ← hops, List.length_map]
    have hm : (s.moved rest (pc + 1 + 2) pc).method.Names index member signature :=
      hr.method ▸ hn
    refine ⟨.ofShape (.call ⟨.reference member.owner, member.name, signature, none,
      entries.map (·.element), signature.result⟩), ?_, ?_⟩
    · rw [Element.ofShape, Element.bare_mk, ← hops]
      simp only [Shape.map, List.map_map, Option.map_none]
      rfl
    · refine Registry.executes_yielding (mem_rules_call hcodes) (by decide) (by decide) hr hc hb
        (decide_eq_true hn.noBoolean) ?_
      exact (Action.exec_bind_read (Reading.exec_u16_fresh ..)).trans
        (Call.exec_call_static hm hname hlen hs)
  | @ofObject index member signature target args hn hname hargs =>
    obtain ⟨e, he, hinert, hcall⟩ := exists_call hr hn hname hargs hs hops
    refine ⟨e, he, ?_⟩
    refine Registry.executes_yielding (mem_rules_call hcodes) (List.mem_cons_self ..) (by decide) hr
      hc hb hinert ?_
    exact (Action.exec_bind_read (Reading.exec_u16_fresh ..)).trans (hcall ..)
  | @ofInterface index member signature target args count hn hname hargs hcount =>
    obtain ⟨e, he, hinert, hcall⟩ := exists_call hr hn hname hargs hs hops
    have hd : on [invokeinterface] (fun _ => do
        let index ← Action.read Reading.u16
        if (← Action.read Reading.u8) = 0 then throw .zeroArgumentCount
        discard (Action.read Reading.u8)
        Call.call index false) ∈ Call.rules := by
      simp only [Call.rules, List.mem_cons, true_or, or_true]
    have hlast : exec (discard (Action.read Reading.u8))
        (s.moved (0 :: rest) (pc + 1 + 2 + 1) pc) =
          (.ok ⟨⟩, s.moved rest (pc + 1 + 2 + 1 + 1) pc) := by
      rw [exec_discard, Action.exec_read_moved (Reading.exec_u8_fresh ..)]
      rfl
    rw [List.cons_append] at hc ⊢
    refine ⟨e, he, ?_⟩
    refine Registry.executes_yielding (mem_rules_call hd) (List.mem_cons_self ..) (by decide) hr hc
      hb hinert ?_
    rw [List.append_assoc]
    refine (Action.exec_bind_read (Reading.exec_u16_fresh ..)).trans ?_
    refine (Action.exec_bind_read (Reading.exec_u8_fresh ..)).trans ?_
    rw [if_neg hcount]
    exact (exec_bind_of_ok hlast _).trans (hcall ..)

-- The operand is wrapped together with a type that the code names.
theorem executes_typed {code : Opcode} {make : Element → JvmType → Shape Element}
    (hd : on [code] (fun _ => do
      let ty ← Action.classType (← Action.read Reading.u16)
      Action.push (.ofShape (make (← Action.pop) ty))) ∈ Instruction.rules)
    (hspared : code ∉ Registry.special) {operand : Entry} {below : List Entry}
    (hs : s.stack = operand :: below) {index : UInt16} {name : String} {ty : JvmType}
    (hname : m.pool.className index = .ok name) (hty : JvmType.ofClassName? name = some ty)
    (hinert : (Element.ofShape (make operand.element ty)).isInert)
    (hc : s.cursor = .fresh (code :: wideBytes index ++ rest) pc) :
    Registry.core.Executes s (s.yielding below (.ofShape (make operand.element ty)) rest
      (pc + (code :: wideBytes index).length) pc) := by
  have hb : below ⊆ s.stack := by
    rw [hs]
    exact List.subset_cons_self ..
  have hm : (s.moved rest (pc + 1 + 2) pc).stack = operand :: below := hs
  refine Registry.executes_yielding hd (List.mem_singleton_self _) hspared hr hc hb hinert ?_
  refine (Action.exec_bind_classType (hr.method ▸ hname) hty).trans ?_
  exact exec_bind_of_ok (Action.exec_pop_of_cons hm) _

-- An instruction takes its operands and leaves what it makes of them.
theorem Yields.executes {operands : List Element} {e : Element} {code : Bytes}
    (h : Yields m operands e code) (hlt : pc < m.code.length)
    (hc : s.cursor = .fresh (code ++ rest) pc) {entries below : List Entry}
    (hs : s.stack = entries.reverse ++ below)
    (hops : entries.map (·.element.bare) = operands) :
    ∃ e' : Element, e'.bare = e ∧
      Registry.core.Executes s (s.yielding below e' rest (pc + code.length) pc) := by
  have hb : below ⊆ s.stack := fun e he => hs ▸ List.mem_append_right _ he
  cases h with
  | constant hcode =>
    obtain rfl := List.map_eq_nil_iff.1 hops
    obtain rfl : s.stack = below := hs
    exact ⟨e, hcode.bare, hcode.executes hr hc⟩
  | localVar hcode hv =>
    obtain rfl := List.map_eq_nil_iff.1 hops
    obtain rfl : s.stack = below := hs
    exact ⟨_, rfl, hcode.executes hr hv hlt hc⟩
  | @binary left right code op ty hop =>
    obtain ⟨l, r, rfl, rfl, rfl⟩ := eq_pair_of_map hops
    have hd : on [code] (fun _ => Arithmetic.binary op ty) ∈ Arithmetic.rules := by
      simp only [Arithmetic.rules, List.mem_append]
      exact .inl (.inl (List.mem_map_of_mem hop))
    have hspared : ∀ d ∈ Arithmetic.binaryOperators, d.1 ∉ Registry.special := by decide
    refine ⟨.ofShape (.binary l.element op r.element ty), rfl, ?_⟩
    exact Registry.executes_yielding (mem_rules_arithmetic hd) (List.mem_singleton.2 rfl)
      (hspared _ hop) hr hc hb rfl (Arithmetic.exec_binary op ty hs)
  | @negate operand code hcode =>
    obtain ⟨o, rfl, rfl⟩ := eq_singleton_of_map hops
    have hd : on (range ineg dneg) (fun _ => Arithmetic.negate) ∈ Arithmetic.rules := by
      simp only [Arithmetic.rules, List.mem_append, List.mem_cons, true_or, or_true]
    have hspared := Registry.not_mem_special_of_mem_range hcode rfl
    refine ⟨.ofShape (.unary o.element .neg o.element.ty), ?_, ?_⟩
    · rw [Element.ofShape, Element.bare_mk, Element.ty_bare]
      rfl
    · exact Registry.executes_yielding (mem_rules_arithmetic hd) hcode hspared hr hc hb rfl
        (Arithmetic.exec_negate hs)
  | @convert operand code ty hcode hty =>
    obtain ⟨o, rfl, rfl⟩ := eq_singleton_of_map hops
    have hd : on [code] (fun _ => do Action.push (.ofShape (.cast (← Action.pop) ty))) ∈
        Arithmetic.rules := by
      simp only [Arithmetic.rules, List.mem_append]
      exact .inl (.inr (List.mem_map_of_mem hcode))
    have hspared : ∀ d ∈ Arithmetic.conversions, d.1 ∉ Registry.special := by decide
    have hm : (s.moved rest (pc + 1) pc).stack = o :: below := hs
    refine ⟨.ofShape (.cast o.element ty), rfl, ?_⟩
    exact Registry.executes_yielding (mem_rules_arithmetic hd) (List.mem_singleton.2 rfl)
      (hspared _ hcode) hr hc hb rfl (exec_bind_of_ok (Action.exec_pop_of_cons hm) _)
  | @checkcast operand index name ty hname hty =>
    obtain ⟨o, rfl, rfl⟩ := eq_singleton_of_map hops
    have hd : on [Opcode.checkcast] (fun _ => do
        let ty ← Action.classType (← Action.read Reading.u16)
        Action.push (.ofShape (.cast (← Action.pop) ty))) ∈ Object.rules := by
      simp only [Object.rules, List.mem_cons, true_or, or_true]
    exact ⟨.ofShape (.cast o.element ty), rfl,
      executes_typed hr (mem_rules_object hd) (by decide) hs hname hty rfl hc⟩
  | @instanceOf operand index name ty hname hty =>
    obtain ⟨o, rfl, rfl⟩ := eq_singleton_of_map hops
    have hd : on [Opcode.instanceof] (fun _ => do
        let ty ← Action.classType (← Action.read Reading.u16)
        Action.push (.ofShape (.instanceOf (← Action.pop) ty))) ∈ Object.rules := by
      simp only [Object.rules, List.mem_cons, true_or, or_true]
    exact ⟨.ofShape (.instanceOf o.element ty), rfl,
      executes_typed hr (mem_rules_object hd) (by decide) hs hname hty rfl hc⟩
  | @getfield target index member ty hfield hty =>
    obtain ⟨o, rfl, rfl⟩ := eq_singleton_of_map hops
    refine ⟨.ofShape (.field ⟨some o.element, .reference member.owner, ty, member.name⟩), rfl, ?_⟩
    refine Registry.executes_yielding (mem_rules_object mem_rules_get) (by decide) (by decide) hr hc
      hb rfl ?_
    have hf : s.method.pool.fieldRef index = .ok member := hr.method ▸ hfield
    exact exec_bind_of_ok (Object.exec_field hf hty hs) _
  | @getstatic index member ty hfield hty =>
    obtain rfl := List.map_eq_nil_iff.1 hops
    obtain rfl : s.stack = below := hs
    refine ⟨.ofShape (.field ⟨none, .reference member.owner, ty, member.name⟩), rfl, ?_⟩
    refine Registry.executes_yielding (mem_rules_object mem_rules_get) (List.mem_cons_self ..)
      (by decide) hr hc hb rfl ?_
    have hf : s.method.pool.fieldRef index = .ok member := hr.method ▸ hfield
    exact exec_bind_of_ok (Object.exec_field_static hf hty) _
  | @arrayLoad array index component hty =>
    obtain ⟨a, i, rfl, rfl, rfl⟩ := eq_pair_of_map hops
    have hd : on (range iaload saload) Array.load ∈ Array.rules := by
      simp only [Array.rules, List.mem_cons, true_or, or_true]
    have hload : elementLoad component ∈ range iaload saload := by
      cases component with
      | reference name => exact List.mem_of_elem_eq_true rfl
      | array component => exact List.mem_of_elem_eq_true rfl
      | _ => decide
    have hspared := Registry.not_mem_special_of_mem_range hload rfl
    rw [Element.ty_bare] at hty
    refine ⟨.ofShape (.arrayLoad a.element i.element component), rfl, ?_⟩
    exact Registry.executes_yielding (mem_rules_array hd) hload hspared hr hc hb rfl
      (Array.exec_load hs hty)
  | @newarray length code component hcode =>
    obtain ⟨o, rfl, rfl⟩ := eq_singleton_of_map hops
    refine ⟨.ofShape (.newArray (.array component) component o.element []), rfl, ?_⟩
    refine Registry.executes_yielding (mem_rules_array (List.mem_cons_self ..))
      (List.mem_cons_self ..) (by decide) hr hc hb rfl ?_
    refine (Action.exec_bind_read (Reading.exec_u8_fresh ..)).trans ?_
    rw [hcode]
    exact Array.exec_allocate component hs
  | @anewarray length index name component hname hty =>
    obtain ⟨o, rfl, rfl⟩ := eq_singleton_of_map hops
    have hd : on [Opcode.anewarray] (fun _ => do
        Array.allocate (← Action.classType (← Action.read Reading.u16))) ∈ Array.rules := by
      simp only [Array.rules, List.mem_cons, true_or, or_true]
    refine ⟨.ofShape (.newArray (.array component) component o.element []), rfl, ?_⟩
    refine Registry.executes_yielding (mem_rules_array hd) (List.mem_cons_self ..) (by decide) hr hc
      hb rfl ?_
    refine (Action.exec_bind_classType (hr.method ▸ hname) hty).trans ?_
    exact Array.exec_allocate component hs
  | call hcall _ => exact hcall.executes hr hc hs hops

end Fragment

end JvmLift
