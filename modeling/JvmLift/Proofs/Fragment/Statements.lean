import JvmLift.Proofs.Fragment.Expressions

namespace JvmLift

theorem State.Ready.stating {m : Method} {s : State} (h : s.Ready m) {below : List Entry}
    (hb : below ⊆ s.stack) {e : Element} (he : e.isInert) (rest : Bytes) (after pc : Nat) :
    (s.stating below e rest after pc).Ready m where
  method := h.method
  running := h.running
  inert := by
    refine ⟨fun entry hentry => ?_, h.inert.result⟩
    rcases List.mem_append.1 hentry with hm | hm
    · exact h.inert.entries entry (List.mem_append_left _ (hb hm))
    · rcases List.mem_cons.1 hm with rfl | hm
      · exact (State.isInert_entry _ e).trans he
      · exact h.inert.entries entry (List.mem_append_right _ hm)

theorem Element.isStatement_of_kind {e : Element} (h : e.kind = .call ∨ e.kind = .newInstance) :
    e.isStatement := by
  obtain ⟨shape, stamp⟩ := e
  cases shape with
  | call | newInstance => rfl
  | _ => rcases h with h | h <;> cases h

namespace Fragment

open Instruction Declaration Opcode

variable {m : Method}

-- A run that adds statements to those that a state stands for. What it parks on the stack is
-- a statement already.
structure Performs (m : Method) (statements : List Element) (s t : State) : Prop where
  runs : Registry.core.Runs s t
  ready : t.Ready m
  ordered : t.Ordered
  parked : ∀ e ∈ t.stack, e.element.isStatement
  values : t.flush.result.map Element.bare = s.flush.result.map Element.bare ++ statements

theorem Performs.trans {before after : List Element} {s t u : State}
    (h : Performs m before s t) (h' : Performs m after t u) :
    Performs m (before ++ after) s u where
  runs := h.runs.trans h'.runs
  ready := h'.ready
  ordered := h'.ordered
  parked := h'.parked
  values := by rw [h'.values, h.values, List.append_assoc]

namespace Evaluates

variable {es : List Element} {s t v : State} {entries : List Entry}
  (h : Evaluates m es s t entries) (hp : ∀ d ∈ s.stack, d.element.isStatement)
include h hp

-- A new entry among the statements, or on top of the stack, is the statement that is added.
theorem performs (hv : Registry.core.Runs t v) (hready : v.Ready m) (hordered : v.Ordered)
    {e : Entry} (hlast : ∀ d ∈ s.entries, d.precedes e) (hinert : e.element.isInert)
    (hnew : v.stack = s.stack ∧ v.statements = e :: s.statements ∨
      v.stack = e :: s.stack ∧ v.statements = s.statements ∧ e.element.isStatement) :
    Performs m [e.element.bare] s v := by
  have hsettled := Entry.settled_of_isInert hinert
  refine ⟨h.runs.trans hv, hready, hordered, ?_, ?_⟩
  · rcases hnew with ⟨hs, -⟩ | ⟨hs, -, he⟩
    · rwa [hs]
    · rw [hs, List.forall_mem_cons]
      exact ⟨he, hp⟩
  · have hflush : v.flush.statements = e.settled :: s.flush.statements := by
      refine flush_of_last hlast ?_
      rw [hsettled]
      exact hnew.imp_right fun hn => ⟨hn.1, hn.2.1⟩
    rw [State.result, hflush, hsettled, List.reverse_cons, List.map_append, List.map_append]
    rfl

variable {e : Element} {bytes rest : Bytes} {pc after : Nat}
  (hc : t.cursor = .fresh bytes pc) (hle : pc ≤ after) (he : e.isInert)
include hc hle he

theorem stating (hex : Registry.core.Executes t (t.stating s.stack e rest after pc)) :
    Performs m [e.bare] s (t.stating s.stack e rest after pc) := by
  have hmoved := h.ordered.moved hc rest hle
  have hlast : ∀ d ∈ s.entries, d.precedes ((t.moved rest after pc).entry e) :=
    fun d hd => hmoved.precedes_entry (h.entries_subset hd) e
  have hp := h.performs hp (.single hex) (h.ready.stating h.sublist.subset he _ _ _)
    ((hmoved.leaving h.sublist).enlist e) hlast ((State.isInert_entry _ _).trans he)
    (.inl ⟨rfl, congrArg _ h.statements⟩)
  rwa [State.bare_entry] at hp

theorem yielding (hst : e.isStatement)
    (hex : Registry.core.Executes t (t.yielding s.stack e rest after pc)) :
    Performs m [e.bare] s (t.yielding s.stack e rest after pc) := by
  have hmoved := h.ordered.moved hc rest hle
  have hlast : ∀ d ∈ s.entries, d.precedes ((t.moved rest after pc).entry e) :=
    fun d hd => hmoved.precedes_entry (h.entries_subset hd) e
  have hp := h.performs hp (.single hex) (h.ready.yielding h.sublist.subset he _ _ _)
    ((hmoved.leaving h.sublist).push e) hlast ((State.isInert_entry _ _).trans he)
    (.inr ⟨rfl, h.statements, (State.isStatement_entry _ _).trans hst⟩)
  rwa [State.bare_entry] at hp

end Evaluates

section Instructions

variable {s : State} {rest : Bytes} {pc : Nat} (hr : s.Ready m)
include hr

-- The entry on top of the stack is assigned to a variable.
theorem Stores.executes {slot : UInt16} {v : LocalVariable} {code : Bytes}
    (h : Stores slot code) (hv : m.Covers slot v) (hlt : pc < m.code.length)
    (hc : s.cursor = .fresh (code ++ rest) pc) {top : Entry} {below : List Entry}
    (hs : s.stack = top :: below) (hbroad : top.element.isNarrowCast = false) :
    Registry.core.Executes s (s.stating below
      (.ofShape (.assign slot v.name v.ty top.element)) rest (pc + code.length) pc) := by
  obtain ⟨head, operand, hcode, hspared, hstep⟩ := h.exec_step hr.method hv hlt rest hs
  have hb : below ⊆ s.stack := hs ▸ List.subset_cons_self ..
  have hinert : (Element.ofShape (.assign slot v.name v.ty top.element)).isInert := by
    show (decide (v.ty ≠ .boolean) && !top.element.isNarrowCast) = true
    rw [hbroad, decide_eq_true hv.ty]
    rfl
  have hready := hr.stating hb hinert rest (pc + code.length) pc
  have hcorrect := Registry.exec_corrections_of_inert hspared hready.inert
  subst hcode
  exact Registry.executes_of_fresh hr.running hc (hstep.trans hcorrect)

end Instructions

section Discard

variable {s : State} {top : Entry} {below : List Entry} (hs : s.stack = top :: below)
  (hst : top.element.isStatement)
include hs

theorem categories_of_cons :
    s.categories = top.element.ty.category :: below.map fun e => e.element.ty.category := by
  rw [State.categories, hs, List.map_cons]

include hst

-- The entry on top of the stack is made a statement.
theorem exec_discard_reduce :
    exec (discard Action.reduce) s = (.ok ⟨⟩, (s.leaving below).file top.settled) := by
  rw [exec_discard, Action.exec_reduce, hs]
  dsimp only
  rw [if_pos hst]
  rfl

theorem exec_step_pop (hcast : top.element.kind ≠ .cast)
    (hcategory : top.element.ty.category = 1) :
    exec (Registry.core.step Opcode.pop) s =
      (.ok ⟨⟩, (s.leaving below).file top.settled) := by
  have htop : ¬s.topIs .cast := by
    rw [State.topIs_iff]
    rintro ⟨d, rest, hd, hk⟩
    rw [hs] at hd
    exact hcast ((List.cons.inj hd).1 ▸ hk)
  have hone : s.hasCategories [1] := by
    rw [State.hasCategories, categories_of_cons hs, hcategory]
    rfl
  have hrun : exec (Shuffle.discardOne Opcode.pop) s =
      (.ok ⟨⟩, (s.leaving below).file top.settled) := by
    rw [Shuffle.discardOne, Shuffle.require, exec_bind, exec_bind_of_ok (exec_get _), if_pos hone]
    exact exec_discard_reduce hs hst
  have hlast : Registry.core.rules .corrective Opcode.pop = [] := rfl
  rw [Registry.exec_step_core (Registry.primary?_pop_of_not_cast htop), hlast]
  exact exec_bind_of_ok hrun _

theorem exec_step_pop2 (hcategory : top.element.ty.category = 2) :
    exec (Registry.core.step Opcode.pop2) s =
      (.ok ⟨⟩, (s.leaving below).file top.settled) := by
  have hd : on [Opcode.pop2] Shuffle.discardTwo ∈ Shuffle.rules := by
    simp only [Shuffle.rules, List.mem_append, List.mem_cons, true_or, or_true]
  have hnot : s.hasCategories [1, 1] = false := by
    rw [State.hasCategories, categories_of_cons hs, hcategory]
    rfl
  have hwide : s.hasCategories [2] := by
    rw [State.hasCategories, categories_of_cons hs, hcategory]
    rfl
  have hrun : exec (Shuffle.discardTwo Opcode.pop2) s =
      (.ok ⟨⟩, (s.leaving below).file top.settled) := by
    rw [Shuffle.discardTwo, exec_bind_of_ok (exec_get _), hnot, if_neg Bool.false_ne_true,
      Shuffle.require, exec_bind, exec_bind_of_ok (exec_get _), if_pos hwide]
    exact exec_discard_reduce hs hst
  have hlast : Registry.core.rules .corrective Opcode.pop2 = [] := rfl
  rw [Registry.exec_step_of_primary (by decide) (mem_rules_shuffle hd) rfl
    (List.mem_singleton_self _) rfl hrun, hlast]
  rfl

-- A value is discarded by the instruction of its category.
theorem executes_discard {rest : Bytes} {pc : Nat} (ha : s.aborted = false)
    (hc : s.cursor = .fresh (Opcode.discard top.element.ty :: rest) pc)
    (hcast : top.element.kind ≠ .cast) :
    Registry.core.Executes s
      (((s.moved rest (pc + 1) pc).leaving below).file top.settled) := by
  have hm : (s.moved rest (pc + 1) pc).stack = top :: below := hs
  apply Registry.executes_of_fresh ha hc
  unfold Opcode.discard
  split
  · rename_i hcategory
    exact exec_step_pop hm hst hcast hcategory
  · rename_i hcategory
    have htwo : top.element.ty.category = 2 := by
      unfold JvmType.category at hcategory ⊢
      split_ifs at hcategory ⊢
      · rfl
      · exact absurd rfl hcategory
    exact exec_step_pop2 hm hst htwo

end Discard

namespace Evaluates

variable {operands : List Element} {s t : State} {entries : List Entry} {rest : Bytes} {pc : Nat}

-- The operands are taken by a call that is a statement.
theorem calls (h : Evaluates m operands s t entries)
    (hp : ∀ d ∈ s.stack, d.element.isStatement) {c : Call Element} {code : Bytes}
    (hcall : Calls m operands c code) (hc : t.cursor = .fresh (code ++ rest) pc) :
    ∃ u, Performs m [.ofShape (.call c)] s u ∧ u.cursor = .fresh rest (pc + code.length) := by
  obtain ⟨e, hbare, hex⟩ := hcall.executes h.ready hc h.stack h.values
  have hinert : e.isInert := by
    rw [← Element.isInert_bare, hbare]
    exact hcall.isInert
  have hst : e.isStatement := by
    rw [← Element.isStatement_bare, hbare]
    rfl
  rw [← hbare]
  exact ⟨_, h.yielding hp hc (Nat.le_add_right ..) hinert hst hex, rfl⟩

-- A value that was computed for its effect alone is discarded.
theorem discards {e : Element} (h : Evaluates m [e] s t entries)
    (hp : ∀ d ∈ s.stack, d.element.isStatement) (he : e.kind = .call ∨ e.kind = .newInstance)
    (hinert : e.isInert) (hc : t.cursor = .fresh (Opcode.discard e.ty :: rest) pc) :
    ∃ u, Performs m [e] s u ∧ u.cursor = .fresh rest (pc + 1) := by
  obtain ⟨top, rfl, rfl⟩ := eq_singleton_of_map h.values
  rw [Element.isInert_bare] at hinert
  rw [Element.kind_bare] at he
  rw [Element.ty_bare] at hc
  have hcast : top.element.kind ≠ .cast := by
    rcases he with he | he <;>
      rw [he] <;>
      decide
  have hex := executes_discard h.stack (Element.isStatement_of_kind he) h.ready.running hc hcast
  have hlast := h.later top (List.mem_singleton_self top)
  have hfile : top.settled.fileInto t.statements = top :: s.statements := by
    rw [h.statements, Entry.settled_of_isInert hinert]
    apply fileInto_of_last
    intro d hd
    exact hlast d (List.mem_append_right _ hd)
  have hordered := (h.ordered.moved hc rest (Nat.le_add_right _ 1)).file h.stack
    top.element.settled
  have hready : State.Ready m
      (((t.moved rest (pc + 1) pc).leaving s.stack).file top.settled) := by
    refine ⟨h.ready.method, h.ready.running, ?_, h.ready.inert.result⟩
    intro d hd
    have hd' : d ∈ s.stack ++ top :: s.statements := by
      rw [← hfile]
      exact hd
    apply h.ready.inert.entries d
    rw [State.entries, h.stack, h.statements]
    exact List.perm_middle.subset hd'
  exact ⟨_, h.performs hp (.single hex) hready hordered hlast hinert (.inl ⟨rfl, hfile⟩), rfl⟩

end Evaluates

theorem mem_rules_put : on [Opcode.putstatic, Opcode.putfield] (fun code => do
    let value ← Action.pop
    Action.enlist (.ofShape (.assignField (← Object.field (code = Opcode.putfield)) value))) ∈
      Object.rules := by
  simp only [Object.rules, List.mem_cons, true_or, or_true]

section Statements

variable {s : State} (hr : s.Ready m) (ho : s.Ordered)
  (hp : ∀ d ∈ s.stack, d.element.isStatement)
include hr ho hp

-- Some values are computed, and an instruction makes a statement of them.
theorem Compiled.performs {es : List Element} {statement : Element} {code instruction : Bytes}
    (h : Compiled m es code) (hinert : statement.isInert) {rest : Bytes} {pc : Nat}
    (hc : s.cursor = .fresh (code ++ instruction ++ rest) pc)
    (hlen : pc + (code ++ instruction).length ≤ m.code.length)
    (step : ∀ t entries, Evaluates m es s t entries →
      t.cursor = .fresh (instruction ++ rest) (pc + code.length) →
      ∃ e : Element, e.bare = statement ∧ Registry.core.Executes t
        (t.stating s.stack e rest (pc + code.length + instruction.length) (pc + code.length))) :
    ∃ t, Performs m [statement] s t ∧
      t.cursor = .fresh rest (pc + (code ++ instruction).length) := by
  rw [List.length_append] at hlen ⊢
  rw [List.append_assoc] at hc
  obtain ⟨t, entries, ht, hct⟩ := h.evaluates hr ho hc (by omega)
  obtain ⟨e, rfl, hex⟩ := step t entries ht hct
  rw [Element.isInert_bare] at hinert
  have hperform := ht.stating hp hct (Nat.le_add_right ..) hinert hex
  rw [← Nat.add_assoc]
  exact ⟨_, hperform, rfl⟩

-- A statement is performed in whatever code it stands.
theorem Stated.performs {statement : Element} {code : Bytes} (h : Stated m statement code)
    {rest : Bytes} {pc : Nat} (hc : s.cursor = .fresh (code ++ rest) pc)
    (hlen : pc + code.length ≤ m.code.length) :
    ∃ t, Performs m [statement] s t ∧ t.cursor = .fresh rest (pc + code.length) := by
  cases h with
  | @store value slot v code store hcode hstore hv =>
    have hbroad := (hcode.plain _ (List.mem_singleton.2 rfl)).broad
    have hinert : (Element.ofShape (.assign slot v.name v.ty value)).isInert := by
      show (decide (v.ty ≠ .boolean) && !value.isNarrowCast) = true
      rw [hbroad, decide_eq_true hv.ty]
      rfl
    apply hcode.performs hr ho hp hinert hc hlen
    intro t entries ht hct
    obtain ⟨top, rfl, rfl⟩ := eq_singleton_of_map ht.values
    rw [Element.isNarrowCast_bare] at hbroad
    have hpos := hstore.length_pos
    rw [List.length_append] at hlen
    exact ⟨.ofShape (.assign slot v.name v.ty top.element), rfl,
      hstore.executes ht.ready hv (by omega) hct ht.stack hbroad⟩
  | @putfield target value index member ty code hcode hfield hty =>
    apply hcode.performs hr ho hp rfl hc hlen
    intro t entries ht hct
    obtain ⟨o, top, rfl, rfl, rfl⟩ := eq_pair_of_map ht.values
    refine ⟨.ofShape (.assignField ⟨some o.element, .reference member.owner, ty, member.name⟩
      top.element), rfl, ?_⟩
    have hf : (t.leaving (o :: s.stack)).method.pool.fieldRef index = .ok member :=
      ht.ready.method ▸ hfield
    have hs : (t.moved (wideBytes index ++ rest) (pc + code.length + 1) (pc + code.length)).stack =
      top :: o :: s.stack := ht.stack
    refine Registry.executes_of_ready (mem_rules_object mem_rules_put) (by decide) (by decide)
      ht.ready hct (ht.ready.stating ht.sublist.subset rfl _ _ _) ?_
    refine (exec_bind_of_ok (Action.exec_pop_of_cons hs) _).trans ?_
    exact exec_bind_of_ok (Object.exec_field hf hty rfl) _
  | @putstatic value index member ty code hcode hfield hty =>
    apply hcode.performs hr ho hp rfl hc hlen
    intro t entries ht hct
    obtain ⟨top, rfl, rfl⟩ := eq_singleton_of_map ht.values
    refine ⟨.ofShape (.assignField ⟨none, .reference member.owner, ty, member.name⟩
      top.element), rfl, ?_⟩
    have hf : (t.leaving s.stack).method.pool.fieldRef index = .ok member :=
      ht.ready.method ▸ hfield
    have hs : (t.moved (wideBytes index ++ rest) (pc + code.length + 1) (pc + code.length)).stack =
      top :: s.stack := ht.stack
    refine Registry.executes_of_ready (mem_rules_object mem_rules_put) (by decide) (by decide)
      ht.ready hct (ht.ready.stating ht.sublist.subset rfl _ _ _) ?_
    refine (exec_bind_of_ok (Action.exec_pop_of_cons hs) _).trans ?_
    exact exec_bind_of_ok (Object.exec_field_static hf hty) _
  | @arrayStore array index value store code hcode harray hstore =>
    apply hcode.performs hr ho hp rfl hc hlen
    intro t entries ht hct
    obtain ⟨a, others, hentries, rfl, hothers⟩ := List.map_eq_cons_iff.1 ht.values
    obtain ⟨i, top, rfl, rfl, rfl⟩ := eq_pair_of_map hothers
    subst hentries
    rw [Element.kind_bare] at harray
    have hd : on (range iastore sastore) (fun _ => Array.store) ∈ Array.rules := by
      simp only [Array.rules, List.mem_cons, true_or, or_true]
    have hspared := Registry.not_mem_special_of_mem_range hstore rfl
    refine ⟨.ofShape (.arrayStore a.element i.element top.element), rfl, ?_⟩
    exact Registry.executes_of_ready (mem_rules_array hd) hstore hspared ht.ready hct
      (ht.ready.stating ht.sublist.subset rfl _ _ _) (Array.exec_store ht.stack harray)
  | @call operands c code call hcode hcall hty =>
    rw [List.length_append] at hlen ⊢
    rw [List.append_assoc] at hc
    obtain ⟨t, entries, ht, hct⟩ := hcode.evaluates hr ho hc (by omega)
    rw [← Nat.add_assoc]
    exact ht.calls hp hcall hct
  | @discard _ code hcode he =>
    have hinert := (hcode.plain _ (List.mem_singleton_self _)).inert
    rw [List.length_append] at hlen ⊢
    rw [List.append_assoc] at hc
    obtain ⟨t, entries, ht, hct⟩ := hcode.evaluates hr ho hc (by omega)
    rw [← Nat.add_assoc]
    exact ht.discards hp he hinert hct

end Statements

theorem Stated.finished {statement : Element} {code : Bytes} (h : Stated m statement code) :
    statement.contains Element.isUnfinished = false := by
  have hvalues {es : List Element} {code : Bytes} (hc : Compiled m es code) :
      ∀ e ∈ es, e.contains Element.isUnfinished = false :=
    fun e he => (hc.plain e he).finished
  cases h with
  | store hc _ _ | putfield hc _ _ | putstatic hc _ _ | arrayStore hc _ _ =>
    exact Element.finished_of_children rfl (hvalues hc)
  | call hc hcall _ =>
    refine Element.finished_of_children rfl ?_
    cases hcall <;> exact hvalues hc
  | discard hc _ => exact hvalues hc _ (List.mem_singleton.2 rfl)

theorem Sequence.performs {statements : List Element} {code : Bytes}
    (h : Sequence m statements code) {s : State} (hr : s.Ready m) (ho : s.Ordered)
    (hp : ∀ d ∈ s.stack, d.element.isStatement) {rest : Bytes} {pc : Nat}
    (hc : s.cursor = .fresh (code ++ rest) pc) (hlen : pc + code.length ≤ m.code.length) :
    ∃ t, Performs m statements s t ∧ t.cursor = .fresh rest (pc + code.length) := by
  induction h generalizing rest with
  | nil => exact ⟨s, ⟨.refl, hr, ho, hp, (List.append_nil _).symm⟩, hc⟩
  | snoc hs hstated ih =>
    rw [List.length_append] at hlen ⊢
    rw [List.append_assoc] at hc
    obtain ⟨t, ht, hct⟩ := ih hc (by omega)
    obtain ⟨u, hu, hcu⟩ := hstated.performs ht.ready ht.ordered ht.parked hct (by omega)
    rw [← Nat.add_assoc]
    exact ⟨u, ht.trans hu, hcu⟩

theorem Sequence.finished {statements : List Element} {code : Bytes}
    (h : Sequence m statements code) :
    ∀ e ∈ statements, e.contains Element.isUnfinished = false := by
  induction h with
  | nil => exact List.forall_mem_nil _
  | snoc _ hstated ih =>
    rw [List.forall_mem_append, List.forall_mem_singleton]
    exact ⟨ih, hstated.finished⟩

end Fragment

end JvmLift
