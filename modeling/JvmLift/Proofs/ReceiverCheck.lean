import JvmLift.Proofs.CallSites
import JvmLift.Proofs.ProgramOrder

namespace JvmLift

open Instruction.CallSite

theorem Entry.precedes_of_pc_lt {a b : Entry} (h : a.pc < b.pc) : a.precedes b := by
  rw [precedes_iff]
  omega

theorem Entry.not_precedes_of_precedes {a b : Entry} (h : a.precedes b) : ¬b.precedes a := by
  rw [precedes_iff] at *
  omega

-- The last statement comes behind an entry exactly if any statement does.
theorem State.Ordered.precedes_last_iff {s : State} (h : s.Ordered) {last e : Entry}
    {rest : List Entry} (hs : s.statements = last :: rest) :
    e.precedes last ↔ ∃ d ∈ s.statements, e.precedes d := by
  constructor
  · intro hlast
    exact ⟨last, hs ▸ List.mem_cons_self .., hlast⟩
  · rintro ⟨d, hd, hed⟩
    have hlater := h.precedes_later
    rw [hs, List.pairwise_cons] at hlater
    rw [hs] at hd
    rcases List.mem_cons.1 hd with rfl | hd
    · exact hed
    · exact Entry.precedes_trans hed (hlater.1 d hd)

-- A lambda has come in the place of the variables that it captures and of the receiver below them,
-- if there is one.
structure State.Binds (s t : State) (l : Lambda Element) (receiver : Option Entry) (top : Entry) :
    Prop where
  shape : top.element.shape = .lambda l
  bound : l.receiver = receiver.map (·.element)
  stack : ∃ captured below, captured.length = l.enclosed.length ∧
    s.stack = captured ++ receiver.toList ++ below ∧ t.stack = top :: below

-- A receiver that is alone on the stack is all that is taken.
theorem State.Binds.stack_eq_singleton {s t : State} {l : Lambda Element} {checked top : Entry}
    (h : s.Binds t l (some checked) top) (hlen : s.stack.length = 1) : s.stack = [checked] := by
  obtain ⟨captured, below, -, hstack, -⟩ := h.stack
  rw [hstack, List.length_append, List.length_append] at hlen
  have hone : (some checked).toList.length = 1 := rfl
  obtain rfl : captured = [] := List.eq_nil_of_length_eq_zero (by omega)
  obtain rfl : below = [] := List.eq_nil_of_length_eq_zero (by omega)
  exact hstack

-- What is a check of a receiver checks that of a lambda with one.
theorem Element.exists_receiver_of_isReceiverCheckOf {statement lambda : Element}
    {l : Lambda Element} (hl : lambda.shape = .lambda l)
    (h : statement.isReceiverCheckOf lambda) : ∃ receiver, l.receiver = some receiver := by
  rw [isReceiverCheckOf, hl] at h
  cases hreceiver : l.receiver with
  | some receiver => exact ⟨receiver, rfl⟩
  | none =>
    cases hcall : statement.call? <;> simp [hreceiver, hcall] at h

namespace Registry

variable {s t : State} {index : UInt16} {site : CallSiteRef} {signature : MethodDescriptor}
  {factory : HandleRef} {arguments : List UInt16}

-- What is linked by another method than that of a concatenation makes a lambda.
theorem binds_of_exec_link (hfactory : factory.member.owner ≠ concatenationFactory)
    (h : exec (link index site signature factory arguments) s = (.ok ⟨⟩, t)) :
    t.statements = s.statements ∧ ∃ l receiver top, s.Binds t l receiver top := by
  rw [link.eq_def, if_neg hfactory] at h
  split at h
  · obtain ⟨interface, handle, backingSignature, -, captured, below, receiver, enclosed, hstack, -,
      -, henclosed, rfl⟩ := capture_eq_ok h
    have hlen := length_of_mapM henclosed
    rw [List.length_map, List.length_reverse] at hlen
    let l := madeLambda site signature interface handle backingSignature receiver enclosed
    obtain ⟨stamp, hentry⟩ := (s.leaving below).exists_entry_eq (.ofShape (.lambda l))
    refine ⟨rfl, l, receiver, (s.leaving below).entry (.ofShape (.lambda l)), ?_, rfl, captured,
      below, hlen.symm, hstack, rfl⟩
    rw [hentry]
    rfl
  · cases (Prod.mk.inj h).1

-- A call site that makes a lambda takes the last statement back exactly if that checks its receiver.
theorem Executes.binds (hsite : s.AtSite index)
    (hlinks : s.method.Links index site signature factory arguments)
    (hfactory : factory.member.owner ≠ concatenationFactory) (h : core.Executes s t) :
    ∃ l receiver top, s.Binds t l receiver top ∧
      (t.statements = s.statements ∧
          (∀ last ∈ s.statements.head?, ¬last.element.isReceiverCheckOf top.element) ∨
        ∃ checked last, receiver = some checked ∧ s.statements = last :: t.statements ∧
          last.element.isReceiverCheckOf top.element) := by
  obtain ⟨u, hu, rfl⟩ := (executes_site_iff h.1 hsite).1 h
  have hcalled : s.called.method.Links index site signature factory arguments := hlinks
  rw [exec_invoke_of_links hcalled] at hu
  obtain ⟨hstatements, l, receiver, top, hshape, hreceiver, captured, below, hlen, htaken, hstack⟩ :=
    binds_of_exec_link hfactory hu
  refine ⟨l, receiver, top, ⟨hshape, hreceiver, captured, below, hlen, htaken,
    u.stack_unchecked.trans hstack⟩, ?_⟩
  have hsame : u.statements = s.statements := hstatements
  rcases u.statements_unchecked with ⟨hkept, hnone⟩ | ⟨top', below', last, hs, hlast, hcheck⟩
  · refine .inl ⟨hkept.trans hsame, fun last hlast hcheck => hnone ?_⟩
    obtain ⟨rest, hrest⟩ := List.head?_eq_some_iff.1 (Option.mem_def.1 hlast)
    simpa [followsCheck, State.lastStatement?, State.peekAt?, hsame, hrest, hstack] using hcheck
  · rw [hstack] at hs
    obtain ⟨rfl, -⟩ := List.cons.inj hs
    obtain ⟨e, he⟩ := Element.exists_receiver_of_isReceiverCheckOf hshape hcheck
    rw [hreceiver] at he
    obtain ⟨checked, hchecked, -⟩ := Option.map_eq_some_iff.1 he
    exact .inr ⟨checked, last, hchecked, hsame ▸ hlast, hcheck⟩

-- In a run the statement that a call site takes back is a check of the receiver of its lambda. It
-- was made behind the receiver exactly if any statement was. Then everything that was made in front
-- of the receiver stays.
theorem receiver_check_dropped {m : Method} {code : Bytes} {start : Nat}
    (hruns : core.Runs (.start m (.behind code start)) s) (hsite : s.AtSite index)
    (hlinks : s.method.Links index site signature factory arguments)
    (hfactory : factory.member.owner ≠ concatenationFactory) (h : core.Executes s t) :
    ∃ l receiver top, s.Binds t l receiver top ∧
      (t.statements = s.statements ∧
          (∀ last ∈ s.statements.head?, ¬last.element.isReceiverCheckOf top.element) ∨
        ∃ checked last, receiver = some checked ∧ s.statements = last :: t.statements ∧
          last.element.isReceiverCheckOf top.element ∧
          (checked.precedes last ↔ ∃ d ∈ s.statements, checked.precedes d) ∧
          ((∃ d ∈ s.statements, checked.precedes d) →
            ∀ d ∈ s.statements, d.precedes checked → d ∈ t.statements)) := by
  have hordered : s.Ordered := (Runs.follows hruns (State.ordered_start m _)).1
  obtain ⟨l, receiver, top, hbinds, hkept | ⟨checked, last, rfl, hlast, hcheck⟩⟩ :=
    h.binds hsite hlinks hfactory
  · exact ⟨l, receiver, top, hbinds, .inl hkept⟩
  · have hiff : checked.precedes last ↔ ∃ d ∈ s.statements, checked.precedes d :=
      hordered.precedes_last_iff hlast
    refine ⟨l, _, top, hbinds, .inr ⟨checked, last, rfl, hlast, hcheck, hiff, ?_⟩⟩
    intro hbehind d hd hdc
    rw [hlast] at hd
    rcases List.mem_cons.1 hd with rfl | hd
    · exact absurd (hiff.2 hbehind) (Entry.not_precedes_of_precedes hdc)
    · exact hd

-- A method of A with a call site that makes a reference to the method run of an object.
def referring (code : Bytes) : Method :=
  { className := "A", name := "m", descriptor := "()Ljava/lang/Runnable;"
    signature := ⟨[], .reference "java/lang/Runnable"⟩, code
    locals := [⟨"this", .reference "A", 0, 0, 100⟩]
    pool := ⟨#[.utf8 "java/lang/invoke/LambdaMetafactory", .classRef 1, .utf8 "metafactory",
      .utf8 "()V", .nameAndType 3 4, .methodRef 2 5, .methodHandle 6 6, .methodType 4, .utf8 "A",
      .classRef 9, .utf8 "run", .nameAndType 11 4, .methodRef 10 12, .methodHandle 5 13,
      .utf8 "(LA;)Ljava/lang/Runnable;", .nameAndType 11 15, .invokeDynamic 0 16,
      .utf8 "java/lang/Object", .classRef 18, .utf8 "getClass", .utf8 "()Ljava/lang/Class;",
      .nameAndType 20 21, .methodRef 19 22]⟩
    bootstrapMethods := [⟨7, [8, 14, 8]⟩] }

-- What links the call site of the method.
def referringFactory : HandleRef :=
  ⟨.invokeStatic, ⟨"java/lang/invoke/LambdaMetafactory", "metafactory", "()V", false⟩⟩

-- Whatever the code, the call site is linked in the same way.
theorem links_referring {m : Method} {code : Bytes} (h : m = referring code) :
    m.Links 17 ⟨0, "run", "(LA;)Ljava/lang/Runnable;"⟩
      ⟨[.reference "A"], .reference "java/lang/Runnable"⟩ referringFactory [8, 14, 8] := by
  subst h
  have hpool : (referring code).pool = (referring []).pool := rfl
  refine ⟨?_, by decide +kernel, 7, rfl, ?_⟩
  all_goals
    rw [hpool]
    decide +kernel

theorem owner_referringFactory : referringFactory.member.owner ≠ concatenationFactory := by
  decide

-- The next bytes in front of a call site and the marks of what is on the stack, of the statements,
-- and of the statements behind the call site.
def outline (s t : State) : Bytes × List (Nat × Nat) × List (Nat × Nat) × List (Nat × Nat) :=
  (s.cursor.remaining, s.stack.map Entry.mark, s.statements.map Entry.mark,
    t.statements.map Entry.mark)

theorem exists_of_outline {m : Method} {n : Nat} {bytes : Bytes}
    {stack before after : List (Nat × Nat)}
    (h : (core.walk? n (.start m (.behind m.code 0))).bind
      (fun s => (core.next? s).map (outline s)) = some (bytes, stack, before, after)) :
    ∃ s t, core.Runs (.start m (.behind m.code 0)) s ∧ core.Executes s t ∧
      s.cursor.remaining = bytes ∧ s.stack.map Entry.mark = stack ∧
      s.statements.map Entry.mark = before ∧ t.statements.map Entry.mark = after := by
  obtain ⟨s, hs, hnext⟩ := Option.bind_eq_some_iff.1 h
  obtain ⟨t, ht, houtline⟩ := Option.map_eq_some_iff.1 hnext
  simp only [outline, Prod.mk.injEq] at houtline
  exact ⟨s, t, runs_of_walk? hs, next?_eq_some_iff.1 ht, houtline⟩

-- The object is checked in a statement of its own, then pushed, and checked again while it waits.
def checksTwice : Method :=
  referring [Opcode.aload, 0, Opcode.invokevirtual, 0, 23, Opcode.pop, Opcode.aload, 0, Opcode.dup,
    Opcode.invokevirtual, 0, 23, Opcode.pop, Opcode.invokedynamic, 0, 17, 0, 0, Opcode.areturn]

-- Only the second check is taken back.
theorem receiver_check_dropped_checksTwice :
    ∃ s t checked last, core.Runs (.start checksTwice (.behind checksTwice.code 0)) s ∧
      core.Executes s t ∧ s.stack = [checked] ∧ s.statements.length = 2 ∧
      s.statements = last :: t.statements ∧ checked.precedes last ∧
      ∀ d ∈ s.statements, d.precedes checked → d ∈ t.statements := by
  have hwalk : (core.walk? 7 (.start checksTwice (.behind checksTwice.code 0))).bind (fun s =>
      (core.next? s).map (outline s)) =
      some ([Opcode.invokedynamic, 0, 17, 0, 0, Opcode.areturn], [(8, 4)], [(9, 6), (2, 2)],
        [(2, 2)]) := by decide +kernel
  obtain ⟨s, t, hruns, he, hremaining, hstack, hbefore, hafter⟩ := exists_of_outline hwalk
  have hsite : s.AtSite 17 := ⟨_, hremaining, by decide, by decide +kernel⟩
  have hlinks := links_referring (Runs.method_startPc hruns).1
  obtain ⟨l, receiver, top, hbinds, ⟨hkept, -⟩ | ⟨checked, last, rfl, hlast, -, -, hstays⟩⟩ :=
    receiver_check_dropped hruns hsite hlinks owner_referringFactory he
  · rw [hkept, hbefore] at hafter
    exact absurd hafter (by decide)
  · have hone := hbinds.stack_eq_singleton (by simpa using congrArg List.length hstack)
    have hlen : s.statements.length = 2 := by simpa using congrArg List.length hbefore
    rw [hone] at hstack
    rw [hlast] at hbefore
    have hchecked : checked.pc = 8 := congrArg Prod.fst (List.cons.inj hstack).1
    have hpc : last.pc = 9 := congrArg Prod.fst (List.cons.inj hbefore).1
    have hprecedes : checked.precedes last := Entry.precedes_of_pc_lt (by omega)
    exact ⟨s, t, checked, last, hruns, he, hone, hlen, hlast, hprecedes,
      hstays ⟨last, hlast ▸ List.mem_cons_self .., hprecedes⟩⟩

-- The object is checked in a statement of its own and then pushed.
def checksBefore : Method :=
  referring [Opcode.aload, 0, Opcode.invokevirtual, 0, 23, Opcode.pop, Opcode.aload, 0,
    Opcode.invokedynamic, 0, 17, 0, 0, Opcode.areturn]

-- The check that was made in front of the receiver is taken back, and nothing but the return is
-- left.
theorem receiver_check_dropped_checksBefore :
    ∃ s t l checked top last,
      core.Runs (.start checksBefore (.behind checksBefore.code 0)) s ∧ core.Executes s t ∧
      s.Binds t l (some checked) top ∧ s.statements = last :: t.statements ∧
      last.precedes checked ∧ t.statements = [] ∧
      (core.decompile Observer.idle ⟨⟩ checksBefore
        (.behind checksBefore.code 0)).result.toOption.map List.length = some 1 := by
  have hwalk : (core.walk? 4 (.start checksBefore (.behind checksBefore.code 0))).bind (fun s =>
      (core.next? s).map (outline s)) =
      some ([Opcode.invokedynamic, 0, 17, 0, 0, Opcode.areturn], [(6, 3)], [(2, 2)], []) := by
    decide +kernel
  obtain ⟨s, t, hruns, he, hremaining, hstack, hbefore, hafter⟩ := exists_of_outline hwalk
  have hsite : s.AtSite 17 := ⟨_, hremaining, by decide, by decide +kernel⟩
  have hlinks := links_referring (Runs.method_startPc hruns).1
  obtain ⟨l, receiver, top, hbinds, ⟨hkept, -⟩ | ⟨checked, last, rfl, hlast, -⟩⟩ :=
    he.binds hsite hlinks owner_referringFactory
  · rw [hkept, hbefore] at hafter
    exact absurd hafter (by decide)
  · have hone := hbinds.stack_eq_singleton (by simpa using congrArg List.length hstack)
    rw [hone] at hstack
    rw [hlast] at hbefore
    have hchecked : checked.pc = 6 := congrArg Prod.fst (List.cons.inj hstack).1
    have hpc : last.pc = 2 := congrArg Prod.fst (List.cons.inj hbefore).1
    exact ⟨s, t, l, checked, top, last, hruns, he, hbinds, hlast,
      Entry.precedes_of_pc_lt (by omega), List.map_eq_nil_iff.1 hafter, by decide +kernel⟩

end Registry

end JvmLift
