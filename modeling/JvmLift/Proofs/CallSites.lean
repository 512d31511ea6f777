import JvmLift.Proofs.Inversion
import JvmLift.Proofs.Leaving

namespace JvmLift

open Instruction.CallSite

-- What a method says about one of its call sites: the method that links it and the arguments of
-- that method.
structure Method.Links (m : Method) (index : UInt16) (site : CallSiteRef)
    (signature : MethodDescriptor) (factory : HandleRef) (arguments : List UInt16) : Prop where
  named : m.pool.invokeDynamic index = .ok site
  described : MethodDescriptor.ofDescriptor site.descriptor = .ok signature
  linked : ∃ handle, m.bootstrapMethod? site.bootstrap = some ⟨handle, arguments⟩ ∧
    m.pool.methodHandle handle = .ok factory

-- What the call site of a lambda names: the signature of the method of the interface, and the method
-- that runs in its place with its signature.
structure Method.Backs (m : Method) (functional backing : UInt16) (interface : MethodDescriptor)
    (handle : HandleRef) (signature : MethodDescriptor) : Prop where
  implemented : ∃ text, m.pool.methodType functional = .ok text ∧
    MethodDescriptor.ofDescriptor text = .ok interface
  named : m.pool.methodHandle backing = .ok handle
  described : MethodDescriptor.ofDescriptor handle.member.descriptor = .ok signature

theorem Method.Backs.unique {m : Method} {functional backing : UInt16}
    {interface interface' signature signature' : MethodDescriptor} {handle handle' : HandleRef}
    (h : m.Backs functional backing interface handle signature)
    (h' : m.Backs functional backing interface' handle' signature') :
    interface = interface' ∧ handle = handle' ∧ signature = signature' := by
  obtain ⟨⟨text, htext, hinterface⟩, hhandle, hsignature⟩ := h
  obtain ⟨⟨text', htext', hinterface'⟩, hhandle', hsignature'⟩ := h'
  obtain rfl := Except.ok.inj (htext.symm.trans htext')
  obtain rfl := Except.ok.inj (hhandle.symm.trans hhandle')
  exact ⟨Except.ok.inj (hinterface.symm.trans hinterface'), rfl,
    Except.ok.inj (hsignature.symm.trans hsignature')⟩

namespace State

-- The next instruction is a call site, with two bytes behind its index that say nothing.
def AtSite (s : State) (index : UInt16) : Prop :=
  ∃ operand, s.cursor.remaining = Opcode.invokedynamic :: operand ∧ 4 ≤ operand.length ∧
    index = .ofNat (bigEndian (operand.take 2))

-- The state behind the bytes of a call site.
def called (s : State) : State :=
  { s.fetch with cursor := (s.fetch.cursor.advance 2).advance 2 }

-- The state without its last statement if that checks the receiver of the lambda on top.
def unchecked (s : State) : State :=
  if followsCheck s then { s with statements := s.statements.tail } else s

theorem stack_unchecked (s : State) : s.unchecked.stack = s.stack := by
  rw [unchecked]
  split <;> rfl

-- Which statement is taken away, if any.
theorem statements_unchecked (s : State) :
    (s.unchecked.statements = s.statements ∧ ¬followsCheck s) ∨
      ∃ top below last, s.stack = top :: below ∧ s.statements = last :: s.unchecked.statements ∧
        last.element.isReceiverCheckOf top.element := by
  rw [unchecked]
  split
  · rename_i hcheck
    right
    cases hs : s.statements with
    | nil => simp [followsCheck, lastStatement?, hs] at hcheck
    | cons last rest =>
      cases ht : s.stack with
      | nil => simp [followsCheck, lastStatement?, peekAt?, hs, ht] at hcheck
      | cons top below =>
        refine ⟨top, below, last, rfl, rfl, ?_⟩
        simpa [followsCheck, lastStatement?, peekAt?, hs, ht] using hcheck
  · exact .inl ⟨rfl, ‹_›⟩

end State

namespace Instruction.CallSite

variable {s t : State} {index : UInt16} {site : CallSiteRef} {signature : MethodDescriptor}
  {factory : HandleRef} {arguments : List UInt16}

-- What is done first at a call site.
def dynamicCall : Declaration :=
  .on [Opcode.invokedynamic] fun _ => do
    let index ← Action.read Reading.u16
    discard (Action.read Reading.u16)
    invoke index

-- What is done at a call site that is linked.
def link (index : UInt16) (site : CallSiteRef) (signature : MethodDescriptor) (factory : HandleRef)
    (arguments : List UInt16) : Action Unit :=
  if factory.member.owner = concatenationFactory then concatenate signature arguments
  else
    match arguments with
    | [functional, backing, _] => capture index site signature functional backing
    | arguments => throw (.bootstrapArguments index arguments.length)

theorem exec_invoke_of_links (h : s.method.Links index site signature factory arguments) :
    exec (invoke index) s = exec (link index site signature factory arguments) s := by
  obtain ⟨hsite, hsignature, handle, hbootstrap, hfactory⟩ := h
  have hpool : s.pool.invokeDynamic index = .ok site := hsite
  have hhandle : s.pool.methodHandle handle = .ok factory := hfactory
  rw [invoke, exec_bind_of_ok (exec_get s), exec_bind_of_ok (Action.exec_lift_of_ok hpool)]
  simp only [hbootstrap]
  rw [exec_bind_of_ok (Action.exec_lift_of_ok hhandle),
    exec_bind_of_ok (Action.exec_lift_of_ok hsignature)]
  rfl

-- The parts that the arguments of a call site are joined to.
def parts (pool : Pool) (args : List Element) : List UInt16 → Except Fault (List Element)
  | [] => .ok args
  | recipe :: constants =>
    match pool.loadable recipe with
    | .error e => .error (.classFile e)
    | .ok (.string text) => recipeParts pool text.toList [] args constants
    | .ok _ => .error .recipe

-- A concatenation takes its arguments off the stack and pushes what their parts are joined to.
theorem exec_concatenate (signature : MethodDescriptor) (arguments : List UInt16)
    (hlen : signature.parameters.length ≤ s.stack.length) :
    exec (concatenate signature arguments) s =
      match parts s.pool ((s.stack.take signature.parameters.length).reverse.map (·.element))
        arguments with
      | .ok parts => (.ok ⟨⟩, (s.leaving (s.stack.drop signature.parameters.length)).push
          (.concatenation parts))
      | .error fault => (.error fault, s.leaving (s.stack.drop signature.parameters.length)) := by
  have hpop : exec (Action.popMany signature.parameters.length) s =
      (.ok ((s.stack.take signature.parameters.length).reverse.map (·.element)),
        s.leaving (s.stack.drop signature.parameters.length)) := by
    rw [Action.exec_popMany, if_neg (Nat.not_lt.2 hlen)]
    rfl
  rw [concatenate, exec_bind_of_ok hpop]
  cases arguments with
  | nil => rfl
  | cons recipe constants =>
    have hpool : (s.leaving (s.stack.drop signature.parameters.length)).pool = s.pool := rfl
    dsimp only
    rw [exec_bind_of_ok (exec_get _), parts, hpool]
    cases s.pool.loadable recipe with
    | error e => rfl
    | ok value =>
      rw [exec_bind_of_ok (Action.exec_lift_of_ok rfl)]
      cases value with
      | string text =>
        dsimp only
        cases recipeParts s.pool text.toList []
          ((s.stack.take signature.parameters.length).reverse.map (·.element)) constants <;> rfl
      | _ => rfl

theorem concatenate_eq_ok (h : exec (concatenate signature arguments) s = (.ok ⟨⟩, t)) :
    signature.parameters.length ≤ s.stack.length ∧ ∃ es,
      parts s.pool ((s.stack.take signature.parameters.length).reverse.map (·.element)) arguments =
        .ok es ∧
      t = (s.leaving (s.stack.drop signature.parameters.length)).push (.concatenation es) := by
  have hlen : signature.parameters.length ≤ s.stack.length := by
    rw [concatenate, exec_bind_eq_ok] at h
    obtain ⟨args, u, hargs, -⟩ := h
    exact (Action.popMany_eq_ok hargs).1
  rw [exec_concatenate signature arguments hlen] at h
  refine ⟨hlen, ?_⟩
  split at h
  · rename_i es hes
    exact ⟨es, hes, (Prod.mk.inj h).2.symm⟩
  · cases (Prod.mk.inj h).1

theorem length_of_mapM {α β : Type} {f : α → Except Fault β} {xs : List α} {ys : List β}
    (h : xs.mapM f = .ok ys) : ys.length = xs.length := by
  induction xs generalizing ys with
  | nil =>
    obtain rfl := Except.ok.inj h
    rfl
  | cons x xs ih =>
    rw [List.mapM_cons] at h
    cases hx : f x with
    | error e =>
      rw [hx] at h
      cases h
    | ok y =>
      cases hxs : xs.mapM f with
      | error e =>
        rw [hx, hxs] at h
        cases h
      | ok rest =>
        rw [hx, hxs] at h
        obtain rfl := Except.ok.inj h
        rw [List.length_cons, List.length_cons, ih hxs]

theorem some_pop_eq_ok {e : Option Element} (h : exec (some <$> Action.pop) s = (.ok e, t)) :
    ∃ top below, s.stack = top :: below ∧ e = some top.element ∧ t = s.leaving below := by
  rw [exec_map] at h
  rcases hpop : exec Action.pop s with ⟨fault | popped, u⟩
  all_goals rw [hpop] at h
  · cases (Prod.mk.inj h).1
  · obtain ⟨he, rfl⟩ := Prod.mk.inj h
    obtain ⟨top, below, hs, rfl, rfl⟩ := Action.pop_eq_ok hpop
    exact ⟨top, below, hs, (Except.ok.inj he).symm, rfl⟩

-- The lambda that a call site makes of a backing method, its receiver and its variables.
def madeLambda (site : CallSiteRef) (signature interface : MethodDescriptor) (handle : HandleRef)
    (backingSignature : MethodDescriptor) (receiver : Option Entry) (enclosed : List LocalRef) :
    Lambda Element :=
  ⟨receiver.map (·.element), handle.kind, signature.result, site.name, interface,
    .reference handle.member.owner, handle.member.name, backingSignature, enclosed⟩

-- A lambda takes the variables that it captures off the stack, and its receiver from below them.
theorem capture_eq_ok {functional backing : UInt16}
    (h : exec (capture index site signature functional backing) s = (.ok ⟨⟩, t)) :
    ∃ interface handle backingSignature,
      s.method.Backs functional backing interface handle backingSignature ∧
      ∃ (captured below : List Entry) (receiver : Option Entry) (enclosed : List LocalRef),
        s.stack = captured ++ receiver.toList ++ below ∧
        captured.length = backingSignature.parameters.length - interface.parameters.length ∧
        captured.length + receiver.toList.length = signature.parameters.length ∧
        (captured.reverse.map (·.element)).mapM capturedVariable = .ok enclosed ∧
        t = (s.leaving below).push (.ofShape (.lambda
          (madeLambda site signature interface handle backingSignature receiver enclosed))) := by
  rw [capture, exec_bind_of_ok (exec_get s), exec_bind_eq_ok] at h
  obtain ⟨text, u, hread, h⟩ := h
  obtain ⟨htext, rfl⟩ := Action.lift_eq_ok hread
  rw [exec_bind_eq_ok] at h
  obtain ⟨interface, v, hread, h⟩ := h
  obtain ⟨hinterface, rfl⟩ := Action.lift_eq_ok hread
  rw [exec_bind_eq_ok] at h
  obtain ⟨handle, w, hread, h⟩ := h
  obtain ⟨hhandle, rfl⟩ := Action.lift_eq_ok hread
  rw [exec_bind_eq_ok] at h
  obtain ⟨backingSignature, x, hread, h⟩ := h
  obtain ⟨hbacking, rfl⟩ := Action.lift_eq_ok hread
  refine ⟨interface, handle, backingSignature, ⟨⟨text, htext, hinterface⟩, hhandle, hbacking⟩, ?_⟩
  dsimp only at h
  split at h
  · rename_i hcount
    simp only [Bool.or_eq_true, decide_eq_true_eq] at hcount
    rw [exec_bind_eq_ok] at h
    obtain ⟨es, y, hes, h⟩ := h
    obtain ⟨hle, rfl, rfl⟩ := Action.popMany_eq_ok hes
    have hlen := List.length_take_of_le hle
    split at h
    · cases (Prod.mk.inj h).1
    · rename_i enclosed henclosed
      split at h
      · rename_i hall
        obtain ⟨-, rfl⟩ := Prod.mk.inj h
        refine ⟨_, _, none, enclosed, ?_, hlen, ?_, henclosed, rfl⟩
        · rw [Option.toList_none, List.append_nil, List.take_append_drop]
        · rw [hlen]
          exact hall.symm
      · rename_i hmore
        rw [exec_bind_eq_ok] at h
        obtain ⟨target, z, htarget, h⟩ := h
        obtain ⟨receiver, below, hdrop, rfl, rfl⟩ := some_pop_eq_ok htarget
        obtain ⟨-, rfl⟩ := Prod.mk.inj h
        have hbelow : x.stack.drop _ = receiver :: below := hdrop
        refine ⟨_, below, some receiver, enclosed, ?_, hlen, ?_, henclosed, rfl⟩
        · rw [Option.toList_some, List.append_assoc, List.singleton_append, ← hbelow,
            List.take_append_drop]
        · rw [hlen]
          exact (hcount.resolve_left hmore).symm
  · cases (Prod.mk.inj h).1

end Instruction.CallSite

namespace Registry

variable {s t : State} {index : UInt16}

open Declaration in
-- What is asked behind a call site takes away what checks the receiver of its lambda.
theorem exec_corrections_site (u : State) :
    exec (runAll Opcode.invokedynamic (core.rules .corrective Opcode.invokedynamic)) u =
      (.ok ⟨⟩, u.unchecked) := by
  have hrules : core.rules .corrective Opcode.invokedynamic =
      [(after [Opcode.invokedynamic] .high followsCheck do
        discard Action.removeLastStatement).rule] := rfl
  rw [hrules, State.unchecked]
  split
  · rename_i hcheck
    refine exec_runAll_singleton_of_applies hcheck ?_
    show exec (discard Action.removeLastStatement) u = _
    cases hs : u.statements with
    | nil => simp [followsCheck, State.lastStatement?, hs] at hcheck
    | cons last rest =>
      rw [exec_discard, Action.exec_removeLastStatement_of_cons hs]
      rfl
  · apply exec_runAll_of_spared
    intro rule hrule
    rw [List.mem_singleton.1 hrule]
    exact Bool.eq_false_iff.2 ‹_›

theorem primary?_site (s : State) :
    core.primary? s Opcode.invokedynamic = some dynamicCall.rule :=
  rfl

-- A call site is linked when its bytes are read, and then asked for what is to be corrected.
theorem exec_step_site (h : s.AtSite index) : exec (core.step Opcode.invokedynamic) s.fetch =
    exec (invoke index >>= fun _ =>
      runAll Opcode.invokedynamic (core.rules .corrective Opcode.invokedynamic)) s.called := by
  obtain ⟨operand, hcons, hlen, rfl⟩ := h
  have hoperand : s.fetch.cursor.remaining = operand := s.remaining_fetch hcons
  let behind : State := { s.fetch with cursor := s.fetch.cursor.advance 2 }
  have hrest : behind.cursor.remaining = operand.drop 2 := by
    show (s.fetch.cursor.advance 2).remaining = _
    rw [Cursor.remaining_advance, hoperand]
  have hindex : exec (Action.read Reading.u16) s.fetch =
      (.ok (.ofNat (bigEndian (operand.take 2))), behind) := by
    rw [exec_read_of_length_le Reading.exec_u16 (by rw [hoperand]; omega), hoperand]
  have hreserved : exec (discard (Action.read Reading.u16)) behind = (.ok ⟨⟩, s.called) := by
    have htwo : 2 ≤ behind.cursor.remaining.length := by
      rw [hrest, List.length_drop]
      omega
    rw [exec_discard, exec_read_of_length_le Reading.exec_u16 htwo]
    rfl
  have hrun : exec (dynamicCall.rule.run Opcode.invokedynamic) s.fetch =
      exec (invoke (.ofNat (bigEndian (operand.take 2)))) s.called := by
    show exec (Action.read Reading.u16 >>= _) s.fetch = _
    rw [exec_bind_of_ok hindex, exec_bind_of_ok hreserved]
  rw [exec_step_core (primary?_site _), exec_bind, exec_bind, hrun]

theorem executes_site_iff (ha : s.aborted = false) (h : s.AtSite index) :
    core.Executes s t ↔ ∃ u, exec (invoke index) s.called = (.ok ⟨⟩, u) ∧ t = u.unchecked := by
  have hstep := exec_step_site h
  obtain ⟨operand, hcons, -, -⟩ := h
  constructor
  · rintro ⟨-, code, u, hnext, ht⟩
    rw [exec_nextInstruction_of_cons hcons] at hnext
    obtain ⟨hcode, rfl⟩ := Prod.mk.inj hnext
    obtain rfl := Except.ok.inj hcode
    rw [hstep, exec_bind_eq_ok] at ht
    obtain ⟨⟨⟩, u, hu, ht⟩ := ht
    rw [exec_corrections_site] at ht
    exact ⟨u, hu, (Prod.mk.inj ht).2.symm⟩
  · rintro ⟨u, hu, rfl⟩
    refine executes_of_cons ha hcons ?_
    rw [hstep, exec_bind_of_ok hu, exec_corrections_site]

end Registry

end JvmLift
