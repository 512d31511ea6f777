import JvmLift.Proofs.Fragment.Statements

namespace JvmLift

namespace Fragment

open Instruction Declaration Opcode

variable {m : Method}

theorem Body.finished {statements : List Element} {code : Bytes} (h : Body m statements code) :
    ∀ e ∈ statements, e.contains Element.isUnfinished = false := by
  cases h with
  | ret hs =>
    rw [List.forall_mem_append, List.forall_mem_singleton]
    exact ⟨hs.finished, rfl⟩
  | value hs hc _ =>
    rw [List.forall_mem_append, List.forall_mem_singleton]
    exact ⟨hs.finished, Element.finished_of_children rfl fun e he => (hc.plain e he).finished⟩

theorem returnOf?_mem {ty : JvmType} {code : Opcode} (h : Opcode.returnOf? ty = some code) :
    code ∈ range ireturn areturn ∧ Jump.returns code ty := by
  cases ty with
  | void => cases h
  | _ =>
    obtain rfl := Option.some.inj h
    exact ⟨by decide, rfl⟩

-- The value on top of the stack is returned.
theorem executes_return {s : State} (hr : s.Ready m) {code : Opcode} {rest : Bytes} {pc : Nat}
    {top : Entry} {below : List Entry} (h : Opcode.returnOf? top.element.ty = some code)
    (hc : s.cursor = .fresh (code :: rest) pc) (hs : s.stack = top :: below) :
    Registry.core.Executes s
      (s.stating below (.ofShape (.returnValue top.element)) rest (pc + 1) pc) := by
  have hd : on (range ireturn areturn) Jump.returnValue ∈ Jump.rules := by
    simp only [Jump.rules, List.mem_cons, true_or, or_true]
  have hb : below ⊆ s.stack := hs ▸ List.subset_cons_self ..
  have hm : (s.moved rest (pc + 1) pc).stack = top :: below := hs
  obtain ⟨hcode, hfits⟩ := returnOf?_mem h
  have hspared := Registry.not_mem_special_of_mem_range hcode rfl
  refine Registry.executes_of_ready (mem_rules_jump hd) hcode hspared hr hc
    (hr.stating hb rfl _ _ _) ?_
  rw [Jump.returnValue, exec_bind_of_ok (Action.exec_pop_of_cons hm), if_pos hfits]
  rfl

-- The body of a method runs to its end and leaves its statements.
theorem Body.runs {statements : List Element} {code : Bytes} (h : Body m statements code)
    {s : State} (hr : s.Ready m) (ho : s.Ordered) (hp : ∀ d ∈ s.stack, d.element.isStatement)
    {pc : Nat} (hc : s.cursor = .fresh code pc) (hlen : pc + code.length ≤ m.code.length) :
    ∃ t, Registry.core.Runs s t ∧ t.cursor.remaining = [] ∧
      (∀ e ∈ t.stack, e.element.isStatement) ∧
      t.flush.result.map Element.bare = s.flush.result.map Element.bare ++ statements := by
  cases h with
  | @ret statements code hs =>
    rw [List.length_append] at hlen
    obtain ⟨t, ht, hct⟩ := hs.performs hr ho hp hc (by omega)
    obtain ⟨u, hex, hdone, hstack, hvalues⟩ :=
      Registry.exists_executes_return ht.ready.running hct ht.parked
    refine ⟨u, ht.runs.tail hex, hdone, ?_, ?_⟩
    · rw [hstack]
      exact List.forall_mem_nil _
    · rw [hvalues, ht.values, List.append_assoc]
  | @value statements value code expression return_ hs hcode hreturn =>
    rw [List.length_append] at hlen
    obtain ⟨t, ht, hct⟩ := hs.performs hr ho hp hc (by omega)
    have hct' : t.cursor = .fresh (expression ++ [return_] ++ []) (pc + code.length) := by
      rw [hct, List.append_nil]
    have hinert : (Element.ofShape (.returnValue value)).isInert := rfl
    obtain ⟨u, hu, hcu⟩ := hcode.performs ht.ready ht.ordered ht.parked hinert hct' (by omega)
      fun v entries hv hcv => by
        obtain ⟨top, rfl, rfl⟩ := eq_singleton_of_map hv.values
        rw [Element.ty_bare] at hreturn
        exact ⟨.ofShape (.returnValue top.element), rfl,
          executes_return hv.ready hreturn hcv hv.stack⟩
    have hperform := ht.trans hu
    refine ⟨u, hperform.runs, ?_, hperform.parked, hperform.values⟩
    rw [hcu, Cursor.remaining_fresh]

end Fragment

namespace Method

-- Decompiling the plain code of statements, whatever is nested in them, gives exactly these
-- statements.
theorem decompile_body {m : Method} {statements : List Element}
    (h : Fragment.Body m statements m.code) (hr : m.signature.result ≠ .boolean) :
    ∃ result, m.decompile = .ok result ∧ result.map Element.bare = statements := by
  let s := State.start m (.ofCode m.code)
  have hready : s.Ready m := ⟨rfl, rfl, List.forall_mem_nil _, hr⟩
  have hlen : 0 + m.code.length ≤ m.code.length := by omega
  obtain ⟨t, hruns, hdone, hparked, hvalues⟩ := h.runs hready (State.ordered_start ..)
    (List.forall_mem_nil _) rfl hlen
  have hresult := Registry.decompile_of_runs (Cursor.endsAt_ofBytes m.code 0) hruns (.inr hdone)
    hparked
  have hverified := verified_of_bare hvalues h.finished
  exact ⟨t.flush.result, hresult.trans hverified, hvalues⟩

-- A method that calls, assigns, drops a new object and returns.
def sumThenDrop : Method :=
  { className := "A", name := "m", descriptor := "(I)I", signature := ⟨[.int], .int⟩
    code := [Opcode.invokestatic, 0, 6, Opcode.iload0, Opcode.iconst5, Opcode.iadd,
      Opcode.istore0, Opcode.new, 0, 8, Opcode.dup, Opcode.iload0, Opcode.invokespecial, 0, 12,
      Opcode.pop, Opcode.iload0, Opcode.ireturn]
    locals := [⟨"x", .int, 0, 0, 18⟩]
    pool := ⟨#[.utf8 "A", .classRef 1, .utf8 "f", .utf8 "()V", .nameAndType 3 4, .methodRef 2 5,
      .utf8 "B", .classRef 7, .utf8 "<init>", .utf8 "(I)V", .nameAndType 9 10,
      .methodRef 8 11]⟩ }

open Fragment in
theorem decompile_body_sum_then_drop :
    let x : Element := .ofShape (.localVar ⟨"x", .int, 0⟩)
    ∃ result, sumThenDrop.decompile = .ok result ∧ result.map Element.bare =
      [.ofShape (.call ⟨.reference "A", "f", ⟨[], .void⟩, none, [], .void⟩),
        .ofShape (.assign 0 "x" .int (.ofShape (.binary x .plus (.int 5) .int))),
        .ofShape (.newInstance (.reference "B") ⟨[.int], .void⟩ [x]),
        .ofShape (.returnValue x)] := by
  intro x
  have hx : sumThenDrop.Covers 0 ⟨"x", .int, 0, 0, 18⟩ :=
    ⟨by decide +kernel, rfl, by decide +kernel, rfl, by decide +kernel, nofun⟩
  have hload {below : List Element} {code : Bytes} (h : Compiled sumThenDrop below code) :
      Compiled sumThenDrop (below ++ [x]) (code ++ ([] ++ [Opcode.iload0])) :=
    .apply h .nil (.localVar (@Loads.short Opcode.iload0 (by decide)) hx)
  have hfive : Constants sumThenDrop (.int 5) [Opcode.iconst5] :=
    @Constants.int sumThenDrop Opcode.iconst5 (by decide)
  have hf : sumThenDrop.Names 6 ⟨"A", "f", "()V", false⟩ ⟨[], .void⟩ :=
    ⟨by decide +kernel, by decide +kernel, by decide +kernel⟩
  have hclass : sumThenDrop.pool.className 8 = .ok "B" := by decide +kernel
  have hinit : sumThenDrop.Names 12 ⟨"B", "<init>", "(I)V", false⟩ ⟨[.int], .void⟩ :=
    ⟨by decide +kernel, by decide +kernel, by decide +kernel⟩
  have hcall : Stated sumThenDrop
      (.ofShape (.call ⟨.reference "A", "f", ⟨[], .void⟩, none, [], .void⟩))
      [Opcode.invokestatic, 0, 6] :=
    .call .nil (.ofClass hf (by decide +kernel) rfl) rfl
  have hassign : Stated sumThenDrop
      (.ofShape (.assign 0 "x" .int (.ofShape (.binary x .plus (.int 5) .int))))
      ([Opcode.iload0, Opcode.iconst5, Opcode.iadd] ++ [Opcode.istore0]) :=
    .store (.apply .nil (.apply (hload .nil) .nil (.constant hfive)) (.binary (by decide)))
      (@Stores.short Opcode.istore0 (by decide)) hx
  have hobject : Stated sumThenDrop (.ofShape (.newInstance (.reference "B") ⟨[.int], .void⟩ [x]))
      [Opcode.new, 0, 8, Opcode.dup, Opcode.iload0, Opcode.invokespecial, 0, 12, Opcode.pop] :=
    .discard (@Compiled.construct sumThenDrop [] [x] [] _ 8 12 _ _ .nil (hload .nil) hclass
      (by decide +kernel) hinit rfl rfl) (.inr rfl)
  exact decompile_body
    (.value (.snoc (.snoc (.snoc .nil hcall) hassign) hobject) (hload .nil) rfl) nofun

end Method

end JvmLift
