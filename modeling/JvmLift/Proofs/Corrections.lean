import JvmLift.Proofs.Straight

namespace JvmLift

namespace Instruction.Local

variable {s : State} {top below : Entry} {rest : List Entry} (related : Element → Element → Bool)

theorem topTwo_of_singleton (h : s.stack = [top]) : topTwo s related = false := by
  rw [topTwo, State.peekAt?, h]
  rfl

theorem topTwo_of_cons (h : s.stack = top :: below :: rest) :
    topTwo s related = related below.element top.element := by
  rw [topTwo, State.peekAt?, State.peekAt?, h]
  rfl

-- What is pushed has no relation to a stack of which it has none to the top.
theorem topTwo_push {e : Element}
    (h : ∀ top below, s.stack = top :: below → related top.element (s.entry e).element = false) :
    topTwo (s.push e) related = false := by
  cases hs : s.stack with
  | nil => exact topTwo_of_singleton related (congrArg (s.entry e :: ·) hs)
  | cons top below =>
    have hpushed : (s.push e).stack = s.entry e :: top :: below := congrArg (s.entry e :: ·) hs
    rw [topTwo_of_cons related hpushed]
    exact h top below hs

end Instruction.Local

-- Where the top of the stack is no load, no narrow increment ends there.
theorem Instruction.Local.narrowIncrement?_of_not_localVar {s : State} {top : Entry}
    {below : List Entry} (hs : s.stack = top :: below) (hk : top.element.localVar? = none) :
    narrowIncrement? s = none := by
  simp [narrowIncrement?, State.peekAt?, hs, hk]

theorem Element.localVar?_withAffix {e load : Element} (h : e.isPendingIncrementOf load)
    (affix : Affix) : (e.withAffix affix).localVar? = none := by
  obtain ⟨shape, stamp⟩ := e
  cases shape with
  | increment => rfl
  | _ => cases h

theorem State.localVar?_entry (s : State) (e : Element) :
    (s.entry e).element.localVar? = e.localVar? := by
  obtain ⟨stamp, h⟩ := s.exists_entry_eq e
  rw [h]
  rfl

-- The state with another element in the place of the last statement.
def State.restating (s : State) (e : Element) : State :=
  { s with
    statements := s.statements.modify 0 fun old =>
      { old with element := e.stamped old.element.stamp } }

namespace Registry

open Instruction Declaration Opcode Fragment

variable {s t : State} {head : Opcode} {operand : Bytes} {slot : UInt16} {a : Action Unit}

theorem exec_runAll_cons_of_spared {rule : Rule} {rest : List Rule}
    (h : rule.applies s head = false) :
    exec (runAll head (rule :: rest)) s = exec (runAll head rest) s := by
  rw [runAll, exec_bind_of_ok (exec_get s), h]
  rfl

theorem exec_runAll_cons_of_applies {rule : Rule} {rest : List Rule}
    (happlies : rule.applies s head) (hrun : exec (rule.run head) s = (.ok ⟨⟩, t)) :
    exec (runAll head (rule :: rest)) s = exec (runAll head rest) t := by
  rw [runAll, exec_bind_of_ok (exec_get s), if_pos happlies, exec_bind_of_ok hrun]

theorem exec_runAll_singleton_of_applies {rule : Rule} {result : Except Fault Unit × State}
    (happlies : rule.applies s head) (hrun : exec (rule.run head) s = result) :
    exec (runAll head [rule]) s = result := by
  rw [runAll, exec_bind_of_ok (exec_get s), if_pos happlies, exec_bind, hrun]
  rcases result with ⟨f | ⟨⟨⟩⟩, u⟩ <;> rfl

section Stack

theorem corrective_primitiveLoads (h : head ∈ primitiveLoads) :
    core.rules .corrective head = Local.useNew.rule ::
      if head ∈ integerLoads then [(after integerLoads .normal
        (fun s => (Local.narrowIncrement? s).isSome) (Local.foldNarrow .before)).rule] else [] := by
  revert head
  simp only [primitiveLoads, List.forall_mem_cons]
  exact ⟨rfl, rfl, rfl, rfl, rfl, rfl, rfl, rfl, rfl, rfl, rfl, rfl, rfl, rfl, rfl, rfl, rfl, rfl,
    rfl, rfl, List.forall_mem_nil _⟩

theorem corrective_iinc : core.rules .corrective iinc = [Local.useOld.rule] :=
  rfl

theorem corrective_wide : core.rules .corrective wide = [] :=
  rfl

-- A load that is not next to an increment of its variable, be it pending or narrow, stays.
theorem exec_corrections_load_of_spared (h : head ∈ primitiveLoads)
    (hpending : Local.topTwo t (fun below top => below.isPendingIncrementOf top) = false)
    (hnarrow : Local.narrowIncrement? t = none) :
    exec (corrections head) t = (.ok ⟨⟩, t) := by
  apply exec_runAll_of_spared
  intro rule hrule
  rw [corrective_primitiveLoads h] at hrule
  rcases List.mem_cons.1 hrule with rfl | hrule
  · exact hpending
  · split at hrule
    · rw [List.mem_singleton.1 hrule]
      exact congrArg Option.isSome hnarrow
    · cases hrule

-- A load above an increment of its variable is merged with it.
theorem exec_corrections_useNew (h : head ∈ primitiveLoads) {load top : Entry}
    {below : List Entry} (hs : t.stack = load :: top :: below)
    (hp : top.element.isPendingIncrementOf load.element) :
    exec (corrections head) t = (.ok ⟨⟩, (t.leaving below).push (top.element.withAffix .before)) := by
  have happlies : Local.useNew.rule.applies t head = true := by
    show Local.topTwo t (fun below top => below.isPendingIncrementOf top) = true
    rwa [Local.topTwo_of_cons _ hs]
  have hl : (t.leaving (top :: below)).stack = top :: below := rfl
  have hrun : exec (Local.useNew.rule.run head) t =
      (.ok ⟨⟩, (t.leaving below).push (top.element.withAffix .before)) := by
    show exec (do
      discard Action.pop
      let e ← Action.pop
      Action.push (e.withAffix .before)) t = _
    rw [exec_bind_of_ok (Action.exec_discard_pop_of_cons hs),
      exec_bind_of_ok (Action.exec_pop_of_cons hl)]
    rfl
  have hnarrow : Local.narrowIncrement? ((t.leaving below).push (top.element.withAffix .before)) =
      none := by
    refine Local.narrowIncrement?_of_not_localVar rfl ?_
    rw [State.localVar?_entry, Element.localVar?_withAffix hp]
  rw [corrections, corrective_primitiveLoads h, exec_runAll_cons_of_applies happlies hrun]
  apply exec_runAll_of_spared
  intro rule hrule
  split at hrule
  · rw [List.mem_singleton.1 hrule]
    exact congrArg Option.isSome hnarrow
  · cases hrule

-- An increment above a load of its variable is merged with it.
theorem exec_corrections_useOld {top load : Entry} {below : List Entry}
    (hs : t.stack = top :: load :: below) (hp : top.element.isPendingIncrementOf load.element) :
    exec (corrections iinc) t =
      (.ok ⟨⟩, (t.leaving below).push (top.element.withAffix .after)) := by
  have happlies : Local.useOld.rule.applies t iinc = true := by
    show Local.topTwo t (fun below top => top.isPendingIncrementOf below) = true
    rwa [Local.topTwo_of_cons _ hs]
  have hl : (t.leaving (load :: below)).stack = load :: below := rfl
  have hrun : exec (Local.useOld.rule.run iinc) t =
      (.ok ⟨⟩, (t.leaving below).push (top.element.withAffix .after)) := by
    show exec (do
      let e ← Action.pop
      discard Action.pop
      Action.push (e.withAffix .after)) t = _
    rw [exec_bind_of_ok (Action.exec_pop_of_cons hs),
      exec_bind_of_ok (Action.exec_discard_pop_of_cons hl)]
    rfl
  exact exec_runAll_singleton_of_applies happlies hrun

-- A load is left alone, or merged with an increment of its variable below it.
theorem exec_corrections_load (h : Loads slot (head :: operand)) {load : Entry}
    {below : List Entry} (hs : t.stack = load :: below) (hn : Local.narrowIncrement? t = none) :
    exec (corrections head) t = (.ok ⟨⟩, t) ∨
      ∃ top rest, below = top :: rest ∧ top.element.isPendingIncrementOf load.element ∧
        exec (corrections head) t =
          (.ok ⟨⟩, (t.leaving rest).push (top.element.withAffix .before)) := by
  by_cases hprimitive : head ∈ primitiveLoads
  · rcases below with _ | ⟨top, rest⟩
    · exact .inl (exec_corrections_load_of_spared hprimitive (Local.topTwo_of_singleton _ hs) hn)
    · cases hp : top.element.isPendingIncrementOf load.element with
      | false =>
        have htop := Local.topTwo_of_cons (fun below top => below.isPendingIncrementOf top) hs
        exact .inl (exec_corrections_load_of_spared hprimitive (htop.trans hp) hn)
      | true => exact .inr ⟨top, rest, rfl, hp, exec_corrections_useNew hprimitive hs hp⟩
  · have hloads : ∀ code ∈ shortLoads ++ range iload aload ++ [wide],
        code ∉ primitiveLoads → code ∉ corrected := by decide +kernel
    have hmem : head ∈ shortLoads ++ range iload aload ++ [wide] := by
      cases h with
      | short h => simp [h]
      | plain h => simp [h]
      | wide h => simp
    exact .inl (exec_corrections_of_not_mem (hloads head hmem hprimitive) t)

-- An increment is left alone, or merged with a load of its variable below it.
theorem exec_corrections_iinc {increment : Entry} {below : List Entry}
    (hs : t.stack = increment :: below) :
    exec (corrections iinc) t = (.ok ⟨⟩, t) ∨
      ∃ load rest, below = load :: rest ∧ increment.element.isPendingIncrementOf load.element ∧
        exec (corrections iinc) t =
          (.ok ⟨⟩, (t.leaving rest).push (increment.element.withAffix .after)) := by
  have hspared (h : Local.topTwo t (fun below top => top.isPendingIncrementOf below) = false) :
      exec (corrections iinc) t = (.ok ⟨⟩, t) := by
    apply exec_runAll_of_spared
    intro rule hrule
    rw [corrective_iinc] at hrule
    rw [List.mem_singleton.1 hrule]
    exact h
  rcases below with _ | ⟨load, rest⟩
  · exact .inl (hspared (Local.topTwo_of_singleton _ hs))
  · cases hp : increment.element.isPendingIncrementOf load.element with
    | false =>
      have htop := Local.topTwo_of_cons (fun below top => top.isPendingIncrementOf below) hs
      exact .inl (hspared (htop.trans hp))
    | true => exact .inr ⟨load, rest, rfl, hp, exec_corrections_useOld hs hp⟩

-- A constant stays unless a jump is in front of it.
theorem exec_corrections_push (h : Pushes a (head :: operand)) (hj : ¬t.lastIs .jump) :
    exec (corrections head) t = (.ok ⟨⟩, t) := by
  have hmem : head ∈ range aconstNull ldc2W := by
    cases h with
    | int h | long h | float h | double h =>
      obtain ⟨hfirst, hlast⟩ := mem_range.1 h
      exact mem_range.2 ⟨UInt8.le_trans (by decide) hfirst, UInt8.le_trans hlast (by decide)⟩
    | _ => decide
  by_cases hzero : head = iconst0
  · subst hzero
    have hrules : core.rules .corrective iconst0 =
        [(after [iconst0] .normal Boolean.choosesBit Boolean.foldBit).rule] := rfl
    apply exec_runAll_of_spared
    intro rule hrule
    rw [hrules] at hrule
    rw [List.mem_singleton.1 hrule]
    show Boolean.choosesBit t = false
    rw [State.lastIs, Bool.not_eq_true] at hj
    rw [Boolean.choosesBit, hj, Bool.and_false, Bool.false_and]
  · have hconstants : ∀ code ∈ range aconstNull ldc2W, code ≠ iconst0 → code ∉ corrected := by
      decide +kernel
    exact exec_corrections_of_not_mem (hconstants head hmem hzero) t

-- A call stays what it is up to its arguments.
theorem exec_corrections_invokestatic {top : Entry} {below : List Entry}
    (hs : t.stack = top :: below) :
    exec (corrections invokestatic) t = (.ok ⟨⟩, t) ∨
      ∃ e, top.element.booleanCall? = some e ∧
        exec (corrections invokestatic) t = (.ok ⟨⟩, (t.leaving below).push e) := by
  have hrules : core.rules .corrective invokestatic =
      [(rewriteTop invocations .low Element.booleanCall?).rule] := rfl
  have hpeek : (t.peekAt? 0).bind Element.booleanCall? = top.element.booleanCall? := by
    rw [State.peekAt?, hs]
    rfl
  cases he : top.element.booleanCall? with
  | none =>
    left
    apply exec_runAll_of_spared
    intro rule hrule
    rw [hrules] at hrule
    rw [List.mem_singleton.1 hrule]
    exact congrArg Option.isSome (hpeek.trans he)
  | some e =>
    refine .inr ⟨e, rfl, ?_⟩
    rw [corrections, hrules]
    refine exec_runAll_singleton_of_applies (congrArg Option.isSome (hpeek.trans he)) ?_
    refine (exec_bind_of_ok (Action.exec_pop_of_cons hs) _).trans ?_
    rw [he]
    rfl

end Stack

section Statements

theorem corrective_integerStores (h : head ∈ integerStores) :
    core.rules .corrective head =
      [(after integerStores .normal (fun s => (Local.narrowIncrement? s).isSome)
        (Local.foldNarrow .after)).rule,
        (rewriteLast integerStores .low fun _ e => e.booleanAssignment?).rule] := by
  revert head
  simp only [integerStores, List.forall_mem_cons]
  exact ⟨rfl, rfl, rfl, rfl, rfl, List.forall_mem_nil _⟩

-- A correction of the last statement replaces it, or does nothing.
theorem exec_rewriteLast {codes : List Opcode} {priority : Priority}
    {rewrite? : State → Element → Option Element} {last : Entry} {rest : List Entry}
    (hs : t.statements = last :: rest) :
    exec (runAll head [(rewriteLast codes priority rewrite?).rule]) t = (.ok ⟨⟩, t) ∨
      ∃ e, rewrite? t last.element = some e ∧
        exec (runAll head [(rewriteLast codes priority rewrite?).rule]) t =
          (.ok ⟨⟩, t.restating e) := by
  have hlast : (t.lastStatement? 0).bind (rewrite? t) = rewrite? t last.element := by
    rw [State.lastStatement?, hs]
    rfl
  cases he : rewrite? t last.element with
  | none =>
    left
    apply exec_runAll_of_spared
    intro rule hrule
    rw [List.mem_singleton.1 hrule]
    exact congrArg Option.isSome (hlast.trans he)
  | some e =>
    refine .inr ⟨e, rfl, ?_⟩
    refine exec_runAll_singleton_of_applies (congrArg Option.isSome (hlast.trans he)) ?_
    have hlt : t.statements.length - 1 < t.statements.length := by
      rw [hs, List.length_cons]
      omega
    refine (exec_bind_of_ok (exec_get t) _).trans ?_
    simp only [hlast, he]
    rw [Action.exec_replaceStatement, if_pos hlt, Nat.sub_self]
    rfl

-- An assignment stays what it is up to the value.
theorem exec_corrections_store (h : Stores slot (head :: operand)) {last : Entry}
    {rest : List Entry} (hs : t.statements = last :: rest)
    (hn : Local.narrowIncrement? t = none) :
    exec (corrections head) t = (.ok ⟨⟩, t) ∨
      ∃ e, last.element.booleanAssignment? = some e ∧
        exec (corrections head) t = (.ok ⟨⟩, t.restating e) := by
  by_cases hinteger : head ∈ integerStores
  · have hspared : exec (corrections head) t = exec (runAll head
        [(rewriteLast integerStores .low fun _ e => e.booleanAssignment?).rule]) t := by
      have hnone : (after integerStores .normal (fun s => (Local.narrowIncrement? s).isSome)
          (Local.foldNarrow .after)).rule.applies t head = false := congrArg Option.isSome hn
      rw [corrections, corrective_integerStores hinteger, exec_runAll_cons_of_spared hnone]
    rw [hspared]
    exact exec_rewriteLast hs
  · have hstores : ∀ code ∈ shortStores ++ range istore astore ++ [wide],
        code ∉ integerStores → code ∉ corrected := by decide +kernel
    have hmem : head ∈ shortStores ++ range istore astore ++ [wide] := by
      cases h with
      | short h => simp [h]
      | plain h => simp [h]
      | wide h => simp
    exact .inl (exec_corrections_of_not_mem (hstores head hmem hinteger) t)

-- A return stays what it is up to the value.
theorem exec_corrections_ireturn {last : Entry} {rest : List Entry}
    (hs : t.statements = last :: rest) :
    exec (corrections ireturn) t = (.ok ⟨⟩, t) ∨
      ∃ e, last.element.booleanReturn? = some e ∧
        exec (corrections ireturn) t = (.ok ⟨⟩, t.restating e) := by
  have hrules : core.rules .corrective ireturn = [(rewriteLast [ireturn] .low fun s e =>
      if s.method.signature.result = .boolean then e.booleanReturn? else none).rule] := rfl
  rw [corrections, hrules]
  rcases exec_rewriteLast hs with h | ⟨e, he, h⟩
  · exact .inl h
  · split at he
    · exact .inr ⟨e, he, h⟩
    · cases he

end Statements

end Registry

end JvmLift
