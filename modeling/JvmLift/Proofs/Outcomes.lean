import JvmLift.Proofs.Corrections
import JvmLift.Proofs.Inversion

namespace JvmLift

namespace Element

-- Whether no correction of loads, stores and constants has anything to do with the element.
def isPlain (e : Element) : Bool :=
  match e.shape with
  | .cast .. | .jump _ => false
  | .assign _ _ _ value => value.kind ≠ .cast
  | _ => true

theorem isPlain_stamped (e : Element) (stamp : Stamp) : (e.stamped stamp).isPlain = e.isPlain :=
  rfl

theorem isPlain_settled (e : Element) : e.settled.isPlain = e.isPlain := by
  obtain ⟨shape, stamp⟩ := e
  cases shape with
  | increment v delta ty affix => cases affix <;> rfl
  | _ => rfl

section Plain

variable {e : Element} (h : e.isPlain)
include h

theorem kind_ne_cast_of_isPlain : e.kind ≠ .cast := by
  obtain ⟨shape, stamp⟩ := e
  cases shape with
  | cast => cases h
  | _ => exact nofun

theorem narrowIncrement?_of_isPlain (v : LocalRef) : e.narrowIncrement? v = none := by
  obtain ⟨shape, stamp⟩ := e
  cases shape with
  | assign slot name ty value =>
    obtain ⟨shape, stamp⟩ := value
    cases shape with
    | cast => cases h
    | _ => rfl
  | _ => rfl

end Plain

theorem isPlain_of_constant {e : Element} (h : e.kind = .constant) : e.isPlain := by
  obtain ⟨shape, stamp⟩ := e
  cases shape with
  | constant => rfl
  | _ => cases h

theorem isPlain_withAffix {e load : Element} (h : e.isPendingIncrementOf load) (affix : Affix) :
    (e.withAffix affix).isPlain := by
  obtain ⟨shape, stamp⟩ := e
  cases shape with
  | increment => rfl
  | _ => cases h

theorem isPlain_booleanAssignment? {e d : Element} (h : e.booleanAssignment? = some d) :
    d.isPlain := by
  rw [booleanAssignment?] at h
  split at h
  · obtain ⟨literal, hliteral, rfl⟩ := Option.map_eq_some_iff.1 h
    rw [booleanLiteral?] at hliteral
    split_ifs at hliteral
    all_goals
      cases hliteral
      rfl
  · cases h

end Element

namespace State

theorem isPlain_entry (s : State) (e : Element) : (s.entry e).element.isPlain = e.isPlain := by
  obtain ⟨stamp, h⟩ := s.exists_entry_eq e
  rw [h, Element.isPlain_stamped]

-- A state in straight-line code of a method.
structure Plain (m : Method) (s : State) : Prop where
  method : s.method = m
  fresh : ∃ bytes pc, s.cursor = .fresh bytes pc
  entries : ∀ e ∈ s.entries, e.element.isPlain

theorem plain_start (m : Method) {cursor : Cursor} {bytes : Bytes} {pc : Nat}
    (hc : cursor = .fresh bytes pc) : (start m cursor).Plain m where
  method := rfl
  fresh := ⟨bytes, pc, hc⟩
  entries := List.forall_mem_nil _

namespace Plain

variable {m : Method} {s : State} (h : s.Plain m)
include h

theorem moved (rest : Bytes) (after pc : Nat) : (s.moved rest after pc).Plain m :=
  ⟨h.method, ⟨rest, after, rfl⟩, h.entries⟩

theorem stack {e : Entry} (he : e ∈ s.stack) : e.element.isPlain :=
  h.entries e (List.mem_append_left _ he)

theorem pushing {below : List Entry} (hb : below ⊆ s.stack) {e : Element} (he : e.isPlain) :
    ((s.leaving below).push e).Plain m where
  method := h.method
  fresh := h.fresh
  entries := by
    show ∀ d ∈ (s.leaving below).entry e :: (below ++ s.statements), _
    rw [List.forall_mem_cons, List.forall_mem_append, isPlain_entry]
    exact ⟨he, fun d hd => h.stack (hb hd), fun d hd => h.entries d (List.mem_append_right _ hd)⟩

theorem push {e : Element} (he : e.isPlain) : (s.push e).Plain m :=
  h.pushing (List.Subset.refl _) he

theorem enlisting {below : List Entry} (hb : below ⊆ s.stack) {e : Element} (he : e.isPlain) :
    ((s.leaving below).enlist e).Plain m where
  method := h.method
  fresh := h.fresh
  entries := by
    show ∀ d ∈ below ++ (s.leaving below).entry e :: s.statements, _
    rw [List.forall_mem_append, List.forall_mem_cons, isPlain_entry]
    exact ⟨fun d hd => h.stack (hb hd), he, fun d hd => h.entries d (List.mem_append_right _ hd)⟩

theorem filing {top : Entry} {below : List Entry} (hs : s.stack = top :: below) :
    ((s.leaving below).file top.settled).Plain m where
  method := h.method
  fresh := h.fresh
  entries := by
    intro d hd
    rcases List.mem_append.1 hd with hd | hd
    · exact h.stack (hs ▸ List.mem_cons_of_mem _ hd)
    · rcases mem_file.1 hd with rfl | hd
      · exact (Element.isPlain_settled _).trans (h.stack (hs ▸ List.mem_cons_self ..))
      · exact h.entries d (List.mem_append_right _ hd)

theorem restating {e : Element} (he : e.isPlain) : (s.restating e).Plain m where
  method := h.method
  fresh := h.fresh
  entries := by
    intro d hd
    rcases List.mem_append.1 hd with hd | hd
    · exact h.stack hd
    · cases hs : s.statements with
      | nil =>
        rw [State.restating, hs] at hd
        cases hd
      | cons last rest =>
        rw [State.restating, hs] at hd
        rcases List.mem_cons.1 hd with rfl | hd
        · exact he
        · exact h.entries d (List.mem_append_right _ (hs ▸ List.mem_cons_of_mem _ hd))

theorem not_lastIs_jump : ¬s.lastIs .jump := by
  cases hs : s.statements with
  | nil => simp [lastIs, lastStatement?, hs]
  | cons last rest =>
    have hlast := h.entries last (List.mem_append_right _ (hs ▸ List.mem_cons_self ..))
    simpa [lastIs, lastStatement?, hs] using Element.kind_ne_jump (fun _ _ => rfl) hlast

theorem not_topIs_cast : ¬s.topIs .cast := by
  intro htop
  obtain ⟨top, below, hs, hk⟩ := topIs_iff.1 htop
  exact Element.kind_ne_cast_of_isPlain (h.stack (hs ▸ List.mem_cons_self ..)) hk

theorem narrowIncrement? : Instruction.Local.narrowIncrement? s = none := by
  cases hs : s.statements with
  | nil => simp [Instruction.Local.narrowIncrement?, lastStatement?, hs]
  | cons last rest =>
    have hlast := h.entries last (List.mem_append_right _ (hs ▸ List.mem_cons_self ..))
    simp [Instruction.Local.narrowIncrement?, lastStatement?, hs,
      Element.narrowIncrement?_of_isPlain hlast]

end Plain

end State

namespace Fragment

open Instruction Opcode Registry

-- A constant has the category that its code says.
theorem Pushes.eq_ok {a : Action Unit} {code : Bytes} (h : Pushes a code) {s t : State}
    (ha : exec a s = (.ok ⟨⟩, t)) :
    ∃ e : Element, e.kind = .constant ∧ e.ty.category = movedCategory code ∧ t = s.push e := by
  have hnarrow : ∀ code ∈ range iconstM1 iconst5 ++ range fconst0 fconst2,
      1 = movedCategory [code] := by decide +kernel
  have hwide : ∀ code ∈ range lconst0 lconst1 ++ range dconst0 dconst1,
      2 = movedCategory [code] := by decide +kernel
  cases h with
  | pool | poolWide | poolDouble => exact Literal.loadConstant_eq_ok ha
  | int h | float h =>
    obtain ⟨-, rfl⟩ := Prod.mk.inj ha
    refine ⟨_, ?_, ?_, rfl⟩
    · rfl
    · exact hnarrow _ (by simp [h])
  | long h | double h =>
    obtain ⟨-, rfl⟩ := Prod.mk.inj ha
    refine ⟨_, ?_, ?_, rfl⟩
    · rfl
    · exact hwide _ (by simp [h])
  | null | byte | short =>
    obtain ⟨-, rfl⟩ := Prod.mk.inj ha
    refine ⟨_, ?_, ?_, rfl⟩
    · rfl
    · rfl

-- What an instruction that is executed in a plain state has found and what it leaves.
section Executed

variable {m : Method} {s t : State} {rest : Bytes} {pc : Nat} (hs : s.Plain m)
  (he : core.Executes s t)
include hs he

theorem Pushes.executed {a : Action Unit} {code : Bytes} (h : Pushes a code)
    (hc : s.cursor = .fresh (code ++ rest) pc) :
    t.Plain m ∧ exec a (s.moved rest (pc + code.length) pc) = (.ok ⟨⟩, t) ∧
      ∃ e : Element, e.kind = .constant ∧ e.ty.category = movedCategory code ∧
        t = (s.moved rest (pc + code.length) pc).push e := by
  obtain ⟨head, operand, u, rfl, ha, hcorrections⟩ := h.implements.exec_of_executes hc he
  obtain ⟨e, hk, hcategory, rfl⟩ := h.eq_ok ha
  have hplain := (hs.moved rest (pc + (head :: operand).length) pc).push
    (Element.isPlain_of_constant hk)
  have hstay := exec_corrections_push h hplain.not_lastIs_jump
  obtain ⟨-, rfl⟩ := Prod.mk.inj (hstay.symm.trans hcorrections)
  exact ⟨hplain, ha, e, hk, hcategory, rfl⟩

theorem Constants.executed {e : Element} {code : Bytes} (h : Constants m e code)
    (hc : s.cursor = .fresh (code ++ rest) pc) :
    t.Plain m ∧ t = (s.moved rest (pc + code.length) pc).push e := by
  obtain ⟨a, hpushes, ha⟩ := h.exists_pushes
  obtain ⟨hplain, ht, -⟩ := hpushes.executed hs he hc
  have hpush := ha (s.moved rest (pc + code.length) pc) hs.method
  exact ⟨hplain, (Prod.mk.inj (ht.symm.trans hpush)).2⟩

-- A load pushes its variable or takes the place of an increment of it.
theorem Loads.executed {slot : UInt16} {code : Bytes} (h : Loads slot code)
    (hc : s.cursor = .fresh (code ++ rest) pc) :
    t.Plain m ∧ ∃ v, m.localAt? slot pc = some v ∧
      let u := (s.moved rest (pc + code.length) pc).push
        (.ofShape (.localVar ⟨v.name, v.ty, slot⟩))
      t = u ∨ ∃ load increment below, s.stack = increment :: below ∧
        increment.element.isPendingIncrementOf load ∧
        t = (u.leaving below).push (increment.element.withAffix .before) := by
  obtain ⟨head, operand, u, rfl, ha, hcorrections⟩ := h.implements.exec_of_executes hc he
  obtain ⟨v, hv, rfl⟩ := Local.load_eq_ok ha
  have hplain := (hs.moved rest (pc + (head :: operand).length) pc).push
    (e := .ofShape (.localVar ⟨v.name, v.ty, slot⟩)) rfl
  have hv' : m.localAt? slot pc = some v := hs.method ▸ hv
  rcases exec_corrections_load h rfl hplain.narrowIncrement? with
    hstay | ⟨increment, below, hstack, hp, hmerge⟩
  · obtain ⟨-, rfl⟩ := Prod.mk.inj (hstay.symm.trans hcorrections)
    exact ⟨hplain, v, hv', .inl rfl⟩
  · obtain ⟨-, rfl⟩ := Prod.mk.inj (hmerge.symm.trans hcorrections)
    refine ⟨hplain.pushing (fun _ hm => ?_) (Element.isPlain_withAffix hp _), v, hv',
      .inr ⟨_, increment, below, hstack, hp, rfl⟩⟩
    exact List.mem_cons_of_mem _ (hstack ▸ List.mem_cons_of_mem _ hm)

-- A store makes an assignment of what is on top, with a boolean where one is assigned to.
theorem Stores.executed {slot : UInt16} {code : Bytes} (h : Stores slot code)
    (hc : s.cursor = .fresh (code ++ rest) pc) :
    t.Plain m ∧ ∃ top below v place, s.stack = top :: below ∧ m.localAt? slot place = some v ∧
      let w := (s.moved rest (pc + code.length) pc).leaving below
      let e : Element := .ofShape (.assign slot v.name v.ty top.element)
      t = w.enlist e ∨
        ∃ d, (w.entry e).element.booleanAssignment? = some d ∧ t = (w.enlist e).restating d := by
  obtain ⟨head, operand, u, rfl, ha, hcorrections⟩ := h.implements.exec_of_executes hc he
  obtain ⟨top, below, v, place, hstack, hv, rfl⟩ := Local.store_eq_ok ha
  have hstack' : s.stack = top :: below := hstack
  have hv' : m.localAt? slot place = some v := hs.method ▸ hv
  have hvalue := Element.kind_ne_cast_of_isPlain (hs.stack (hstack' ▸ List.mem_cons_self ..))
  have hplain := (hs.moved rest (pc + (head :: operand).length) pc).enlisting
    (fun _ hm => hstack ▸ List.mem_cons_of_mem _ hm)
    (e := .ofShape (.assign slot v.name v.ty top.element)) (decide_eq_true hvalue)
  rcases exec_corrections_store h rfl hplain.narrowIncrement? with hstay | ⟨d, hliteral, hrestate⟩
  · obtain ⟨-, rfl⟩ := Prod.mk.inj (hstay.symm.trans hcorrections)
    exact ⟨hplain, top, below, v, place, hstack', hv', .inl rfl⟩
  · obtain ⟨-, rfl⟩ := Prod.mk.inj (hrestate.symm.trans hcorrections)
    exact ⟨hplain.restating (Element.isPlain_booleanAssignment? hliteral), top, below, v, place,
      hstack', hv', .inr ⟨d, hliteral, rfl⟩⟩

-- An increment is parked or takes the place of a load of its variable.
theorem executed_increment {slot : UInt8} {delta : Int8}
    (hc : s.cursor = .fresh ([iinc, slot, delta.toUInt8] ++ rest) pc) :
    t.Plain m ∧ ∃ v : LocalVariable,
      let u := (s.moved rest (pc + 3) pc).push
        (.ofShape (.increment ⟨v.name, v.ty, slot.toUInt16⟩ delta.toInt32 v.ty .pending))
      t = u ∨ ∃ (increment : Element) (load : Entry) (below : List Entry),
        s.stack = load :: below ∧ increment.isPendingIncrementOf load.element ∧
        t = (u.leaving below).push (increment.withAffix .after) := by
  obtain ⟨head, operand, u, hhead, ha, hcorrections⟩ :=
    (Acts.increment slot delta).implements.exec_of_executes hc he
  obtain ⟨rfl, rfl⟩ := List.cons.inj hhead
  obtain ⟨v, -, rfl⟩ := Local.increment_eq_ok ha
  let w := s.moved rest (pc + 3) pc
  let e : Element := .ofShape (.increment ⟨v.name, v.ty, slot.toUInt16⟩ delta.toInt32 v.ty .pending)
  have hplain : (w.push e).Plain m := (hs.moved rest _ pc).push rfl
  have hpushed : (w.push e).stack = w.entry e :: s.stack := rfl
  rcases exec_corrections_iinc hpushed with hstay | ⟨load, below, hstack, hp, hmerge⟩
  · obtain ⟨-, rfl⟩ := Prod.mk.inj (hstay.symm.trans hcorrections)
    exact ⟨hplain, v, .inl rfl⟩
  · obtain ⟨-, rfl⟩ := Prod.mk.inj (hmerge.symm.trans hcorrections)
    refine ⟨hplain.pushing (fun _ hm => ?_) (Element.isPlain_withAffix hp _), v,
      .inr ⟨_, load, below, hstack, hp, rfl⟩⟩
    exact List.mem_cons_of_mem _ (hstack ▸ List.mem_cons_of_mem _ hm)

theorem executed_incrementWide {slot : UInt16} {delta : Int16} (hc : s.cursor =
      .fresh (Opcode.wide :: iinc :: (wideBytes slot ++ wideBytes delta.toUInt16) ++ rest) pc) :
    t.Plain m ∧ ∃ v : LocalVariable, t = (s.moved rest (pc + 6) pc).push
      (.ofShape (.increment ⟨v.name, v.ty, slot⟩ delta.toInt32 v.ty .pending)) := by
  have hwide : Opcode.wide ∉ corrected := by decide +kernel
  have ha := (Acts.incrementWide slot delta).implements.exec_of_not_mem hc he hwide
  obtain ⟨v, -, rfl⟩ := Local.increment_eq_ok ha
  exact ⟨(hs.moved rest _ pc).push rfl, v, rfl⟩

theorem executed_binary {code : Opcode} {op : BinaryOp} {ty : JvmType}
    (h : (code, op, ty) ∈ Arithmetic.binaryOperators)
    (hc : s.cursor = .fresh ([code] ++ rest) pc) :
    t.Plain m ∧ ∃ right left below, s.stack = right :: left :: below ∧
      t = ((s.moved rest (pc + 1) pc).leaving below).push
        (.ofShape (.binary left.element op right.element ty)) := by
  have hcodes : ∀ d ∈ Arithmetic.binaryOperators, d.1 ∉ corrected := by decide +kernel
  have ha := (Acts.binary h).implements.exec_of_not_mem hc he (hcodes _ h)
  obtain ⟨right, left, below, hstack, rfl⟩ := Arithmetic.binary_eq_ok ha
  refine ⟨(hs.moved rest _ pc).pushing (fun _ hm => ?_) rfl, right, left, below, hstack, rfl⟩
  exact hstack ▸ List.mem_cons_of_mem _ (List.mem_cons_of_mem _ hm)

theorem executed_negate {code : Opcode} (h : code ∈ range ineg dneg)
    (hc : s.cursor = .fresh ([code] ++ rest) pc) :
    t.Plain m ∧ ∃ operand below, s.stack = operand :: below ∧
      t = ((s.moved rest (pc + 1) pc).leaving below).push
        (.ofShape (.unary operand.element .neg operand.element.ty)) := by
  have hcodes : ∀ code ∈ range ineg dneg, code ∉ corrected := by decide +kernel
  have ha := (Acts.negate h).implements.exec_of_not_mem hc he (hcodes _ h)
  obtain ⟨operand, below, hstack, rfl⟩ := Arithmetic.negate_eq_ok ha
  refine ⟨(hs.moved rest _ pc).pushing (fun _ hm => ?_) rfl, operand, below, hstack, rfl⟩
  exact hstack ▸ List.mem_cons_of_mem _ hm

theorem executed_call {index : UInt16}
    (hc : s.cursor = .fresh (invokestatic :: wideBytes index ++ rest) pc) :
    t.Plain m ∧ ∃ member signature top stamp, ∃ c : Call Element,
      m.pool.methodRef index = .ok member ∧
      MethodDescriptor.ofDescriptor? member.descriptor = some signature ∧
      signature.parameters.length ≤ s.stack.length ∧
      t.stack = top :: s.stack.drop signature.parameters.length ∧
      top.element = ⟨.call c, stamp⟩ ∧
      c.ty = if member.name = "<init>" then .reference member.owner else signature.result := by
  obtain ⟨head, operand, u, hhead, ha, hcorrections⟩ :=
    (Acts.call index).implements.exec_of_executes hc he
  obtain ⟨rfl, rfl⟩ := List.cons.inj hhead
  obtain ⟨member, signature, hmember, hsignature, hlen, rfl⟩ := Call.call_static_eq_ok ha
  let c : Call Element := ⟨.reference member.owner, member.name, signature, none,
    (s.stack.take signature.parameters.length).reverse.map (·.element),
    if member.name = "<init>" then .reference member.owner else signature.result⟩
  let w := (s.moved rest (pc + (invokestatic :: wideBytes index).length) pc).leaving
    (s.stack.drop signature.parameters.length)
  have hplain : (w.push (.ofShape (.call c))).Plain m :=
    (hs.moved rest _ pc).pushing (List.drop_subset ..) rfl
  have hpushed : (w.push (.ofShape (.call c))).stack =
      w.entry (.ofShape (.call c)) :: s.stack.drop signature.parameters.length := rfl
  have hmember' : m.pool.methodRef index = .ok member := hs.method ▸ hmember
  obtain ⟨stamp, hstamp⟩ := w.exists_entry_eq (.ofShape (.call c))
  rcases exec_corrections_invokestatic hpushed with hstay | ⟨d, hrewrite, hpush⟩
  · obtain ⟨-, rfl⟩ := Prod.mk.inj (hstay.symm.trans hcorrections)
    exact ⟨hplain, member, signature, _, stamp, c, hmember', hsignature, hlen, rfl, hstamp, rfl⟩
  · obtain ⟨-, rfl⟩ := Prod.mk.inj (hpush.symm.trans hcorrections)
    rw [hstamp] at hrewrite
    obtain ⟨args, -, rfl⟩ := Option.map_eq_some_iff.1 hrewrite
    obtain ⟨stamp', hstamp'⟩ := ((w.push (.ofShape (.call c))).leaving
      (s.stack.drop signature.parameters.length)).exists_entry_eq ⟨.call { c with args }, stamp⟩
    exact ⟨hplain.pushing (List.subset_cons_self ..) rfl, member, signature, _, stamp',
      { c with args }, hmember', hsignature, hlen, rfl, hstamp', rfl⟩

theorem executed_pop (hc : s.cursor = .fresh ([Opcode.pop] ++ rest) pc) :
    t.Plain m ∧ ∃ top, s.stack = top :: t.stack := by
  have hdoes := (does_pop hs.not_topIs_cast).exec_of_executes hc he
  obtain ⟨⟨⟩, u, ha, hcorrections⟩ := exec_bind_eq_ok.1 hdoes
  have hstay := @exec_corrections_of_not_mem Opcode.pop (by decide +kernel) u
  obtain ⟨-, rfl⟩ := Prod.mk.inj (hstay.symm.trans hcorrections)
  obtain ⟨top, below, hstack, -, rfl⟩ := Shuffle.discardOne_eq_ok ha
  exact ⟨(hs.moved rest _ pc).filing hstack, top, hstack⟩

-- Two entries of one word are discarded, or one of two words.
theorem executed_pop2 (hc : s.cursor = .fresh ([pop2] ++ rest) pc) :
    t.Plain m ∧
      ((∃ top next, s.stack = top :: next :: t.stack ∧ top.element.ty.category = 1 ∧
        next.element.ty.category = 1) ∨
      ∃ top, s.stack = top :: t.stack ∧ top.element.ty.category = 2) := by
  have ha := Acts.discardTwo.implements.exec_of_not_mem hc he (by decide +kernel)
  rcases Shuffle.discardTwo_eq_ok ha with
    ⟨top, next, below, hstack, htop, hnext, -, -, rfl⟩ | ⟨top, below, hstack, htop, -, rfl⟩
  · exact ⟨((hs.moved rest _ pc).filing hstack).filing rfl, .inl ⟨top, next, hstack, htop, hnext⟩⟩
  · exact ⟨(hs.moved rest _ pc).filing hstack, .inr ⟨top, hstack, htop⟩⟩

theorem executed_dup (hc : s.cursor = .fresh ([dup] ++ rest) pc) (htop : ¬s.topIs .newArray) :
    t.Plain m ∧ ∃ top below, s.stack = top :: below ∧
      t = (((s.moved rest (pc + 1) pc).leaving below).push top.element).push top.element := by
  obtain ⟨⟨⟩, u, ha, hcorrections⟩ := exec_bind_eq_ok.1 ((does_dup htop).exec_of_executes hc he)
  have hstay := @exec_corrections_of_not_mem dup (by decide +kernel) u
  obtain ⟨-, rfl⟩ := Prod.mk.inj (hstay.symm.trans hcorrections)
  obtain ⟨top, below, hstack, rfl⟩ := Shuffle.rearrange_dup_eq_ok ha
  have hplain := hs.stack (hstack ▸ List.mem_cons_self ..)
  refine ⟨((hs.moved rest _ pc).pushing (fun _ hm => ?_) hplain).push hplain, top, below, hstack,
    rfl⟩
  exact hstack ▸ List.mem_cons_of_mem _ hm

end Executed

-- A return makes a statement of what is on top, with a boolean where one is to be returned.
theorem executed_ireturn {s t : State} {rest : Bytes} {pc : Nat} (he : core.Executes s t)
    (hc : s.cursor = .fresh ([ireturn] ++ rest) pc) :
    ∃ top below, s.stack = top :: below ∧
      let w := (s.moved rest (pc + 1) pc).leaving below
      let e : Element := .ofShape (.returnValue top.element)
      t = w.enlist e ∨
        ∃ d, (w.entry e).element.booleanReturn? = some d ∧ t = (w.enlist e).restating d := by
  obtain ⟨head, operand, u, hhead, ha, hcorrections⟩ :=
    (@Acts.returnValue ireturn (by decide)).implements.exec_of_executes hc he
  obtain ⟨rfl, rfl⟩ := List.cons.inj hhead
  obtain ⟨top, below, hstack, rfl⟩ := Jump.returnValue_eq_ok ha
  let w := (s.moved rest (pc + 1) pc).leaving below
  let e : Element := .ofShape (.returnValue top.element)
  have hlast : (w.enlist e).statements = w.entry e :: s.statements := rfl
  refine ⟨top, below, hstack, ?_⟩
  rcases exec_corrections_ireturn hlast with hstay | ⟨d, hliteral, hrestate⟩
  · obtain ⟨-, rfl⟩ := Prod.mk.inj (hstay.symm.trans hcorrections)
    exact .inl rfl
  · obtain ⟨-, rfl⟩ := Prod.mk.inj (hrestate.symm.trans hcorrections)
    exact .inr ⟨d, hliteral, rfl⟩

end Fragment

end JvmLift
