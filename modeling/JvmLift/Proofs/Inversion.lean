import JvmLift.Proofs.Fragment.Steps

namespace JvmLift

variable {s t : State}

namespace Action

theorem lift_eq_ok {α : Type} {e : Except ClassFileError α} {v : α}
    (h : exec (liftM e : Action α) s = (.ok v, t)) : e = .ok v ∧ t = s := by
  rw [exec_lift] at h
  cases e with
  | error e => cases (Prod.mk.inj h).1
  | ok w =>
    obtain ⟨hw, rfl⟩ := Prod.mk.inj h
    exact ⟨congrArg _ (Except.ok.inj hw), rfl⟩

theorem pop_eq_ok {e : Element} (h : exec pop s = (.ok e, t)) :
    ∃ top below, s.stack = top :: below ∧ e = top.element ∧ t = s.leaving below := by
  cases hs : s.stack with
  | nil =>
    rw [exec_pop, hs] at h
    cases (Prod.mk.inj h).1
  | cons top below =>
    rw [exec_pop_of_cons hs] at h
    obtain ⟨he, rfl⟩ := Prod.mk.inj h
    exact ⟨top, below, rfl, (Except.ok.inj he).symm, rfl⟩

theorem popMany_eq_ok {count : Nat} {es : List Element}
    (h : exec (popMany count) s = (.ok es, t)) :
    count ≤ s.stack.length ∧ es = (s.stack.take count).reverse.map (·.element) ∧
      t = s.leaving (s.stack.drop count) := by
  rw [exec_popMany] at h
  split at h
  · cases (Prod.mk.inj h).1
  · obtain ⟨he, rfl⟩ := Prod.mk.inj h
    exact ⟨by omega, (Except.ok.inj he).symm, rfl⟩

-- What is reduced is a statement, and becomes one.
theorem discard_reduce_eq_ok {top : Entry} {below : List Entry} (hs : s.stack = top :: below)
    (h : exec (discard reduce) s = (.ok ⟨⟩, t)) :
    top.element.isStatement ∧ t = (s.leaving below).file top.settled := by
  rw [exec_discard, exec_reduce, hs] at h
  dsimp only at h
  split at h
  · obtain ⟨-, rfl⟩ := Prod.mk.inj h
    exact ⟨‹_›, rfl⟩
  · cases (Prod.mk.inj h).1

theorem local?_eq_ok {slot : UInt16} {pc : Nat} {ref : LocalRef}
    (h : exec (local? slot pc) s = (.ok ref, t)) :
    ∃ v, s.method.localAt? slot pc = some v ∧ ref = ⟨v.name, v.ty, slot⟩ ∧ t = s := by
  rw [local?, exec_bind_of_ok (exec_get s), State.local?] at h
  cases hv : s.method.localAt? slot pc with
  | none =>
    rw [hv] at h
    cases (Prod.mk.inj h).1
  | some v =>
    rw [hv] at h
    obtain ⟨href, rfl⟩ := Prod.mk.inj h
    exact ⟨v, rfl, (Except.ok.inj href).symm, rfl⟩

end Action

namespace Instruction

-- A constant of the pool is pushed as a constant of the category that it must have.
theorem Literal.loadConstant_eq_ok {index : UInt16} {category : Nat}
    (h : exec (loadConstant index category) s = (.ok ⟨⟩, t)) :
    ∃ e : Element, e.kind = .constant ∧ e.ty.category = category ∧ t = s.push e := by
  rw [loadConstant, exec_bind_of_ok (exec_get s)] at h
  rw [exec_bind_eq_ok] at h
  obtain ⟨value, u, hvalue, h⟩ := h
  obtain ⟨-, rfl⟩ := Action.lift_eq_ok hvalue
  by_cases hcategory : value.category = category
  · rw [if_neg (not_not.2 hcategory)] at h
    cases he : element value with
    | error fault =>
      simp only [he] at h
      cases (Prod.mk.inj h).1
    | ok e =>
      simp only [he] at h
      obtain ⟨-, rfl⟩ := Prod.mk.inj h
      suffices e.kind = .constant ∧ e.ty.category = value.category from
        ⟨e, this.1, this.2.trans hcategory, rfl⟩
      cases value with
      | classRef name =>
        rw [element] at he
        split at he
        · cases he
          exact ⟨rfl, rfl⟩
        · cases he
      | _ =>
        cases he
        exact ⟨rfl, rfl⟩
  · rw [if_pos hcategory] at h
    cases (Prod.mk.inj h).1

-- What pushes an element made of a variable has found the variable in its slot.
theorem Local.push_local?_eq_ok {slot : UInt16} {make : LocalRef → Element} {pc : Nat}
    (h : exec (do Action.push (make (← Action.local? slot pc))) s = (.ok ⟨⟩, t)) :
    ∃ v, s.method.localAt? slot pc = some v ∧ t = s.push (make ⟨v.name, v.ty, slot⟩) := by
  rw [exec_bind_eq_ok] at h
  obtain ⟨ref, u, href, h⟩ := h
  obtain ⟨v, hv, rfl, rfl⟩ := Action.local?_eq_ok href
  obtain ⟨-, rfl⟩ := Prod.mk.inj h
  exact ⟨v, hv, rfl⟩

theorem Local.load_eq_ok {slot : UInt16} (h : exec (load slot) s = (.ok ⟨⟩, t)) :
    ∃ v, s.method.localAt? slot s.instructionPc = some v ∧
      t = s.push (.ofShape (.localVar ⟨v.name, v.ty, slot⟩)) := by
  rw [load, exec_bind_of_ok (exec_get s)] at h
  exact push_local?_eq_ok h

theorem Local.store_eq_ok {slot : UInt16} (h : exec (store slot) s = (.ok ⟨⟩, t)) :
    ∃ top below v pc, s.stack = top :: below ∧ s.method.localAt? slot pc = some v ∧
      t = (s.leaving below).enlist (.ofShape (.assign slot v.name v.ty top.element)) := by
  rw [store] at h
  rw [exec_bind_eq_ok] at h
  obtain ⟨e, u, he, h⟩ := h
  obtain ⟨top, below, hs, rfl, rfl⟩ := Action.pop_eq_ok he
  rw [exec_bind_of_ok (exec_get _)] at h
  refine ⟨top, below, ?_⟩
  rw [State.local?] at h
  cases hv : (s.leaving below).method.localAt? slot (s.leaving below).pc with
  | some v =>
    rw [hv] at h
    obtain ⟨-, rfl⟩ := Prod.mk.inj h
    exact ⟨v, _, hs, hv, rfl⟩
  | none =>
    rw [hv] at h
    rw [exec_bind_eq_ok] at h
    obtain ⟨ref, u, href, h⟩ := h
    obtain ⟨v, hv, rfl, rfl⟩ := Action.local?_eq_ok href
    obtain ⟨-, rfl⟩ := Prod.mk.inj h
    exact ⟨v, _, hs, hv, rfl⟩

theorem Local.increment_eq_ok {slot : UInt16} {delta : Int32}
    (h : exec (increment slot delta) s = (.ok ⟨⟩, t)) :
    ∃ v, s.method.localAt? slot s.instructionPc = some v ∧
      t = s.push (.ofShape (.increment ⟨v.name, v.ty, slot⟩ delta v.ty .pending)) := by
  rw [increment, exec_bind_of_ok (exec_get s)] at h
  exact push_local?_eq_ok h

theorem Arithmetic.binary_eq_ok {op : BinaryOp} {ty : JvmType}
    (h : exec (binary op ty) s = (.ok ⟨⟩, t)) :
    ∃ right left below, s.stack = right :: left :: below ∧
      t = (s.leaving below).push (.ofShape (.binary left.element op right.element ty)) := by
  rw [binary] at h
  rw [exec_bind_eq_ok] at h
  obtain ⟨e, u, he, h⟩ := h
  obtain ⟨right, rest, hs, rfl, rfl⟩ := Action.pop_eq_ok he
  rw [exec_bind_eq_ok] at h
  obtain ⟨e, u, he, h⟩ := h
  obtain ⟨left, below, hl, rfl, rfl⟩ := Action.pop_eq_ok he
  obtain ⟨-, rfl⟩ := Prod.mk.inj h
  obtain rfl : rest = left :: below := hl
  exact ⟨right, left, below, hs, rfl⟩

theorem Arithmetic.negate_eq_ok (h : exec negate s = (.ok ⟨⟩, t)) :
    ∃ operand below, s.stack = operand :: below ∧
      t = (s.leaving below).push (.ofShape (.unary operand.element .neg operand.element.ty)) := by
  rw [negate] at h
  rw [exec_bind_eq_ok] at h
  obtain ⟨e, u, he, h⟩ := h
  obtain ⟨operand, below, hs, rfl, rfl⟩ := Action.pop_eq_ok he
  obtain ⟨-, rfl⟩ := Prod.mk.inj h
  exact ⟨operand, below, hs, rfl⟩

theorem Call.call_static_eq_ok {index : UInt16} (h : exec (call index true) s = (.ok ⟨⟩, t)) :
    ∃ member signature, s.method.pool.methodRef index = .ok member ∧
      MethodDescriptor.ofDescriptor? member.descriptor = some signature ∧
      signature.parameters.length ≤ s.stack.length ∧
      t = (s.leaving (s.stack.drop signature.parameters.length)).push (.ofShape (.call
        ⟨.reference member.owner, member.name, signature, none,
          (s.stack.take signature.parameters.length).reverse.map (·.element),
          if member.name = "<init>" then .reference member.owner else signature.result⟩)) := by
  rw [call, exec_bind_of_ok (exec_get s)] at h
  rw [exec_bind_eq_ok] at h
  obtain ⟨member, u, hmember, h⟩ := h
  obtain ⟨hmember, rfl⟩ := Action.lift_eq_ok hmember
  rw [exec_bind_eq_ok] at h
  obtain ⟨signature, u, hsignature, h⟩ := h
  obtain ⟨hsignature, rfl⟩ := Action.lift_eq_ok hsignature
  have hdescribed : MethodDescriptor.ofDescriptor? member.descriptor = some signature := by
    rw [MethodDescriptor.ofDescriptor] at hsignature
    split at hsignature
    · cases hsignature
      assumption
    · cases hsignature
  rw [exec_bind_eq_ok] at h
  obtain ⟨args, u, hargs, h⟩ := h
  obtain ⟨hlen, rfl, rfl⟩ := Action.popMany_eq_ok hargs
  obtain ⟨-, rfl⟩ := Prod.mk.inj h
  exact ⟨member, signature, hmember, hdescribed, hlen, rfl⟩

theorem Shuffle.require_eq_ok {categories : List Nat} {code : Opcode}
    (h : exec (require categories code) s = (.ok ⟨⟩, t)) : s.hasCategories categories ∧ t = s := by
  rw [require, exec_bind_of_ok (exec_get s)] at h
  split at h
  · obtain ⟨-, rfl⟩ := Prod.mk.inj h
    exact ⟨‹_›, rfl⟩
  · cases (Prod.mk.inj h).1

theorem Shuffle.discardOne_eq_ok {code : Opcode} (h : exec (discardOne code) s = (.ok ⟨⟩, t)) :
    ∃ top below, s.stack = top :: below ∧ top.element.isStatement ∧
      t = (s.leaving below).file top.settled := by
  rw [discardOne] at h
  rw [exec_bind_eq_ok] at h
  obtain ⟨⟨⟩, u, hrequire, h⟩ := h
  obtain ⟨hone, rfl⟩ := require_eq_ok hrequire
  cases hs : u.stack with
  | nil =>
    rw [State.hasCategories, State.categories, hs] at hone
    cases hone
  | cons top below => exact ⟨top, below, rfl, Action.discard_reduce_eq_ok hs h⟩

-- Two values of one word are discarded, or one of two words.
theorem Shuffle.discardTwo_eq_ok {code : Opcode} (h : exec (discardTwo code) s = (.ok ⟨⟩, t)) :
    (∃ top next below, s.stack = top :: next :: below ∧ top.element.ty.category = 1 ∧
      next.element.ty.category = 1 ∧ top.element.isStatement ∧ next.element.isStatement ∧
        t = (((s.leaving (next :: below)).file top.settled).leaving below).file next.settled) ∨
    ∃ top below, s.stack = top :: below ∧ top.element.ty.category = 2 ∧
      top.element.isStatement ∧ t = (s.leaving below).file top.settled := by
  rw [discardTwo, exec_bind_of_ok (exec_get s)] at h
  split at h
  · left
    rename_i hpair
    rcases hs : s.stack with _ | ⟨top, _ | ⟨next, below⟩⟩
    all_goals simp [State.hasCategories, State.categories, hs] at hpair
    rw [exec_bind_eq_ok] at h
    obtain ⟨⟨⟩, u, hfirst, h⟩ := h
    obtain ⟨htop, rfl⟩ := Action.discard_reduce_eq_ok hs hfirst
    obtain ⟨hnext, rfl⟩ := @Action.discard_reduce_eq_ok _ _ next below rfl h
    exact ⟨top, next, below, rfl, hpair.1.symm, hpair.2.symm, htop, hnext, rfl⟩
  · right
    rw [exec_bind_eq_ok] at h
    obtain ⟨⟨⟩, u, hrequire, h⟩ := h
    obtain ⟨htwo, rfl⟩ := require_eq_ok hrequire
    rcases hs : u.stack with _ | ⟨top, below⟩
    all_goals simp [State.hasCategories, State.categories, hs] at htwo
    obtain ⟨htop, rfl⟩ := Action.discard_reduce_eq_ok hs h
    exact ⟨top, below, rfl, htwo.symm, htop, rfl⟩

-- A copy leaves the element twice.
theorem Shuffle.rearrange_dup_eq_ok {code : Opcode}
    (h : exec (rearrange [⟨[1], [0, 0]⟩] code) s = (.ok ⟨⟩, t)) :
    ∃ top below, s.stack = top :: below ∧
      t = ((s.leaving below).push top.element).push top.element := by
  rw [rearrange, exec_bind_of_ok (exec_get s)] at h
  rcases hs : s.stack with _ | ⟨top, below⟩
  · simp [State.hasCategories, State.categories, hs] at h
  · by_cases hone : s.hasCategories [1]
    · simp only [List.find?_cons, hone] at h
      have hpop : exec (Action.popMany 1) s = (.ok [top.element], s.leaving below) :=
        @Action.exec_popMany_of_append _ [top] below hs
      rw [List.length_singleton, exec_bind_of_ok hpop] at h
      obtain ⟨-, rfl⟩ := Prod.mk.inj h
      exact ⟨top, below, rfl, rfl⟩
    · simp [hone] at h

theorem Jump.returnValue_eq_ok {code : Opcode}
    (h : exec (returnValue code) s = (.ok ⟨⟩, t)) :
    ∃ top below, s.stack = top :: below ∧
      t = (s.leaving below).enlist (.ofShape (.returnValue top.element)) := by
  rw [returnValue] at h
  rw [exec_bind_eq_ok] at h
  obtain ⟨e, u, he, h⟩ := h
  obtain ⟨top, below, hs, rfl, rfl⟩ := Action.pop_eq_ok he
  split at h
  · obtain ⟨-, rfl⟩ := Prod.mk.inj h
    exact ⟨top, below, hs, rfl⟩
  · cases (Prod.mk.inj h).1

end Instruction

end JvmLift
