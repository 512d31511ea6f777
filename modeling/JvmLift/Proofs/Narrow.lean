import JvmLift.Proofs.Corrections
import JvmLift.Proofs.IntCode

namespace JvmLift

namespace JvmType

-- The types whose values the machine keeps as ints.
def integral : List JvmType :=
  [.boolean, .byte, .char, .short, .int]

-- What a variable of the type keeps of an int. A boolean keeps the lowest bit.
def keep : JvmType → Int32 → Int32
  | .boolean, value => value &&& 1
  | .byte, value => value.toInt8.toInt32
  | .char, value => value.toUInt32.toUInt16.toUInt32.toInt32
  | .short, value => value.toInt16.toInt32
  | _, value => value

-- Whether an int is a value of the type.
def Admits (ty : JvmType) (value : Int32) : Prop :=
  ty ∈ integral ∧ ty.keep value = value

instance (ty : JvmType) (value : Int32) : Decidable (ty.Admits value) :=
  inferInstanceAs (Decidable (_ ∧ _))

-- One more or one less is the same in two types exactly if they are the same type. A value at the
-- end of the range of one of them tells them apart.
theorem keep_count_iff {ty cast : JvmType} (hcast : cast.isNarrow) {delta : Int32}
    (hdelta : delta = 1 ∨ delta = -1) :
    (∀ value, ty.Admits value → ty.keep (value + delta) = cast.keep (value + delta)) ↔
      (ty ∈ integral → cast = ty) := by
  -- The ends are walked through as lists, not as all the values of a word.
  have hends : ∀ ty ∈ integral, ∀ cast ∈ [JvmType.byte, .char, .short], cast ≠ ty →
      [(1 : Int32), -1].all fun delta =>
        [(0 : Int32), 1, -2, 127, -128, 32767, -32768, 65535].any fun value =>
          decide (ty.keep value = value ∧ ty.keep (value + delta) ≠ cast.keep (value + delta)) := by
    decide +kernel
  have hmem : cast ∈ [JvmType.byte, .char, .short] := by
    cases cast with
    | byte | char | short => decide
    | _ => cases hcast
  constructor
  · intro h hty
    by_contra hne
    have hdeltas := List.all_eq_true.1 (hends ty hty cast hmem hne)
    obtain ⟨value, -, hends⟩ := List.any_eq_true.1 (hdeltas delta (by simpa using hdelta))
    obtain ⟨hvalue, hkeep⟩ := of_decide_eq_true hends
    exact hkeep (h value ⟨hty, hvalue⟩)
  · intro h value hvalue
    rw [h hvalue.1]

end JvmType

namespace Element

-- The value of an expression on int variables in which casts to other integral types may occur.
def castInt? (e : Element) : Locals → Option Int32 :=
  e.fold fun shape _ locals =>
    match shape with
    | .constant (.int value) _ => some value
    | .localVar v => some (locals v.slot)
    | .binary left op right _ =>
      (left locals).bind fun left => (right locals).bind fun right => op.int? left right
    | .cast value ty => if ty ∈ JvmType.integral then (value locals).map ty.keep else none
    | _ => none

section Value

variable {e : Element} {locals : Locals}

theorem castInt?_of_localVar? {v : LocalRef} (h : e.localVar? = some v) :
    e.castInt? locals = some (locals v.slot) := by
  obtain ⟨shape, stamp⟩ := e
  cases shape with
  | localVar w =>
    obtain rfl := Option.some.inj h
    rw [castInt?, fold_mk]
    rfl
  | _ => cases h

theorem castInt?_of_isInt {value : Int32} (h : e.isInt value) : e.castInt? locals = some value := by
  rw [isInt, Bool.and_eq_true, decide_eq_true_eq] at h
  obtain ⟨hvalue, -⟩ := h
  obtain ⟨shape, stamp⟩ := e
  rw [castInt?, fold_mk]
  cases shape with
  | constant literal ty =>
    cases literal with
    | int value => exact hvalue
    | _ => cases hvalue
  | _ => cases hvalue

theorem castInt?_binary (left : Element) (op : BinaryOp) (right : Element) (ty : JvmType)
    (stamp : Stamp) : castInt? ⟨.binary left op right ty, stamp⟩ locals =
      (left.castInt? locals).bind fun a => (right.castInt? locals).bind fun b => op.int? a b := by
  rw [castInt?, fold_mk]
  rfl

theorem castInt?_cast (value : Element) {ty : JvmType} (stamp : Stamp)
    (h : ty ∈ JvmType.integral) :
    castInt? ⟨.cast value ty, stamp⟩ locals = (value.castInt? locals).map ty.keep := by
  rw [castInt?, fold_mk]
  exact if_pos h

end Value

-- What an assignment leaves in int variables, or an increment on its own. The increment counts in
-- the type of its variable.
def effect? (e : Element) (locals : Locals) : Option Locals :=
  match e.shape with
  | .assign slot _ _ value => (value.castInt? locals).map (Function.update locals slot)
  | .increment v delta _ _ =>
    some (Function.update locals v.slot (v.ty.keep (locals v.slot + delta)))
  | _ => none

-- An assignment `v = (T) (v + 1)` or `v = (T) (v - 1)` with a type T narrower than int.
structure Counts (e : Element) (v : LocalRef) (delta : Int32) (cast : JvmType) : Prop where
  narrow : cast.isNarrow
  assigns : ∃ name ty left op right sum inner outer, e.shape = .assign v.slot name ty
      ⟨.cast ⟨.binary left op right sum, inner⟩ cast, outer⟩ ∧
    left.localVar? = some v ∧ right.isInt 1 ∧
    (op = .plus ∧ delta = 1 ∨ op = .minus ∧ delta = -1)

variable {e : Element} {v : LocalRef} {delta : Int32} {cast : JvmType}

theorem narrowIncrement?_eq_some_iff :
    e.narrowIncrement? v = some (delta, cast) ↔ e.Counts v delta cast := by
  constructor
  · intro h
    rw [narrowIncrement?] at h
    split at h
    · rename_i slot name ty left op right sum inner cast' outer hshape
      have hassigns (hmatched : slot = v.slot ∧ cast'.isNarrow ∧ left.localVar? = some v ∧
          right.isInt 1) (hop : op = .plus ∧ delta = 1 ∨ op = .minus ∧ delta = -1) :
          e.Counts v delta cast' := by
        obtain ⟨rfl, hnarrow, hleft, hright⟩ := hmatched
        exact ⟨hnarrow, name, ty, left, op, right, sum, inner, outer, hshape, hleft, hright, hop⟩
      simp only [Bool.and_eq_true, decide_eq_true_eq, and_assoc] at h
      split at h
      · split at h
        · cases h
          exact hassigns ‹_› (.inl ⟨rfl, rfl⟩)
        · cases h
      · split at h
        · cases h
          exact hassigns ‹_› (.inr ⟨rfl, rfl⟩)
        · cases h
      · cases h
    · cases h
  · rintro ⟨hnarrow, name, ty, left, op, right, sum, inner, outer, hshape, hleft, hright, hop⟩
    rw [narrowIncrement?, hshape]
    rcases hop with ⟨rfl, rfl⟩ | ⟨rfl, rfl⟩ <;> simp [hnarrow, hleft, hright]

namespace Counts

variable (h : e.Counts v delta cast)
include h

theorem delta_eq : delta = 1 ∨ delta = -1 := by
  obtain ⟨_, _, _, _, _, _, _, _, -, -, -, h⟩ := h.assigns
  exact h.imp And.right And.right

theorem effect?_eq (locals : Locals) : e.effect? locals =
    some (Function.update locals v.slot (cast.keep (locals v.slot + delta))) := by
  obtain ⟨name, ty, left, op, right, sum, inner, outer, hshape, hleft, hright, hop⟩ := h.assigns
  have hcast : cast ∈ JvmType.integral := by
    have hnarrow := h.narrow
    cases cast with
    | byte | char | short => decide
    | _ => cases hnarrow
  have hsum : op.int? (locals v.slot) 1 = some (locals v.slot + delta) := by
    rcases hop with ⟨rfl, rfl⟩ | ⟨rfl, rfl⟩
    · rfl
    · exact congrArg some (Int32.sub_eq_add_neg ..)
  have hvalue : castInt? ⟨.cast ⟨.binary left op right sum, inner⟩ cast, outer⟩ locals =
      some (cast.keep (locals v.slot + delta)) := by
    rw [castInt?_cast _ _ hcast, castInt?_binary, castInt?_of_localVar? hleft,
      castInt?_of_isInt hright]
    exact congrArg (Option.map cast.keep) hsum
  rw [effect?, hshape]
  exact congrArg (Option.map (Function.update locals v.slot)) hvalue

-- The assignment does what an increment of the variable does exactly if the cast is to the type of
-- the variable, or if that holds no ints.
theorem effect?_eq_iff (affix : Affix) (ty : JvmType) (stamp : Stamp) :
    (∀ locals, v.ty.Admits (locals v.slot) →
      effect? ⟨.increment v delta ty affix, stamp⟩ locals = e.effect? locals) ↔
      (v.ty ∈ JvmType.integral → cast = v.ty) := by
  rw [← JvmType.keep_count_iff h.narrow h.delta_eq]
  constructor
  · intro heffect value hvalue
    have hlocals := heffect (fun _ => value) hvalue
    rw [h.effect?_eq] at hlocals
    have hslot := congrFun (Option.some.inj hlocals) v.slot
    rwa [Function.update_self, Function.update_self] at hslot
  · intro hkeep locals hvalue
    rw [h.effect?_eq, ← hkeep _ hvalue]
    rfl

end Counts

end Element

-- The state with an increment in the place of the top of the stack and of the last statement.
def State.counting (s : State) (increment : Element) : State :=
  ({ s with stack := s.stack.tail, statements := s.statements.tail } : State).push increment

-- On top of the stack a variable is read that the last statement counts up or down.
structure State.CountsTop (s : State) (v : LocalRef) (delta : Int32) (cast : JvmType)
    (assignment : Element) : Prop where
  reads : (s.peekAt? 0).bind Element.localVar? = some v
  assigns : s.lastStatement? 0 = some assignment
  counts : assignment.Counts v delta cast

namespace Instruction.Local

variable {s : State} {v : LocalRef} {delta : Int32} {cast : JvmType}

theorem narrowIncrement?_eq_some_iff : narrowIncrement? s = some (v, delta, cast) ↔
    ∃ assignment, s.CountsTop v delta cast assignment := by
  simp only [narrowIncrement?, Option.bind_eq_bind, Option.bind_eq_some_iff, Option.pure_def,
    Option.some.injEq, Prod.mk.injEq]
  constructor
  · rintro ⟨read, hread, v, hv, assignment, hlast, ⟨delta, cast⟩, hnarrow, rfl, rfl, rfl⟩
    exact ⟨assignment, Option.bind_eq_some_iff.2 ⟨read, hread, hv⟩, hlast,
      Element.narrowIncrement?_eq_some_iff.1 hnarrow⟩
  · rintro ⟨assignment, hreads, hlast, hcounts⟩
    obtain ⟨read, hread, hv⟩ := Option.bind_eq_some_iff.1 hreads
    exact ⟨read, hread, v, hv, assignment, hlast, (delta, cast),
      Element.narrowIncrement?_eq_some_iff.2 hcounts, rfl, rfl, rfl⟩

theorem exists_of_topTwo {related : Element → Element → Bool} (h : topTwo s related) :
    ∃ top below rest, s.stack = top :: below :: rest ∧ related below.element top.element := by
  rcases hs : s.stack with _ | ⟨top, _ | ⟨below, rest⟩⟩
  · simp [topTwo, State.peekAt?, hs] at h
  · rw [topTwo_of_singleton _ hs] at h
    cases h
  · rw [topTwo_of_cons _ hs] at h
    exact ⟨top, below, rest, rfl, h⟩

theorem exec_foldNarrow {affix : Affix} {assignment : Element}
    (h : s.CountsTop v delta cast assignment) : exec (foldNarrow affix) s =
      (.ok ⟨⟩, s.counting ⟨.increment v delta cast affix, assignment.stamp⟩) := by
  obtain ⟨read, hread, -⟩ := Option.bind_eq_some_iff.1 h.reads
  obtain ⟨top, htop, -⟩ := Option.map_eq_some_iff.1 hread
  obtain ⟨last, hlast, rfl⟩ := Option.map_eq_some_iff.1 h.assigns
  obtain ⟨below, hstack⟩ := List.head?_eq_some_iff.1 (List.head?_eq_getElem?.trans htop)
  obtain ⟨earlier, hstatements⟩ := List.head?_eq_some_iff.1 (List.head?_eq_getElem?.trans hlast)
  rw [foldNarrow, exec_bind_of_ok (exec_get s), narrowIncrement?_eq_some_iff.2 ⟨_, h⟩]
  dsimp only
  rw [exec_bind_of_ok (Action.exec_discard_pop_of_cons hstack),
    exec_bind_of_ok (Action.exec_removeLastStatement_of_cons (s := s.leaving below) hstatements),
    State.counting, hstack, hstatements]
  rfl

end Instruction.Local

namespace Registry

open Instruction Declaration Opcode

variable {s t : State} {head : Opcode}

theorem mem_primitiveLoads (h : head ∈ integerLoads) : head ∈ primitiveLoads := by
  have hloads : ∀ code ∈ integerLoads, code ∈ primitiveLoads := by decide +kernel
  exact hloads head h

-- No statement is lost to a correction of the last one.
theorem exec_rewriteLast_eq_ok {codes : List Opcode} {priority : Priority}
    {rewrite? : State → Element → Option Element}
    (h : exec (runAll head [(rewriteLast codes priority rewrite?).rule]) s = (.ok ⟨⟩, t)) :
    t = s ∨ ∃ e, t = s.restating e := by
  cases hs : s.statements with
  | nil =>
    have hnone : (rewriteLast codes priority rewrite?).rule.applies s head = false := by
      show ((s.lastStatement? 0).bind (rewrite? s)).isSome = false
      rw [State.lastStatement?, hs]
      rfl
    rw [exec_runAll_cons_of_spared hnone] at h
    exact .inl (Prod.mk.inj h).2.symm
  | cons last earlier =>
    rcases exec_rewriteLast hs with hstays | ⟨e, -, hrestated⟩
    · exact .inl (Prod.mk.inj (h.symm.trans hstays)).2
    · exact .inr ⟨e, (Prod.mk.inj (h.symm.trans hrestated)).2⟩

-- A load that is not next to a pending increment folds a narrow one.
theorem exec_corrections_load_of_countsTop (hhead : head ∈ integerLoads)
    (hpending : Local.topTwo s (fun below top => below.isPendingIncrementOf top) = false)
    {v : LocalRef} {delta : Int32} {cast : JvmType} {assignment : Element}
    (h : s.CountsTop v delta cast assignment) : exec (corrections head) s =
      (.ok ⟨⟩, s.counting ⟨.increment v delta cast .before, assignment.stamp⟩) := by
  have hspared : Local.useNew.rule.applies s head = false := hpending
  have happlies : (Local.narrowIncrement? s).isSome :=
    Option.isSome_of_eq_some (Local.narrowIncrement?_eq_some_iff.2 ⟨_, h⟩)
  rw [corrections, corrective_primitiveLoads (mem_primitiveLoads hhead), if_pos hhead,
    exec_runAll_cons_of_spared hspared]
  exact exec_runAll_singleton_of_applies happlies (Local.exec_foldNarrow h)

-- Corrections of a load take a statement off only for a narrow increment.
theorem countsTop_of_load (hhead : head ∈ integerLoads)
    (hrun : exec (corrections head) s = (.ok ⟨⟩, t))
    (hlt : t.statements.length < s.statements.length) :
    ∃ v delta cast assignment, s.CountsTop v delta cast assignment ∧
      t = s.counting ⟨.increment v delta cast .before, assignment.stamp⟩ := by
  have hprimitive := mem_primitiveLoads hhead
  cases hpending : Local.topTwo s fun below top => below.isPendingIncrementOf top with
  | true =>
    obtain ⟨load, top, below, hs, hp⟩ := Local.exists_of_topTwo hpending
    rw [exec_corrections_useNew hprimitive hs hp] at hrun
    obtain rfl := (Prod.mk.inj hrun).2
    exact absurd hlt (lt_irrefl _)
  | false =>
    cases hfound : Local.narrowIncrement? s with
    | none =>
      rw [exec_corrections_load_of_spared hprimitive hpending hfound] at hrun
      obtain rfl := (Prod.mk.inj hrun).2
      exact absurd hlt (lt_irrefl _)
    | some found =>
      obtain ⟨v, delta, cast⟩ := found
      obtain ⟨assignment, hcounts⟩ := Local.narrowIncrement?_eq_some_iff.1 hfound
      rw [exec_corrections_load_of_countsTop hhead hpending hcounts] at hrun
      exact ⟨v, delta, cast, assignment, hcounts, (Prod.mk.inj hrun).2.symm⟩

-- Corrections of a store take a statement off only for a narrow increment. The statement before it
-- may be corrected after that.
theorem countsTop_of_store (hhead : head ∈ integerStores)
    (hrun : exec (corrections head) s = (.ok ⟨⟩, t))
    (hlt : t.statements.length < s.statements.length) :
    ∃ v delta cast assignment, s.CountsTop v delta cast assignment ∧
      let counted := s.counting ⟨.increment v delta cast .after, assignment.stamp⟩
      t = counted ∨ ∃ e, t = counted.restating e := by
  rw [corrections, corrective_integerStores hhead] at hrun
  cases hfound : Local.narrowIncrement? s with
  | none =>
    rw [exec_runAll_cons_of_spared (congrArg Option.isSome hfound)] at hrun
    exfalso
    rcases exec_rewriteLast_eq_ok hrun with rfl | ⟨e, rfl⟩
    · exact lt_irrefl _ hlt
    · rw [State.restating, List.length_modify] at hlt
      exact lt_irrefl _ hlt
  | some found =>
    obtain ⟨v, delta, cast⟩ := found
    obtain ⟨assignment, hcounts⟩ := Local.narrowIncrement?_eq_some_iff.1 hfound
    rw [exec_runAll_cons_of_applies (congrArg Option.isSome hfound)
      (Local.exec_foldNarrow hcounts)] at hrun
    exact ⟨v, delta, cast, assignment, hcounts, exec_rewriteLast_eq_ok hrun⟩

-- Where the corrections of an integer load or store take a statement off, it is an assignment that
-- counts the variable on top up or down, and an increment of the variable stands on top instead. It
-- does what the assignment did to every value of the variable exactly if the assignment casts to
-- the type of the variable, or if that holds no ints.
theorem narrowing_preserves_iff (hhead : head ∈ integerLoads ++ integerStores)
    (hrun : exec (corrections head) s = (.ok ⟨⟩, t))
    (hlt : t.statements.length < s.statements.length) :
    ∃ v delta cast affix assignment, s.CountsTop v delta cast assignment ∧
      let increment : Element := ⟨.increment v delta cast affix, assignment.stamp⟩
      (t = s.counting increment ∨ ∃ e, t = (s.counting increment).restating e) ∧
        ((∀ locals, v.ty.Admits (locals v.slot) →
          increment.effect? locals = assignment.effect? locals) ↔
          (v.ty ∈ JvmType.integral → cast = v.ty)) := by
  rcases List.mem_append.1 hhead with hload | hstore
  · obtain ⟨v, delta, cast, assignment, hcounts, hcounted⟩ := countsTop_of_load hload hrun hlt
    exact ⟨v, delta, cast, .before, assignment, hcounts, .inl hcounted,
      hcounts.counts.effect?_eq_iff ..⟩
  · obtain ⟨v, delta, cast, assignment, hcounts, hcounted⟩ := countsTop_of_store hstore hrun hlt
    exact ⟨v, delta, cast, .after, assignment, hcounts, hcounted,
      hcounts.counts.effect?_eq_iff ..⟩

-- A method that counts a variable up in bytes and reads it afterwards.
def countsBytes (ty : JvmType) : Method :=
  { className := "A", name := "m", descriptor := "()V", signature := ⟨[], .void⟩
    code := [iload0, iconst0 + 1, iadd, i2b, istore0, iload0, istore0 + 1, returnVoid]
    locals := [⟨"x", ty, 0, 0, 9⟩, ⟨"y", .int, 1, 0, 9⟩] }

-- Where the variable is a byte, the increment of it does the same.
theorem narrowing_preserves_byte :
    let m := countsBytes .byte
    let v : LocalRef := ⟨"x", .byte, 0⟩
    ∃ s u t affix assignment, core.Runs (.start m (.behind m.code 0)) s ∧
      exec (Local.load 0) s.fetch = (.ok ⟨⟩, u) ∧ exec (corrections iload0) u = (.ok ⟨⟩, t) ∧
      t.statements.length < u.statements.length ∧ u.CountsTop v 1 .byte assignment ∧
      let increment : Element := ⟨.increment v 1 .byte affix, assignment.stamp⟩
      (t = u.counting increment ∨ ∃ e, t = (u.counting increment).restating e) ∧
        ∀ locals, v.ty.Admits (locals v.slot) →
          increment.effect? locals = assignment.effect? locals := by
  intro m v
  have hwalk : (core.walk? 5 (.start m (.behind m.code 0))).map (fun s =>
      let loaded := exec (Local.load 0) s.fetch
      let corrected := exec (corrections iload0) loaded.2
      (Local.narrowIncrement? loaded.2, decide (loaded.1 = .ok ⟨⟩ ∧ corrected.1 = .ok ⟨⟩ ∧
        corrected.2.statements.length < loaded.2.statements.length))) =
      some (some (v, 1, .byte), true) := by
    decide +kernel
  obtain ⟨s, hs, hfacts⟩ := Option.map_eq_some_iff.1 hwalk
  simp only [Prod.mk.injEq, decide_eq_true_eq] at hfacts
  obtain ⟨hnarrow, hload, hcorrect, hlt⟩ := hfacts
  let u := (exec (Local.load 0) s.fetch).2
  let t := (exec (corrections iload0) u).2
  have hrun : exec (corrections iload0) u = (.ok ⟨⟩, t) := Prod.ext hcorrect rfl
  obtain ⟨w, delta, cast, affix, assignment, hcounts, ht, heffect⟩ :=
    narrowing_preserves_iff (by decide) hrun hlt
  have hfound := hnarrow.symm.trans (Local.narrowIncrement?_eq_some_iff.2 ⟨_, hcounts⟩)
  simp only [Option.some.injEq, Prod.mk.injEq] at hfound
  obtain ⟨rfl, rfl, rfl⟩ := hfound
  exact ⟨s, u, t, affix, assignment, runs_of_walk? hs, Prod.ext hload rfl, hrun, hlt, hcounts, ht,
    heffect.2 fun _ => rfl⟩

-- The byte that an assignment leaves in an int variable is not what an increment of it leaves.
theorem not_narrowing_preserves_int :
    let m := countsBytes .int
    let locals : Locals := fun _ => 127
    ∃ s u t v affix assignment, core.Runs (.start m (.behind m.code 0)) s ∧
      exec (Local.load 0) s.fetch = (.ok ⟨⟩, u) ∧ exec (corrections iload0) u = (.ok ⟨⟩, t) ∧
      u.CountsTop v 1 .byte assignment ∧
      let increment : Element := ⟨.increment v 1 .byte affix, assignment.stamp⟩
      t = u.counting increment ∧ v.ty.Admits (locals v.slot) ∧
        increment.effect? locals ≠ assignment.effect? locals ∧
        (core.decompile Observer.idle ⟨⟩ m (.behind m.code 0)).result.isOk := by
  intro m locals
  have hwalk : (core.walk? 5 (.start m (.behind m.code 0))).map (fun s =>
      let loaded := exec (Local.load 0) s.fetch
      (loaded.1, Local.narrowIncrement? loaded.2,
        Local.topTwo loaded.2 fun below top => below.isPendingIncrementOf top)) =
      some (.ok ⟨⟩, some (⟨"x", .int, 0⟩, 1, .byte), false) := by
    decide +kernel
  obtain ⟨s, hs, hfacts⟩ := Option.map_eq_some_iff.1 hwalk
  simp only [Prod.mk.injEq] at hfacts
  obtain ⟨hload, hnarrow, hpending⟩ := hfacts
  obtain ⟨assignment, hcounts⟩ := Local.narrowIncrement?_eq_some_iff.1 hnarrow
  refine ⟨s, _, _, _, .before, assignment, runs_of_walk? hs, Prod.ext hload rfl,
    exec_corrections_load_of_countsTop (by decide) hpending hcounts, hcounts, rfl, by decide, ?_,
    by decide +kernel⟩
  intro hsame
  rw [hcounts.counts.effect?_eq] at hsame
  exact absurd (congrFun (Option.some.inj hsame) 0) (by decide)

end Registry

end JvmLift
