import JvmLift.Proofs.Pending

namespace JvmLift

namespace Element

variable {v : Element}

section Leaves

variable (hv : v.kind = .call) {e d : Element}
include hv

theorem occurrences_of_leaf (hk : e.kind ≠ .call) (hc : e.children = []) : v.occurrences e = 0 := by
  rw [occurrences_of_kind_ne hv hk, inner, hc]
  rfl

theorem occurrences_of_only_child (hk : e.kind ≠ .call) (hc : e.children = [d])
    (hd : v.occurrences d = 0) : v.occurrences e = 0 := by
  rw [occurrences_of_kind_ne hv hk, inner, hc, count_cons, hd]
  rfl

theorem occurrences_jump (h : e.kind = .jump) : v.occurrences e = 0 := by
  refine occurrences_of_leaf hv (by simp [h]) ?_
  obtain ⟨shape, stamp⟩ := e
  cases shape <;> first | rfl | cases h

theorem occurrences_isInt {n : Int32} (h : e.isInt n) : v.occurrences e = 0 := by
  have hconstant := (Bool.and_eq_true_iff.1 h).1
  exact occurrences_intConstant? hv (of_decide_eq_true hconstant)

theorem occurrences_isPendingIncrementOf (h : e.isPendingIncrementOf d) :
    v.occurrences e = 0 ∧ v.occurrences d = 0 := by
  unfold isPendingIncrementOf at h
  split at h
  · rename_i he hd
    exact ⟨occurrences_of_leaf hv (by simp [kind, he, Shape.kind]) (by simp [children, he]),
      occurrences_of_leaf hv (by simp [kind, hd, Shape.kind]) (by simp [children, hd])⟩
  · cases h

theorem occurrences_booleanLiteral? (h : e.booleanLiteral? = some d) :
    v.occurrences e = 0 ∧ v.occurrences d = 0 := by
  unfold booleanLiteral? at h
  split at h
  · obtain rfl := Option.some.inj h
    exact ⟨occurrences_isInt hv ‹_›, occurrences_of_leaf hv nofun rfl⟩
  · split at h
    · obtain rfl := Option.some.inj h
      exact ⟨occurrences_isInt hv ‹_›, occurrences_of_leaf hv nofun rfl⟩
    · cases h

-- The rewritings of statements have to do with constants only.
theorem occurrences_booleanAssignment? (h : e.booleanAssignment? = some d) :
    v.occurrences d = v.occurrences e ∧ d.kind ≠ .call := by
  obtain ⟨shape, stamp⟩ := e
  unfold booleanAssignment? at h
  split at h
  · rename_i slot name value heq
    obtain rfl : shape = _ := heq
    obtain ⟨literal, hl, rfl⟩ := Option.map_eq_some_iff.1 h
    obtain ⟨hvalue, hliteral⟩ := occurrences_booleanLiteral? hv hl
    have hnew : v.occurrences (ofShape (.assign slot name .boolean literal)) = 0 :=
      occurrences_of_only_child hv nofun rfl hliteral
    have hold : v.occurrences ⟨.assign slot name .boolean value, stamp⟩ = 0 :=
      occurrences_of_only_child hv nofun rfl hvalue
    exact ⟨hnew.trans hold.symm, nofun⟩
  · cases h

theorem occurrences_booleanReturn? (h : e.booleanReturn? = some d) :
    v.occurrences d = v.occurrences e ∧ d.kind ≠ .call := by
  obtain ⟨shape, stamp⟩ := e
  unfold booleanReturn? at h
  split at h
  · rename_i value heq
    obtain rfl : shape = _ := heq
    obtain ⟨literal, hl, rfl⟩ := Option.map_eq_some_iff.1 h
    obtain ⟨hvalue, hliteral⟩ := occurrences_booleanLiteral? hv hl
    have hnew : v.occurrences (ofShape (.returnValue literal)) = 0 :=
      occurrences_of_only_child hv nofun rfl hliteral
    have hold : v.occurrences ⟨.returnValue value, stamp⟩ = 0 :=
      occurrences_of_only_child hv nofun rfl hvalue
    exact ⟨hnew.trans hold.symm, nofun⟩
  · cases h

theorem occurrences_narrowIncrement? {w : LocalRef} {found : Int32 × JvmType}
    (h : e.narrowIncrement? w = some found) : v.occurrences e = 0 := by
  obtain ⟨shape, stamp⟩ := e
  unfold narrowIncrement? at h
  split at h
  · rename_i slot name ty left op right inside stamp₁ narrow stamp₂ heq
    obtain rfl : shape = _ := heq
    have hmatched : left.localVar? = some w ∧ right.isInt 1 := by
      cases op <;> simp at h <;> exact ⟨h.1.1.2, h.1.2⟩
    have hleft := occurrences_localVar? hv hmatched.1
    have hright := occurrences_isInt hv hmatched.2
    have hsum : v.occurrences ⟨.binary left op right inside, stamp₁⟩ = 0 := by
      have hinner : v.inner ⟨.binary left op right inside, stamp₁⟩ = 0 := by
        show v.occurrences left + (v.occurrences right + 0) = 0
        rw [hleft, hright]
      rw [← hinner]
      exact occurrences_of_kind_ne hv nofun
    have hcast : v.occurrences ⟨.cast ⟨.binary left op right inside, stamp₁⟩ narrow, stamp₂⟩ = 0 :=
      occurrences_of_only_child hv nofun rfl hsum
    exact occurrences_of_only_child hv nofun rfl hcast
  · cases h

-- A construction has the arguments of the constructor call.
theorem inner_constructed? (h : e.constructed? = some d) :
    v.inner e ≤ v.inner d ∧ (e.isSaturated → d.isSaturated) := by
  obtain ⟨shape, stamp⟩ := e
  unfold constructed? at h
  split at h
  · rename_i c heq
    obtain rfl : shape = _ := heq
    split at h
    · rename_i ty stamp' hc ht
      obtain rfl := Option.some.inj h
      refine ⟨?_, fun hs => hs⟩
      have hallocate : v.occurrences ⟨.allocate ty, stamp'⟩ = 0 :=
        occurrences_of_leaf hv nofun rfl
      show v.count (c.target.toList ++ c.args) ≤ v.count c.args
      rw [ht, Option.toList_some, count_append, count_cons, hallocate]
      simp
    · cases h
  · cases h

omit hv in
theorem length_booleanArguments? {parameters : List JvmType} {args replaced : List Element}
    (hl : args.length = parameters.length) (h : booleanArguments? parameters args = some replaced) :
    replaced.length = parameters.length := by
  unfold booleanArguments? at h
  dsimp only at h
  split at h
  · obtain rfl := Option.some.inj h
    rw [List.length_zipWith, hl, Nat.min_self]
  · cases h

theorem count_booleanArguments? {parameters : List JvmType} {args replaced : List Element}
    (hl : args.length = parameters.length) (h : booleanArguments? parameters args = some replaced) :
    v.count args ≤ v.count replaced := by
  unfold booleanArguments? at h
  dsimp only at h
  split at h
  · obtain rfl := Option.some.inj h
    clear h
    rename_i hany
    clear hany
    induction args generalizing parameters with
    | nil => exact Nat.zero_le _
    | cons arg args ih =>
      cases parameters with
      | nil => cases hl
      | cons ty parameters =>
        have hrest := ih (Nat.succ.inj hl)
        rw [List.zipWith_cons_cons, count_cons, count_cons]
        suffices v.occurrences arg ≤ v.occurrences
            ((if ty = .boolean then arg.booleanLiteral? else none).getD arg) by omega
        split
        · cases hb : arg.booleanLiteral? with
          | none => exact Nat.le_refl _
          | some literal =>
            rw [(occurrences_booleanLiteral? hv hb).1]
            exact Nat.zero_le _
        · exact Nat.le_refl _
  · cases h

-- A call keeps what is not replaced in it by a boolean.
theorem inner_booleanCall? (h : e.booleanCall? = some d) (hs : e.isSaturated) :
    v.inner e ≤ v.inner d ∧ d.isSaturated := by
  obtain ⟨shape, stamp⟩ := e
  unfold booleanCall? at h
  split at h
  · rename_i c heq
    obtain rfl : shape = _ := heq
    obtain ⟨args, ha, rfl⟩ := Option.map_eq_some_iff.1 h
    have hl : c.args.length = c.signature.parameters.length := of_decide_eq_true hs
    refine ⟨?_, decide_eq_true (length_booleanArguments? hl ha)⟩
    show v.count (c.target.toList ++ c.args) ≤ v.count (c.target.toList ++ args)
    have hcount := count_booleanArguments? hv hl ha
    rw [count_append, count_append]
    omega
  · rename_i ty signature args heq
    obtain rfl : shape = _ := heq
    obtain ⟨replaced, ha, rfl⟩ := Option.map_eq_some_iff.1 h
    have hl : args.length = signature.parameters.length := of_decide_eq_true hs
    exact ⟨count_booleanArguments? hv hl ha, decide_eq_true (length_booleanArguments? hl ha)⟩
  · cases h

end Leaves

end Element

end JvmLift
