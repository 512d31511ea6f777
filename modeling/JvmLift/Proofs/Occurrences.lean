import JvmLift.State
import JvmLift.Proofs.Tree
import Mathlib.Algebra.BigOperators.Group.List.Basic
import Mathlib.Algebra.GroupWithZero.Nat

namespace JvmLift

theorem Decimal.Binary.same_self_of_same {x y : Decimal.Binary} (h : x.same y) : y.same y := by
  cases y with
  | nan => cases x <;> simp_all [Decimal.Binary.same]
  | infinite negative => simp [Decimal.Binary.same]
  | finite negative mantissa exponent =>
    unfold Decimal.Binary.same
    split <;> simp_all

theorem Constant.same_self_of_same {x y : Constant} (h : x.same y) : y.same y := by
  cases y with
  | float y =>
    cases x with
    | float x => exact Decimal.Binary.same_self_of_same (x := x.value) h
    | _ => simp [Constant.same] at h
  | double y =>
    cases x with
    | double x => exact Decimal.Binary.same_self_of_same (x := x.value) h
    | _ => simp [Constant.same] at h
  | _ => simp [Constant.same]

namespace Shape

variable {s t : Shape Unit}

theorem kind_eq_of_same (h : s.same t) : s.kind = t.kind := by
  unfold same at h
  split at h
  · rfl
  · rw [of_decide_eq_true h]

theorem children_eq_of_same (h : s.same t) : s.children = t.children := by
  unfold same at h
  split at h
  · rfl
  · rw [of_decide_eq_true h]

theorem same_self_of_same (h : s.same t) : t.same t := by
  unfold same at h
  split at h
  · rename_i x ty y ty'
    have hxy := (Bool.and_eq_true_iff.1 h).1
    simp [same, Constant.same_self_of_same hxy]
  · rename_i hnot
    obtain rfl := of_decide_eq_true h
    unfold same
    split
    · exact absurd rfl (hnot _ _ _ _ rfl)
    · exact decide_eq_true rfl

end Shape

namespace Element

-- Trees are the same if their top layers are and the trees below them are.
theorem same_mk (shape : Shape Element) (stamp : Stamp) (e : Element) :
    same ⟨shape, stamp⟩ e =
      ((shape.map fun _ => ()).same (e.shape.map fun _ => ()) &&
        (List.zipWith same shape.children e.children).all (·)) := by
  rw [same, fold_mk, Shape.map_map, Shape.children_map, List.zipWith_map_left]
  rfl

theorem kind_eq_of_same {e d : Element} (h : e.same d) : e.kind = d.kind := by
  obtain ⟨shape, stamp⟩ := e
  rw [same_mk, Bool.and_eq_true] at h
  have hkind := Shape.kind_eq_of_same h.1
  rw [kind, kind]
  revert hkind
  cases shape <;> cases d.shape <;> simp [Shape.map, Shape.kind]

theorem same_stamped (e d : Element) (stamp : Stamp) : (e.stamped stamp).same d = e.same d := by
  obtain ⟨shape, old⟩ := e
  rw [stamped, same_mk, same_mk]

theorem exists_same_of_zipWith {es ds : List Element} (hlength : es.length = ds.length)
    (h : (List.zipWith same es ds).all (·)) {d : Element} (hd : d ∈ ds) : ∃ e ∈ es, e.same d := by
  induction es generalizing ds with
  | nil =>
    rw [List.eq_nil_of_length_eq_zero hlength.symm] at hd
    cases hd
  | cons e es ih =>
    cases ds with
    | nil => cases hd
    | cons first ds =>
      obtain ⟨hfirst, hrest⟩ := Bool.and_eq_true_iff.1 h
      rcases List.mem_cons.1 hd with rfl | hd
      · exact ⟨e, List.mem_cons_self .., hfirst⟩
      · obtain ⟨x, hx, hsame⟩ := ih (Nat.succ.inj hlength) hrest hd
        exact ⟨x, List.mem_cons_of_mem _ hx, hsame⟩

-- What is equal to some element is equal to itself, which an element with a NaN is not.
theorem same_self_of_same {e d : Element} (h : e.same d) : d.same d := by
  induction e using children_induction generalizing d with | h e ih =>
  obtain ⟨shape, stamp⟩ := e
  obtain ⟨other, stamp'⟩ := d
  rw [same_mk, Bool.and_eq_true] at h
  have hlength : shape.children.length = other.children.length := by
    have hlayer := congrArg List.length (Shape.children_eq_of_same h.1)
    rwa [Shape.children_map, Shape.children_map, List.length_map, List.length_map] at hlayer
  rw [same_mk, Bool.and_eq_true, children_mk, List.zipWith_self, List.all_map]
  refine ⟨Shape.same_self_of_same h.1, List.all_eq_true.2 fun d hd => ?_⟩
  obtain ⟨c, hc, hsame⟩ := exists_same_of_zipWith hlength h.2 hd
  exact ih c hc hsame

-- How often a tree has another one in it, itself included.
def occurrences (v e : Element) : Nat :=
  e.subterms.countP (·.same v)

-- How often a list of trees has another one in it.
def count (v : Element) (es : List Element) : Nat :=
  (es.map v.occurrences).sum

-- How often a tree has another one below its top layer.
def inner (v e : Element) : Nat :=
  v.count e.children

variable {v : Element}

@[simp]
theorem count_nil : v.count [] = 0 := rfl

@[simp]
theorem count_cons (e : Element) (es : List Element) :
    v.count (e :: es) = v.occurrences e + v.count es :=
  rfl

@[simp]
theorem count_append (es ds : List Element) : v.count (es ++ ds) = v.count es + v.count ds := by
  simp [count]

theorem count_reverse (es : List Element) : v.count es.reverse = v.count es := by
  simp [count]

theorem count_of_perm {es ds : List Element} (h : es.Perm ds) : v.count es = v.count ds :=
  (h.map v.occurrences).sum_eq

theorem occurrences_eq (e : Element) :
    v.occurrences e = v.inner e + if e.same v then 1 else 0 := by
  obtain ⟨shape, stamp⟩ := e
  have hsum : (shape.children.flatMap subterms).countP (·.same v) = v.count shape.children := by
    rw [List.countP_flatMap]
    rfl
  rw [occurrences, subterms_mk, List.countP_cons, hsum]
  rfl

theorem occurrences_le_count {e : Element} {es : List Element} (h : e ∈ es) :
    v.occurrences e ≤ v.count es := by
  obtain ⟨before, after, rfl⟩ := List.append_of_mem h
  rw [count_append, count_cons]
  omega

theorem occurrences_le_inner {e c : Element} (h : c ∈ e.children) :
    v.occurrences c ≤ v.inner e :=
  occurrences_le_count h

theorem inner_le (e : Element) : v.inner e ≤ v.occurrences e := by
  rw [occurrences_eq]
  omega

theorem occurrences_pos (h : v.same v) : 1 ≤ v.occurrences v := by
  rw [occurrences_eq, if_pos h]
  omega

-- What is not equal to itself is not found, not even in itself.
theorem occurrences_eq_zero (h : ¬v.same v) (e : Element) : v.occurrences e = 0 := by
  rw [occurrences, List.countP_eq_zero]
  intro d _ hd
  exact h (same_self_of_same hd)

theorem count_eq_zero (h : ¬v.same v) (es : List Element) : v.count es = 0 := by
  induction es with
  | nil => rfl
  | cons e es ih => rw [count_cons, occurrences_eq_zero h, ih]

@[simp]
theorem inner_stamped (e : Element) (stamp : Stamp) : v.inner (e.stamped stamp) = v.inner e :=
  rfl

@[simp]
theorem occurrences_stamped (e : Element) (stamp : Stamp) :
    v.occurrences (e.stamped stamp) = v.occurrences e := by
  rw [occurrences_eq, occurrences_eq e, same_stamped, inner_stamped]

section Call

variable (hv : v.kind = .call)
include hv

theorem not_same_of_kind_ne {e : Element} (h : e.kind ≠ .call) : e.same v = false := by
  rw [← Bool.not_eq_true]
  intro hs
  exact h ((kind_eq_of_same hs).trans hv)

-- A call is found in other elements only below the top.
theorem occurrences_of_kind_ne {e : Element} (h : e.kind ≠ .call) :
    v.occurrences e = v.inner e := by
  rw [occurrences_eq, not_same_of_kind_ne hv h]
  rfl

theorem occurrences_settled (e : Element) : v.occurrences e.settled = v.occurrences e := by
  unfold settled
  split
  · rename_i w delta ty he
    have hk : e.kind ≠ .call := by simp [kind, he, Shape.kind]
    rw [occurrences_of_kind_ne hv hk,
      occurrences_of_kind_ne hv (e := ⟨_, e.stamp⟩) (by simp [kind, Shape.kind])]
    simp [inner, children, he]
  · rfl

theorem occurrences_localVar? {e : Element} {w : LocalRef} (h : e.localVar? = some w) :
    v.occurrences e = 0 := by
  obtain ⟨shape, stamp⟩ := e
  cases shape with
  | localVar =>
    exact occurrences_of_kind_ne hv (e := ⟨.localVar _, stamp⟩) (by simp [kind, Shape.kind])
  | _ => cases h

theorem occurrences_intConstant? {e : Element} {n : Int32} (h : e.intConstant? = some n) :
    v.occurrences e = 0 := by
  obtain ⟨shape, stamp⟩ := e
  cases shape with
  | constant =>
    exact occurrences_of_kind_ne hv (e := ⟨.constant _ _, stamp⟩) (by simp [kind, Shape.kind])
  | _ => cases h

end Call

end Element

end JvmLift
