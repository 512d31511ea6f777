import JvmLift.Pool

namespace JvmLift

theorem HandleKind.ofTag?_tag (kind : HandleKind) : ofTag? kind.tag = some kind := by
  cases kind <;> simp [ofTag?, all, tag]

-- The number that an entry is.
def PoolEntry.number? : PoolEntry → Option Loadable
  | integer value => some (.int value)
  | float value => some (.float value)
  | long value => some (.long value)
  | double value => some (.double value)
  | _ => none

namespace Pool

variable {p q r : Pool} {e : PoolEntry} {i : UInt16}

theorem get_eq_ok_iff : p.get i = .ok e ↔ 0 < i.toNat ∧ p.entries[i.toNat - 1]? = some e := by
  unfold get
  cases hi : i.toNat with
  | zero => simp
  | succ k =>
    cases hk : p.entries[k]? with
    | none => simp [hk]
    | some f => simp [hk]

theorem le_size_of_get (h : p.get i = .ok e) : i.toNat ≤ p.size := by
  obtain ⟨hpos, hk⟩ := get_eq_ok_iff.1 h
  have hlt := (Array.getElem?_eq_some_iff.1 hk).1
  unfold size
  omega

-- Index zero and the indices beyond the last slot name nothing.
theorem get_of_outside (h : i.toNat = 0 ∨ p.size < i.toNat) :
    p.get i = .error (.badIndex i p.size) := by
  unfold get
  split
  · rfl
  · next k hk =>
    have hnone : p.entries[k]? = none := by
      rw [Array.getElem?_eq_none_iff]
      unfold size at h
      omega
    rw [hnone]

-- Every wide entry has an unusable slot behind it.
def Spaced (p : Pool) : Prop :=
  ∀ k e, p.entries[k]? = some e → e.isWide → p.entries[k + 1]? = some .unusable

-- Whether an index is the one behind a wide entry.
def IsSecondSlot (p : Pool) (index : UInt16) : Prop :=
  ∃ first e, index.toNat = first.toNat + 1 ∧ p.get first = .ok e ∧ e.isWide

theorem Spaced.get_second (h : p.Spaced) (hi : p.IsSecondSlot i) : p.get i = .ok .unusable := by
  obtain ⟨first, e, hfirst, hget, hwide⟩ := hi
  obtain ⟨hpos, hk⟩ := get_eq_ok_iff.1 hget
  have hnext := h _ e hk hwide
  rw [Nat.sub_add_cancel hpos] at hnext
  rw [get_eq_ok_iff, hfirst, Nat.add_sub_cancel]
  exact ⟨Nat.succ_pos _, hnext⟩

-- The index of an entry, and of all its indices the first one.
structure First (p : Pool) (e : PoolEntry) (i : UInt16) : Prop where
  get : p.get i = .ok e
  le : ∀ j, p.get j = .ok e → i.toNat ≤ j.toNat

theorem First.unique {j : UInt16} (hi : p.First e i) (hj : p.First e j) : i = j :=
  UInt16.toNat_inj.1 (Nat.le_antisymm (hi.le j hj.get) (hj.le i hi.get))

-- A pool that has come from another one by adding entries at its end.
structure Grows (p q : Pool) : Prop where
  size : p.size ≤ q.size
  same : ∀ k < p.size, q.entries[k]? = p.entries[k]?
  spaced : p.Spaced → q.Spaced

namespace Grows

theorem refl (p : Pool) : p.Grows p :=
  ⟨Nat.le_refl _, fun _ _ => rfl, id⟩

theorem trans (h : p.Grows q) (h' : q.Grows r) : p.Grows r where
  size := Nat.le_trans h.size h'.size
  same k hk := (h'.same k (Nat.lt_of_lt_of_le hk h.size)).trans (h.same k hk)
  spaced hp := h'.spaced (h.spaced hp)

variable (h : p.Grows q)
include h

theorem get_eq_ok_iff_of_le (hi : i.toNat ≤ p.size) : q.get i = .ok e ↔ p.get i = .ok e := by
  rw [get_eq_ok_iff, get_eq_ok_iff]
  constructor
  · rintro ⟨hpos, hk⟩
    exact ⟨hpos, h.same (i.toNat - 1) (by omega) ▸ hk⟩
  · rintro ⟨hpos, hk⟩
    exact ⟨hpos, (h.same (i.toNat - 1) (by omega)).trans hk⟩

-- What an index resolves to it resolves to for good.
theorem get (hi : p.get i = .ok e) : q.get i = .ok e :=
  (h.get_eq_ok_iff_of_le (le_size_of_get hi)).2 hi

theorem first (hi : p.First e i) : q.First e i where
  get := h.get hi.get
  le j hj := by
    rcases Nat.lt_or_ge j.toNat i.toNat with hlt | hle
    · have hsize := le_size_of_get hi.get
      exact hi.le j ((h.get_eq_ok_iff_of_le (by omega)).1 hj)
    · exact hle

end Grows

section Lookups

variable {name descriptor owner : String} {c t u : UInt16} {ofInterface : Bool}

theorem utf8_of_get {text : String} (h : p.get i = .ok (.utf8 text)) : p.utf8 i = .ok text := by
  rw [utf8, h]
  rfl

-- A class by its name.
def NamesClass (p : Pool) (name : String) (i : UInt16) : Prop :=
  ∃ t, p.First (.utf8 name) t ∧ p.First (.classRef t) i

-- A name together with a descriptor.
def NamesSignature (p : Pool) (name descriptor : String) (i : UInt16) : Prop :=
  ∃ t, p.First (.utf8 name) t ∧ ∃ u, p.First (.utf8 descriptor) u ∧ p.First (.nameAndType t u) i

theorem NamesClass.className (h : p.NamesClass name i) : p.className i = .ok name := by
  obtain ⟨t, ht, hi⟩ := h
  rw [Pool.className, hi.get]
  exact utf8_of_get ht.get

theorem NamesClass.unique {j : UInt16} (hi : p.NamesClass name i) (hj : p.NamesClass name j) :
    i = j := by
  obtain ⟨t, ht, hi⟩ := hi
  obtain ⟨u, hu, hj⟩ := hj
  obtain rfl := ht.unique hu
  exact hi.unique hj

theorem NamesSignature.nameAndType (h : p.NamesSignature name descriptor i) :
    p.nameAndType i = .ok (name, descriptor) := by
  obtain ⟨t, ht, u, hu, hi⟩ := h
  rw [Pool.nameAndType, hi.get]
  show (do return (← p.utf8 t, ← p.utf8 u)) = _
  rw [utf8_of_get ht.get, utf8_of_get hu.get]
  rfl

theorem NamesSignature.unique {j : UInt16} (hi : p.NamesSignature name descriptor i)
    (hj : p.NamesSignature name descriptor j) : i = j := by
  obtain ⟨t, ht, u, hu, hi⟩ := hi
  obtain ⟨t', ht', u', hu', hj⟩ := hj
  obtain rfl := ht.unique ht'
  obtain rfl := hu.unique hu'
  exact hi.unique hj

theorem member_of_names (hc : p.NamesClass owner c) (ht : p.NamesSignature name descriptor t) :
    p.member c t ofInterface = .ok ⟨owner, name, descriptor, ofInterface⟩ := by
  rw [member, hc.className, ht.nameAndType]
  rfl

theorem fieldRef_of_names (hi : p.get i = .ok (.fieldRef c t)) (hc : p.NamesClass owner c)
    (ht : p.NamesSignature name descriptor t) :
    p.fieldRef i = .ok ⟨owner, name, descriptor, false⟩ := by
  rw [Pool.fieldRef, hi]
  exact member_of_names hc ht

theorem methodRef_of_names (hi : p.get i = .ok (.methodRef c t)) (hc : p.NamesClass owner c)
    (ht : p.NamesSignature name descriptor t) :
    p.methodRef i = .ok ⟨owner, name, descriptor, false⟩ := by
  rw [Pool.methodRef, hi]
  exact member_of_names hc ht

theorem interfaceMethodRef_of_names (hi : p.get i = .ok (.interfaceMethodRef c t))
    (hc : p.NamesClass owner c) (ht : p.NamesSignature name descriptor t) :
    p.methodRef i = .ok ⟨owner, name, descriptor, true⟩ := by
  rw [Pool.methodRef, hi]
  exact member_of_names hc ht

theorem loadable_of_number? {constant : Loadable} (hi : p.get i = .ok e)
    (h : e.number? = some constant) : p.loadable i = .ok constant := by
  rw [Pool.loadable, hi]
  cases e <;> cases h <;> rfl

theorem loadable_string {text : String} (hi : p.get i = .ok (.string t))
    (ht : p.get t = .ok (.utf8 text)) : p.loadable i = .ok (.string text) := by
  rw [Pool.loadable, hi]
  show (do return Loadable.string (← p.utf8 t)) = _
  rw [utf8_of_get ht]
  rfl

theorem NamesClass.loadable (h : p.NamesClass name i) : p.loadable i = .ok (.classRef name) := by
  obtain ⟨t, ht, hi⟩ := h
  rw [Pool.loadable, hi.get]
  show (do return Loadable.classRef (← p.utf8 t)) = _
  rw [utf8_of_get ht.get]
  rfl

theorem methodType_of_get (hi : p.get i = .ok (.methodType t))
    (ht : p.get t = .ok (.utf8 descriptor)) : p.methodType i = .ok descriptor := by
  rw [Pool.methodType, hi]
  exact utf8_of_get ht

theorem invokeDynamic_of_names {bootstrap : UInt16}
    (hi : p.get i = .ok (.invokeDynamic bootstrap t)) (ht : p.NamesSignature name descriptor t) :
    p.invokeDynamic i = .ok ⟨bootstrap, name, descriptor⟩ := by
  rw [Pool.invokeDynamic, hi]
  show (do
    let s ← p.nameAndType t
    return CallSiteRef.mk bootstrap s.1 s.2) = _
  rw [ht.nameAndType]
  rfl

theorem methodHandle_of_get {kind : HandleKind} {m : MemberRef}
    (hi : p.get i = .ok (.methodHandle kind.tag t))
    (hm : (if kind.isField then p.fieldRef t else p.methodRef t) = .ok m) :
    p.methodHandle i = .ok ⟨kind, m⟩ := by
  by_cases hfield : kind.isField
  · rw [if_pos hfield] at hm
    simp [Pool.methodHandle, hi, HandleKind.ofTag?_tag, hfield, hm, bind, Except.bind, pure,
      Except.pure]
  · rw [if_neg hfield] at hm
    simp [Pool.methodHandle, hi, HandleKind.ofTag?_tag, hfield, hm, bind, Except.bind, pure,
      Except.pure]

end Lookups

end Pool

end JvmLift
