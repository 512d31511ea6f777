import JvmLift.Pool.Builder
import JvmLift.Proofs.Pool

namespace JvmLift

namespace PoolBuilder

variable {α β : Type}

-- A builder that only adds entries, and whose answer is related to the pool that it leaves behind
-- if that one has no more slots than an index can count. Further entries do not disturb the
-- relation.
structure Adds (b : PoolBuilder α) (post : Pool → α → Prop) : Prop where
  grows : ∀ p : Pool, p.Grows (b p).2
  answer : ∀ p : Pool, (b p).2.size < UInt16.size → post (b p).2 (b p).1
  lasting : ∀ {p q : Pool} {v : α}, p.Grows q → post p v → post q v

namespace Adds

variable {b : PoolBuilder α} {post : Pool → α → Prop}

protected theorem pure (v : α) : Adds (pure v) fun _ w => w = v where
  grows p := .refl p
  answer _ _ := rfl
  lasting _ h := h

protected theorem bind {f : α → PoolBuilder β} {after : α → Pool → β → Prop} (hb : Adds b post)
    (hf : ∀ v, Adds (f v) (after v)) :
    Adds (b >>= f) fun p w => ∃ v, post p v ∧ after v p w where
  grows p := (hb.grows p).trans ((hf _).grows _)
  answer p hsize := by
    have hgrows := (hf (b p).1).grows (b p).2
    have hmiddle := hb.answer p (Nat.lt_of_le_of_lt hgrows.size hsize)
    exact ⟨(b p).1, hb.lasting hgrows hmiddle, (hf _).answer _ hsize⟩
  lasting := by
    rintro p q w hgrows ⟨v, hv, hw⟩
    exact ⟨v, hb.lasting hgrows hv, (hf v).lasting hgrows hw⟩

protected theorem congr {post' : Pool → α → Prop} (hb : Adds b post)
    (h : ∀ p v, post' p v ↔ post p v) : Adds b post' where
  grows := hb.grows
  answer p hsize := (h _ _).2 (hb.answer p hsize)
  lasting hgrows hv := (h _ _).2 (hb.lasting hgrows ((h _ _).1 hv))

end Adds

section Steps

variable (e : PoolEntry) (p : Pool)

theorem push_eq : push e p = (.ofNat (p.size + 1),
    ⟨if e.isWide then (p.entries.push e).push .unusable else p.entries.push e⟩) :=
  rfl

theorem share_eq : share e p = match p.entries.idxOf? e with
    | some k => (.ofNat (k + 1), p)
    | none => push e p := by
  unfold share
  show (match p.entries.idxOf? e with | some k => _ | none => _ : PoolBuilder UInt16) p = _
  cases p.entries.idxOf? e <;> rfl

theorem size_push : (push e p).2.size = if e.isWide then p.size + 2 else p.size + 1 := by
  rw [push_eq]
  by_cases hwide : e.isWide <;> simp [hwide, Pool.size]

theorem getElem?_entries_push (k : Nat) :
    (push e p).2.entries[k]? =
      if k = p.size then some e
      else if k = p.size + 1 ∧ e.isWide then some .unusable
      else p.entries[k]? := by
  rw [push_eq]
  by_cases hwide : e.isWide
  · simp only [hwide, if_true, Array.getElem?_push, Array.size_push, and_true, Pool.size]
    by_cases hk : k = p.entries.size
    · simp [hk]
    · simp [hk]
  · simp [hwide, Array.getElem?_push, Pool.size]

theorem spaced_push {p : Pool} (h : p.Spaced) : (push e p).2.Spaced := by
  intro k f hk hwide
  rw [getElem?_entries_push] at hk ⊢
  by_cases hnew : k = p.size
  · rw [if_pos hnew] at hk
    obtain rfl := Option.some.inj hk
    rw [if_neg (by omega), if_pos ⟨by omega, hwide⟩]
  · rw [if_neg hnew] at hk
    split at hk
    · obtain rfl := Option.some.inj hk
      cases hwide
    · have hnext := h k f hk hwide
      have hlt := (Array.getElem?_eq_some_iff.1 hnext).1
      rw [if_neg (by unfold Pool.size; omega), if_neg (by unfold Pool.size; omega), hnext]

theorem grows_push : p.Grows (push e p).2 where
  size := by
    rw [size_push]
    split <;> omega
  same k hk := by
    rw [getElem?_entries_push, if_neg (by omega), if_neg (by omega)]
  spaced := spaced_push e

theorem toNat_push (h : (push e p).2.size < UInt16.size) : (push e p).1.toNat = p.size + 1 := by
  have hle : p.size + 1 ≤ (push e p).2.size := by
    rw [size_push]
    split <;> omega
  exact UInt16.toNat_ofNat_of_lt' (Nat.lt_of_le_of_lt hle h)

theorem get_push (h : (push e p).2.size < UInt16.size) :
    (push e p).2.get (push e p).1 = .ok e := by
  rw [Pool.get_eq_ok_iff, toNat_push e p h, Nat.add_sub_cancel, getElem?_entries_push, if_pos rfl]
  exact ⟨Nat.succ_pos _, rfl⟩

theorem adds_push : Adds (push e) fun p i => p.get i = .ok e where
  grows := grows_push e
  answer := get_push e
  lasting hgrows h := hgrows.get h

-- An entry that the pool did not have is at its first index when it is added.
theorem first_push (hnew : e ∉ p.entries) (h : (push e p).2.size < UInt16.size) :
    (push e p).2.First e (push e p).1 where
  get := get_push e p h
  le j hj := by
    rw [toNat_push e p h]
    rcases Nat.lt_or_ge p.size j.toNat with hlt | hle
    · exact hlt
    · have hold := (Pool.get_eq_ok_iff.1 (((grows_push e p).get_eq_ok_iff_of_le hle).1 hj)).2
      exact absurd (Array.mem_of_getElem? hold) hnew

-- The search for an entry finds its first index.
theorem first_of_idxOf? {k : Nat} (hk : p.entries.idxOf? e = some k) (h : p.size < UInt16.size) :
    p.First e (.ofNat (k + 1)) := by
  rw [Array.idxOf?_eq_map_finIdxOf?_val, Option.map_eq_some_iff] at hk
  obtain ⟨⟨k, hlt⟩, hk, rfl⟩ := hk
  obtain ⟨hget, hfirst⟩ := Array.finIdxOf?_eq_some_iff.1 hk
  have hindex : (UInt16.ofNat (k + 1)).toNat = k + 1 :=
    UInt16.toNat_ofNat_of_lt' (Nat.lt_of_le_of_lt hlt h)
  constructor
  · rw [Pool.get_eq_ok_iff, hindex, Nat.add_sub_cancel]
    exact ⟨Nat.succ_pos k, Array.getElem?_eq_some_iff.2 ⟨hlt, hget⟩⟩
  · intro j hj
    obtain ⟨hpos, hj⟩ := Pool.get_eq_ok_iff.1 hj
    obtain ⟨hbound, hj⟩ := Array.getElem?_eq_some_iff.1 hj
    rw [hindex]
    rcases Nat.lt_or_ge (j.toNat - 1) k with hbefore | hle
    · exact absurd hj (hfirst ⟨j.toNat - 1, hbound⟩ hbefore)
    · omega

theorem adds_share : Adds (share e) fun p i => p.First e i where
  grows p := by
    rw [share_eq]
    cases p.entries.idxOf? e with
    | none => exact grows_push e p
    | some k => exact .refl p
  answer p h := by
    rw [share_eq] at h ⊢
    cases hk : p.entries.idxOf? e with
    | none =>
      rw [hk] at h
      exact first_push e p (Array.idxOf?_eq_none_iff.1 hk) h
    | some k =>
      rw [hk] at h
      exact first_of_idxOf? e p hk h
  lasting hgrows h := hgrows.first h

end Steps

section References

variable (owner name descriptor : String)

theorem adds_classRef : Adds (classRef name) fun p i => p.NamesClass name i :=
  (adds_share _).bind fun _ => adds_share _

theorem adds_nameAndType :
    Adds (nameAndType name descriptor) fun p i => p.NamesSignature name descriptor i :=
  (adds_share _).bind fun _ => (adds_share _).bind fun _ => adds_share _

-- The class and the signature of a member, and behind them the entry that joins the two.
theorem adds_member (make : UInt16 → UInt16 → PoolEntry) :
    Adds (do push (make (← classRef owner) (← nameAndType name descriptor))) fun p i =>
      ∃ c, p.NamesClass owner c ∧ ∃ t, p.NamesSignature name descriptor t ∧
        p.get i = .ok (make c t) :=
  (adds_classRef owner).bind fun _ => (adds_nameAndType name descriptor).bind fun _ =>
    adds_push _

end References

end PoolBuilder

end JvmLift
