import JvmLift.ClassFile.Layout
import JvmLift.Proofs.Covering
import JvmLift.Proofs.Layout
import JvmLift.Proofs.Pool

namespace JvmLift

namespace PoolEntry

open Read

-- No tag stands for the slot behind a wide entry.
theorem yields_read : Yields read (· ≠ unusable) := by
  refine .bind fun tag => ?_
  split
  all_goals first
    | exact .bind fun _ => .pure nofun
    | exact .bind fun _ => .bind fun _ => .pure nofun
    | exact .failure

-- An entry with the slot that it needs behind it.
def slots (e : PoolEntry) : List PoolEntry :=
  if e.isWide then [e, unusable] else [e]

theorem slots_of_wide {e : PoolEntry} (h : e.isWide) : e.slots = [e, unusable] :=
  if_pos h

theorem slots_of_narrow {e : PoolEntry} (h : ¬e.isWide) : e.slots = [e] :=
  if_neg h

theorem length_slots_pos (e : PoolEntry) : 0 < e.slots.length := by
  by_cases h : e.isWide
  · simp [slots_of_wide h]
  · simp [slots_of_narrow h]

namespace Padded

variable {e : PoolEntry} {rest : List PoolEntry}

theorem nil : Padded [] := by
  intro i hi
  obtain rfl : i = 0 := by simpa using hi
  simp

theorem cons_narrow (h : Padded rest) (he : e ≠ unusable) (hnarrow : ¬e.isWide) :
    Padded (e :: rest) := by
  intro i hi
  rcases i with _ | _ | i
  · simpa using he
  · have hfirst := h 0 (Nat.zero_le _)
    simpa [hnarrow] using hfirst
  · have hnext := h (i + 1) (by simpa using hi)
    simpa using hnext

theorem cons_wide (h : Padded rest) (hwide : e.isWide) : Padded (e :: unusable :: rest) := by
  intro i hi
  rcases i with _ | _ | _ | i
  · have he : e ≠ unusable := by
      rintro rfl
      cases hwide
    simpa using he
  · simpa using hwide
  · have hfirst := h 0 (Nat.zero_le _)
    simpa [isWide] using hfirst
  · have hnext := h (i + 1) (by simpa using hi)
    simpa using hnext

end Padded

section Slots

variable {n : Nat} {s rest : Bytes} {pool entries : List PoolEntry}

-- Enough entries to fill some slots, each with the slot that it needs behind it.
def Fills : Nat → List PoolEntry → Prop :=
  Covers fun e => e.slots.length

theorem readSlots_succ (n : Nat) : readSlots (n + 1) = (do
    let e ← read
    let more ← readSlots (n + 1 - e.slots.length)
    return e.slots ++ more) := by
  rw [readSlots]
  refine congrArg (read >>= ·) (funext fun e => ?_)
  by_cases h : e.isWide
  · rw [if_pos h, slots_of_wide h]
    cases n with
    | zero => rfl
    | succ m => rfl
  · rw [if_neg h, slots_of_narrow h]
    rfl

theorem fills_cons {e : PoolEntry} :
    Fills n (e :: entries) ↔ n ≠ 0 ∧ Fills (n - e.slots.length) entries :=
  Iff.rfl

-- The slots are those of the entries that the bytes have, as many as it takes to fill them.
theorem readSlots_eq_some_iff : readSlots n s = some (pool, rest) ↔ ∃ entries,
    Read.many read entries.length s = some (entries, rest) ∧ Fills n entries ∧
      pool = entries.flatMap slots := by
  induction n using Nat.strongRecOn generalizing s pool with
  | ind n ih =>
    cases n with
    | zero =>
      constructor
      · intro h
        obtain ⟨rfl, rfl⟩ := pure_eq_some_iff.1 h
        exact ⟨[], rfl, rfl, rfl⟩
      · rintro ⟨entries, hmany, hfills, rfl⟩
        cases entries with
        | nil => exact hmany
        | cons e entries => exact absurd rfl hfills.1
    | succ n =>
      have hless (e : PoolEntry) : n + 1 - e.slots.length < n + 1 := by
        have hpos := e.length_slots_pos
        omega
      rw [readSlots_succ]
      constructor
      · intro h
        obtain ⟨e, more, hread, h⟩ := bind_eq_some_iff.1 h
        obtain ⟨filled, rest', hfilled, h⟩ := bind_eq_some_iff.1 h
        obtain ⟨rfl, rfl⟩ := pure_eq_some_iff.1 h
        obtain ⟨entries, hmany, hfills, rfl⟩ := (ih _ (hless e)).1 hfilled
        exact ⟨e :: entries, many_cons_eq_some_iff.2 ⟨more, hread, hmany⟩,
          fills_cons.2 ⟨Nat.succ_ne_zero n, hfills⟩, rfl⟩
      · rintro ⟨entries, hmany, hfills, rfl⟩
        cases entries with
        | nil => exact absurd hfills (Nat.succ_ne_zero n)
        | cons e entries =>
          obtain ⟨more, hread, hrest⟩ := many_cons_eq_some_iff.1 hmany
          have hfilled := (ih _ (hless e)).2 ⟨entries, hrest, (fills_cons.1 hfills).2, rfl⟩
          exact bind_eq_some_iff.2 ⟨e, more, hread,
            bind_eq_some_iff.2 ⟨_, rest, hfilled, pure_eq_some_iff.2 ⟨rfl, rfl⟩⟩⟩

theorem length_flatMap_slots (entries : List PoolEntry) :
    (entries.flatMap slots).length = (entries.map fun e => e.slots.length).sum :=
  List.length_flatMap

-- All the slots are filled, and no more than one beyond them. That one is filled exactly if there is
-- a wide entry in the last of them.
theorem length_of_fills (h : Fills n entries) :
    n ≤ (entries.flatMap slots).length ∧ (entries.flatMap slots).length ≤ n + 1 ∧
      ((entries.flatMap slots).length = n ↔
        ∀ e, (entries.flatMap slots)[n - 1]? = some e → ¬e.isWide) := by
  rcases List.eq_nil_or_concat entries with rfl | ⟨others, last, hconcat⟩
  · obtain rfl : n = 0 := h
    simp
  · rw [List.concat_eq_append] at hconcat
    subst hconcat
    obtain ⟨hlt, hle⟩ := covers_concat_iff.1 h
    rw [← length_flatMap_slots] at hlt hle
    rw [List.flatMap_append, List.flatMap_singleton]
    generalize others.flatMap slots = filled at hlt hle ⊢
    by_cases hwide : last.isWide
    · rw [slots_of_wide hwide, List.length_cons, List.length_singleton] at hle
      rw [slots_of_wide hwide]
      rcases (by omega : n = filled.length + 1 ∨ n = filled.length + 2) with rfl | rfl
      · simp [hwide]
      · simp [isWide]
    · rw [slots_of_narrow hwide, List.length_singleton] at hle
      rw [slots_of_narrow hwide]
      obtain rfl : n = filled.length + 1 := by omega
      simpa using hwide

variable (hentries : ∀ e ∈ entries, e ≠ unusable)
include hentries

-- The entries are what is left without the unusable slots.
theorem filter_flatMap_slots : (entries.flatMap slots).filter (· ≠ unusable) = entries := by
  induction entries with
  | nil => rfl
  | cons e entries ih =>
    obtain ⟨he, hrest⟩ := List.forall_mem_cons.1 hentries
    have hslots : e.slots.filter (· ≠ unusable) = [e] := by
      by_cases h : e.isWide
      · simp [slots_of_wide h, he]
      · simp [slots_of_narrow h, he]
    rw [List.flatMap_cons, List.filter_append, ih hrest, hslots, List.singleton_append]

-- A slot is unusable exactly if it is the one behind a wide entry.
theorem padded_flatMap_slots : Padded (entries.flatMap slots) := by
  induction entries with
  | nil => exact .nil
  | cons e entries ih =>
    obtain ⟨he, hrest⟩ := List.forall_mem_cons.1 hentries
    rw [List.flatMap_cons]
    by_cases h : e.isWide
    · rw [slots_of_wide h]
      exact (ih hrest).cons_wide h
    · rw [slots_of_narrow h]
      exact (ih hrest).cons_narrow he h

end Slots

-- A pool has the entries that its bytes have, in their order, with an unusable slot behind each wide
-- one. It has as many slots as its size says, and no index from that size on is in use, except where
-- the last of them has a wide entry: then there is one slot more.
theorem readAll_declared_iff (size : UInt16) (s rest : Bytes) (pool : List PoolEntry)
    (h : readAll size s = some (pool, rest)) :
    Read.many read (pool.filter (· ≠ unusable)).length s =
        some (pool.filter (· ≠ unusable), rest) ∧
      Padded pool ∧
      max size.toNat 1 - 1 ≤ pool.length ∧ pool.length ≤ max size.toNat 1 ∧
      ((pool.length = max size.toNat 1 - 1 ∧ ∀ index, size ≤ index →
          Pool.get ⟨pool.toArray⟩ index = .error (.badIndex index pool.length)) ↔
        ∀ e, pool[size.toNat - 2]? = some e → ¬e.isWide) := by
  obtain ⟨entries, hmany, hfills, rfl⟩ := readSlots_eq_some_iff.1 h
  have hentries := yields_read.many entries.length s entries rest hmany
  obtain ⟨hle, hlast, hexact⟩ := length_of_fills hfills
  rw [filter_flatMap_slots hentries]
  refine ⟨hmany, padded_flatMap_slots hentries, by omega, by omega, ?_⟩
  have hdeclared : max size.toNat 1 - 1 = size.toNat - 1 := by omega
  have hslot : size.toNat - 2 = size.toNat - 1 - 1 := by omega
  rw [hdeclared, hslot, ← hexact, and_iff_left_iff_imp]
  intro hlength index hindex
  refine Pool.get_of_outside ?_
  have hsize : Pool.size ⟨(entries.flatMap slots).toArray⟩ = size.toNat - 1 := hlength
  have hbound : size.toNat ≤ index.toNat := UInt16.le_iff_toNat_le.1 hindex
  omega

-- A long with its second slot, a text, and a string constant of it.
theorem readAll_declared_iff_longFirst :
    let bytes : Bytes := [5, 0, 0, 0, 0, 0, 0, 0, 42, 1, 0, 2, 0x68, 0x69, 8, 0, 3]
    let pool := [long 42, unusable, utf8 "hi", string 3]
    readAll 5 bytes = some (pool, []) ∧ pool.length = 4 ∧ Padded pool ∧
      ∀ index, 5 ≤ index → Pool.get ⟨pool.toArray⟩ index = .error (.badIndex index 4) := by
  intro bytes pool
  have hread : readAll 5 bytes = some (pool, []) := by decide +kernel
  obtain ⟨-, hpadded, -, -, hexact⟩ := readAll_declared_iff 5 bytes [] pool hread
  have hlast : ∀ e, pool[(5 : UInt16).toNat - 2]? = some e → ¬e.isWide := by
    intro e he
    obtain rfl : string 3 = e := Option.some.inj he
    exact Bool.false_ne_true
  obtain ⟨hlength, houtside⟩ := hexact.2 hlast
  exact ⟨hread, rfl, hpadded, houtside⟩

-- A long in the last slot takes one more, which an index that the size leaves out then names.
theorem not_readAll_declared :
    let pool := [long 42, unusable]
    readAll 2 [5, 0, 0, 0, 0, 0, 0, 0, 42] = some (pool, []) ∧
      pool.length ≠ max (2 : UInt16).toNat 1 - 1 ∧
      Pool.get ⟨pool.toArray⟩ 2 = .ok unusable := by
  intro pool
  have hread : readAll 2 [5, 0, 0, 0, 0, 0, 0, 0, 42] = some (pool, []) := by decide +kernel
  exact ⟨hread, by decide, rfl⟩

end PoolEntry

end JvmLift
