import JvmLift.ClassFile.Layout
import Mathlib.Algebra.Group.Nat.Defs

namespace JvmLift

namespace Layout

theorem length_number (count n : Nat) : (number count n).length = count := by
  induction count generalizing n with
  | zero => rfl
  | succ count ih => simp [number, ih]

theorem bigEndian_concat (bytes : Bytes) (b : UInt8) :
    bigEndian (bytes ++ [b]) = 256 * bigEndian bytes + b.toNat := by
  simp [bigEndian]

-- The bytes of a number spell it if there are enough of them.
theorem bigEndian_number {count n : Nat} (h : n < 256 ^ count) :
    bigEndian (number count n) = n := by
  induction count generalizing n with
  | zero =>
    have hn : n = 0 := by simpa using h
    simp [number, bigEndian, hn]
  | succ count ih =>
    have hhigh : n / 256 < 256 ^ count := by
      rw [Nat.div_lt_iff_lt_mul (by decide)]
      simpa [Nat.pow_succ] using h
    rw [number, bigEndian_concat, ih hhigh, UInt8.toNat_ofNat']
    omega

end Layout

namespace Read

variable {α β : Type}

-- A reader takes some bytes for a value, whatever follows them, and nothing less than all of them.
structure Takes (r : Read α) (bytes : Bytes) (v : α) : Prop where
  whole : ∀ rest, r (bytes ++ rest) = some (v, rest)
  short : ∀ part missing, bytes = part ++ missing → missing ≠ [] → r part = none

theorem run_bind (r : Read α) (f : α → Read β) (s : Bytes) :
    (r >>= f) s = (r s).bind fun p => f p.1 p.2 :=
  rfl

namespace Takes

protected theorem pure (v : α) : Takes (pure v) [] v where
  whole _ := rfl
  short _ _ h hm := absurd (List.append_eq_nil_iff.1 h.symm).2 hm

-- One reader after the other takes what both of them take. Bytes that end too early end in what
-- the first one takes, or have all of that and end in what the second one takes.
protected theorem bind {r : Read α} {f : α → Read β} {front back : Bytes} {v : α} {w : β}
    (hr : Takes r front v) (hf : Takes (f v) back w) : Takes (r >>= f) (front ++ back) w where
  whole rest := by
    rw [run_bind, List.append_assoc, hr.whole, Option.bind_some, hf.whole]
  short part missing h hm := by
    have hback (more : Bytes) (hpart : part = front ++ more) (hmore : back = more ++ missing) :
        (r >>= f) part = none := by
      rw [run_bind, hpart, hr.whole, Option.bind_some, hf.short more missing hmore hm]
    rcases List.append_eq_append_iff.1 h with ⟨more, hpart, hmore⟩ | ⟨lost, hfront, hlost⟩
    · exact hback more hpart hmore
    · by_cases hl : lost = []
      · subst hl
        exact hback [] (by simp_all) (by simp_all)
      · rw [run_bind, hr.short part lost hfront hl, Option.bind_none]

-- A reader whose value is only put into something takes what it takes alone.
theorem map {r : Read α} {bytes : Bytes} {v : α} (hr : Takes r bytes v) (g : α → β) :
    Takes (r >>= fun v => pure (g v)) bytes (g v) := by
  have h := hr.bind (f := fun v => pure (g v)) (.pure (g v))
  rwa [List.append_nil] at h

theorem take (bytes : Bytes) : Takes (Read.take bytes.length) bytes bytes where
  whole rest := by simp [Read.take]
  short part missing h hm := by
    have hlt : part.length < bytes.length := by
      have hpos := List.length_pos_iff.2 hm
      rw [h, List.length_append]
      omega
    rw [Read.take, if_neg (Nat.not_le.2 hlt)]

theorem u8 (b : UInt8) : Takes Read.u8 [b] b where
  whole _ := rfl
  short part missing h hm := by
    cases part with
    | nil => rfl
    | cons c part =>
      obtain ⟨-, hrest⟩ := List.cons.inj h
      exact absurd (List.append_eq_nil_iff.1 hrest.symm).2 hm

section Numbers

theorem number (count : Nat) (g : Nat → α) (n : Nat) (h : n < 256 ^ count) :
    Takes (do return g (bigEndian (← Read.take count))) (Layout.number count n) (g n) := by
  have htake := take (Layout.number count n)
  rw [Layout.length_number] at htake
  have hread := htake.map fun bytes => g (bigEndian bytes)
  rwa [Layout.bigEndian_number h] at hread

theorem u16 (value : UInt16) : Takes Read.u16 (Layout.u16 value) value := by
  have h := number 2 UInt16.ofNat value.toNat value.toNat_lt
  rwa [UInt16.ofNat_toNat] at h

theorem u32 (value : UInt32) : Takes Read.u32 (Layout.u32 value) value := by
  have h := number 4 UInt32.ofNat value.toNat value.toNat_lt
  rwa [UInt32.ofNat_toNat] at h

theorem u64 (value : UInt64) : Takes Read.u64 (Layout.u64 value) value := by
  have h := number 8 UInt64.ofNat value.toNat value.toNat_lt
  rwa [UInt64.ofNat_toNat] at h

end Numbers

section Lists

variable {item : Read α} {layout : α → Bytes}

theorem many {xs : List α} (h : ∀ x ∈ xs, Takes item (layout x) x) :
    Takes (Read.many item xs.length) (xs.flatMap layout) xs := by
  induction xs with
  | nil => exact .pure []
  | cons x xs ih =>
    obtain ⟨hx, hxs⟩ := List.forall_mem_cons.1 h
    rw [List.flatMap_cons]
    exact hx.bind ((ih hxs).map (x :: ·))

-- A list is read back if its length fits.
theorem counted {fits : α → Prop} {xs : List α} (hxs : Layout.Countable fits xs)
    (h : ∀ x, fits x → Takes item (layout x) x) :
    Takes (Read.counted item) (Layout.counted layout xs) xs := by
  obtain ⟨hlength, hfits⟩ := hxs
  have hcount := UInt16.toNat_ofNat_of_lt' hlength
  have hmany := many fun x hx => h x (hfits x hx)
  rw [← hcount] at hmany
  exact (u16 (.ofNat xs.length)).bind hmany

-- Items that can always be laid out need nothing but room for their count.
theorem table {xs : List α} (hlength : xs.length < UInt16.size)
    (h : ∀ x, Takes item (layout x) x) :
    Takes (Read.counted item) (Layout.counted layout xs) xs := by
  have hxs : Layout.Countable (fun _ => True) xs := ⟨hlength, fun _ _ => trivial⟩
  exact counted hxs fun x _ => h x

end Lists

end Takes

section Outcomes

variable {r : Read α} {s rest : Bytes}

theorem bind_eq_some_iff {f : α → Read β} {w : β} : (r >>= f) s = some (w, rest) ↔
    ∃ v more, r s = some (v, more) ∧ f v more = some (w, rest) := by
  rw [run_bind, Option.bind_eq_some_iff]
  exact Prod.exists

theorem pure_eq_some_iff {v w : α} : (pure v : Read α) s = some (w, rest) ↔ v = w ∧ s = rest := by
  show some (v, s) = some (w, rest) ↔ _
  simp

theorem many_cons_eq_some_iff {v : α} {vs : List α} :
    many r (v :: vs).length s = some (v :: vs, rest) ↔
      ∃ more, r s = some (v, more) ∧ many r vs.length more = some (vs, rest) := by
  rw [List.length_cons, many, bind_eq_some_iff]
  constructor
  · rintro ⟨w, more, hw, h⟩
    obtain ⟨ws, rest', hws, h⟩ := bind_eq_some_iff.1 h
    obtain ⟨hcons, rfl⟩ := pure_eq_some_iff.1 h
    obtain ⟨rfl, rfl⟩ := List.cons.inj hcons
    exact ⟨more, hw, hws⟩
  · rintro ⟨more, hv, hvs⟩
    exact ⟨v, more, hv, bind_eq_some_iff.2 ⟨vs, rest, hvs, rfl⟩⟩

-- Whatever a reader reads has a property.
def Yields (r : Read α) (p : α → Prop) : Prop :=
  ∀ s v rest, r s = some (v, rest) → p v

namespace Yields

variable {p : α → Prop} {q : β → Prop}

protected theorem pure {v : α} (h : p v) : Yields (pure v) p := by
  intro s w rest hw
  obtain ⟨rfl, -⟩ := pure_eq_some_iff.1 hw
  exact h

protected theorem bind {f : α → Read β} (h : ∀ v, Yields (f v) q) : Yields (r >>= f) q := by
  intro s w rest hw
  obtain ⟨v, more, -, hv⟩ := bind_eq_some_iff.1 hw
  exact h v more w rest hv

protected theorem failure : Yields (failure : Read α) p :=
  nofun

theorem many (h : Yields r p) (n : Nat) : Yields (Read.many r n) fun vs => ∀ v ∈ vs, p v := by
  induction n with
  | zero => exact .pure (List.forall_mem_nil _)
  | succ n ih =>
    intro s vs rest hvs
    obtain ⟨v, more, hv, hmore⟩ := bind_eq_some_iff.1 hvs
    obtain ⟨vs', more', hvs', hpure⟩ := bind_eq_some_iff.1 hmore
    obtain ⟨rfl, -⟩ := pure_eq_some_iff.1 hpure
    exact List.forall_mem_cons.2 ⟨h s v more hv, ih more vs' more' hvs'⟩

end Yields

end Outcomes

end Read

end JvmLift
