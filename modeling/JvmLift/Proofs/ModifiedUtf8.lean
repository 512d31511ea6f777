import JvmLift.Text.ModifiedUtf8
import Mathlib.Algebra.Group.Nat.Defs

namespace JvmLift.Text

section Forms

-- What holds of the first 256 numbers holds of every byte.
theorem forall_byte {p : UInt8 → Prop} (h : ∀ n < 256, p (.ofNat n)) (b : UInt8) : p b := by
  have hb := h b.toNat b.toNat_lt
  rwa [UInt8.ofNat_toNat] at hb

-- The leading bits of a byte tell in which range it is.
theorem leads_one_iff (b : UInt8) : b &&& 0x80 = 0 ↔ b.toNat < 0x80 := by
  revert b
  exact forall_byte (by decide +kernel)

theorem leads_two_iff (b : UInt8) : b &&& 0xe0 = 0xc0 ↔ 0xc0 ≤ b.toNat ∧ b.toNat < 0xe0 := by
  revert b
  exact forall_byte (by decide +kernel)

theorem leads_three_iff (b : UInt8) : b &&& 0xf0 = 0xe0 ↔ 0xe0 ≤ b.toNat ∧ b.toNat < 0xf0 := by
  revert b
  exact forall_byte (by decide +kernel)

theorem toNat_and_mask (b : UInt8) (mask : UInt16) (width : Nat)
    (hmask : mask.toNat = 2 ^ width - 1) :
    (b.toUInt16 &&& mask).toNat = b.toNat % 2 ^ width := by
  rw [UInt16.toNat_and, hmask, UInt8.toNat_toUInt16, Nat.and_two_pow_sub_one_eq_mod]

theorem toNat_shift {x shift : UInt16} (hs : shift.toNat < 16)
    (hx : x.toNat * 2 ^ shift.toNat < 2 ^ 16) :
    (x <<< shift).toNat = x.toNat * 2 ^ shift.toNat := by
  rw [UInt16.toNat_shiftLeft, Nat.mod_eq_of_lt hs, Nat.shiftLeft_eq, Nat.mod_eq_of_lt hx]

-- Bits that are put side by side are added.
theorem beside (high : Nat) {low width : Nat} (h : low < 2 ^ width) :
    high * 2 ^ width ||| low = high * 2 ^ width + low := by
  rw [← Nat.shiftLeft_eq, Nat.shiftLeft_add_eq_or_of_lt h]

theorem toNat_two (a b : UInt8) :
    ((a.toUInt16 &&& 0x1f) <<< 6 ||| (b.toUInt16 &&& 0x3f)).toNat =
      a.toNat % 32 * 64 + b.toNat % 64 := by
  have ha := toNat_and_mask a 0x1f 5 rfl
  have hb := toNat_and_mask b 0x3f 6 rfl
  have hlow : b.toNat % 2 ^ 6 < 2 ^ 6 := Nat.mod_lt _ (by decide)
  have hhigh : ((a.toUInt16 &&& 0x1f) <<< 6).toNat = a.toNat % 2 ^ 5 * 2 ^ 6 := by
    rw [← ha]
    apply toNat_shift (by decide)
    rw [ha]
    show a.toNat % 2 ^ 5 * 2 ^ 6 < 2 ^ 16
    omega
  have hall := UInt16.toNat_or ((a.toUInt16 &&& 0x1f) <<< 6) (b.toUInt16 &&& 0x3f)
  rw [hhigh, hb, beside _ hlow] at hall
  omega

theorem toNat_three (a b c : UInt8) :
    ((a.toUInt16 &&& 0x0f) <<< 12 ||| (b.toUInt16 &&& 0x3f) <<< 6 |||
      (c.toUInt16 &&& 0x3f)).toNat =
      a.toNat % 16 * 4096 + b.toNat % 64 * 64 + c.toNat % 64 := by
  have ha := toNat_and_mask a 0x0f 4 rfl
  have hb := toNat_and_mask b 0x3f 6 rfl
  have hc := toNat_and_mask c 0x3f 6 rfl
  have hhigh : ((a.toUInt16 &&& 0x0f) <<< 12).toNat = a.toNat % 2 ^ 4 * 2 ^ 12 := by
    rw [← ha]
    apply toNat_shift (by decide)
    rw [ha]
    show a.toNat % 2 ^ 4 * 2 ^ 12 < 2 ^ 16
    omega
  have hmiddle : ((b.toUInt16 &&& 0x3f) <<< 6).toNat = b.toNat % 2 ^ 6 * 2 ^ 6 := by
    rw [← hb]
    apply toNat_shift (by decide)
    rw [hb]
    show b.toNat % 2 ^ 6 * 2 ^ 6 < 2 ^ 16
    omega
  have hbelow : b.toNat % 2 ^ 6 * 2 ^ 6 < 2 ^ 12 := by omega
  have hlow : c.toNat % 2 ^ 6 < 2 ^ 6 := Nat.mod_lt _ (by decide)
  have hboth : a.toNat % 2 ^ 4 * 2 ^ 12 + b.toNat % 2 ^ 6 * 2 ^ 6 =
      (a.toNat % 2 ^ 4 * 2 ^ 6 + b.toNat % 2 ^ 6) * 2 ^ 6 := by omega
  have hupper := UInt16.toNat_or ((a.toUInt16 &&& 0x0f) <<< 12) ((b.toUInt16 &&& 0x3f) <<< 6)
  rw [hhigh, hmiddle, beside _ hbelow, hboth] at hupper
  have hall := UInt16.toNat_or ((a.toUInt16 &&& 0x0f) <<< 12 ||| (b.toUInt16 &&& 0x3f) <<< 6)
    (c.toUInt16 &&& 0x3f)
  rw [hupper, hc, beside _ hlow] at hall
  omega

end Forms

section Units

variable {u : UInt16} (rest : List UInt8)

theorem units_one (h : u.toNat < 0x80) :
    units (.ofNat u.toNat :: rest) = u :: units rest := by
  have hb : (UInt8.ofNat u.toNat).toNat = u.toNat := by
    rw [UInt8.toNat_ofNat']
    omega
  have hlead := (leads_one_iff (.ofNat u.toNat)).2 (by omega)
  have hunit : (UInt8.ofNat u.toNat).toUInt16 = u := by
    rw [← UInt16.toNat_inj, UInt8.toNat_toUInt16, hb]
  rw [units.eq_def]
  simp only [if_pos hlead, hunit]

theorem units_two (h : u.toNat < 0x800) :
    units (.ofNat (0xc0 + u.toNat / 0x40) :: .ofNat (0x80 + u.toNat % 0x40) :: rest) =
      u :: units rest := by
  have ha : (UInt8.ofNat (0xc0 + u.toNat / 0x40)).toNat = 0xc0 + u.toNat / 0x40 := by
    rw [UInt8.toNat_ofNat']
    omega
  have hb : (UInt8.ofNat (0x80 + u.toNat % 0x40)).toNat = 0x80 + u.toNat % 0x40 := by
    rw [UInt8.toNat_ofNat']
    omega
  have hnot := mt (leads_one_iff (.ofNat (0xc0 + u.toNat / 0x40))).1 (by omega)
  have hlead := (leads_two_iff (.ofNat (0xc0 + u.toNat / 0x40))).2 (by omega)
  have hunit := toNat_two (.ofNat (0xc0 + u.toNat / 0x40)) (.ofNat (0x80 + u.toNat % 0x40))
  rw [ha, hb] at hunit
  simp only [units, if_neg hnot, if_pos hlead]
  congr 1
  rw [← UInt16.toNat_inj, hunit]
  omega

theorem units_three :
    units (.ofNat (0xe0 + u.toNat / 0x1000) :: .ofNat (0x80 + u.toNat / 0x40 % 0x40) ::
      .ofNat (0x80 + u.toNat % 0x40) :: rest) = u :: units rest := by
  have hu := u.toNat_lt
  have ha : (UInt8.ofNat (0xe0 + u.toNat / 0x1000)).toNat = 0xe0 + u.toNat / 0x1000 := by
    rw [UInt8.toNat_ofNat']
    omega
  have hb : (UInt8.ofNat (0x80 + u.toNat / 0x40 % 0x40)).toNat = 0x80 + u.toNat / 0x40 % 0x40 := by
    rw [UInt8.toNat_ofNat']
    omega
  have hc : (UInt8.ofNat (0x80 + u.toNat % 0x40)).toNat = 0x80 + u.toNat % 0x40 := by
    rw [UInt8.toNat_ofNat']
    omega
  have hnot := mt (leads_one_iff (.ofNat (0xe0 + u.toNat / 0x1000))).1 (by omega)
  have hnot' := mt (leads_two_iff (.ofNat (0xe0 + u.toNat / 0x1000))).1 (by omega)
  have hlead := (leads_three_iff (.ofNat (0xe0 + u.toNat / 0x1000))).2 (by omega)
  have hunit := toNat_three (.ofNat (0xe0 + u.toNat / 0x1000))
    (.ofNat (0x80 + u.toNat / 0x40 % 0x40)) (.ofNat (0x80 + u.toNat % 0x40))
  rw [ha, hb, hc] at hunit
  simp only [units, if_neg hnot, if_neg hnot', if_pos hlead]
  congr 1
  rw [← UInt16.toNat_inj, hunit]
  omega

-- Every unit is read back from its form, whatever follows it.
theorem units_unitBytes (u : UInt16) : units (unitBytes u ++ rest) = u :: units rest := by
  unfold unitBytes
  by_cases hone : u.toNat ≠ 0 ∧ u.toNat < 0x80
  · rw [if_pos hone]
    exact units_one rest hone.2
  · by_cases htwo : u.toNat < 0x800
    · rw [if_neg hone, if_pos htwo]
      exact units_two rest htwo
    · rw [if_neg hone, if_neg htwo]
      exact units_three rest

end Units

theorem units_flatMap_append (us : List UInt16) (rest : List UInt8) :
    units (us.flatMap unitBytes ++ rest) = us ++ units rest := by
  induction us with
  | nil => rfl
  | cons u us ih =>
    rw [List.flatMap_cons, List.append_assoc, units_unitBytes, ih, List.cons_append]

theorem isLeading_iff (u : UInt16) : isLeading u ↔ 0xd800 ≤ u.toNat ∧ u.toNat < 0xdc00 := by
  simp [isLeading, UInt16.le_iff_toNat_le, UInt16.lt_iff_toNat_lt]

theorem isTrailing_iff (u : UInt16) : isTrailing u ↔ 0xdc00 ≤ u.toNat ∧ u.toNat < 0xe000 := by
  simp [isTrailing, UInt16.le_iff_toNat_le, UInt16.lt_iff_toNat_lt]

-- A character is no surrogate, and one beyond the first plane is put together again.
theorem joinUnits_charUnits (c : Char) (rest : List UInt16) :
    joinUnits (charUnits c ++ rest) = c :: joinUnits rest := by
  have hvalid : c.toNat < 0xd800 ∨ 0xdfff < c.toNat ∧ c.toNat < 0x110000 := c.valid
  unfold charUnits
  by_cases hsmall : c.toNat < 0x10000
  · have hu : (UInt16.ofNat c.toNat).toNat = c.toNat := by
      rw [UInt16.toNat_ofNat']
      omega
    have hleading := mt (isLeading_iff (.ofNat c.toNat)).1 (by omega)
    have htrailing := mt (isTrailing_iff (.ofNat c.toNat)).1 (by omega)
    rw [if_pos hsmall, List.singleton_append, joinUnits.eq_def]
    simp only [if_neg hleading, if_neg htrailing, hu, Char.ofNat_toNat]
  · have hhigh : (UInt16.ofNat (0xd800 + (c.toNat - 0x10000) / 0x400)).toNat =
        0xd800 + (c.toNat - 0x10000) / 0x400 := by
      rw [UInt16.toNat_ofNat']
      omega
    have hlow : (UInt16.ofNat (0xdc00 + (c.toNat - 0x10000) % 0x400)).toNat =
        0xdc00 + (c.toNat - 0x10000) % 0x400 := by
      rw [UInt16.toNat_ofNat']
      omega
    have hleading := (isLeading_iff (.ofNat (0xd800 + (c.toNat - 0x10000) / 0x400))).2 (by omega)
    have htrailing := (isTrailing_iff (.ofNat (0xdc00 + (c.toNat - 0x10000) % 0x400))).2 (by omega)
    have hnumber : 0x10000 + (0xd800 + (c.toNat - 0x10000) / 0x400 - 0xd800) * 0x400 +
        (0xdc00 + (c.toNat - 0x10000) % 0x400 - 0xdc00) = c.toNat := by
      omega
    simp only [if_neg hsmall, List.cons_append, List.nil_append, joinUnits, hleading, htrailing,
      hhigh, hlow, hnumber, Char.ofNat_toNat, if_true]

theorem joinUnits_flatMap_append (cs : List Char) (rest : List UInt16) :
    joinUnits (cs.flatMap charUnits ++ rest) = cs ++ joinUnits rest := by
  induction cs with
  | nil => rfl
  | cons c cs ih =>
    rw [List.flatMap_cons, List.append_assoc, joinUnits_charUnits, ih, List.cons_append]

-- What stands behind the bytes of a text does not change what they are read as.
theorem decodeModified_append (text : String) (rest : List UInt8) :
    decodeModified (encodeModified text ++ rest) = text ++ decodeModified rest := by
  rw [decodeModified, encodeModified, units_flatMap_append, joinUnits_flatMap_append,
    String.ofList_append, String.ofList_toList, decodeModified]

-- A text is what its bytes are read as.
theorem decodeModified_encodeModified (text : String) :
    decodeModified (encodeModified text) = text := by
  have h := decodeModified_append text []
  rw [List.append_nil] at h
  exact h.trans String.append_empty

section Characters

-- Eleven bits behind the marks of the first and of the second byte.
def twoBytes (n : Nat) : List UInt8 :=
  [.ofNat (0xc0 + n / 0x40), .ofNat (0x80 + n % 0x40)]

-- Sixteen bits in three bytes.
def threeBytes (n : Nat) : List UInt8 :=
  [.ofNat (0xe0 + n / 0x1000), .ofNat (0x80 + n / 0x40 % 0x40), .ofNat (0x80 + n % 0x40)]

-- The form of a character in a class file, by the range that it is in. Beyond the first plane it is
-- spelled as its two surrogates.
def charBytes (c : Char) : List UInt8 :=
  let n := c.toNat
  if 0x0001 ≤ n ∧ n ≤ 0x007f then [.ofNat n]
  else if n ≤ 0x07ff then twoBytes n
  else if n ≤ 0xffff then threeBytes n
  else threeBytes (0xd800 + (n - 0x10000) / 0x400) ++ threeBytes (0xdc00 + (n - 0x10000) % 0x400)

theorem unitBytes_ofNat {n : Nat} (h : n < 0x10000) : unitBytes (.ofNat n) =
    if n ≠ 0 ∧ n < 0x80 then [.ofNat n] else if n < 0x800 then twoBytes n else threeBytes n := by
  have hn : (UInt16.ofNat n).toNat = n := UInt16.toNat_ofNat_of_lt' h
  rw [unitBytes, hn]
  rfl

theorem unitBytes_of_large {n : Nat} (hlarge : 0x800 ≤ n) (h : n < 0x10000) :
    unitBytes (.ofNat n) = threeBytes n := by
  rw [unitBytes_ofNat h, if_neg (by omega), if_neg (by omega)]

-- The bytes of a character are those of its units.
theorem charBytes_eq (c : Char) : charBytes c = (charUnits c).flatMap unitBytes := by
  have hvalid : c.toNat < 0xd800 ∨ 0xdfff < c.toNat ∧ c.toNat < 0x110000 := c.valid
  unfold charBytes charUnits
  by_cases hsmall : c.toNat < 0x10000
  · rw [if_pos hsmall, List.flatMap_singleton, unitBytes_ofNat hsmall]
    by_cases hone : 0x0001 ≤ c.toNat ∧ c.toNat ≤ 0x007f
    · rw [if_pos hone, if_pos (by omega)]
    · by_cases htwo : c.toNat ≤ 0x07ff
      · rw [if_neg hone, if_pos htwo, if_neg (by omega), if_pos (by omega)]
      · rw [if_neg hone, if_neg htwo, if_pos (by omega), if_neg (by omega), if_neg (by omega)]
  · have hhigh := unitBytes_of_large (n := 0xd800 + (c.toNat - 0x10000) / 0x400) (by omega) (by omega)
    have hlow := unitBytes_of_large (n := 0xdc00 + (c.toNat - 0x10000) % 0x400) (by omega) (by omega)
    rw [if_neg (by omega), if_neg (by omega), if_neg (by omega), if_neg hsmall, List.flatMap_cons,
      List.flatMap_singleton, hhigh, hlow]

-- A text is read back from the forms of its characters, whatever follows them.
theorem decodeModified_charBytes (text : String) :
    decodeModified (text.toList.flatMap charBytes) = text ∧
      ∀ rest, decodeModified (text.toList.flatMap charBytes ++ rest) =
        text ++ decodeModified rest := by
  have hbytes : text.toList.flatMap charBytes = encodeModified text := by
    rw [encodeModified, List.flatMap_assoc, funext charBytes_eq]
  rw [hbytes]
  exact ⟨decodeModified_encodeModified text, decodeModified_append text⟩

end Characters

end JvmLift.Text
