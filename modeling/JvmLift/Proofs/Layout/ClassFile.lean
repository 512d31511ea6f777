import JvmLift.Proofs.Layout
import JvmLift.Proofs.ModifiedUtf8

namespace JvmLift

open Read

theorem Attribute.takes_read {a : Attribute} (h : a.Fits) : Takes Attribute.read a.bytes a := by
  have hlength : (UInt32.ofNat a.info.length).toNat = a.info.length :=
    UInt32.toNat_ofNat_of_lt' h
  have hinfo := Takes.take a.info
  rw [← hlength] at hinfo
  exact (Takes.u16 a.name).bind ((Takes.u32 _).bind (hinfo.map (Attribute.mk a.name)))

theorem MemberInfo.takes_read {m : MemberInfo} (h : m.Fits) :
    Takes MemberInfo.read m.bytes m := by
  have hattributes := Takes.counted h fun _ => Attribute.takes_read
  exact (Takes.u16 m.flags).bind <| (Takes.u16 m.name).bind <| (Takes.u16 m.descriptor).bind <|
    hattributes.map (MemberInfo.mk m.flags m.name m.descriptor)

namespace PoolEntry

-- An entry with two indices.
theorem takes_pair (make : UInt16 → UInt16 → PoolEntry) (first second : UInt16) :
    Takes (do return make (← Read.u16) (← Read.u16))
      (Layout.u16 first ++ Layout.u16 second) (make first second) :=
  (Takes.u16 first).bind ((Takes.u16 second).map (make first))

-- The tag tells which fields are read.
theorem takes_read {e : PoolEntry} (hne : e ≠ unusable) (h : e.Fits) :
    Takes PoolEntry.read e.bytes e := by
  cases e with
  | utf8 text =>
    have hlength : (UInt16.ofNat (Text.encodeModified text).length).toNat =
        (Text.encodeModified text).length :=
      UInt16.toNat_ofNat_of_lt' h
    have htext := (Takes.take (Text.encodeModified text)).map fun bytes =>
      utf8 (Text.decodeModified bytes)
    rw [← hlength, Text.decodeModified_encodeModified] at htext
    exact (Takes.u8 1).bind ((Takes.u16 _).bind htext)
  | integer value =>
    have hvalue := (Takes.u32 value.toUInt32).map fun bits => integer bits.toInt32
    rw [Int32.toInt32_toUInt32] at hvalue
    exact (Takes.u8 3).bind hvalue
  | float value => exact (Takes.u8 4).bind ((Takes.u32 value.bits).map fun bits => float ⟨bits⟩)
  | long value =>
    have hvalue := (Takes.u64 value.toUInt64).map fun bits => long bits.toInt64
    rw [Int64.toInt64_toUInt64] at hvalue
    exact (Takes.u8 5).bind hvalue
  | double value => exact (Takes.u8 6).bind ((Takes.u64 value.bits).map fun bits => double ⟨bits⟩)
  | classRef name => exact (Takes.u8 7).bind ((Takes.u16 name).map classRef)
  | string text => exact (Takes.u8 8).bind ((Takes.u16 text).map string)
  | fieldRef owner signature => exact (Takes.u8 9).bind (takes_pair fieldRef owner signature)
  | methodRef owner signature => exact (Takes.u8 10).bind (takes_pair methodRef owner signature)
  | interfaceMethodRef owner signature =>
    exact (Takes.u8 11).bind (takes_pair interfaceMethodRef owner signature)
  | nameAndType name descriptor =>
    exact (Takes.u8 12).bind (takes_pair nameAndType name descriptor)
  | methodHandle kind reference =>
    exact (Takes.u8 15).bind ((Takes.u8 kind).bind ((Takes.u16 reference).map (methodHandle kind)))
  | methodType descriptor => exact (Takes.u8 16).bind ((Takes.u16 descriptor).map methodType)
  | dynamic bootstrap signature => exact (Takes.u8 17).bind (takes_pair dynamic bootstrap signature)
  | invokeDynamic bootstrap signature =>
    exact (Takes.u8 18).bind (takes_pair invokeDynamic bootstrap signature)
  | moduleRef name => exact (Takes.u8 19).bind ((Takes.u16 name).map moduleRef)
  | packageRef name => exact (Takes.u8 20).bind ((Takes.u16 name).map packageRef)
  | unusable => exact absurd rfl hne

namespace Padded

variable {e : PoolEntry} {rest : List PoolEntry}

theorem head (h : Padded (e :: rest)) : e ≠ unusable := by
  rintro rfl
  have hfirst := (h 0 (by simp)).1 rfl
  omega

-- The slot behind an entry is unusable exactly if the entry is wide.
theorem second (h : Padded (e :: rest)) : rest[0]? = some unusable ↔ e.isWide := by
  have hsecond := h 1 (by simp)
  simpa using hsecond

theorem of_narrow (h : Padded (e :: rest)) (he : ¬e.isWide) : Padded rest := by
  intro i hi
  have hnext := h (i + 1) (by simpa using hi)
  simp only [List.getElem?_cons_succ, Nat.add_sub_cancel] at hnext
  rw [hnext]
  cases i with
  | zero => simp [he]
  | succ i => simp

theorem of_wide (h : Padded (e :: unusable :: rest)) : Padded rest := by
  intro i hi
  have hnext := h (i + 2) (by simpa using hi)
  simp only [List.getElem?_cons_succ] at hnext
  rw [hnext]
  cases i with
  | zero => simp [isWide]
  | succ i => simp

end Padded

-- The slots are filled by the entries, each with the slot that it needs behind it.
theorem takes_readSlots {pool : List PoolEntry} (hp : Padded pool) (h : ∀ e ∈ pool, e.Fits) :
    Takes (readSlots pool.length) (pool.flatMap bytes) pool := by
  induction hn : pool.length using Nat.strongRecOn generalizing pool with
  | ind n ih =>
    subst hn
    cases pool with
    | nil => exact .pure []
    | cons e rest =>
      obtain ⟨he, hrest⟩ := List.forall_mem_cons.1 h
      have hentry := takes_read hp.head he
      rw [List.flatMap_cons, List.length_cons, readSlots]
      by_cases hwide : e.isWide
      · have hpad := hp.second.2 hwide
        obtain ⟨more, rfl⟩ : ∃ more, rest = unusable :: more := by
          cases rest with
          | nil => simp at hpad
          | cons f more => exact ⟨more, by simpa using hpad⟩
        have hmore := ih more.length (by rw [List.length_cons, List.length_cons]; omega) hp.of_wide
          (fun f hf => hrest f (List.mem_cons_of_mem _ hf)) rfl
        refine hentry.bind ?_
        simp only [hwide, if_true]
        exact hmore.map fun more => e :: unusable :: more
      · have hmore := ih rest.length (by simp) (hp.of_narrow hwide) hrest rfl
        refine hentry.bind ?_
        simp only [hwide]
        exact hmore.map (e :: ·)

end PoolEntry

namespace ClassFile

theorem takes_read {f : ClassFile} (h : f.Fits) : Takes ClassFile.read f.bytes f := by
  have hpool : Takes (PoolEntry.readAll f.poolSize) (f.pool.flatMap PoolEntry.bytes) f.pool := by
    have hslots := PoolEntry.takes_readSlots h.padded h.pool
    rwa [PoolEntry.readAll, h.poolSize, Nat.add_sub_cancel]
  have hinterfaces := Takes.table h.interfaces Takes.u16
  have hfields := Takes.counted h.fields fun _ => MemberInfo.takes_read
  have hmethods := Takes.counted h.methods fun _ => MemberInfo.takes_read
  have hattributes := Takes.counted h.attributes fun _ => Attribute.takes_read
  refine (Takes.u32 magic).bind ?_
  dsimp only
  rw [if_neg (fun hne => hne rfl)]
  exact (Takes.u16 f.minor).bind <| (Takes.u16 f.major).bind <| (Takes.u16 f.poolSize).bind <|
    hpool.bind <| (Takes.u16 f.flags).bind <| (Takes.u16 f.thisClass).bind <|
    (Takes.u16 f.superClass).bind <| hinterfaces.bind <| hfields.bind <| hmethods.bind <|
    hattributes.map (ClassFile.mk f.minor f.major f.poolSize f.pool f.flags f.thisClass f.superClass
      f.interfaces f.fields f.methods)

-- A class file is what its bytes are read as, whatever follows them, and bytes that end before the
-- class file does are refused.
theorem ofBytes_bytes (f : ClassFile) (h : f.Fits) :
    (∀ trailing, ofBytes (f.bytes ++ trailing) = .ok (f, trailing)) ∧
      ∀ front back, f.bytes = front ++ back → back ≠ [] → ofBytes front = .error .malformed := by
  have hread := takes_read h
  constructor
  · intro trailing
    rw [ofBytes, hread.whole trailing]
  · intro front back hbytes hback
    rw [ofBytes, hread.short front back hbytes hback]

-- A class file with a wide constant, and with a text of characters of every length.
def small : ClassFile :=
  { minor := 0, major := 52, poolSize := 6
    pool := [.utf8 "a\x00é€😀", .long (-2), .unusable, .classRef 1, .methodHandle 6 4]
    flags := 0x21, thisClass := 4, superClass := 0, interfaces := [4]
    fields := [⟨8, 1, 1, []⟩], methods := [⟨1, 1, 1, [⟨1, [0xca, 0xfe, 0xba]⟩]⟩]
    attributes := [⟨1, []⟩] }

theorem ofBytes_bytes_small :
    small.Fits ∧ small.bytes.length = 90 ∧
      ofBytes (small.bytes ++ [0, 0]) = .ok (small, [0, 0]) ∧
      ofBytes (small.bytes.take 40) = .error .malformed := by
  have hlength : small.bytes.length = 90 := by decide +kernel
  have htext : (PoolEntry.utf8 "a\x00é€😀").Fits := by
    show (Text.encodeModified _).length < UInt16.size
    decide +kernel
  have hattribute (info : Bytes) (h : info.length ≤ 3) : (⟨1, info⟩ : Attribute).Fits :=
    Nat.lt_of_le_of_lt h (by decide)
  have hpadded : PoolEntry.Padded small.pool := by
    intro i hi
    have hle : i ≤ 5 := hi
    have hcases : i = 0 ∨ i = 1 ∨ i = 2 ∨ i = 3 ∨ i = 4 ∨ i = 5 := by omega
    rcases hcases with rfl | rfl | rfl | rfl | rfl | rfl <;> simp [small, PoolEntry.isWide]
  have hfits : small.Fits :=
    { poolSize := rfl
      pool := List.forall_mem_cons.2 ⟨htext, by simp [PoolEntry.Fits]⟩
      padded := hpadded
      interfaces := by decide
      fields := ⟨by decide, List.forall_mem_singleton.2 ⟨by decide, List.forall_mem_nil _⟩⟩
      methods := ⟨by decide, List.forall_mem_singleton.2
        ⟨by decide, List.forall_mem_singleton.2 (hattribute _ (by decide))⟩⟩
      attributes := ⟨by decide, List.forall_mem_singleton.2 (hattribute _ (by decide))⟩ }
  obtain ⟨hwhole, hshort⟩ := ofBytes_bytes small hfits
  refine ⟨hfits, hlength, hwhole [0, 0], ?_⟩
  refine hshort _ (small.bytes.drop 40) (List.take_append_drop 40 _).symm ?_
  rw [← List.length_pos_iff, List.length_drop, hlength]
  decide

end ClassFile

end JvmLift
