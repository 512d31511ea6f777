import JvmLift.ClassModel
import JvmLift.Proofs.Layout.ClassFile

namespace JvmLift

open Read

theorem ExceptionEntry.takes_read (e : ExceptionEntry) :
    Takes ExceptionEntry.read e.bytes e :=
  (Takes.u16 e.start).bind <| (Takes.u16 e.stop).bind <| (Takes.u16 e.handler).bind <|
    (Takes.u16 e.catchType).map (ExceptionEntry.mk e.start e.stop e.handler)

theorem LineEntry.takes_read (e : LineEntry) : Takes LineEntry.read e.bytes e :=
  (Takes.u16 e.start).bind ((Takes.u16 e.line).map (LineEntry.mk e.start))

theorem LocalEntry.takes_read (e : LocalEntry) : Takes LocalEntry.read e.bytes e :=
  (Takes.u16 e.start).bind <| (Takes.u16 e.length).bind <| (Takes.u16 e.name).bind <|
    (Takes.u16 e.descriptor).bind <|
      (Takes.u16 e.slot).map (LocalEntry.mk e.start e.length e.name e.descriptor)

theorem BootstrapMethod.takes_read {b : BootstrapMethod} (h : b.Fits) :
    Takes BootstrapMethod.read b.bytes b :=
  (Takes.u16 b.handle).bind ((Takes.table h Takes.u16).map (BootstrapMethod.mk b.handle))

theorem CodeAttribute.takes_read {c : CodeAttribute} (h : c.Fits) :
    Takes CodeAttribute.read c.bytes c := by
  have hlength : (UInt32.ofNat c.code.length).toNat = c.code.length :=
    UInt32.toNat_ofNat_of_lt' h.code
  have hcode := Takes.take c.code
  rw [← hlength] at hcode
  have hexceptions := Takes.table h.exceptions ExceptionEntry.takes_read
  have hattributes := Takes.counted h.attributes fun _ => Attribute.takes_read
  exact (Takes.u16 c.maxStack).bind <| (Takes.u16 c.maxLocals).bind <| (Takes.u32 _).bind <|
    hcode.bind <| hexceptions.bind <|
      hattributes.map (CodeAttribute.mk c.maxStack c.maxLocals c.code c.exceptions)

namespace Attribute

-- What becomes of the contents of an attribute. Those of a value are decoded to it, whatever
-- follows them, and what ends before they do is refused with the name of the attribute.
structure Decodes {α : Type} (read : Read α) (contents : Bytes) (v : α) : Prop where
  whole : ∀ rest, read (contents ++ rest) = some (v, rest)
  decoded : ∀ name rest, Load.decode name read (contents ++ rest) = pure v
  refused : ∀ front back, contents = front ++ back → back ≠ [] →
    read front = none ∧ ∀ name, Load.decode name read front = throw (.badAttribute name)

theorem decodes_of_takes {α : Type} {read : Read α} {contents : Bytes} {v : α}
    (h : Takes read contents v) : Decodes read contents v where
  whole := h.whole
  decoded name rest := by rw [Load.decode, h.whole]
  refused front back hcontents hback := by
    have hshort := h.short front back hcontents hback
    exact ⟨hshort, fun name => by rw [Load.decode, hshort]⟩

-- The contents of every attribute that is decoded into entries, those nested in code included, are
-- decoded to what they were laid out for.
theorem decodes_layout :
    (∀ c : CodeAttribute, c.Fits → Decodes CodeAttribute.read c.bytes c) ∧
      (∀ entries : List LineEntry, entries.length < UInt16.size →
        Decodes readLines (Layout.counted LineEntry.bytes entries) entries) ∧
      (∀ entries : List LocalEntry, entries.length < UInt16.size →
        Decodes readLocals (Layout.counted LocalEntry.bytes entries) entries) ∧
      ∀ methods : List BootstrapMethod, Layout.Countable BootstrapMethod.Fits methods →
        Decodes readBootstrapMethods (Layout.counted BootstrapMethod.bytes methods) methods := by
  refine ⟨fun c h => ?_, fun entries h => ?_, fun entries h => ?_, fun methods h => ?_⟩
  · exact decodes_of_takes (CodeAttribute.takes_read h)
  · exact decodes_of_takes (Takes.table h LineEntry.takes_read)
  · exact decodes_of_takes (Takes.table h LocalEntry.takes_read)
  · exact decodes_of_takes (Takes.counted h fun _ => BootstrapMethod.takes_read)

-- Code with a handler that catches everything, and with its lines in an attribute of its own.
def nested : CodeAttribute :=
  let lines : List LineEntry := [⟨0, 12⟩, ⟨1, 13⟩]
  { maxStack := 2, maxLocals := 1, code := [0x04, 0xac]
    exceptions := [⟨0, 2, 2, 0⟩]
    attributes := [⟨9, Layout.counted LineEntry.bytes lines⟩, ⟨10, []⟩] }

theorem decodes_layout_nested :
    nested.Fits ∧ nested.bytes.length = 44 ∧
      CodeAttribute.read (nested.bytes ++ [7]) = some (nested, [7]) ∧
      Load.decode "Code" CodeAttribute.read (nested.bytes.take 43) =
        throw (.badAttribute "Code") ∧
      Load.decode "LineNumberTable" readLines [0, 1, 0, 0, 0] =
        throw (.badAttribute "LineNumberTable") ∧
      readLocals [0, 0, 5] = some ([], [5]) ∧
      readBootstrapMethods [0, 1, 0, 7, 0, 3, 0, 10, 0, 11, 0, 10] =
        some ([⟨7, [10, 11, 10]⟩], []) := by
  have hattributes : Layout.Countable Attribute.Fits nested.attributes :=
    ⟨by decide, List.forall_mem_cons.2 ⟨by show 10 < _; decide,
      List.forall_mem_singleton.2 (by show 0 < _; decide)⟩⟩
  have hfits : nested.Fits := ⟨by decide, by decide, hattributes⟩
  have hlength : nested.bytes.length = 44 := by decide +kernel
  obtain ⟨hcode, hlines, hlocals, hmethods⟩ := decodes_layout
  have hcode := hcode nested hfits
  have hlines := hlines [⟨0, 12⟩] (by decide)
  have hlocals := hlocals [] (by decide)
  have hmethods := hmethods [⟨7, [10, 11, 10]⟩]
    ⟨by decide, List.forall_mem_singleton.2 (by show 3 < _; decide)⟩
  refine ⟨hfits, hlength, hcode.whole [7], ?_, ?_, hlocals.whole [5], hmethods.whole []⟩
  · refine (hcode.refused _ (nested.bytes.drop 43) (List.take_append_drop 43 _).symm ?_).2 "Code"
    rw [← List.length_pos_iff, List.length_drop, hlength]
    decide
  · exact (hlines.refused [0, 1, 0, 0, 0] [12] rfl (by decide)).2 "LineNumberTable"

end Attribute

end JvmLift
