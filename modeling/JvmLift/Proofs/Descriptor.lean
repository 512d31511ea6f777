import JvmLift.Type.Descriptor
import Mathlib.Data.List.TakeWhile

namespace JvmLift

section Search

variable {c : Char} {s front after : List Char}

theorem forall_mem_bne (h : c ∉ front) : ∀ x ∈ front, (x != c) = true := by
  intro x hx
  exact bne_iff_ne.2 (ne_of_mem_of_not_mem hx h)

-- A search comes to the first place where the character stands.
theorem dropWhile_ne_append (h : c ∉ front) :
    (front ++ c :: after).dropWhile (· != c) = c :: after := by
  rw [List.dropWhile_append_of_pos (forall_mem_bne h)]
  simp

theorem takeWhile_ne_append (h : c ∉ front) :
    (front ++ c :: after).takeWhile (· != c) = front := by
  rw [List.takeWhile_append_of_pos (forall_mem_bne h)]
  simp

-- What a search has found divides the text.
theorem eq_append_of_dropWhile_ne {x : Char} (h : s.dropWhile (· != c) = x :: after) :
    c ∉ s.takeWhile (· != c) ∧ s = s.takeWhile (· != c) ++ c :: after := by
  have hfront : c ∉ s.takeWhile (· != c) := by
    intro hc
    simpa using List.mem_takeWhile_imp hc
  have hstop : x = c := by
    have hhead := List.head?_dropWhile_not (· != c) s
    simpa [h] using hhead
  subst hstop
  refine ⟨hfront, ?_⟩
  rw [← h, List.takeWhile_append_dropWhile]

end Search

namespace JvmType

-- Types that a descriptor can spell: the null type is nowhere in them, and no class name has the
-- semicolon in it that ends one.
def Spelled : JvmType → Prop
  | .reference name => ';' ∉ name.toList
  | .array component => component.Spelled
  | .null => False
  | _ => True

section Spelling

variable {ty : JvmType} {s rest : List Char}

theorem toList_descriptor_reference (name : String) :
    (reference name).descriptor.toList = 'L' :: (name.toList ++ [';']) := by
  simp [descriptor]

theorem toList_descriptor_array (component : JvmType) :
    (array component).descriptor.toList = '[' :: component.descriptor.toList := by
  simp [descriptor]

-- A type is read back whatever follows it.
theorem read_descriptor (h : ty.Spelled) : read (ty.descriptor.toList ++ rest) = some (ty, rest) := by
  induction ty with
  | reference name =>
    have hname : ';' ∉ name.toList := h
    have htext : (reference name).descriptor.toList ++ rest =
        'L' :: (name.toList ++ ';' :: rest) := by
      simp [toList_descriptor_reference]
    rw [htext, read, dropWhile_ne_append hname, takeWhile_ne_append hname, String.ofList_toList]
  | array component ih =>
    rw [toList_descriptor_array, List.cons_append, read, ih h]
    rfl
  | null => exact absurd h id
  | _ => rfl

-- What is read is the descriptor of the type.
theorem spelled_of_read (h : read s = some (ty, rest)) :
    ty.Spelled ∧ s = ty.descriptor.toList ++ rest := by
  fun_induction read s generalizing ty rest with
  | case10 s c after hd =>
    obtain ⟨hname, hs⟩ := eq_append_of_dropWhile_ne hd
    obtain ⟨rfl, rfl⟩ := by simpa using h
    constructor
    · show ';' ∉ (String.ofList _).toList
      rwa [String.toList_ofList]
    · rw [toList_descriptor_reference, String.toList_ofList]
      simpa using hs
  | case12 s ih =>
    obtain ⟨⟨component, after⟩, hread, he⟩ := Option.map_eq_some_iff.1 h
    obtain ⟨rfl, rfl⟩ := by simpa using he
    obtain ⟨hcomponent, hs⟩ := ih hread
    refine ⟨hcomponent, ?_⟩
    rw [toList_descriptor_array, List.cons_append, ← hs]
  | case11 => simp at h
  | case13 => simp at h
  | _ =>
    obtain ⟨rfl, rfl⟩ := by simpa using h
    exact ⟨trivial, rfl⟩

theorem read_eq_some_iff :
    read s = some (ty, rest) ↔ ty.Spelled ∧ s = ty.descriptor.toList ++ rest := by
  constructor
  · exact spelled_of_read
  · rintro ⟨hty, rfl⟩
    exact read_descriptor hty

end Spelling

section Places

variable {ty : JvmType} {s rest : List Char} {offset : Nat}

theorem utf8ByteSize_ofList_cons (c : Char) (s : List Char) :
    (String.ofList (c :: s)).utf8ByteSize = c.utf8Size + (String.ofList s).utf8ByteSize := by
  rw [String.ofList_cons, String.utf8ByteSize_append, String.utf8ByteSize_singleton]

theorem fromOffset_cons (c : Char) (s : List Char) (n : Nat) :
    fromOffset (c :: s) (c.utf8Size + n) = fromOffset s n := by
  have hpos := c.utf8Size_pos
  have hne : c.utf8Size + n = 0 → False := by omega
  rw [fromOffset.eq_3 _ _ _ hne, if_pos (Nat.le_add_right _ _), Nat.add_sub_cancel_left]

-- A place in a text is where the characters in front of it end.
theorem fromOffset_eq_some_iff : fromOffset s offset = some rest ↔
    ∃ front, s = front ++ rest ∧ (String.ofList front).utf8ByteSize = offset := by
  constructor
  · intro h
    fun_induction fromOffset s offset with
    | case1 s =>
      obtain rfl := by simpa using h
      exact ⟨[], rfl, rfl⟩
    | case2 => cases h
    | case3 c s n hn hsize ih =>
      obtain ⟨front, rfl, hfront⟩ := ih h
      refine ⟨c :: front, rfl, ?_⟩
      rw [utf8ByteSize_ofList_cons]
      omega
    | case4 => cases h
  · rintro ⟨front, rfl, rfl⟩
    induction front with
    | nil => cases rest <;> rfl
    | cons c front ih => rw [utf8ByteSize_ofList_cons, List.cons_append, fromOffset_cons, ih]

-- A type is read where its descriptor stands, up to the end of it.
theorem readAt?_eq_some_iff {text : String} {next : Nat} :
    readAt? text offset = some (ty, next) ↔ ty.Spelled ∧ ∃ front back,
      text = front ++ ty.descriptor ++ back ∧ front.utf8ByteSize = offset ∧
        next = offset + ty.descriptor.utf8ByteSize := by
  have hplace (front back : String) :
      (front ++ ty.descriptor ++ back).utf8ByteSize - (String.ofList back.toList).utf8ByteSize =
        front.utf8ByteSize + ty.descriptor.utf8ByteSize := by
    rw [String.ofList_toList, String.utf8ByteSize_append, String.utf8ByteSize_append,
      Nat.add_sub_cancel]
  constructor
  · intro h
    obtain ⟨s, hs, h⟩ := Option.bind_eq_some_iff.1 h
    obtain ⟨⟨ty', rest⟩, hread, he⟩ := Option.bind_eq_some_iff.1 h
    obtain ⟨rfl, rfl⟩ := by simpa using he
    obtain ⟨front, hfront, hsize⟩ := fromOffset_eq_some_iff.1 hs
    obtain ⟨hty, rfl⟩ := read_eq_some_iff.1 hread
    have htext : text = String.ofList front ++ ty'.descriptor ++ String.ofList rest := by
      rw [← String.toList_inj, hfront]
      simp
    refine ⟨hty, String.ofList front, String.ofList rest, htext, hsize, ?_⟩
    have hnext := hplace (String.ofList front) (String.ofList rest)
    rwa [← htext, String.toList_ofList, hsize] at hnext
  · rintro ⟨hty, front, back, rfl, rfl, rfl⟩
    have hs : fromOffset (front ++ ty.descriptor ++ back).toList front.utf8ByteSize =
        some (ty.descriptor.toList ++ back.toList) := by
      refine fromOffset_eq_some_iff.2 ⟨front.toList, by simp, ?_⟩
      rw [String.ofList_toList]
    simp only [readAt?, hs, Option.bind_eq_bind, Option.bind_some, read_descriptor hty, hplace]
    rfl

theorem ofDescriptor?_eq_some_iff {text : String} :
    ofDescriptor? text = some ty ↔ ty.Spelled ∧ text = ty.descriptor := by
  have htext : text = ty.descriptor ↔ text.toList = ty.descriptor.toList ++ [] := by
    rw [List.append_nil, String.toList_inj]
  rw [htext, ← read_eq_some_iff, ofDescriptor?]
  constructor
  · intro h
    split at h
    · next hread =>
      obtain rfl := by simpa using h
      exact hread
    · cases h
  · intro h
    rw [h]

-- Types and descriptors belong together one to one. The only text that is read as a type is its
-- descriptor, and from a longer text the type is read exactly at the places where its descriptor
-- stands, with the place behind it, whatever is in front of it and whatever follows.
theorem reads_descriptor_anywhere (ty : JvmType) :
    (∀ text, ofDescriptor? text = some ty ↔ ty.Spelled ∧ text = ty.descriptor) ∧
      ∀ text offset next, readAt? text offset = some (ty, next) ↔ ty.Spelled ∧ ∃ front back,
        text = front ++ ty.descriptor ++ back ∧ front.utf8ByteSize = offset ∧
          next = offset + ty.descriptor.utf8ByteSize :=
  ⟨fun _ => ofDescriptor?_eq_some_iff, fun _ _ _ => readAt?_eq_some_iff⟩

-- Places are counted in bytes.
example : readAt? "é[Lü;x" 2 = some (array (reference "ü"), 7) := by decide

end Places

end JvmType

end JvmLift
