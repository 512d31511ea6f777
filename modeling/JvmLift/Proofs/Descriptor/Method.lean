import JvmLift.Proofs.Covering
import JvmLift.Proofs.Descriptor

namespace JvmLift

-- Where a character stands in a text that is made of two parts.
theorem append_eq_append_cons {xs rest front after : List Char} {c : Char}
    (h : xs ++ rest = front ++ c :: after) :
    (∃ more, front = xs ++ more ∧ rest = more ++ c :: after) ∨
      ∃ more, xs = front ++ c :: more ∧ after = more ++ rest := by
  rcases List.append_eq_append_iff.1 h with ⟨more, hfront, hrest⟩ | ⟨more, hxs, hafter⟩
  · exact .inl ⟨more, hfront, hrest⟩
  · cases more with
    | nil => exact .inl ⟨[], by simpa using hxs.symm, by simpa using hafter.symm⟩
    | cons x more =>
      obtain ⟨rfl, hrest⟩ := List.cons.inj hafter
      exact .inr ⟨more, hxs, hrest⟩

namespace JvmType

variable {ty : JvmType}

theorem exists_head_descriptor (ty : JvmType) :
    ∃ c s, ty.descriptor.toList = c :: s ∧ c ≠ ')' := by
  cases ty with
  | reference name => exact ⟨_, _, toList_descriptor_reference name, by decide⟩
  | array component => exact ⟨_, _, toList_descriptor_array component, by decide⟩
  | _ => exact ⟨_, _, rfl, by decide⟩

theorem length_descriptor_pos (ty : JvmType) : 0 < ty.descriptor.toList.length := by
  obtain ⟨c, s, hs, -⟩ := exists_head_descriptor ty
  rw [hs, List.length_cons]
  exact Nat.succ_pos _

-- A type has letters and brackets alone in its descriptor, or the name of a class and the semicolon
-- that ends it.
theorem descriptor_forms (h : ty.Spelled) :
    ')' ∉ ty.descriptor.toList ∧ ';' ∉ ty.descriptor.toList ∨
      ∃ front, ';' ∉ front ∧ ty.descriptor.toList = front ++ [';'] := by
  induction ty with
  | reference name =>
    have hname : ';' ∉ name.toList := h
    refine .inr ⟨'L' :: name.toList, ?_, toList_descriptor_reference name⟩
    simpa using hname
  | array component ih =>
    rw [toList_descriptor_array]
    rcases ih h with ⟨hclose, hend⟩ | ⟨front, hfront, hend⟩
    · exact .inl ⟨by simpa using hclose, by simpa using hend⟩
    · exact .inr ⟨'[' :: front, by simpa using hfront, by rw [hend]; rfl⟩
  | null => exact absurd h id
  | _ => exact .inl ⟨by decide, by decide⟩

-- Behind a closing parenthesis there is a semicolon, at the end.
theorem exists_end_of_parenthesis {before behind : List Char} (h : ty.Spelled)
    (hs : ty.descriptor.toList = before ++ ')' :: behind) : ∃ name, behind = name ++ [';'] := by
  rcases descriptor_forms h with ⟨hclose, -⟩ | ⟨front, -, hend⟩
  · rw [hs] at hclose
    simp at hclose
  · rw [hend] at hs
    rcases append_eq_append_cons hs with ⟨more, -, hlast⟩ | ⟨more, -, hbehind⟩
    · cases more <;> simp at hlast
    · exact ⟨more, hbehind⟩

-- A type that is read from a text ends no later than the first semicolon.
theorem descriptor_prefix_of_append {name rest : List Char} (h : ty.Spelled)
    (hs : ty.descriptor.toList <+: name ++ ';' :: rest) :
    ty.descriptor.toList <+: name ++ [';'] := by
  obtain ⟨more, hmore⟩ := hs
  rcases append_eq_append_cons hmore with ⟨missing, rfl, -⟩ | ⟨extra, htext, -⟩
  · rw [List.append_assoc]
    exact List.prefix_append _ _
  · have hextra : extra = [] := by
      rcases descriptor_forms h with ⟨-, hend⟩ | ⟨front, hfront, hend⟩
      · rw [htext] at hend
        simp at hend
      · rcases append_eq_append_cons (hend.symm.trans htext) with ⟨more, -, hlast⟩ | ⟨_, rfl, -⟩
        · cases more <;> simp_all
        · simp at hfront
    have hwhole : ty.descriptor.toList = name ++ [';'] := by rw [htext, hextra]
    exact hwhole ▸ List.prefix_refl _

section Spelling

-- Types one after the other.
def spelling (types : List JvmType) : List Char :=
  types.flatMap fun ty => ty.descriptor.toList

variable {types : List JvmType} {s : List Char} {width : Nat}

-- As many types as it takes to spell some characters.
def Spans : Nat → List JvmType → Prop :=
  Covers fun ty => ty.descriptor.toList.length

theorem length_spelling (types : List JvmType) :
    (spelling types).length = (types.map fun ty => ty.descriptor.toList.length).sum :=
  List.length_flatMap

theorem spelling_concat (types : List JvmType) (ty : JvmType) :
    spelling (types ++ [ty]) = spelling types ++ ty.descriptor.toList := by
  simp [spelling]

theorem spans_cons {ty : JvmType} : Spans width (ty :: types) ↔
    width ≠ 0 ∧ Spans (width - ty.descriptor.toList.length) types :=
  Iff.rfl

-- The types in front of a text are read until the width is used up.
theorem readParameters_eq_some_iff : MethodDescriptor.readParameters width s = some types ↔
    (∀ ty ∈ types, ty.Spelled) ∧ spelling types <+: s ∧ Spans width types := by
  fun_induction MethodDescriptor.readParameters width s generalizing types with
  | case1 s =>
    cases types with
    | nil => simp [spelling, Spans, Covers]
    | cons ty types => simp [spans_cons]
  | case2 width s hwidth hread =>
    refine iff_of_false (by simp) ?_
    rintro ⟨hspelled, ⟨rest, rfl⟩, hspans⟩
    cases types with
    | nil => exact hwidth hspans
    | cons ty types =>
      have hty := hspelled ty List.mem_cons_self
      rw [spelling, List.flatMap_cons, List.append_assoc, read_descriptor hty] at hread
      cases hread
  | case3 width s hwidth ty rest hread hlt ih =>
    obtain ⟨hty, rfl⟩ := read_eq_some_iff.1 hread
    rw [List.length_append, Nat.add_sub_cancel] at ih ⊢
    constructor
    · intro h
      obtain ⟨more, hmore, rfl⟩ := Option.map_eq_some_iff.1 h
      obtain ⟨hspelled, hprefix, hspans⟩ := ih.1 hmore
      refine ⟨List.forall_mem_cons.2 ⟨hty, hspelled⟩, ?_, spans_cons.2 ⟨hwidth, hspans⟩⟩
      exact (List.prefix_append_right_inj _).2 hprefix
    · rintro ⟨hspelled, ⟨back, hback⟩, hspans⟩
      cases types with
      | nil => exact absurd hspans hwidth
      | cons ty' types =>
        obtain ⟨hty', htypes⟩ := List.forall_mem_cons.1 hspelled
        -- both types are in front of the text, so they are one
        rw [spelling, List.flatMap_cons, List.append_assoc] at hback
        rw [← hback, read_descriptor hty'] at hread
        obtain ⟨rfl, rfl⟩ := by simpa using hread
        rw [ih.2 ⟨htypes, List.prefix_append _ _, (spans_cons.1 hspans).2⟩]
        rfl

end Spelling

end JvmType

namespace MethodDescriptor

open JvmType

variable {m : MethodDescriptor} {text : String}

def Spelled (m : MethodDescriptor) : Prop :=
  (∀ ty ∈ m.parameters, ty.Spelled) ∧ m.result.Spelled

-- A descriptor up to the end of its parameters.
def opening (m : MethodDescriptor) : String :=
  "(" ++ String.join (m.parameters.map JvmType.descriptor)

-- No parameter has a closing parenthesis in its name, so that the first one ends the parameters.
def Closed (m : MethodDescriptor) : Prop :=
  ')' ∉ spelling m.parameters

-- The first closing parenthesis is in the name of the last parameter, and what is behind it in the
-- name begins with the descriptor of the result.
def Hides (m : MethodDescriptor) : Prop :=
  ∃ others last before behind, m.parameters = others ++ [last] ∧
    last.descriptor.toList = before ++ ')' :: behind ∧ ')' ∉ spelling others ++ before ∧
      m.result.descriptor.toList <+: behind

theorem toList_opening (m : MethodDescriptor) :
    m.opening.toList = '(' :: spelling m.parameters := by
  simp [opening, spelling, String.toList_join, List.flatMap_map]

theorem toList_descriptor (m : MethodDescriptor) :
    m.descriptor.toList = m.opening.toList ++ ')' :: m.result.descriptor.toList := by
  simp [descriptor, opening]

-- The parameters are read up to the first closing parenthesis or beyond it, the result behind it.
theorem ofDescriptor?_eq_some_iff : ofDescriptor? text = some m ↔ m.Spelled ∧
    ∃ front after, text.toList = '(' :: (front ++ ')' :: after) ∧ ')' ∉ front ∧
      spelling m.parameters <+: front ++ ')' :: after ∧ Spans front.length m.parameters ∧
        m.result.descriptor.toList <+: after := by
  constructor
  · intro h
    unfold ofDescriptor? at h
    split at h
    · next s hs =>
      split at h
      · next c after hafter =>
        obtain ⟨hfront, hsplit⟩ := eq_append_of_dropWhile_ne hafter
        obtain ⟨parameters, hparameters, h⟩ := Option.bind_eq_some_iff.1 h
        obtain ⟨⟨result, more⟩, hresult, h⟩ := Option.bind_eq_some_iff.1 h
        obtain rfl := by simpa using h
        obtain ⟨hspelled, hprefix, hspans⟩ := readParameters_eq_some_iff.1 hparameters
        obtain ⟨hty, rfl⟩ := read_eq_some_iff.1 hresult
        refine ⟨⟨hspelled, hty⟩, s.takeWhile (· != ')'), result.descriptor.toList ++ more, ?_, hfront,
          ?_, hspans, List.prefix_append _ more⟩
        · rw [hs, ← hsplit]
        · rwa [← hsplit]
      · cases h
    · cases h
  · rintro ⟨⟨hspelled, hty⟩, front, after, htext, hfront, hprefix, hspans, more, rfl⟩
    have hparameters := readParameters_eq_some_iff.2 ⟨hspelled, hprefix, hspans⟩
    simp only [ofDescriptor?, htext, dropWhile_ne_append hfront, takeWhile_ne_append hfront,
      hparameters, read_descriptor hty, Option.bind_eq_bind, Option.bind_some]
    rfl

-- Where the first closing parenthesis ends the parameters, a text is read as what it begins with.
theorem ofDescriptor?_of_closed (hm : m.Spelled) (hc : m.Closed) :
    ofDescriptor? text = some m ↔ m.descriptor.toList <+: text.toList := by
  rw [ofDescriptor?_eq_some_iff, toList_descriptor, toList_opening]
  constructor
  · rintro ⟨-, front, after, htext, hfront, ⟨rest, hrest⟩, hspans, hresult⟩
    have hle := hspans.le_sum
    rw [← length_spelling] at hle
    obtain rfl : front = spelling m.parameters := by
      rcases append_eq_append_cons hrest with ⟨more, rfl, -⟩ | ⟨more, hparameters, -⟩
      · have hmore : more = [] := by
          rw [← List.length_eq_zero_iff]
          rw [List.length_append] at hle
          omega
        rw [hmore, List.append_nil]
      · rw [Closed, hparameters] at hc
        simp at hc
    rw [htext, List.cons_append, List.cons_prefix_cons, List.prefix_append_right_inj,
      List.cons_prefix_cons]
    exact ⟨rfl, rfl, hresult⟩
  · rintro ⟨more, hmore⟩
    refine ⟨hm, spelling m.parameters, m.result.descriptor.toList ++ more, ?_, hc,
      List.prefix_append _ _, ?_, List.prefix_append _ more⟩
    · rw [← hmore]
      simp
    · rw [length_spelling]
      exact covers_sum fun ty _ => ty.length_descriptor_pos

-- Where it does not, it was found in the name of the last parameter.
theorem hides_of_spans {front after rest : List Char} (hm : m.Spelled) (hc : ¬m.Closed)
    (hrest : spelling m.parameters ++ rest = front ++ ')' :: after) (hfront : ')' ∉ front)
    (hspans : Spans front.length m.parameters) (hresult : m.result.descriptor.toList <+: after) :
    m.Hides := by
  rcases List.eq_nil_or_concat m.parameters with hnil | ⟨others, last, hconcat⟩
  · refine absurd ?_ hc
    rw [Closed, hnil]
    exact List.not_mem_nil
  · rw [List.concat_eq_append] at hconcat
    rw [hconcat, spelling_concat, List.append_assoc] at hrest
    rw [hconcat] at hspans
    obtain ⟨hlt, hle⟩ := covers_concat_iff.1 hspans
    rw [← length_spelling] at hlt hle
    rcases append_eq_append_cons hrest with ⟨before, rfl, hbefore⟩ | ⟨more, hothers, -⟩
    · rcases append_eq_append_cons hbefore with ⟨more, rfl, -⟩ | ⟨behind, hbehind, rfl⟩
      · -- the whole of the last parameter is in front of the parenthesis
        refine absurd ?_ hc
        rw [← List.append_assoc] at hfront
        rw [Closed, hconcat, spelling_concat]
        exact fun h => hfront (List.mem_append_left _ h)
      · refine ⟨others, last, before, behind, hconcat, hbehind, hfront, ?_⟩
        have hlast : last.Spelled := hm.1 last (by simp [hconcat])
        obtain ⟨name, rfl⟩ := exists_end_of_parenthesis hlast hbehind
        rw [List.append_assoc] at hresult
        exact descriptor_prefix_of_append hm.2 hresult
    · rw [hothers, List.length_append, List.length_cons] at hlt
      omega

theorem Hides.exists_spans (h : m.Hides) : ∃ front behind,
    spelling m.parameters = front ++ ')' :: behind ∧ ')' ∉ front ∧
      Spans front.length m.parameters ∧ m.result.descriptor.toList <+: behind := by
  obtain ⟨others, last, before, behind, hconcat, hlast, hfront, hresult⟩ := h
  have hbefore : 0 < before.length := by
    obtain ⟨c, s, hs, hne⟩ := last.exists_head_descriptor
    rw [hs] at hlast
    cases before with
    | nil => exact absurd (List.cons.inj hlast).1 hne
    | cons => exact Nat.succ_pos _
  refine ⟨spelling others ++ before, behind, ?_, hfront, ?_, hresult⟩
  · rw [hconcat, spelling_concat, hlast, List.append_assoc]
  · rw [hconcat]
    refine covers_concat_iff.2 ?_
    rw [← length_spelling, hlast, List.length_append, List.length_append]
    omega

theorem Hides.not_closed (h : m.Hides) : ¬m.Closed := by
  obtain ⟨front, behind, hspelling, -⟩ := h.exists_spans
  rw [Closed, hspelling]
  simp

-- A result that is hidden in a name is read there, and what follows the parameters is not looked at.
theorem ofDescriptor?_of_not_closed (hm : m.Spelled) (hc : ¬m.Closed) :
    ofDescriptor? text = some m ↔ m.Hides ∧ m.opening.toList <+: text.toList := by
  rw [ofDescriptor?_eq_some_iff, toList_opening]
  constructor
  · rintro ⟨-, front, after, htext, hfront, ⟨rest, hrest⟩, hspans, hresult⟩
    refine ⟨hides_of_spans hm hc hrest hfront hspans hresult, ?_⟩
    rw [htext, ← hrest, ← List.cons_append]
    exact List.prefix_append _ _
  · rintro ⟨hhides, rest, hrest⟩
    obtain ⟨front, behind, hspelling, hfront, hspans, hresult⟩ := hhides.exists_spans
    refine ⟨hm, front, behind ++ rest, ?_, hfront, ?_, hspans, ?_⟩
    · rw [← hrest, hspelling]
      simp
    · rw [hspelling]
      exact ⟨rest, by simp⟩
    · exact hresult.trans (List.prefix_append _ _)

-- What is read from any text is read from its own descriptor as well.
theorem ofDescriptor?_descriptor (h : ofDescriptor? text = some m) :
    ofDescriptor? m.descriptor = some m := by
  have hm : m.Spelled := (ofDescriptor?_eq_some_iff.1 h).1
  by_cases hc : m.Closed
  · exact (ofDescriptor?_of_closed hm hc).2 List.prefix_rfl
  · have hhides := ((ofDescriptor?_of_not_closed hm hc).1 h).1
    refine (ofDescriptor?_of_not_closed hm hc).2 ⟨hhides, ?_⟩
    rw [toList_descriptor]
    exact List.prefix_append _ _

theorem prefix_toList_iff {s : String} : s.toList <+: text.toList ↔ ∃ more, text = s ++ more := by
  constructor
  · rintro ⟨more, hmore⟩
    refine ⟨String.ofList more, ?_⟩
    rw [← String.toList_inj, ← hmore]
    simp
  · rintro ⟨more, rfl⟩
    rw [String.toList_append]
    exact List.prefix_append _ _

-- A method descriptor is read as itself and from nothing else, except for this. Where no parameter
-- has a closing parenthesis in its name, what stands behind the result is not seen. Where the result
-- is in the name of the last parameter, behind such a parenthesis, nothing behind the parameters is
-- seen. And any other descriptor with such a parenthesis is not read as what it is.
theorem reads_descriptor_iff (m : MethodDescriptor) (text : String) (hm : m.Spelled) :
    (ofDescriptor? text = some m ↔ text = m.descriptor) ↔
      (m.Closed → ∀ more, text = m.descriptor ++ more → more = "") ∧
        (m.Hides → ∀ more, text = m.opening ++ more → text = m.descriptor) ∧
          (¬m.Closed → ¬m.Hides → text ≠ m.descriptor) := by
  by_cases hc : m.Closed
  · rw [ofDescriptor?_of_closed hm hc, prefix_toList_iff]
    constructor
    · intro h
      refine ⟨fun _ more hmore => ?_, fun hhides => absurd hc hhides.not_closed, fun hn => absurd hc hn⟩
      have hself := h.1 ⟨more, hmore⟩
      rw [hself] at hmore
      exact String.append_eq_left_iff.1 hmore.symm
    · rintro ⟨hnone, -⟩
      constructor
      · rintro ⟨more, rfl⟩
        rw [hnone hc more rfl, String.append_empty]
      · rintro rfl
        exact ⟨"", String.append_empty.symm⟩
  · rw [ofDescriptor?_of_not_closed hm hc, prefix_toList_iff]
    constructor
    · intro h
      exact ⟨fun h' => absurd h' hc, fun hhides more hmore => h.1 ⟨hhides, more, hmore⟩,
        fun _ hnot htext => hnot (h.2 htext).1⟩
    · rintro ⟨-, hhidden, hlost⟩
      constructor
      · rintro ⟨hhides, more, hmore⟩
        exact hhidden hhides more hmore
      · intro htext
        by_cases hhides : m.Hides
        · refine ⟨hhides, prefix_toList_iff.1 ?_⟩
          rw [htext, toList_descriptor]
          exact List.prefix_append _ _
        · exact absurd htext (hlost hc hhides)

def takesMany : MethodDescriptor := ⟨[.string, .long, .int], .array .byte⟩

-- A method that takes a class of a given name and returns nothing.
def takesClass (name : String) : MethodDescriptor := ⟨[.reference name], .void⟩

-- A descriptor with types of several forms, and one that is read as itself although its first closing
-- parenthesis is in a name.
theorem reads_descriptor_iff_takesMany :
    (takesMany.Spelled ∧ ofDescriptor? "(Ljava/lang/String;JI)[B" = some takesMany) ∧
      (takesClass "a)V").Spelled ∧ ofDescriptor? "(La)V;)V" = some (takesClass "a)V") := by
  have hmany : takesMany.Spelled := by
    refine ⟨List.forall_mem_cons.2 ⟨?_, by simp [JvmType.Spelled]⟩, trivial⟩
    show ';' ∉ "java/lang/String".toList
    decide
  have hclass : (takesClass "a)V").Spelled := by
    refine ⟨List.forall_mem_singleton.2 ?_, trivial⟩
    show ';' ∉ "a)V".toList
    decide
  have hclosed : takesMany.Closed := by
    show ')' ∉ spelling _
    decide
  have hnot : ¬(takesClass "a)V").Closed := by
    show ¬ ')' ∉ spelling _
    decide
  have hhides : (takesClass "a)V").Hides :=
    ⟨[], .reference "a)V", ['L', 'a'], ['V', ';'], rfl, by decide, by decide, by decide⟩
  refine ⟨⟨hmany, ?_⟩, hclass, ?_⟩
  · refine ((reads_descriptor_iff takesMany _ hmany).2 ⟨?_, ?_, ?_⟩).2 (by decide)
    · intro _ more hmore
      have hself : takesMany.descriptor = "(Ljava/lang/String;JI)[B" := by decide
      rw [hself] at hmore
      exact String.append_eq_left_iff.1 hmore.symm
    · exact fun h => absurd hclosed h.not_closed
    · exact fun h => absurd hclosed h
  · refine ((reads_descriptor_iff _ _ hclass).2 ⟨?_, ?_, ?_⟩).2 (by decide)
    · exact fun h => absurd h hnot
    · exact fun _ _ _ => by decide
    · exact fun _ h => absurd hhides h

-- A text that goes on behind the result is read all the same, and a class with a closing parenthesis
-- in its name is lost.
theorem not_reads_descriptor :
    ¬(ofDescriptor? "()VX" = some ⟨[], .void⟩ ↔ "()VX" = descriptor ⟨[], .void⟩) ∧
      ¬(ofDescriptor? "(La)b;)V" = some (takesClass "a)b") ↔
        "(La)b;)V" = (takesClass "a)b").descriptor) ∧
      Spelled ⟨[], .void⟩ ∧ (takesClass "a)b").Spelled := by
  refine ⟨by decide +kernel, by decide +kernel, ⟨List.forall_mem_nil _, trivial⟩, ?_⟩
  refine ⟨List.forall_mem_singleton.2 ?_, trivial⟩
  show ';' ∉ "a)b".toList
  decide

end MethodDescriptor

end JvmLift
