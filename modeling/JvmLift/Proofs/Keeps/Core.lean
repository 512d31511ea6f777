import JvmLift.Proofs.Keeps.Invariant

namespace JvmLift

open JvmLift.Action (Keeps)

section Inspecting

variable {inv : State → Prop}

theorem Action.keeps_local? (slot : UInt16) (pc : Nat) :
    Keeps inv (fun _ => True) (Action.local? slot pc) := by
  apply Keeps.inspect
  intro s _
  cases s.local? slot pc with
  | error f => exact .throw f
  | ok v => exact .pure trivial

theorem Action.keeps_classType (index : UInt16) :
    Keeps inv (fun _ => True) (classType index) := by
  apply Keeps.inspect
  intro s _
  apply (Keeps.lift _).bind
  intro name _
  cases JvmType.ofClassName? name with
  | none => exact .throw _
  | some ty => exact .pure trivial

theorem Instruction.Shuffle.keeps_require (categories : List Nat) (code : Opcode) :
    Keeps inv (fun _ => True) (require categories code) := by
  apply Keeps.inspect
  intro s _
  split
  · exact .pure trivial
  · exact .throw _

theorem Instruction.Jump.keeps_requireTarget (offset : Int) :
    Keeps inv (fun _ => True) (requireTarget offset) := by
  apply Keeps.inspect
  intro s _
  cases target s offset with
  | error fault => exact .throw fault
  | ok pc => exact .pure trivial

end Inspecting

namespace Instruction

open Declaration Element Invariant

variable {inv : Invariant}

namespace Literal

theorem fit_element {value : Loadable} {e : Element} (h : element value = .ok e) : inv.Fit e := by
  cases value with
  | classRef name =>
    rw [element] at h
    cases hn : JvmType.ofClassName? name with
    | none =>
      rw [hn] at h
      cases h
    | some ty =>
      rw [hn] at h
      cases h
      exact fit_of_none rfl rfl
  | _ =>
    cases h
    exact fit_of_none rfl rfl

theorem keeps_loadConstant (index : UInt16) (category : Nat) :
    Keeps inv.Holds (fun _ => True) (loadConstant index category) := by
  apply Keeps.inspect
  intro s _
  apply (Keeps.lift _).bind
  intro value _
  apply Keeps.refuse
  cases he : element value with
  | error fault => exact .throw fault
  | ok e => exact .push (fit_element he)

theorem keeps : ∀ d ∈ rules, d.rule.Keeps inv.Holds := by
  simp only [rules, List.forall_mem_cons]
  exact ⟨fun _ => .pure trivial, fun _ => .push (fit_of_none rfl rfl),
    fun _ => .push (fit_of_none rfl rfl), fun _ => .push (fit_of_none rfl rfl),
    fun _ => .push (fit_of_none rfl rfl), fun _ => .push (fit_of_none rfl rfl),
    fun _ => (Keeps.reading _).bind fun _ _ => .push (fit_of_none rfl rfl),
    fun _ => (Keeps.reading _).bind fun _ _ => .push (fit_of_none rfl rfl),
    fun _ => (Keeps.reading _).bind fun _ _ => keeps_loadConstant _ _,
    fun _ => (Keeps.reading _).bind fun _ _ => keeps_loadConstant _ _,
    fun _ => (Keeps.reading _).bind fun _ _ => keeps_loadConstant _ _,
    List.forall_mem_nil _⟩

end Literal

namespace Local

theorem keeps_load (slot : UInt16) : Keeps inv.Holds (fun _ => True) (load slot) :=
  .inspect fun _ _ => (Action.keeps_local? _ _).bind fun _ _ => .push (fit_of_none rfl rfl)

theorem keeps_store (slot : UInt16) : Keeps inv.Holds (fun _ => True) (store slot) := by
  apply Keeps.pop.bind
  intro value hvalue
  apply Keeps.inspect
  intro s _
  cases s.local? slot s.pc with
  | error f =>
    exact (Action.keeps_local? _ _).bind fun _ _ => .enlist (fit_of_one rfl rfl hvalue)
  | ok v =>
    show Keeps inv.Holds _ (Action.enlist _)
    exact .enlist (fit_of_one rfl rfl hvalue)

theorem keeps_increment (slot : UInt16) (delta : Int32) :
    Keeps inv.Holds (fun _ => True) (increment slot delta) :=
  .inspect fun _ _ => (Action.keeps_local? _ _).bind fun _ _ => .push (fit_of_none rfl rfl)

theorem keeps_wide : Keeps inv.Holds (fun _ => True) wide := by
  apply (Keeps.reading _).bind
  intro code _
  apply (Keeps.reading _).bind
  intro slot _
  split
  · exact keeps_load slot
  · split
    · exact keeps_store slot
    · split
      · exact (Keeps.reading _).bind fun _ _ => keeps_increment slot _
      · exact .throw _

theorem fit_withAffix {e : Element} (h : inv.Stacked e) (affix : Affix) :
    inv.Fit (e.withAffix affix) := by
  unfold Element.withAffix
  split
  · exact inv.fit_reshape (inv.listed_of_stacked h) rfl (List.forall_mem_nil _)
  · exact fit_of_stacked h

theorem keeps_foldNarrow (affix : Affix) :
    Keeps inv.Holds (fun _ => True) (foldNarrow affix) := by
  apply Keeps.inspect
  intro s _
  cases narrowIncrement? s with
  | none => exact .pure trivial
  | some found =>
    apply Keeps.pop.discard.bind
    intro _ _
    apply Keeps.removeLastStatement.bind
    intro assignment hassignment
    exact .push (inv.fit_reshape hassignment rfl (List.forall_mem_nil _))

theorem keeps : ∀ d ∈ rules, d.rule.Keeps inv.Holds := by
  simp only [rules, List.forall_mem_cons]
  exact ⟨fun _ => (Keeps.reading _).bind fun _ _ => keeps_load _,
    fun _ => keeps_load _,
    fun _ => (Keeps.reading _).bind fun _ _ => keeps_store _,
    fun _ => keeps_store _,
    fun _ => keeps_wide,
    fun _ => (Keeps.reading _).bind fun _ _ => (Keeps.reading _).bind fun _ _ =>
      keeps_increment _ _,
    fun _ => Keeps.pop.bind fun _ he => Keeps.pop.discard.bind fun _ _ =>
      .push (fit_withAffix he _),
    fun _ => Keeps.pop.discard.bind fun _ _ => Keeps.pop.bind fun _ he =>
      .push (fit_withAffix he _),
    fun _ => keeps_foldNarrow _,
    fun _ => keeps_foldNarrow _,
    List.forall_mem_nil _⟩

end Local

namespace Array

theorem keeps_allocate (component : JvmType) :
    Keeps inv.Holds (fun _ => True) (allocate component) :=
  Keeps.pop.bind fun _ he => .push (fit_of_one rfl rfl he)

theorem keeps_load (code : Opcode) : Keeps inv.Holds (fun _ => True) (load code) := by
  apply Keeps.pop.bind
  intro index hindex
  apply Keeps.pop.bind
  intro array harray
  cases loadedType code array.ty with
  | error fault => exact .throw fault
  | ok ty => exact .push (fit_of_two rfl rfl harray hindex)

-- An array that gets one more initializer keeps its own stamp.
theorem keeps_store : Keeps inv.Holds (fun _ => True) store := by
  apply Keeps.pop.bind
  intro value hvalue
  apply Keeps.pop.bind
  intro index hindex
  apply Keeps.pop.bind
  intro array harray
  split
  · rename_i ty component length initializers hshape
    split
    · have hlisted := inv.listed_of_stacked harray
      have hbelow := inv.held_children hlisted hshape rfl
      refine .push (inv.fit_reshape hlisted rfl ?_)
      simp only [Shape.children, List.map_append, List.forall_mem_cons,
        List.forall_mem_append] at hbelow ⊢
      exact ⟨hbelow.1, hbelow.2, List.forall_mem_singleton.2 (inv.held_of_stacked hvalue)⟩
    · exact .throw _
  · refine .enlist (inv.fit_layer rfl ?_)
    simp only [Shape.children, List.forall_mem_cons]
    exact ⟨inv.held_of_stacked harray, inv.held_of_stacked hindex, inv.held_of_stacked hvalue,
      List.forall_mem_nil _⟩

theorem keeps_copy (code : Opcode) :
    Keeps inv.Holds (fun _ => True) (copy.rule.run code) := by
  have hfollows : Keeps inv.Holds (fun _ => True) indexFollows :=
    (Keeps.followingCode? Keeps.move).map _ fun _ _ => trivial
  apply hfollows.bind
  intro follows _
  cases follows with
  | false => exact Keeps.peek.bind fun _ he => .push (fit_of_stacked he)
  | true => exact .pure trivial

theorem keeps : ∀ d ∈ rules, d.rule.Keeps inv.Holds := by
  simp only [rules, List.forall_mem_cons]
  refine ⟨fun _ => (Keeps.reading _).bind ?_,
    fun _ => (Keeps.reading _).bind fun _ _ => (Action.keeps_classType _).bind fun _ _ =>
      keeps_allocate _,
    keeps_copy,
    fun _ => Keeps.pop.bind fun _ he => .push (fit_of_one rfl rfl he),
    keeps_load,
    fun _ => keeps_store,
    List.forall_mem_nil _⟩
  intro code _
  cases JvmType.ofArrayCode? code with
  | none => exact .throw _
  | some component => exact keeps_allocate component

end Array

namespace Object

theorem keeps_field (ofObject : Bool) :
    Keeps inv.Holds (fun a => ∀ c ∈ a.target.toList, inv.Held c) (field ofObject) := by
  apply (Keeps.reading _).bind
  intro index _
  apply Keeps.inspect
  intro s _
  apply (Keeps.lift _).bind
  intro member _
  cases JvmType.ofDescriptor? member.descriptor with
  | none => exact .throw _
  | some ty =>
    cases ofObject with
    | false => exact .pure (List.forall_mem_nil _)
    | true => exact Keeps.popTarget.bind fun _ htarget => .pure htarget

theorem keeps_allocate : Keeps inv.Holds (fun _ => True) allocate :=
  (Keeps.reading _).bind fun _ _ => (Action.keeps_classType _).bind fun _ _ =>
    (Keeps.reading _).bind fun _ _ => .refuse (.push (fit_of_none rfl rfl))

-- The call and the object collapse into one element with the stamp of the call.
theorem fit_constructed? {e t : Element} (he : inv.Listed e) (h : e.constructed? = some t) :
    inv.Fit t := by
  unfold Element.constructed? at h
  split at h
  · rename_i c hshape
    split at h
    · cases h
      have hbelow := inv.held_children he hshape rfl
      exact inv.fit_reshape he rfl (List.forall_mem_append.1 hbelow).2
    · cases h
  · cases h

theorem keeps_discardCast : Keeps inv.Holds (fun _ => True) discardCast := by
  apply Keeps.pop.bind
  intro e he
  split
  · rename_i value ty hshape
    exact (Keeps.push (inv.fit_value he hshape)).bind fun _ _ => Keeps.reduce.discard
  · exact .throw _

theorem keeps : ∀ d ∈ rules, d.rule.Keeps inv.Holds := by
  simp only [rules, List.forall_mem_cons]
  refine ⟨fun _ => (keeps_field _).bind fun _ ha => .push (inv.fit_layer rfl ha),
    fun _ => Keeps.pop.bind fun value hvalue => (keeps_field _).bind fun a ha =>
      .enlist (inv.fit_layer rfl ?_),
    fun _ => keeps_allocate,
    keeps_rewriteTop _ _ fun _ _ => fit_constructed?,
    fun _ => (Keeps.reading _).bind fun _ _ => (Action.keeps_classType _).bind fun _ _ =>
      Keeps.pop.bind fun _ he => .push (inv.fit_cast _ he),
    fun _ => (Keeps.reading _).bind fun _ _ => (Action.keeps_classType _).bind fun _ _ =>
      Keeps.pop.bind fun _ he => .push (fit_of_one rfl rfl he),
    fun _ => keeps_discardCast,
    List.forall_mem_nil _⟩
  exact List.forall_mem_append.2
    ⟨ha, List.forall_mem_singleton.2 (inv.held_of_stacked hvalue)⟩

end Object

namespace Call

theorem keeps_call (index : UInt16) (isStatic : Bool) :
    Keeps inv.Holds (fun _ => True) (call index isStatic) := by
  apply Keeps.inspect
  intro s _
  apply (Keeps.lift _).bind
  intro member _
  apply (Keeps.lift _).bind
  intro signature _
  apply (Keeps.popMany _).bind
  intro args hargs
  have hheld : ∀ a ∈ args, inv.Held a := fun a ha => inv.held_of_stacked (hargs a ha)
  cases isStatic with
  | true => exact .push (inv.fit_layer rfl hheld)
  | false =>
    apply Keeps.popTarget.bind
    intro target htarget
    exact .push (inv.fit_layer rfl (List.forall_mem_append.2 ⟨htarget, hheld⟩))

theorem keeps : ∀ d ∈ rules, d.rule.Keeps inv.Holds := by
  simp only [rules, List.forall_mem_cons]
  exact ⟨fun _ => (Keeps.reading _).bind fun _ _ => keeps_call _ _,
    fun _ => (Keeps.reading _).bind fun _ _ => (Keeps.reading _).bind fun _ _ =>
      .refuse ((Keeps.reading _).discard.bind fun _ _ => keeps_call _ _),
    List.forall_mem_nil _⟩

end Call

namespace Arithmetic

theorem keeps : ∀ d ∈ rules, d.rule.Keeps inv.Holds := by
  simp only [rules, List.forall_mem_append, List.forall_mem_cons, List.forall_mem_map]
  exact ⟨⟨fun _ _ _ => Keeps.pop.bind fun _ hr => Keeps.pop.bind fun _ hl =>
      .push (fit_of_two rfl rfl hl hr),
    fun _ _ _ => Keeps.pop.bind fun _ he => .push (inv.fit_cast _ he)⟩,
    fun _ => Keeps.pop.bind fun _ he => .push (fit_of_one rfl rfl he),
    fun _ => Keeps.pop.bind fun _ hr => Keeps.pop.bind fun _ hl =>
      .push (fit_of_two rfl rfl hl hr),
    List.forall_mem_nil _⟩

end Arithmetic

namespace Shuffle

theorem keeps_rearrange (forms : List Form) (code : Opcode) :
    Keeps inv.Holds (fun _ => True) (rearrange forms code) := by
  apply Keeps.inspect
  intro s _
  cases forms.find? fun form => s.hasCategories form.categories with
  | none => exact .throw _
  | some form =>
    apply (Keeps.popMany _).bind
    intro popped hpopped
    apply Keeps.forM
    intro e he
    obtain ⟨i, -, hi⟩ := List.mem_filterMap.1 he
    exact .push (fit_of_stacked (hpopped e (List.mem_reverse.1 (List.mem_of_getElem? hi))))

theorem keeps_discardTwo (code : Opcode) :
    Keeps inv.Holds (fun _ => True) (discardTwo code) := by
  apply Keeps.inspect
  intro s _
  split
  · exact Keeps.reduce.discard.bind fun _ _ => Keeps.reduce.discard
  · exact (keeps_require _ _).bind fun _ _ => Keeps.reduce.discard

theorem keeps : ∀ d ∈ rules, d.rule.Keeps inv.Holds := by
  simp only [rules, List.forall_mem_append, List.forall_mem_cons, List.forall_mem_map]
  exact ⟨⟨fun _ => (keeps_require _ _).bind fun _ _ => Keeps.reduce.discard,
      keeps_discardTwo, List.forall_mem_nil _⟩,
    fun _ _ => keeps_rearrange _⟩

end Shuffle

namespace Boolean

variable {e t : Element}

-- A boolean has the stamp of the constant that it stands for.
theorem held_booleanLiteral? (he : inv.Held e) (h : e.booleanLiteral? = some t) : inv.Held t := by
  unfold Element.booleanLiteral? at h
  split at h
  · exact Option.some.inj h ▸ inv.held_boolean false he
  · split at h
    · exact Option.some.inj h ▸ inv.held_boolean true he
    · cases h

theorem fit_booleanAssignment? (he : inv.Listed e) (h : e.booleanAssignment? = some t) :
    inv.Fit t := by
  unfold Element.booleanAssignment? at h
  split at h
  · rename_i slot name value hshape
    obtain ⟨literal, hliteral, rfl⟩ := Option.map_eq_some_iff.1 h
    have hvalue := List.forall_mem_singleton.1 (inv.held_children he hshape rfl)
    exact inv.fit_layer rfl (List.forall_mem_singleton.2 (held_booleanLiteral? hvalue hliteral))
  · cases h

theorem fit_booleanReturn? (he : inv.Listed e) (h : e.booleanReturn? = some t) : inv.Fit t := by
  unfold Element.booleanReturn? at h
  split at h
  · rename_i value hshape
    obtain ⟨literal, hliteral, rfl⟩ := Option.map_eq_some_iff.1 h
    have hvalue := List.forall_mem_singleton.1 (inv.held_children he hshape rfl)
    exact inv.fit_layer rfl (List.forall_mem_singleton.2 (held_booleanLiteral? hvalue hliteral))
  · cases h

theorem held_booleanArguments? {parameters : List JvmType} {args replaced : List Element}
    (hargs : ∀ a ∈ args, inv.Held a) (h : booleanArguments? parameters args = some replaced) :
    ∀ a ∈ replaced, inv.Held a := by
  simp only [booleanArguments?, Option.ite_none_right_eq_some] at h
  obtain ⟨-, h⟩ := h
  cases h
  intro a ha
  obtain ⟨i, hi⟩ := List.getElem?_of_mem ha
  obtain ⟨ty, arg, -, harg, rfl⟩ := List.getElem?_zipWith_eq_some.1 hi
  have hheld := hargs arg (List.mem_of_getElem? harg)
  split
  · cases hliteral : arg.booleanLiteral? with
    | none => exact hheld
    | some literal => exact held_booleanLiteral? hheld hliteral
  · exact hheld

theorem fit_booleanCall? (he : inv.Listed e) (h : e.booleanCall? = some t) : inv.Fit t := by
  unfold Element.booleanCall? at h
  split at h
  · rename_i c hshape
    obtain ⟨args, hargs, rfl⟩ := Option.map_eq_some_iff.1 h
    obtain ⟨htarget, hold⟩ := List.forall_mem_append.1 (inv.held_children he hshape rfl)
    exact inv.fit_reshape he rfl
      (List.forall_mem_append.2 ⟨htarget, held_booleanArguments? hold hargs⟩)
  · rename_i ty signature old hshape
    obtain ⟨args, hargs, rfl⟩ := Option.map_eq_some_iff.1 h
    have hold := inv.held_children he hshape rfl
    exact inv.fit_reshape he rfl (held_booleanArguments? hold hargs)
  · cases h

theorem keeps_foldBit : Keeps inv.Holds (fun _ => True) foldBit := by
  apply Keeps.pop.discard.bind
  intro _ _
  apply Keeps.pop.discard.bind
  intro _ _
  apply Keeps.removeLastStatement.discard.bind
  intro _ _
  apply Keeps.removeLastStatement.bind
  intro branch hbranch
  cases hu : branch.untaken with
  | error fault => exact .throw fault
  | ok condition => exact .push (inv.fit_untaken hbranch hu)

theorem keeps : ∀ d ∈ rules, d.rule.Keeps inv.Holds := by
  simp only [rules, List.forall_mem_cons]
  refine ⟨fun _ => keeps_foldBit,
    keeps_rewriteLast _ _ fun _ _ _ => fit_booleanAssignment?,
    keeps_rewriteLast _ _ fun s e t he h => ?_,
    keeps_rewriteTop _ _ fun _ _ => fit_booleanCall?,
    List.forall_mem_nil _⟩
  split at h
  · exact fit_booleanReturn? he h
  · cases h

end Boolean

namespace CallSite

theorem part_foldl {parts : List Element} {joined : Element} (h : ∀ e ∈ parts, inv.Part e)
    (hj : inv.Part joined) :
    inv.Part (parts.foldl (fun l r => ofShape (.binary l .plus r .string)) joined) := by
  induction parts generalizing joined with
  | nil => exact hj
  | cons part parts ih =>
    obtain ⟨hpart, hparts⟩ := List.forall_mem_cons.1 h
    exact ih hparts (inv.part_plus hj hpart)

theorem fit_concatenation {parts : List Element} (h : ∀ e ∈ parts, inv.Part e) :
    inv.Fit (concatenation parts) := by
  match parts with
  | [] => exact inv.fit_of_part (inv.part_string "")
  | [part] => exact inv.fit_of_part (List.forall_mem_singleton.1 h)
  | first :: second :: rest =>
    obtain ⟨hfirst, hrest⟩ := List.forall_mem_cons.1 h
    refine inv.fit_of_part (part_foldl hrest ?_)
    split
    · exact hfirst
    · exact inv.part_plus (inv.part_string "") hfirst

theorem part_textPart (text : List Char) : ∀ e ∈ textPart text, inv.Part e := by
  unfold textPart
  split
  · exact List.forall_mem_nil _
  · exact List.forall_mem_singleton.2 (inv.part_string _)

-- A recipe puts texts of its own between the arguments.
theorem part_recipeParts {pool : Pool} {recipe : List Char} {text : List Char}
    {args : List Element} {constants : List UInt16} {parts : List Element}
    (hargs : ∀ e ∈ args, inv.Part e)
    (h : recipeParts pool recipe text args constants = .ok parts) :
    ∀ e ∈ parts, inv.Part e := by
  fun_induction recipeParts pool recipe text args constants generalizing parts with
  | case1 text =>
    cases h
    exact part_textPart text
  | case2 | case4 | case5 => cases h
  | case3 rest text constants arg args ih =>
    obtain ⟨harg, hargs⟩ := List.forall_mem_cons.1 hargs
    obtain ⟨others, hr, rfl⟩ := exists_eq_ok_of_bind h
    exact List.forall_mem_append.2 ⟨part_textPart text,
      List.forall_mem_cons.2 ⟨harg, ih hargs hr⟩⟩
  | case6 rest text args index constants value _ _ ih =>
    obtain ⟨others, hr, rfl⟩ := exists_eq_ok_of_bind h
    exact List.forall_mem_append.2 ⟨part_textPart text,
      List.forall_mem_cons.2 ⟨inv.part_string _, ih hargs hr⟩⟩
  | case7 c rest text args constants _ _ ih => exact ih hargs h

theorem keeps_concatenate (signature : MethodDescriptor) (arguments : List UInt16) :
    Keeps inv.Holds (fun _ => True) (concatenate signature arguments) := by
  apply (Keeps.popMany _).bind
  intro args hargs
  have hparts : ∀ e ∈ args, inv.Part e := fun e he => inv.part_of_stacked (hargs e he)
  cases arguments with
  | nil => exact .push (fit_concatenation hparts)
  | cons recipe constants =>
    apply Keeps.inspect
    intro s _
    apply (Keeps.lift _).bind
    intro value _
    split
    · rename_i text
      cases hr : recipeParts s.pool text.toList [] args constants with
      | error fault => exact .throw fault
      | ok parts => exact .push (fit_concatenation (part_recipeParts hparts hr))
    · exact .throw _

theorem keeps_capture (index : UInt16) (site : CallSiteRef) (signature : MethodDescriptor)
    (functional backing : UInt16) :
    Keeps inv.Holds (fun _ => True) (capture index site signature functional backing) := by
  apply Keeps.inspect
  intro s _
  apply (Keeps.lift _).bind
  intro text _
  apply (Keeps.lift _).bind
  intro interfaceSignature _
  apply (Keeps.lift _).bind
  intro handle _
  apply (Keeps.lift _).bind
  intro backingSignature _
  refine .require ((Keeps.popMany _).bind fun values _ => ?_)
  split
  · exact .throw _
  · split
    · exact .push (fit_of_none rfl rfl)
    · exact Keeps.popTarget.bind fun _ htarget => .push (inv.fit_layer rfl htarget)

theorem keeps_invoke (index : UInt16) : Keeps inv.Holds (fun _ => True) (invoke index) := by
  apply Keeps.inspect
  intro s _
  apply (Keeps.lift _).bind
  intro site _
  cases s.method.bootstrapMethod? site.bootstrap with
  | none => exact .throw _
  | some bootstrap =>
    apply (Keeps.lift _).bind
    intro factory _
    apply (Keeps.lift _).bind
    intro signature _
    split
    · exact keeps_concatenate _ _
    · split
      · exact keeps_capture _ _ _ _ _
      · exact .throw _

theorem keeps : ∀ d ∈ rules, d.rule.Keeps inv.Holds := by
  simp only [rules, List.forall_mem_cons]
  exact ⟨fun _ => (Keeps.reading _).bind fun _ _ => (Keeps.reading _).discard.bind fun _ _ =>
      keeps_invoke _,
    fun _ => Keeps.removeLastStatement.discard,
    List.forall_mem_nil _⟩

end CallSite

-- An invariant that is told layer by layer is kept by all rules but those of the jumps.
theorem keeps : ∀ d ∈ rules, d ∈ Jump.rules ∨ d.rule.Keeps inv.Holds := by
  simp only [rules, List.forall_mem_append]
  exact ⟨⟨⟨⟨⟨⟨⟨⟨⟨fun d hd => .inr (Literal.keeps d hd), fun d hd => .inr (Local.keeps d hd)⟩,
    fun d hd => .inr (Array.keeps d hd)⟩, fun d hd => .inr (Object.keeps d hd)⟩,
    fun d hd => .inr (Call.keeps d hd)⟩, fun d hd => .inr (Arithmetic.keeps d hd)⟩,
    fun d hd => .inr (Shuffle.keeps d hd)⟩, fun _ hd => .inl hd⟩,
    fun d hd => .inr (Boolean.keeps d hd)⟩, fun d hd => .inr (CallSite.keeps d hd)⟩

end Instruction

end JvmLift
