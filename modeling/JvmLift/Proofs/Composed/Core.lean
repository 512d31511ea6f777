import JvmLift.Instruction
import JvmLift.Proofs.Composed

namespace JvmLift

open JvmLift.Action (Composed)

-- A rule that is put together from operations and asked without a look at the bytes that are left.
structure Rule.Composed (ahead : Prop) (rule : Rule) : Prop where
  blind : ∀ (s : State) (c : Cursor) (code : Opcode), c.pc = s.cursor.pc →
    rule.applies { s with cursor := c } code = rule.applies s code
  run : ∀ code, Action.Composed ahead (rule.run code)

variable {ahead : Prop}

namespace Declaration

variable (codes : List Opcode)

theorem composed_on {run : Opcode → Action Unit} (h : ∀ code, Composed ahead (run code)) :
    (on codes run).rule.Composed ahead where
  blind _ _ _ _ := rfl
  run := h

theorem composed_after (priority : Priority) {applies : State → Bool} {run : Action Unit}
    (blind : ∀ (s : State) (c : Cursor), applies { s with cursor := c } = applies s)
    (h : Composed ahead run) : (after codes priority applies run).rule.Composed ahead where
  blind s c _ _ := blind s c
  run _ := h

theorem composed_rewriteTop (priority : Priority) (rewrite? : Element → Option Element) :
    (rewriteTop codes priority rewrite?).rule.Composed ahead :=
  composed_after codes priority (fun _ _ => rfl) (Composed.pop.bind fun _ => .push _)

theorem composed_rewriteLast (priority : Priority)
    {rewrite? : State → Element → Option Element}
    (blind : ∀ (s : State) (c : Cursor), rewrite? { s with cursor := c } = rewrite? s) :
    (rewriteLast codes priority rewrite?).rule.Composed ahead := by
  have hb (s : State) (c : Cursor) :
      (({ s with cursor := c } : State).lastStatement? 0).bind (rewrite? { s with cursor := c }) =
        (s.lastStatement? 0).bind (rewrite? s) := by
    rw [blind]
    rfl
  refine composed_after codes priority (fun s c => by rw [hb]) ?_
  refine .inspect (fun s c _ => by simp only [hb]) ?_
  intro s
  cases (s.lastStatement? 0).bind (rewrite? s) with
  | none => exact .pure _
  | some e => exact .replaceStatement _ e

end Declaration

theorem Action.composed_classType (index : UInt16) : Composed ahead (classType index) := by
  refine .inspect (fun _ _ _ => rfl) ?_
  intro s
  refine .bind (.lift _) ?_
  intro name
  cases JvmType.ofClassName? name with
  | none => exact .throw _
  | some ty => exact .pure ty

namespace Instruction

open Declaration

namespace Literal

theorem composed_loadConstant (index : UInt16) (category : Nat) :
    Composed ahead (loadConstant index category) := by
  refine .inspect (fun _ _ _ => rfl) fun s => .bind (.lift _) fun value => .refuse ?_
  cases element value with
  | error fault => exact .throw fault
  | ok e => exact .push e

theorem composed : ∀ d ∈ rules, d.rule.Composed ahead := by
  simp only [rules, List.forall_mem_cons]
  exact ⟨composed_on _ fun _ => .pure _, composed_on _ fun _ => .push _,
    composed_on _ fun _ => .push _, composed_on _ fun _ => .push _,
    composed_on _ fun _ => .push _, composed_on _ fun _ => .push _,
    composed_on _ fun _ => Composed.i8.bind fun _ => .push _,
    composed_on _ fun _ => Composed.i16.bind fun _ => .push _,
    composed_on _ fun _ => Composed.u8.bind fun _ => composed_loadConstant _ _,
    composed_on _ fun _ => Composed.u16.bind fun _ => composed_loadConstant _ _,
    composed_on _ fun _ => Composed.u16.bind fun _ => composed_loadConstant _ _,
    List.forall_mem_nil _⟩

end Literal

namespace Local

theorem composed_load (slot : UInt16) : Composed ahead (load slot) :=
  .inspect (fun _ _ _ => rfl) fun _ => (Composed.local? _ _).bind fun _ => .push _

theorem composed_store (slot : UInt16) : Composed ahead (store slot) := by
  apply Composed.pop.bind
  intro value
  refine .inspect ?_ ?_
  · intro s c hc
    have hl : ({ s with cursor := c } : State).local? slot c.pc = s.local? slot s.cursor.pc := by
      rw [hc]
      rfl
    simp only [State.pc, hl]
  · intro s
    cases s.local? slot s.pc with
    | error e => exact (Composed.local? _ _).bind fun _ => .enlist _
    | ok v => exact (Composed.pure v).bind fun _ => .enlist _

theorem composed_increment (slot : UInt16) (delta : Int32) :
    Composed ahead (increment slot delta) :=
  .inspect (fun _ _ _ => rfl) fun _ => (Composed.local? _ _).bind fun _ => .push _

theorem composed_wide : Composed ahead wide := by
  apply Composed.instruction.bind
  intro code
  apply Composed.u16.bind
  intro slot
  split
  · exact composed_load slot
  · split
    · exact composed_store slot
    · split
      · exact Composed.i16.bind fun _ => composed_increment slot _
      · exact .throw _

theorem composed_foldNarrow (affix : Affix) : Composed ahead (foldNarrow affix) := by
  refine .inspect (fun _ _ _ => rfl) ?_
  intro s
  cases narrowIncrement? s with
  | none => exact .pure _
  | some found =>
    exact Composed.pop.discard.bind fun _ =>
      Composed.removeLastStatement.bind fun _ => .push _

theorem composed : ∀ d ∈ rules, d.rule.Composed ahead := by
  simp only [rules, List.forall_mem_cons]
  exact ⟨composed_on _ fun _ => Composed.u8.bind fun _ => composed_load _,
    composed_on _ fun _ => composed_load _,
    composed_on _ fun _ => Composed.u8.bind fun _ => composed_store _,
    composed_on _ fun _ => composed_store _,
    composed_on _ fun _ => composed_wide,
    composed_on _ fun _ => Composed.u8.bind fun _ => Composed.i8.bind fun _ =>
      composed_increment _ _,
    composed_after _ _ (fun _ _ => rfl) <| Composed.pop.bind fun _ =>
      Composed.pop.discard.bind fun _ => .push _,
    composed_after _ _ (fun _ _ => rfl) <| Composed.pop.discard.bind fun _ =>
      Composed.pop.bind fun _ => .push _,
    composed_after _ _ (fun _ _ => rfl) (composed_foldNarrow _),
    composed_after _ _ (fun _ _ => rfl) (composed_foldNarrow _),
    List.forall_mem_nil _⟩

end Local

namespace Array

theorem composed_allocate (component : JvmType) : Composed ahead (allocate component) :=
  Composed.pop.bind fun _ => .push _

theorem composed_load (code : Opcode) : Composed ahead (load code) := by
  apply Composed.pop.bind
  intro index
  apply Composed.pop.bind
  intro array
  cases loadedType code array.ty with
  | error fault => exact .throw fault
  | ok ty => exact .push _

theorem composed_store : Composed ahead store := by
  apply Composed.pop.bind
  intro value
  apply Composed.pop.bind
  intro index
  apply Composed.pop.bind
  intro array
  split
  · split
    · exact .push _
    · exact .throw _
  · exact .enlist _

theorem composed_copy : copy.rule.Composed True where
  blind _ _ _ _ := rfl
  run _ := by
    refine .bind ((Composed.lookAhead trivial).map _) ?_
    intro follows
    cases follows with
    | false => exact Composed.peek.bind fun _ => .push _
    | true => exact .pure _

-- Only a copy of a new array looks at the instruction that follows.
theorem composed : ∀ d ∈ rules, d.rule.Composed ahead ∨ d = copy := by
  simp only [rules, List.forall_mem_cons]
  refine ⟨.inl ?_, .inl ?_, .inr trivial, .inl ?_, .inl ?_, .inl ?_, List.forall_mem_nil _⟩
  · apply composed_on _
    intro
    apply Composed.u8.bind
    intro code
    cases JvmType.ofArrayCode? code with
    | none => exact .throw _
    | some component => exact composed_allocate component
  · exact composed_on _ fun _ => Composed.u16.bind fun _ =>
      (Action.composed_classType _).bind fun _ => composed_allocate _
  · exact composed_on _ fun _ => Composed.pop.bind fun _ => .push _
  · exact composed_on _ composed_load
  · exact composed_on _ fun _ => composed_store

end Array

namespace Object

theorem composed_field (ofObject : Bool) : Composed ahead (field ofObject) := by
  apply Composed.u16.bind
  intro index
  refine .inspect (fun _ _ _ => rfl) ?_
  intro s
  refine .bind (.lift _) ?_
  intro member
  cases JvmType.ofDescriptor? member.descriptor with
  | none => exact .throw _
  | some ty =>
    cases ofObject with
    | false => exact (Composed.pure none).bind fun _ => .pure _
    | true => exact (Composed.pop.map some).bind fun _ => .pure _

theorem composed_allocate : Composed ahead allocate :=
  Composed.u16.bind fun _ => (Action.composed_classType _).bind fun _ =>
    Composed.instruction.bind fun _ => .refuse (.push _)

theorem composed_discardCast : Composed ahead discardCast := by
  apply Composed.pop.bind
  intro e
  split
  · exact (Composed.push _).bind fun _ => Composed.reduce.discard
  · exact .throw _

theorem composed : ∀ d ∈ rules, d.rule.Composed ahead := by
  simp only [rules, List.forall_mem_cons]
  exact ⟨composed_on _ fun _ => (composed_field _).bind fun _ => .push _,
    composed_on _ fun _ => Composed.pop.bind fun _ => (composed_field _).bind fun _ => .enlist _,
    composed_on _ fun _ => composed_allocate,
    composed_rewriteTop _ _ _,
    composed_on _ fun _ => Composed.u16.bind fun _ => (Action.composed_classType _).bind fun _ =>
      Composed.pop.bind fun _ => .push _,
    composed_on _ fun _ => Composed.u16.bind fun _ => (Action.composed_classType _).bind fun _ =>
      Composed.pop.bind fun _ => .push _,
    ⟨fun _ _ _ _ => rfl, fun _ => composed_discardCast⟩,
    List.forall_mem_nil _⟩

end Object

namespace Call

theorem composed_call (index : UInt16) (isStatic : Bool) :
    Composed ahead (call index isStatic) := by
  refine .inspect (fun _ _ _ => rfl) ?_
  intro s
  refine .bind (.lift _) ?_
  intro member
  refine .bind (.lift _) ?_
  intro signature
  apply (Composed.popMany _).bind
  intro args
  cases isStatic with
  | false => exact (Composed.pop.map some).bind fun _ => .push _
  | true => exact (Composed.pure none).bind fun _ => .push _

theorem composed : ∀ d ∈ rules, d.rule.Composed ahead := by
  simp only [rules, List.forall_mem_cons]
  exact ⟨composed_on _ fun _ => Composed.u16.bind fun _ => composed_call _ _,
    composed_on _ fun _ => Composed.u16.bind fun index => Composed.u8.bind fun count =>
      .refuse (Composed.u8.discard.bind fun _ => composed_call _ _),
    List.forall_mem_nil _⟩

end Call

namespace Arithmetic

theorem composed : ∀ d ∈ rules, d.rule.Composed ahead := by
  simp only [rules, List.forall_mem_append, List.forall_mem_cons, List.forall_mem_map]
  exact ⟨⟨fun _ _ => composed_on _ fun _ => Composed.pop.bind fun _ => Composed.pop.bind fun _ =>
      .push _,
    fun _ _ => composed_on _ fun _ => Composed.pop.bind fun _ => .push _⟩,
    composed_on _ fun _ => Composed.pop.bind fun _ => .push _,
    composed_on _ fun _ => Composed.pop.bind fun _ => Composed.pop.bind fun _ => .push _,
    List.forall_mem_nil _⟩

end Arithmetic

namespace Shuffle

theorem composed_require (categories : List Nat) (code : Opcode) :
    Composed ahead (require categories code) := by
  refine .inspect (fun _ _ _ => rfl) ?_
  intro s
  split
  · exact .pure _
  · exact .throw _

theorem composed_rearrange (forms : List Form) (code : Opcode) :
    Composed ahead (rearrange forms code) := by
  refine .inspect (fun _ _ _ => rfl) ?_
  intro s
  cases forms.find? fun form => s.hasCategories form.categories with
  | none => exact .throw _
  | some form => exact (Composed.popMany _).bind fun _ => .forM _ .push

theorem composed_discardTwo (code : Opcode) : Composed ahead (discardTwo code) := by
  refine .inspect (fun _ _ _ => rfl) ?_
  intro s
  split
  · exact Composed.reduce.discard.bind fun _ => Composed.reduce.discard
  · exact (composed_require _ _).bind fun _ => Composed.reduce.discard

theorem composed : ∀ d ∈ rules, d.rule.Composed ahead := by
  simp only [rules, List.forall_mem_append, List.forall_mem_cons, List.forall_mem_map]
  exact ⟨⟨composed_on _ fun _ => (composed_require _ _).bind fun _ => Composed.reduce.discard,
      composed_on _ composed_discardTwo, List.forall_mem_nil _⟩,
    fun _ _ => composed_on _ (composed_rearrange _)⟩

end Shuffle

namespace Jump

theorem composed_requireTarget (offset : Int) : Composed ahead (requireTarget offset) := by
  refine .inspect (fun _ _ _ => rfl) ?_
  intro s
  cases target s offset with
  | error fault => exact .throw fault
  | ok pc => exact .pure pc

theorem composed_jump (offset : Int) : Composed ahead (jump offset) := by
  apply (composed_requireTarget offset).bind
  intro pc
  refine .inspect (fun _ _ _ => rfl) ?_
  intro s
  split
  · exact .abort
  · exact .enlist _

theorem composed_branch (left : Element) (op : BinaryOp) (right : Element) :
    Composed ahead (branch left op right) :=
  Composed.i16.bind fun _ => (composed_requireTarget _).bind fun _ => .enlist _

theorem composed_returnValue (code : Opcode) : Composed ahead (returnValue code) :=
  Composed.pop.bind fun _ => .require (.enlist _)

theorem composed : ∀ d ∈ rules, d.rule.Composed ahead := by
  simp only [rules, List.forall_mem_cons]
  exact ⟨composed_on _ fun _ => Composed.reduceAll.discard.bind fun _ => .enlist _,
    composed_on _ composed_returnValue,
    composed_on _ fun _ => Composed.i16.bind fun _ => composed_jump _,
    composed_on _ fun _ => Composed.i32.bind fun _ => composed_jump _,
    composed_after _ _ (fun _ _ => rfl) <| Composed.removeLastStatement.discard.bind fun _ =>
      .abort,
    composed_on _ fun _ => Composed.pop.bind fun _ => composed_branch _ _ _,
    composed_on _ fun _ => Composed.pop.bind fun _ => Composed.pop.bind fun _ =>
      composed_branch _ _ _,
    composed_on _ fun _ => Composed.pop.bind fun _ => composed_branch _ _ _,
    composed_on _ fun _ => Composed.pop.bind fun _ => .enlist _,
    List.forall_mem_nil _⟩

end Jump

namespace Boolean

theorem composed_foldBit : Composed ahead foldBit := by
  apply Composed.pop.discard.bind
  intro
  apply Composed.pop.discard.bind
  intro
  apply Composed.removeLastStatement.discard.bind
  intro
  apply Composed.removeLastStatement.bind
  intro branch
  cases branch.untaken with
  | error fault => exact .throw fault
  | ok condition => exact .push condition

theorem composed : ∀ d ∈ rules, d.rule.Composed ahead := by
  simp only [rules, List.forall_mem_cons]
  exact ⟨composed_after _ _ (fun _ _ => rfl) composed_foldBit,
    composed_rewriteLast _ _ fun _ _ => rfl,
    composed_rewriteLast _ _ fun _ _ => rfl,
    composed_rewriteTop _ _ _,
    List.forall_mem_nil _⟩

end Boolean

namespace CallSite

theorem composed_concatenate (signature : MethodDescriptor) (arguments : List UInt16) :
    Composed ahead (concatenate signature arguments) := by
  apply (Composed.popMany _).bind
  intro args
  cases arguments with
  | nil => exact .push _
  | cons recipe constants =>
    refine .inspect (fun _ _ _ => rfl) ?_
    intro s
    refine .bind (.lift _) ?_
    intro value
    split
    · split
      · exact .push _
      · exact .throw _
    · exact .throw _

theorem composed_capture (index : UInt16) (site : CallSiteRef) (signature : MethodDescriptor)
    (functional backing : UInt16) :
    Composed ahead (capture index site signature functional backing) := by
  refine .inspect (fun _ _ _ => rfl) ?_
  intro s
  refine .bind (.lift _) ?_
  intro text
  refine .bind (.lift _) ?_
  intro
  refine .bind (.lift _) ?_
  intro handle
  refine .bind (.lift _) ?_
  intro
  refine .require ((Composed.popMany _).bind fun values => ?_)
  split
  · exact .throw _
  · split
    · exact (Composed.pure none).bind fun _ => .push _
    · exact (Composed.pop.map some).bind fun _ => .push _

theorem composed_invoke (index : UInt16) : Composed ahead (invoke index) := by
  refine .inspect (fun _ _ _ => rfl) ?_
  intro s
  refine .bind (.lift _) ?_
  intro site
  cases s.method.bootstrapMethod? site.bootstrap with
  | none => exact .throw _
  | some bootstrap =>
    refine .bind (.lift _) ?_
    intro factory
    refine .bind (.lift _) ?_
    intro signature
    split
    · exact composed_concatenate _ _
    · split
      · exact composed_capture _ _ _ _ _
      · exact .throw _

theorem composed : ∀ d ∈ rules, d.rule.Composed ahead := by
  simp only [rules, List.forall_mem_cons]
  exact ⟨composed_on _ fun _ => Composed.u16.bind fun _ => Composed.u16.discard.bind fun _ =>
      composed_invoke _,
    composed_after _ _ (fun _ _ => rfl) Composed.removeLastStatement.discard,
    List.forall_mem_nil _⟩

end CallSite

-- Every rule is put together from operations, and all but one do not look at what follows.
theorem composed : ∀ d ∈ rules, d.rule.Composed False ∨ d = Array.copy := by
  simp only [rules, List.forall_mem_append]
  exact ⟨⟨⟨⟨⟨⟨⟨⟨⟨fun d h => .inl (Literal.composed d h), fun d h => .inl (Local.composed d h)⟩,
    Array.composed⟩, fun d h => .inl (Object.composed d h)⟩,
    fun d h => .inl (Call.composed d h)⟩, fun d h => .inl (Arithmetic.composed d h)⟩,
    fun d h => .inl (Shuffle.composed d h)⟩, fun d h => .inl (Jump.composed d h)⟩,
    fun d h => .inl (Boolean.composed d h)⟩, fun d h => .inl (CallSite.composed d h)⟩

end Instruction

namespace Registry

theorem composed_runAll (code : Opcode) {rules : List Rule}
    (h : ∀ rule ∈ rules, rule.Composed ahead) : Composed ahead (runAll code rules) := by
  induction rules with
  | nil => exact .pure _
  | cons rule rest ih =>
    obtain ⟨hrule, hrest⟩ := List.forall_mem_cons.1 h
    refine .inspect (fun s c hc => by simp only [hrule.blind s c code hc]) ?_
    intro s
    split
    · exact (hrule.run code).bind fun _ => ih hrest
    · exact ih hrest

theorem primary?_blind {r : Registry} {code : Opcode}
    (h : ∀ rule ∈ r.rules .primary code, rule.Composed ahead) {s : State} {c : Cursor}
    (hc : c.pc = s.cursor.pc) : r.primary? { s with cursor := c } code = r.primary? s code := by
  rw [primary?, primary?, ← List.head?_filter, ← List.head?_filter,
    List.filter_congr fun rule hm => (h rule hm).blind s c code hc]

-- An instruction is put together from operations if its rules are.
theorem composed_step (r : Registry) (code : Opcode)
    (h : ∀ stage, ∀ rule ∈ r.rules stage code, rule.Composed ahead) :
    Composed ahead (r.step code) := by
  apply (composed_runAll code (h .advisory)).bind
  intro
  refine .inspect ?_ ?_
  · intro s c hc
    simp only [primary?_blind (h .primary) hc]
  · intro s
    have hlast := composed_runAll code (h .corrective)
    cases hp : r.primary? s code with
    | none => exact (Composed.throw _).bind fun _ => hlast
    | some rule =>
      exact ((h .primary rule (List.mem_of_find?_eq_some hp)).run code).bind fun _ => hlast

-- The rules of an instruction are those that are declared for it.
theorem mem_core {stage : Stage} {code : Opcode} {rule : Rule}
    (h : rule ∈ core.rules stage code) :
    ∃ d ∈ Instruction.rules, d.rule = rule ∧ d.stage = stage ∧ code ∈ d.codes := by
  have hd : rule ∈ declared Instruction.rules stage code := by
    obtain ⟨p, -, hm⟩ := List.mem_flatMap.1 h
    exact List.mem_of_mem_filter hm
  obtain ⟨d, hm, hr⟩ := List.mem_flatMap.1 hd
  split at hr
  · obtain ⟨other, ho, rfl⟩ := List.mem_map.1 hr
    obtain ⟨hc, he⟩ := List.mem_filter.1 ho
    exact ⟨d, hm, rfl, ‹_›, by simpa using (of_decide_eq_true he) ▸ hc⟩
  · simp at hr

theorem rules_advisory_core (code : Opcode) : core.rules .advisory code = [] := by
  have hnone : ∀ d ∈ Instruction.rules, d.stage ≠ .advisory := by decide +kernel
  rw [List.eq_nil_iff_forall_not_mem]
  intro rule hr
  obtain ⟨d, hd, -, hs, -⟩ := mem_core hr
  exact hnone d hd hs

-- An instruction is its primary rule followed by the corrections of what it left behind.
theorem exec_step_core {s : State} {code : Opcode} {rule : Rule}
    (hp : core.primary? s code = some rule) :
    exec (core.step code) s =
      exec (rule.run code >>= fun _ => runAll code (core.rules .corrective code)) s := by
  rw [step, rules_advisory_core, exec_bind]
  simp only [runAll, exec_pure, exec_bind, exec_get, hp]

theorem composed_core (stage : Stage) (code : Opcode) :
    ∀ rule ∈ core.rules stage code, rule.Composed True := by
  intro rule hr
  obtain ⟨d, hd, rfl, -, -⟩ := mem_core hr
  rcases Instruction.composed d hd with h | rfl
  · exact ⟨h.blind, fun code => (h.run code).mono False.elim⟩
  · exact Instruction.Array.composed_copy

-- Only `dup` may look at the instruction that follows.
theorem composed_core_of_ne {code : Opcode} (hne : code ≠ Opcode.dup) (stage : Stage) :
    ∀ rule ∈ core.rules stage code, rule.Composed False := by
  intro rule hr
  obtain ⟨d, hd, rfl, -, hc⟩ := mem_core hr
  rcases Instruction.composed d hd with h | rfl
  · exact h
  · exact absurd (List.mem_singleton.1 hc) hne

end Registry

end JvmLift
