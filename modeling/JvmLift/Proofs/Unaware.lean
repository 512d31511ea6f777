import JvmLift.Proofs.Composed.Core

namespace JvmLift

-- The same method with another exception table.
def Method.retable (m : Method) (table : List ExceptionEntry) : Method :=
  { m with exceptions := table }

namespace State

-- The state of the same run with another exception table.
def retable (s : State) (table : List ExceptionEntry) : State :=
  { s with method := s.method.retable table }

-- Two states of one run during the same instruction.
structure Beside (s t : State) : Prop where
  method : t.method = s.method
  startPc : t.startPc = s.startPc
  instructionPc : t.instructionPc = s.instructionPc

theorem Beside.refl (s : State) : s.Beside s :=
  ⟨rfl, rfl, rfl⟩

theorem Beside.trans {s t u : State} (h : s.Beside t) (h' : t.Beside u) : s.Beside u where
  method := h'.method.trans h.method
  startPc := h'.startPc.trans h.startPc
  instructionPc := h'.instructionPc.trans h.instructionPc

end State

namespace Action

variable {α β : Type}

-- An action that does not look at the exception table and belongs to a single instruction.
structure Unaware (a : Action α) : Prop where
  exec_retable : ∀ (s : State) (table : List ExceptionEntry),
    exec a (s.retable table) = ((exec a s).1, (exec a s).2.retable table)
  beside : ∀ s : State, s.Beside (exec a s).2

namespace Unaware

protected theorem pure (v : α) : Unaware (pure v) where
  exec_retable _ _ := rfl
  beside s := .refl s

protected theorem throw (f : Fault) : Unaware (throw f : Action α) where
  exec_retable _ _ := rfl
  beside s := .refl s

protected theorem bind {a : Action α} {f : α → Action β} (ha : Unaware a)
    (hf : ∀ v, Unaware (f v)) : Unaware (a >>= f) where
  exec_retable s table := by
    rw [exec_bind, exec_bind, ha.exec_retable]
    rcases exec a s with ⟨e | v, t⟩
    · rfl
    · exact (hf v).exec_retable t table
  beside s := by
    have hs := ha.beside s
    rw [exec_bind]
    rcases he : exec a s with ⟨e | v, t⟩
    all_goals rw [he] at hs
    · exact hs
    · exact hs.trans ((hf v).beside t)

theorem inspect {f : State → Action α} (blind : ∀ s table, f (s.retable table) = f s)
    (hf : ∀ s, Unaware (f s)) : Unaware (get >>= f) where
  exec_retable s table := by
    show exec (f (s.retable table)) (s.retable table) = _
    rw [blind]
    exact (hf s).exec_retable s table
  beside s := (hf s).beside s

theorem map {a : Action α} (g : α → β) (ha : Unaware a) : Unaware (g <$> a) where
  exec_retable s table := by
    rw [exec_map, exec_map, ha.exec_retable]
  beside s := by
    rw [exec_map]
    exact ha.beside s

protected theorem discard {a : Action α} (ha : Unaware a) : Unaware (discard a) :=
  ha.map _

theorem lift (e : Except ClassFileError α) : Unaware (liftM e : Action α) := by
  cases e with
  | error e => exact .throw _
  | ok v => exact .pure v

-- A check in front of an action, where it is passed by what holds and where by what does not.
theorem require {p : Prop} [Decidable p] {f : Fault} {a : Action α} (h : Unaware a) :
    Unaware (if p then a else (MonadExcept.throw f : Action PUnit) >>= fun _ => a) := by
  split
  · exact h
  · exact (Unaware.throw f).bind fun _ => h

theorem refuse {p : Prop} [Decidable p] {f : Fault} {a : Action α} (h : Unaware a) :
    Unaware (if p then (MonadExcept.throw f : Action PUnit) >>= fun _ => a else a) := by
  split
  · exact (Unaware.throw f).bind fun _ => h
  · exact h

theorem forM (xs : List β) {f : β → Action PUnit} (hf : ∀ x, Unaware (f x)) :
    Unaware (xs.forM f) := by
  induction xs with
  | nil => exact .pure PUnit.unit
  | cons x xs ih => exact (hf x).bind fun _ => ih

theorem read (r : Reading α) : Unaware (Action.read r) where
  exec_retable s table := by
    rw [exec_read, exec_read]
    rfl
  beside s := by
    rw [exec_read]
    exact ⟨rfl, rfl, rfl⟩

theorem followingCode? : Unaware Action.followingCode? where
  exec_retable s table := by
    rw [Composed.exec_followingCode?, Composed.exec_followingCode?]
    rfl
  beside s := by
    rw [Composed.exec_followingCode?]
    exact ⟨rfl, rfl, rfl⟩

theorem push (e : Element) : Unaware (Action.push e) where
  exec_retable _ _ := rfl
  beside _ := ⟨rfl, rfl, rfl⟩

theorem enlist (e : Element) : Unaware (Action.enlist e) where
  exec_retable _ _ := rfl
  beside _ := ⟨rfl, rfl, rfl⟩

theorem abort : Unaware Action.abort where
  exec_retable _ _ := rfl
  beside _ := ⟨rfl, rfl, rfl⟩

-- To change the stack or the statements by what is on them is not to look at the table.
theorem pop : Unaware Action.pop where
  exec_retable s table := by
    rw [exec_pop, exec_pop]
    have hstack : (s.retable table).stack = s.stack := rfl
    rw [hstack]
    cases s.stack <;> rfl
  beside s := by
    rw [exec_pop]
    cases s.stack <;> exact ⟨rfl, rfl, rfl⟩

theorem popMany (count : Nat) : Unaware (Action.popMany count) where
  exec_retable s table := by
    rw [exec_popMany, exec_popMany]
    show (if s.stack.length < count then _ else _) = _
    split <;> rfl
  beside s := by
    rw [exec_popMany]
    split <;> exact ⟨rfl, rfl, rfl⟩

theorem reduce : Unaware Action.reduce where
  exec_retable s table := by
    rw [exec_reduce, exec_reduce]
    have hstack : (s.retable table).stack = s.stack := rfl
    rw [hstack]
    cases s.stack with
    | nil => rfl
    | cons top rest =>
      dsimp only
      split <;> rfl
  beside s := by
    rw [exec_reduce]
    cases s.stack with
    | nil => exact ⟨rfl, rfl, rfl⟩
    | cons top rest =>
      dsimp only
      split <;> exact ⟨rfl, rfl, rfl⟩

theorem reduceMany (n : Nat) : Unaware (Action.reduceMany n) := by
  induction n with
  | zero => exact .pure false
  | succ n ih =>
    refine reduce.bind fun more => ?_
    cases more with
    | false => exact .pure false
    | true => exact ih.discard.bind fun _ => .pure true

theorem reduceAll : Unaware Action.reduceAll :=
  .inspect (fun _ _ => rfl) fun _ => .reduceMany _

theorem removeLastStatement : Unaware Action.removeLastStatement where
  exec_retable s table := by
    rw [exec_removeLastStatement, exec_removeLastStatement]
    have hstatements : (s.retable table).statements = s.statements := rfl
    rw [hstatements]
    cases s.statements <;> rfl
  beside s := by
    rw [exec_removeLastStatement]
    cases s.statements <;> exact ⟨rfl, rfl, rfl⟩

theorem replaceStatement (index : Nat) (e : Element) :
    Unaware (Action.replaceStatement index e) where
  exec_retable s table := by
    rw [exec_replaceStatement, exec_replaceStatement]
    show (if index < s.statements.length then _ else _) = _
    split <;> rfl
  beside s := by
    rw [exec_replaceStatement]
    split <;> exact ⟨rfl, rfl, rfl⟩

theorem peek : Unaware Action.peek := by
  refine .inspect (fun _ _ => rfl) fun s => ?_
  cases s.peekAt? 0 with
  | none => exact .throw _
  | some e => exact .pure e

theorem local? (slot : UInt16) (pc : Nat) : Unaware (Action.local? slot pc) := by
  refine .inspect (fun _ _ => rfl) fun s => ?_
  cases s.local? slot pc with
  | error e => exact .throw e
  | ok v => exact .pure v

end Unaware

end Action

open JvmLift.Action (Unaware)

-- A declaration whose rule does not look at the exception table, unless it asks after a jump
-- whether that one leaves protected code.
structure Declaration.Unaware (d : Declaration) : Prop where
  blind : ∀ (s : State) (table : List ExceptionEntry), ∀ code ∈ d.codes,
    (code = Opcode.goto ∨ code = Opcode.gotoW →
      Instruction.Jump.leavesTry (s.retable table) = Instruction.Jump.leavesTry s) →
    d.rule.applies (s.retable table) code = d.rule.applies s code
  run : ∀ code, Action.Unaware (d.rule.run code)

namespace Declaration

variable (codes : List Opcode)

theorem unaware_on {run : Opcode → Action Unit} (h : ∀ code, Action.Unaware (run code)) :
    (on codes run).Unaware where
  blind _ _ _ _ _ := rfl
  run := h

theorem unaware_after (priority : Priority) {applies : State → Bool} {run : Action Unit}
    (blind : ∀ (s : State) (table : List ExceptionEntry), applies (s.retable table) = applies s)
    (h : Action.Unaware run) : (after codes priority applies run).Unaware where
  blind s table _ _ _ := blind s table
  run _ := h

theorem unaware_rewriteTop (priority : Priority) (rewrite? : Element → Option Element) :
    (rewriteTop codes priority rewrite?).Unaware :=
  unaware_after codes priority (fun _ _ => rfl) (Unaware.pop.bind fun _ => .push _)

theorem unaware_rewriteLast (priority : Priority)
    {rewrite? : State → Element → Option Element}
    (blind : ∀ (s : State) (table : List ExceptionEntry), rewrite? (s.retable table) = rewrite? s) :
    (rewriteLast codes priority rewrite?).Unaware := by
  have hb (s : State) (table : List ExceptionEntry) :
      ((s.retable table).lastStatement? 0).bind (rewrite? (s.retable table)) =
        (s.lastStatement? 0).bind (rewrite? s) := by
    rw [blind]
    rfl
  refine unaware_after codes priority (fun s table => by rw [hb]) ?_
  refine .inspect (fun s table => ?_) fun s => ?_
  · simp only [hb]
    rfl
  · cases (s.lastStatement? 0).bind (rewrite? s) with
    | none => exact .pure _
    | some e => exact .replaceStatement _ e

end Declaration

theorem Action.unaware_classType (index : UInt16) : Unaware (classType index) := by
  refine .inspect (fun _ _ => rfl) fun s => ?_
  refine (Unaware.lift _).bind fun name => ?_
  cases JvmType.ofClassName? name with
  | none => exact .throw _
  | some ty => exact .pure ty

-- The object that a field is read from or a method is called on.
theorem Action.unaware_popTarget : Unaware (some <$> Action.pop) :=
  Unaware.pop.map some

namespace Instruction

open Declaration

namespace Literal

theorem unaware_loadConstant (index : UInt16) (category : Nat) :
    Unaware (loadConstant index category) := by
  refine .inspect (fun _ _ => rfl) fun s => (Unaware.lift _).bind fun value => .refuse ?_
  cases element value with
  | error fault => exact .throw fault
  | ok e => exact .push e

theorem unaware : ∀ d ∈ rules, d.Unaware := by
  simp only [rules, List.forall_mem_cons]
  exact ⟨unaware_on _ fun _ => .pure _, unaware_on _ fun _ => .push _,
    unaware_on _ fun _ => .push _, unaware_on _ fun _ => .push _,
    unaware_on _ fun _ => .push _, unaware_on _ fun _ => .push _,
    unaware_on _ fun _ => (Unaware.read _).bind fun _ => .push _,
    unaware_on _ fun _ => (Unaware.read _).bind fun _ => .push _,
    unaware_on _ fun _ => (Unaware.read _).bind fun _ => unaware_loadConstant _ _,
    unaware_on _ fun _ => (Unaware.read _).bind fun _ => unaware_loadConstant _ _,
    unaware_on _ fun _ => (Unaware.read _).bind fun _ => unaware_loadConstant _ _,
    List.forall_mem_nil _⟩

end Literal

namespace Local

theorem unaware_load (slot : UInt16) : Unaware (load slot) :=
  .inspect (fun _ _ => rfl) fun _ => (Unaware.local? _ _).bind fun _ => .push _

theorem unaware_store (slot : UInt16) : Unaware (store slot) := by
  refine Unaware.pop.bind fun value => .inspect (fun s table => ?_) fun s => ?_
  · rfl
  · cases s.local? slot s.pc with
    | error e => exact (Unaware.local? _ _).bind fun _ => .enlist _
    | ok v => exact (Unaware.pure v).bind fun _ => .enlist _

theorem unaware_increment (slot : UInt16) (delta : Int32) : Unaware (increment slot delta) :=
  .inspect (fun _ _ => rfl) fun _ => (Unaware.local? _ _).bind fun _ => .push _

theorem unaware_wide : Unaware wide := by
  refine (Unaware.read _).bind fun code => (Unaware.read _).bind fun slot => ?_
  split
  · exact unaware_load slot
  · split
    · exact unaware_store slot
    · split
      · exact (Unaware.read _).bind fun _ => unaware_increment slot _
      · exact .throw _

theorem unaware_foldNarrow (affix : Affix) : Unaware (foldNarrow affix) := by
  refine .inspect (fun _ _ => rfl) fun s => ?_
  cases narrowIncrement? s with
  | none => exact .pure _
  | some found =>
    exact Unaware.pop.discard.bind fun _ => Unaware.removeLastStatement.bind fun _ => .push _

theorem unaware : ∀ d ∈ rules, d.Unaware := by
  simp only [rules, List.forall_mem_cons]
  exact ⟨unaware_on _ fun _ => (Unaware.read _).bind fun _ => unaware_load _,
    unaware_on _ fun _ => unaware_load _,
    unaware_on _ fun _ => (Unaware.read _).bind fun _ => unaware_store _,
    unaware_on _ fun _ => unaware_store _,
    unaware_on _ fun _ => unaware_wide,
    unaware_on _ fun _ => (Unaware.read _).bind fun _ => (Unaware.read _).bind fun _ =>
      unaware_increment _ _,
    unaware_after _ _ (fun _ _ => rfl) <| Unaware.pop.bind fun _ =>
      Unaware.pop.discard.bind fun _ => .push _,
    unaware_after _ _ (fun _ _ => rfl) <| Unaware.pop.discard.bind fun _ =>
      Unaware.pop.bind fun _ => .push _,
    unaware_after _ _ (fun _ _ => rfl) (unaware_foldNarrow _),
    unaware_after _ _ (fun _ _ => rfl) (unaware_foldNarrow _),
    List.forall_mem_nil _⟩

end Local

namespace Array

theorem unaware_allocate (component : JvmType) : Unaware (allocate component) :=
  Unaware.pop.bind fun _ => .push _

theorem unaware_load (code : Opcode) : Unaware (load code) := by
  refine Unaware.pop.bind fun index => Unaware.pop.bind fun array => ?_
  cases loadedType code array.ty with
  | error fault => exact .throw fault
  | ok ty => exact .push _

theorem unaware_store : Unaware store := by
  refine Unaware.pop.bind fun value => Unaware.pop.bind fun index =>
    Unaware.pop.bind fun array => ?_
  split
  · split
    · exact .push _
    · exact .throw _
  · exact .enlist _

theorem unaware_copy : copy.Unaware where
  blind _ _ _ _ _ := rfl
  run _ := by
    refine .bind (Unaware.followingCode?.map _) fun follows => ?_
    cases follows with
    | false => exact Unaware.peek.bind fun _ => .push _
    | true => exact .pure _

theorem unaware : ∀ d ∈ rules, d.Unaware := by
  simp only [rules, List.forall_mem_cons]
  refine ⟨unaware_on _ fun _ => (Unaware.read _).bind fun code => ?primitive,
    unaware_on _ fun _ => (Unaware.read _).bind fun _ =>
      (Action.unaware_classType _).bind fun _ => unaware_allocate _,
    unaware_copy,
    unaware_on _ fun _ => Unaware.pop.bind fun _ => .push _,
    unaware_on _ unaware_load,
    unaware_on _ fun _ => unaware_store, List.forall_mem_nil _⟩
  cases JvmType.ofArrayCode? code with
  | none => exact .throw _
  | some component => exact unaware_allocate component

end Array

namespace Object

theorem unaware_field (ofObject : Bool) : Unaware (field ofObject) := by
  refine (Unaware.read _).bind fun index => .inspect (fun _ _ => rfl) fun s => ?_
  refine (Unaware.lift _).bind fun member => ?_
  cases JvmType.ofDescriptor? member.descriptor with
  | none => exact .throw _
  | some ty =>
    cases ofObject with
    | false => exact (Unaware.pure none).bind fun _ => .pure _
    | true => exact Action.unaware_popTarget.bind fun _ => .pure _

theorem unaware_allocate : Unaware allocate :=
  (Unaware.read _).bind fun _ => (Action.unaware_classType _).bind fun _ =>
    (Unaware.read _).bind fun _ => .refuse (.push _)

theorem unaware_discardCast : Unaware discardCast := by
  refine Unaware.pop.bind fun e => ?_
  split
  · exact (Unaware.push _).bind fun _ => Unaware.reduce.discard
  · exact .throw _

theorem unaware : ∀ d ∈ rules, d.Unaware := by
  simp only [rules, List.forall_mem_cons]
  exact ⟨unaware_on _ fun _ => (unaware_field _).bind fun _ => .push _,
    unaware_on _ fun _ => Unaware.pop.bind fun _ => (unaware_field _).bind fun _ => .enlist _,
    unaware_on _ fun _ => unaware_allocate,
    unaware_rewriteTop _ _ _,
    unaware_on _ fun _ => (Unaware.read _).bind fun _ => (Action.unaware_classType _).bind fun _ =>
      Unaware.pop.bind fun _ => .push _,
    unaware_on _ fun _ => (Unaware.read _).bind fun _ => (Action.unaware_classType _).bind fun _ =>
      Unaware.pop.bind fun _ => .push _,
    ⟨fun _ _ _ _ _ => rfl, fun _ => unaware_discardCast⟩,
    List.forall_mem_nil _⟩

end Object

namespace Call

theorem unaware_call (index : UInt16) (isStatic : Bool) : Unaware (call index isStatic) := by
  refine .inspect (fun _ _ => rfl) fun s => ?_
  refine (Unaware.lift _).bind fun member => (Unaware.lift _).bind fun signature => ?_
  refine (Unaware.popMany _).bind fun args => ?_
  cases isStatic with
  | false => exact Action.unaware_popTarget.bind fun _ => .push _
  | true => exact (Unaware.pure none).bind fun _ => .push _

theorem unaware : ∀ d ∈ rules, d.Unaware := by
  simp only [rules, List.forall_mem_cons]
  exact ⟨unaware_on _ fun _ => (Unaware.read _).bind fun _ => unaware_call _ _,
    unaware_on _ fun _ => (Unaware.read _).bind fun index => (Unaware.read _).bind fun count =>
      .refuse ((Unaware.read _).discard.bind fun _ => unaware_call _ _),
    List.forall_mem_nil _⟩

end Call

namespace Arithmetic

theorem unaware : ∀ d ∈ rules, d.Unaware := by
  simp only [rules, List.forall_mem_append, List.forall_mem_cons, List.forall_mem_map]
  exact ⟨⟨fun _ _ => unaware_on _ fun _ => Unaware.pop.bind fun _ => Unaware.pop.bind fun _ =>
      .push _,
    fun _ _ => unaware_on _ fun _ => Unaware.pop.bind fun _ => .push _⟩,
    unaware_on _ fun _ => Unaware.pop.bind fun _ => .push _,
    unaware_on _ fun _ => Unaware.pop.bind fun _ => Unaware.pop.bind fun _ => .push _,
    List.forall_mem_nil _⟩

end Arithmetic

namespace Shuffle

theorem unaware_require (categories : List Nat) (code : Opcode) :
    Unaware (require categories code) := by
  refine .inspect (fun _ _ => rfl) fun s => ?_
  split
  · exact .pure _
  · exact .throw _

theorem unaware_rearrange (forms : List Form) (code : Opcode) :
    Unaware (rearrange forms code) := by
  refine .inspect (fun _ _ => rfl) fun s => ?_
  cases forms.find? fun form => s.hasCategories form.categories with
  | none => exact .throw _
  | some form => exact (Unaware.popMany _).bind fun _ => .forM _ .push

theorem unaware_discardTwo (code : Opcode) : Unaware (discardTwo code) := by
  refine .inspect (fun _ _ => rfl) fun s => ?_
  split
  · exact Unaware.reduce.discard.bind fun _ => Unaware.reduce.discard
  · exact (unaware_require _ _).bind fun _ => Unaware.reduce.discard

theorem unaware : ∀ d ∈ rules, d.Unaware := by
  simp only [rules, List.forall_mem_append, List.forall_mem_cons, List.forall_mem_map]
  exact ⟨⟨unaware_on _ fun _ => (unaware_require _ _).bind fun _ => Unaware.reduce.discard,
      unaware_on _ unaware_discardTwo, List.forall_mem_nil _⟩,
    fun _ _ => unaware_on _ (unaware_rearrange _)⟩

end Shuffle

namespace Jump

theorem unaware_requireTarget (offset : Int) : Unaware (requireTarget offset) := by
  refine .inspect (fun _ _ => rfl) fun s => ?_
  cases target s offset with
  | error fault => exact .throw fault
  | ok pc => exact .pure pc

theorem unaware_jump (offset : Int) : Unaware (jump offset) := by
  refine (unaware_requireTarget offset).bind fun pc => .inspect (fun _ _ => rfl) fun s => ?_
  split
  · exact .abort
  · exact .enlist _

theorem unaware_branch (left : Element) (op : BinaryOp) (right : Element) :
    Unaware (branch left op right) :=
  (Unaware.read _).bind fun _ => (unaware_requireTarget _).bind fun _ => .enlist _

theorem unaware_returnValue (code : Opcode) : Unaware (returnValue code) :=
  Unaware.pop.bind fun _ => .require (.enlist _)

-- The question whether a jump leaves protected code is the one that the table answers.
theorem unaware : ∀ d ∈ rules, d.Unaware := by
  simp only [rules, List.forall_mem_cons]
  refine ⟨unaware_on _ fun _ => Unaware.reduceAll.discard.bind fun _ => .enlist _,
    unaware_on _ unaware_returnValue,
    unaware_on _ fun _ => (Unaware.read _).bind fun _ => unaware_jump _,
    unaware_on _ fun _ => (Unaware.read _).bind fun _ => unaware_jump _,
    ⟨fun s table code hcode hleaves => hleaves ?_,
      fun _ => Unaware.removeLastStatement.discard.bind fun _ => .abort⟩,
    unaware_on _ fun _ => Unaware.pop.bind fun _ => unaware_branch _ _ _,
    unaware_on _ fun _ => Unaware.pop.bind fun _ => Unaware.pop.bind fun _ =>
      unaware_branch _ _ _,
    unaware_on _ fun _ => Unaware.pop.bind fun _ => unaware_branch _ _ _,
    unaware_on _ fun _ => Unaware.pop.bind fun _ => .enlist _,
    List.forall_mem_nil _⟩
  simpa [after] using hcode

end Jump

namespace Boolean

theorem unaware_foldBit : Unaware foldBit := by
  refine Unaware.pop.discard.bind fun _ => Unaware.pop.discard.bind fun _ =>
    Unaware.removeLastStatement.discard.bind fun _ =>
      Unaware.removeLastStatement.bind fun branch => ?_
  cases branch.untaken with
  | error fault => exact .throw fault
  | ok condition => exact .push condition

theorem unaware : ∀ d ∈ rules, d.Unaware := by
  simp only [rules, List.forall_mem_cons]
  exact ⟨unaware_after _ _ (fun _ _ => rfl) unaware_foldBit,
    unaware_rewriteLast _ _ fun _ _ => rfl,
    unaware_rewriteLast _ _ fun _ _ => rfl,
    unaware_rewriteTop _ _ _,
    List.forall_mem_nil _⟩

end Boolean

namespace CallSite

theorem unaware_concatenate (signature : MethodDescriptor) (arguments : List UInt16) :
    Unaware (concatenate signature arguments) := by
  refine (Unaware.popMany _).bind fun args => ?_
  cases arguments with
  | nil => exact .push _
  | cons recipe constants =>
    refine .inspect (fun _ _ => rfl) fun s => (Unaware.lift _).bind fun value => ?_
    split
    · split
      · exact .push _
      · exact .throw _
    · exact .throw _

theorem unaware_capture (index : UInt16) (site : CallSiteRef) (signature : MethodDescriptor)
    (functional backing : UInt16) :
    Unaware (capture index site signature functional backing) := by
  refine .inspect (fun _ _ => rfl) fun s => ?_
  refine (Unaware.lift _).bind fun text => (Unaware.lift _).bind fun _ =>
    (Unaware.lift _).bind fun handle => (Unaware.lift _).bind fun _ => ?_
  refine .require ((Unaware.popMany _).bind fun values => ?_)
  split
  · exact .throw _
  · split
    · exact (Unaware.pure none).bind fun _ => .push _
    · exact Action.unaware_popTarget.bind fun _ => .push _

theorem unaware_invoke (index : UInt16) : Unaware (invoke index) := by
  refine .inspect (fun _ _ => rfl) fun s => (Unaware.lift _).bind fun site => ?_
  cases s.method.bootstrapMethod? site.bootstrap with
  | none => exact .throw _
  | some bootstrap =>
    refine (Unaware.lift _).bind fun factory => (Unaware.lift _).bind fun signature => ?_
    split
    · exact unaware_concatenate _ _
    · split
      · exact unaware_capture _ _ _ _ _
      · exact .throw _

theorem unaware : ∀ d ∈ rules, d.Unaware := by
  simp only [rules, List.forall_mem_cons]
  exact ⟨unaware_on _ fun _ => (Unaware.read _).bind fun _ => (Unaware.read _).discard.bind fun _ =>
      unaware_invoke _,
    unaware_after _ _ (fun _ _ => rfl) Unaware.removeLastStatement.discard,
    List.forall_mem_nil _⟩

end CallSite

-- No instruction looks at the exception table but a jump that is done.
theorem unaware : ∀ d ∈ rules, d.Unaware := by
  simp only [rules, List.forall_mem_append]
  exact ⟨⟨⟨⟨⟨⟨⟨⟨⟨Literal.unaware, Local.unaware⟩, Array.unaware⟩, Object.unaware⟩, Call.unaware⟩,
    Arithmetic.unaware⟩, Shuffle.unaware⟩, Jump.unaware⟩, Boolean.unaware⟩, CallSite.unaware⟩

end Instruction

end JvmLift
