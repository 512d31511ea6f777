import JvmLift.Proofs.Pending.Rewriting

namespace JvmLift

open JvmLift.Action (Leads Still Lone Bare)

open State (Survives)

-- A declaration whose rule lets a call that is followed survive. The call of a rule for
-- invocations is fresh, as the corrections that follow may rewrite it.
structure Declaration.Bears (v : Element) (n : Nat) (d : Declaration) : Prop where
  primary : d.stage = .primary → ∀ code ∈ d.codes, code ≠ Opcode.invokedynamic →
    Leads (Lone v n) (Survives v (code ∈ Opcode.invocations) n) (d.rule.run code)
  corrective : d.stage = .corrective → ∀ code ∈ d.codes, code ≠ Opcode.invokedynamic →
    ∀ (statements : List Entry) (s t : State),
      Survives v (code ∈ Opcode.invocations) n statements s → d.rule.applies s code →
        exec (d.rule.run code) s = (.ok ⟨⟩, t) →
          Survives v (code ∈ Opcode.invocations) n statements t

variable {v : Element} {n : Nat} {fresh : Bool}

namespace Action.Leads

-- What is made of the value has the value below its top layer.
theorem push_of_mem {e d : Element} (he : v.occurrences e = n) (hm : e ∈ d.children)
    (hs : d.isSaturated) : Leads Bare (Survives v fresh n) (Action.push d) :=
  .push_bare (he ▸ Element.occurrences_le_inner hm) hs

theorem enlist_of_mem {e d : Element} (he : v.occurrences e = n) (hm : e ∈ d.children) :
    Leads Bare (Survives v fresh n) (Action.enlist d) :=
  .enlist_bare (he ▸ Element.occurrences_le_inner hm)

end Action.Leads

namespace Declaration

variable (codes : List Opcode)

theorem bears_on {run : Opcode → Action Unit}
    (h : ∀ code fresh, Leads (Lone v n) (Survives v fresh n) (run code)) :
    (on codes run).Bears v n where
  primary _ code _ _ := h code _
  corrective hs := by cases hs

-- What leaves the value alone does not make it fresh.
theorem bears_idle {code : Opcode} {run : Opcode → Action Unit} (hcode : code ∉ Opcode.invocations)
    (h : Leads (Lone v n) (Survives v false n) (run code)) : (on [code] run).Bears v n where
  primary _ other hc _ := by
    obtain rfl := List.mem_singleton.1 hc
    rw [decide_eq_false hcode]
    exact h
  corrective hs := by cases hs

theorem bears_after (priority : Priority) {applies : State → Bool} {run : Action Unit}
    (h : ∀ (fresh : Bool) (statements : List Entry) (s t : State),
      Survives v fresh n statements s → applies s → exec run s = (.ok ⟨⟩, t) →
        Survives v fresh n statements t) :
    (after codes priority applies run).Bears v n where
  primary hs := by cases hs
  corrective _ _ _ _ statements s t := h _ statements s t

-- Rewriting the top of the stack keeps what is below its top layer.
theorem bears_rewriteTop (priority : Priority) {rewrite? : Element → Option Element}
    (hcodes : codes ⊆ Opcode.invocations)
    (h : ∀ e d, rewrite? e = some d → e.isSaturated → v.inner e ≤ v.inner d ∧ d.isSaturated) :
    (rewriteTop codes priority rewrite?).Bears v n where
  primary hs := by cases hs
  corrective _ code hc _ statements s t hsurvives _ ht := by
    have hfresh : decide (code ∈ Opcode.invocations) = true := decide_eq_true (hcodes hc)
    rw [hfresh] at hsurvives ⊢
    obtain ⟨e, u, hu, ht⟩ := exec_bind_eq_ok.1 ht
    obtain ⟨top, below, hs, rfl, rfl⟩ := Action.pop_eq_ok hu
    obtain ⟨-, rfl⟩ := Prod.mk.inj ht
    cases hsurvives with
    | finalized hst hn => rw [hst] at hs; cases hs
    | covered hst hn hts =>
      obtain ⟨rfl, rfl⟩ := List.cons.inj (hst.symm.trans hs)
      exact .covered rfl hn hts
    | @alone only hst hn hts hl =>
      obtain ⟨rfl, rfl⟩ := List.cons.inj (hst.symm.trans hs)
      refine .alone rfl ((Element.carries_entry _).2 ?_) hts hl
      obtain ⟨hn, hsat⟩ := hn
      cases hd : rewrite? only.element with
      | none => exact ⟨hn, hsat⟩
      | some d =>
        obtain ⟨hle, hd'⟩ := h _ d hd hsat
        exact ⟨Nat.le_trans hn hle, hd'⟩

-- Rewriting the last statement keeps what is counted.
theorem bears_rewriteLast (hv : v.kind = .call) (priority : Priority)
    {rewrite? : State → Element → Option Element}
    (h : ∀ s e d, rewrite? s e = some d → v.occurrences d = v.occurrences e ∧ d.kind ≠ .call) :
    (rewriteLast codes priority rewrite?).Bears v n := by
  refine bears_after codes priority fun fresh statements s t hsurvives happlies ht => ?_
  obtain ⟨d, hd⟩ := Option.isSome_iff_exists.1 happlies
  obtain ⟨e, he, hrewrite⟩ := Option.bind_eq_some_iff.1 hd
  obtain ⟨last, rest, hs, rfl⟩ : ∃ last rest, s.statements = last :: rest ∧ last.element = e := by
    rw [State.lastStatement?] at he
    cases hs : s.statements with
    | nil => simp [hs] at he
    | cons last rest => exact ⟨last, rest, rfl, by simpa [hs] using he⟩
  obtain ⟨hcount, hkind⟩ := h s _ d hrewrite
  have hlt : s.statements.length - 1 < s.statements.length := by
    rw [hs, List.length_cons]
    omega
  have ht' : exec (Action.replaceStatement (s.statements.length - 1) d) s = (.ok ⟨⟩, t) := by
    rw [exec_bind_of_ok (exec_get s)] at ht
    simpa only [hd] using ht
  rw [Action.exec_replaceStatement, if_pos hlt, Nat.sub_self, hs] at ht'
  obtain ⟨-, rfl⟩ := Prod.mk.inj ht'
  refine hsurvives.restate rfl ?_ fun _ hl => ?_
  · rw [hs]
    show tally v (_ :: rest) = _
    rw [tally_cons, tally_cons, Element.occurrences_stamped, hcount]
  · have hnot : (d.stamped last.element.stamp).same v = false :=
      Element.not_same_of_kind_ne hv hkind
    have hl' : (d.stamped last.element.stamp).same v = true := hl
    rw [hnot] at hl'
    cases hl'

end Declaration

-- An entry that is filed is in a statement.
theorem State.survives_file (hv : v.kind = .call) {s : State} {only : Entry}
    (hn : v.occurrences only.element = n) :
    Survives v fresh n s.statements ((s.leaving []).file only.settled) := by
  refine .finalized rfl ?_
  rw [tally_file]
  show _ ≤ v.occurrences only.element.settled + tally v s.statements
  rw [Element.occurrences_settled hv, hn, Nat.add_comm]

namespace Instruction

open Declaration

open State (survives_file)

namespace Literal

theorem bears_loadConstant (index : UInt16) (category : Nat) :
    Leads (Lone v n) (Survives v fresh n) (loadConstant index category) := by
  refine .inspect fun s => .still (.lift _) fun value => .refuse ?_
  cases element value with
  | error fault => exact .throw fault
  | ok e => exact .push e

theorem bears : ∀ d ∈ rules, d.Bears v n := by
  simp only [rules, List.forall_mem_cons]
  exact ⟨bears_idle (by decide) (.leave fun s => ⟨rfl, rfl, fun _ hl => hl⟩),
    bears_on _ fun _ _ => .push _, bears_on _ fun _ _ => .push _, bears_on _ fun _ _ => .push _,
    bears_on _ fun _ _ => .push _, bears_on _ fun _ _ => .push _,
    bears_on _ fun _ _ => .still (.read _) fun _ => .push _,
    bears_on _ fun _ _ => .still (.read _) fun _ => .push _,
    bears_on _ fun _ _ => .still (.read _) fun _ => bears_loadConstant _ _,
    bears_on _ fun _ _ => .still (.read _) fun _ => bears_loadConstant _ _,
    bears_on _ fun _ _ => .still (.read _) fun _ => bears_loadConstant _ _,
    List.forall_mem_nil _⟩

end Literal

namespace Local

theorem bears_load (slot : UInt16) : Leads (Lone v n) (Survives v fresh n) (load slot) :=
  .inspect fun _ => .still (.local? _ _) fun _ => .push _

theorem bears_store (slot : UInt16) : Leads (Lone v n) (Survives v fresh n) (store slot) := by
  refine .pop fun value hvalue => .inspect fun s => ?_
  cases s.local? slot s.pc with
  | error e => exact .still (.local? _ _) fun _ => .enlist_of_mem hvalue (List.mem_cons_self ..)
  | ok w => exact .still (.pure w) fun _ => .enlist_of_mem hvalue (List.mem_cons_self ..)

theorem bears_increment (slot : UInt16) (delta : Int32) :
    Leads (Lone v n) (Survives v fresh n) (increment slot delta) :=
  .inspect fun _ => .still (.local? _ _) fun _ => .push _

theorem bears_wide : Leads (Lone v n) (Survives v fresh n) wide := by
  refine .still (.read _) fun code => .still (.read _) fun slot => ?_
  split
  · exact bears_load slot
  · split
    · exact bears_store slot
    · split
      · exact .still (.read _) fun _ => bears_increment slot _
      · exact .throw _

-- The value is neither a load nor an increment, so nothing is merged with it.
theorem bears_topTwo (hn : 1 ≤ n) (codes : List Opcode) (priority : Priority)
    {related : Element → Element → Bool} (run : Action Unit)
    (h : ∀ below top : Element, related below top → v.occurrences below = 0) :
    (after codes priority (topTwo · related) run).Bears v n := by
  refine bears_after codes priority fun fresh statements s t hsurvives happlies _ => ?_
  rw [topTwo] at happlies
  split at happlies
  · rename_i below top hbelow htop
    have hle := hsurvives.le_of_peek hbelow
    have hzero := h below top happlies
    omega
  · cases happlies

-- A narrow increment is merged with the load above the value.
theorem bears_foldNarrow (hv : v.kind = .call) (hn : 1 ≤ n) (codes : List Opcode)
    (affix : Affix) :
    (after codes .normal (fun s => (narrowIncrement? s).isSome) (foldNarrow affix)).Bears v n := by
  refine bears_after codes _ fun fresh statements s t hsurvives happlies ht => ?_
  obtain ⟨⟨w, delta, ty⟩, hfound⟩ := Option.isSome_iff_exists.1 happlies
  rw [foldNarrow, exec_bind_of_ok (exec_get s)] at ht
  simp only [hfound] at ht
  obtain ⟨top, htop, hfound⟩ := Option.bind_eq_some_iff.1 hfound
  obtain ⟨ref, href, hfound⟩ := Option.bind_eq_some_iff.1 hfound
  obtain ⟨last, hlast, hfound⟩ := Option.bind_eq_some_iff.1 hfound
  obtain ⟨found, hnarrow, -⟩ := Option.bind_eq_some_iff.1 hfound
  have hload := Element.occurrences_localVar? hv href
  have hassign := Element.occurrences_narrowIncrement? hv hnarrow
  cases hsurvives with
  | finalized hs _ => simp [State.peekAt?, hs] at htop
  | alone hs hcarries _ _ =>
    obtain rfl : _ = top := by simpa [State.peekAt?, hs] using htop
    have hle := hcarries.le_occurrences
    omega
  | @covered _ bottom hs hle hts =>
    rw [exec_bind_of_ok (Action.exec_discard_pop_of_cons hs)] at ht
    cases hst : s.statements with
    | nil => simp [State.lastStatement?, hst] at hlast
    | cons first rest =>
      obtain rfl : first.element = last := by simpa [State.lastStatement?, hst] using hlast
      have hst' : (s.leaving [bottom]).statements = first :: rest := hst
      rw [exec_bind_of_ok (Action.exec_removeLastStatement_of_cons hst')] at ht
      obtain ⟨-, rfl⟩ := Prod.mk.inj ht
      refine .covered rfl hle ?_
      rw [← hts, hst, tally_cons, hassign, Nat.zero_add]
      rfl

theorem bears (hv : v.kind = .call) (hn : 1 ≤ n) : ∀ d ∈ rules, d.Bears v n := by
  simp only [rules, List.forall_mem_cons]
  exact ⟨bears_on _ fun _ _ => .still (.read _) fun _ => bears_load _,
    bears_on _ fun _ _ => bears_load _,
    bears_on _ fun _ _ => .still (.read _) fun _ => bears_store _,
    bears_on _ fun _ _ => bears_store _,
    bears_on _ fun _ _ => bears_wide,
    bears_on _ fun _ _ => .still (.read _) fun _ => .still (.read _) fun _ => bears_increment _ _,
    bears_topTwo hn _ _ _ fun _ _ h => (Element.occurrences_isPendingIncrementOf hv h).2,
    bears_topTwo hn _ _ _ fun _ _ h => (Element.occurrences_isPendingIncrementOf hv h).1,
    bears_foldNarrow hv hn _ _, bears_foldNarrow hv hn _ _, List.forall_mem_nil _⟩

end Local

namespace Array

theorem bears_allocate (component : JvmType) :
    Leads (Lone v n) (Survives v fresh n) (allocate component) :=
  .pop fun _ h => .push_of_mem h (List.mem_cons_self ..) rfl

theorem bears_copy : copy.Bears v n where
  primary _ code hc _ := by
    obtain rfl := List.mem_singleton.1 hc
    refine .still (Still.followingCode?.map _) fun follows => ?_
    cases follows with
    | false => exact .still .peek fun _ => .push _
    | true => exact .leave fun s => ⟨rfl, rfl, fun _ hl => hl⟩
  corrective hs := by cases hs

theorem bears : ∀ d ∈ rules, d.Bears v n := by
  simp only [rules, List.forall_mem_cons]
  refine ⟨bears_on _ fun _ _ => .still (.read _) fun code => ?primitive,
    bears_on _ fun _ _ => .still (.read _) fun _ => .still (.classType _) fun _ => bears_allocate _,
    bears_copy,
    bears_on _ fun _ _ => .pop fun _ h => .push_of_mem h (List.mem_cons_self ..) rfl,
    bears_on _ fun _ _ => .pop fun _ _ => .pop_bare _,
    bears_on _ fun _ _ => .pop fun _ _ => .pop_bare _, List.forall_mem_nil _⟩
  cases JvmType.ofArrayCode? code with
  | none => exact .throw _
  | some component => exact bears_allocate component

end Array

namespace Object

-- A field of the class is looked up without the stack.
theorem still_field_static : Still (field false) := by
  refine (Still.read _).bind fun index => .inspect fun s => (Still.lift _).bind fun member => ?_
  cases JvmType.ofDescriptor? member.descriptor with
  | none => exact .throw _
  | some ty => exact .pure _

-- The object that has the field is popped.
theorem field_eq_ok {s t : State} {f : FieldAccess Element} (h : exec (field true) s = (.ok f, t)) :
    ∃ top below, s.stack = top :: below ∧ t.stack = below ∧ t.statements = s.statements ∧
      f.target = some top.element := by
  rw [field] at h
  obtain ⟨index, u, hu, h⟩ := exec_bind_eq_ok.1 h
  rw [Action.exec_read] at hu
  obtain ⟨-, rfl⟩ := Prod.mk.inj hu
  rw [exec_bind_of_ok (exec_get _)] at h
  obtain ⟨member, u, hu, h⟩ := exec_bind_eq_ok.1 h
  obtain ⟨-, rfl⟩ := Action.lift_eq_ok hu
  cases hty : JvmType.ofDescriptor? member.descriptor with
  | none =>
    simp only [hty] at h
    cases (Prod.mk.inj h).1
  | some ty =>
    simp only [hty] at h
    obtain ⟨target, u, hu, h⟩ := exec_bind_eq_ok.1 h
    obtain ⟨hf, rfl⟩ := Prod.mk.inj h
    cases hf
    rw [exec_map] at hu
    rcases hpop : exec Action.pop _ with ⟨fault | e, w⟩
    all_goals rw [hpop] at hu
    · cases (Prod.mk.inj hu).1
    · obtain ⟨htarget, rfl⟩ := Prod.mk.inj hu
      cases htarget
      obtain ⟨top, below, hs, rfl, rfl⟩ := Action.pop_eq_ok hpop
      exact ⟨top, below, hs, rfl, rfl, rfl⟩

theorem bears_allocate : Leads (Lone v n) (Survives v fresh n) allocate :=
  .still (.read _) fun _ => .still (.classType _) fun _ => .still (.read _) fun _ =>
    .refuse (.push _)

theorem bears_get (ofObject : Bool) :
    Leads (Lone v n) (Survives v fresh n) (field ofObject >>= fun f =>
      Action.push (.ofShape (.field f))) := by
  cases ofObject with
  | false => exact .still still_field_static fun _ => .push _
  | true =>
    rintro s t ⟨only, hs, hn⟩ h
    obtain ⟨f, u, hu, h⟩ := exec_bind_eq_ok.1 h
    obtain ⟨top, below, hcons, hbelow, hst, htarget⟩ := field_eq_ok hu
    obtain ⟨rfl, rfl⟩ := List.cons.inj (hs.symm.trans hcons)
    have hmem : only.element ∈ (Element.ofShape (.field f)).children := by
      show only.element ∈ f.target.toList
      rw [htarget]
      exact List.mem_cons_self ..
    rw [← hst]
    exact Leads.push_of_mem hn hmem rfl u t hbelow h

theorem bears_put (ofObject : Bool) :
    Leads (Lone v n) (Survives v fresh n) (Action.pop >>= fun value => field ofObject >>= fun f =>
      Action.enlist (.ofShape (.assignField f value))) := by
  refine .pop fun value hvalue => ?_
  cases ofObject with
  | false =>
    exact .still still_field_static fun f =>
      .enlist_of_mem hvalue (List.mem_append_right _ (List.mem_cons_self ..))
  | true =>
    intro s t hs h
    obtain ⟨f, u, hu, -⟩ := exec_bind_eq_ok.1 h
    obtain ⟨top, below, hcons, -⟩ := field_eq_ok hu
    rw [show s.stack = [] from hs] at hcons
    cases hcons

-- The value without its cast becomes a statement.
theorem bears_discardCast (hv : v.kind = .call) :
    Leads (Lone v n) (Survives v fresh n) discardCast := by
  rintro s t ⟨only, hs, hn⟩ h
  rw [discardCast, exec_bind_of_ok (Action.exec_pop_of_cons hs)] at h
  obtain ⟨⟨shape, stamp⟩, pc, version⟩ := only
  cases shape with
  | cast value ty =>
    rw [exec_bind_of_ok (Action.exec_push _ _)] at h
    obtain ⟨-, rfl⟩ := Action.discard_reduce_eq_ok rfl h
    refine .finalized rfl ?_
    have hcast : v.occurrences ⟨.cast value ty, stamp⟩ = v.occurrences value :=
      Element.occurrences_of_kind_ne hv nofun
    rw [tally_file]
    show _ ≤ v.occurrences (((s.leaving []).entry value).element.settled) + tally v s.statements
    rw [Element.occurrences_settled hv, occurrences_entry]
    have hn' : v.occurrences ⟨.cast value ty, stamp⟩ = n := hn
    omega
  | _ => cases (Prod.mk.inj h).1

theorem bears (hv : v.kind = .call) : ∀ d ∈ rules, d.Bears v n := by
  simp only [rules, List.forall_mem_cons]
  exact ⟨bears_on _ fun _ _ => bears_get _,
    bears_on _ fun _ _ => bears_put _,
    bears_on _ fun _ _ => bears_allocate,
    bears_rewriteTop _ _ (by decide) fun e d h hs =>
      ⟨(Element.inner_constructed? hv h).1, (Element.inner_constructed? hv h).2 hs⟩,
    bears_on _ fun _ _ => .still (.read _) fun _ => .still (.classType _) fun _ =>
      .pop fun _ h => .push_of_mem h (List.mem_cons_self ..) rfl,
    bears_on _ fun _ _ => .still (.read _) fun _ => .still (.classType _) fun _ =>
      .pop fun _ h => .push_of_mem h (List.mem_cons_self ..) rfl,
    ⟨fun _ _ _ _ => bears_discardCast hv, fun hs => by cases hs⟩,
    List.forall_mem_nil _⟩

end Object

namespace Call

-- The call has what it pops among its arguments, or as its target.
theorem bears_call (index : UInt16) (isStatic : Bool) :
    Leads (Lone v n) (Survives v fresh n) (call index isStatic) := by
  refine .inspect fun s => .still (.lift _) fun member => .still (.lift _) fun signature => ?_
  refine .popMany (fun hnone => ?_) fun hone e he => ?_
  · cases isStatic with
    | true => exact .still (.pure none) fun _ => .push _
    | false =>
      refine .popTarget fun e he => .push_of_mem he ?_ (decide_eq_true hnone.symm)
      exact List.mem_append_left _ (List.mem_cons_self ..)
  · cases isStatic with
    | true =>
      refine .still (.pure none) fun _ => .push_of_mem he ?_ (decide_eq_true hone.symm)
      exact List.mem_append_right _ (List.mem_cons_self ..)
    | false => exact .popTarget_bare _

theorem bears : ∀ d ∈ rules, d.Bears v n := by
  simp only [rules, List.forall_mem_cons]
  exact ⟨bears_on _ fun _ _ => .still (.read _) fun _ => bears_call _ _,
    bears_on _ fun _ _ => .still (.read _) fun index => .still (.read _) fun count =>
      .refuse (.still (Still.read _).discard fun _ => bears_call _ _),
    List.forall_mem_nil _⟩

end Call

namespace Arithmetic

theorem bears : ∀ d ∈ rules, d.Bears v n := by
  simp only [rules, List.forall_mem_append, List.forall_mem_cons, List.forall_mem_map]
  exact ⟨⟨fun _ _ => bears_on _ fun _ _ => .pop fun _ _ => .pop_bare _,
    fun _ _ => bears_on _ fun _ _ => .pop fun _ h => .push_of_mem h (List.mem_cons_self ..) rfl⟩,
    bears_on _ fun _ _ => .pop fun _ h => .push_of_mem h (List.mem_cons_self ..) rfl,
    bears_on _ fun _ _ => .pop fun _ _ => .pop_bare _,
    List.forall_mem_nil _⟩

end Arithmetic

namespace Shuffle

-- A form that covers a single value copies it.
theorem order_of_length {code : Opcode} {family : List Form} (hf : (code, family) ∈ forms)
    {form : Form} (h : form ∈ family) :
    form.categories ≠ [] ∧ (form.categories.length = 1 → form.order = [0, 0]) := by
  have hall : ∀ p ∈ forms, ∀ form ∈ p.2,
      form.categories ≠ [] ∧ (form.categories.length = 1 → form.order = [0, 0]) := by decide
  exact hall _ hf form h

theorem bears_rearrange {code : Opcode} {family : List Form} (hf : (code, family) ∈ forms)
    (head : Opcode) : Leads (Lone v n) (Survives v fresh n) (rearrange family head) := by
  refine .inspect fun s => ?_
  cases hform : family.find? fun form => s.hasCategories form.categories with
  | none => exact .throw _
  | some form =>
    obtain ⟨hne, horder⟩ := order_of_length hf (List.mem_of_find?_eq_some hform)
    refine .popMany (fun hnone => absurd (List.eq_nil_of_length_eq_zero hnone) hne) ?_
    intro hone e he s t hs h
    rw [horder hone] at h
    obtain ⟨-, rfl⟩ := Prod.mk.inj h
    have hstack : ((s.push e).push e).stack = [(s.push e).entry e, s.entry e] :=
      congrArg ((s.push e).entry e :: s.entry e :: ·) hs
    have hcount : n ≤ v.occurrences (s.entry e).element := by
      rw [occurrences_entry, he]
    exact .covered hstack hcount rfl

-- The only value is discarded as one, and becomes a statement.
theorem bears_discardOne (hv : v.kind = .call) (code : Opcode) :
    Leads (Lone v n) (Survives v fresh n) (discardOne code) := by
  rintro s t ⟨only, hs, hn⟩ h
  obtain ⟨top, below, hcons, -, rfl⟩ := discardOne_eq_ok h
  obtain ⟨rfl, rfl⟩ := List.cons.inj (hs.symm.trans hcons)
  exact survives_file hv hn

theorem bears_discardTwo (hv : v.kind = .call) (code : Opcode) :
    Leads (Lone v n) (Survives v fresh n) (discardTwo code) := by
  rintro s t ⟨only, hs, hn⟩ h
  rcases discardTwo_eq_ok h with ⟨top, next, below, hcons, -⟩ | ⟨top, below, hcons, -, -, rfl⟩
  · rw [hs] at hcons
    cases hcons
  · obtain ⟨rfl, rfl⟩ := List.cons.inj (hs.symm.trans hcons)
    exact survives_file hv hn

theorem bears (hv : v.kind = .call) : ∀ d ∈ rules, d.Bears v n := by
  simp only [rules, List.forall_mem_append, List.forall_mem_cons, List.forall_mem_map]
  exact ⟨⟨bears_on _ fun code _ => bears_discardOne hv code,
      bears_on _ fun code _ => bears_discardTwo hv code, List.forall_mem_nil _⟩,
    fun p hp => bears_on _ fun code _ => bears_rearrange hp code⟩

end Shuffle

namespace Jump

-- A jump has no value in it and takes none.
theorem bears_jump (hv : v.kind = .call) (offset : Int) :
    Leads (Lone v n) (Survives v false n) (jump offset) := by
  refine .still (.requireTarget offset) fun pc => .inspect fun s => ?_
  split
  · exact .leave fun s => ⟨rfl, rfl, fun _ hl => hl⟩
  · have hkind : (Element.ofShape (.jump pc)).kind ≠ .call := nofun
    refine .leave fun s => ⟨rfl, ?_, fun _ hl => ?_⟩
    · show tally v (s.entry (.ofShape (.jump pc)) :: s.statements) = _
      rw [tally_cons, occurrences_entry, Element.occurrences_of_leaf hv hkind rfl, Nat.zero_add]
    · obtain ⟨stamp, hentry⟩ := s.exists_entry_eq (.ofShape (.jump pc))
      have hsame : (s.entry (.ofShape (.jump pc))).element.same v := hl
      rw [hentry, Element.same_stamped, Element.not_same_of_kind_ne hv hkind] at hsame
      cases hsame

theorem bears_branch {left : Element} (hleft : v.occurrences left = n) (op : BinaryOp)
    (right : Element) : Leads Bare (Survives v fresh n) (branch left op right) :=
  .still (.read _) fun _ => .still (.requireTarget _) fun _ =>
    .enlist_of_mem hleft (List.mem_cons_self ..)

theorem bears_returnValue (code : Opcode) :
    Leads (Lone v n) (Survives v fresh n) (returnValue code) :=
  .pop fun _ hvalue => .require (.enlist_of_mem hvalue (List.mem_cons_self ..))

theorem discard_reduceAll_eq_ok {s t : State} {only : Entry} (hs : s.stack = [only])
    (h : exec (discard Action.reduceAll) s = (.ok ⟨⟩, t)) :
    t = (s.leaving []).file only.settled := by
  rw [Action.reduceAll, exec_discard, exec_bind_of_ok (exec_get s), hs, List.length_singleton,
    Action.reduceMany, exec_bind, Action.exec_reduce, hs] at h
  by_cases hst : only.element.isStatement
  · simp only [hst, if_true] at h
    exact (Prod.mk.inj h).2.symm
  · simp only [hst] at h
    cases (Prod.mk.inj h).1

-- What is left becomes a statement in front of the return.
theorem bears_returnVoid (hv : v.kind = .call) :
    Leads (Lone v n) (Survives v fresh n) (discard Action.reduceAll >>= fun _ =>
      Action.enlist (.ofShape .ret)) := by
  rintro s t ⟨only, hs, hn⟩ h
  obtain ⟨⟨⟩, u, hu, h⟩ := exec_bind_eq_ok.1 h
  obtain ⟨-, rfl⟩ := Prod.mk.inj h
  obtain rfl := discard_reduceAll_eq_ok hs hu
  refine .finalized rfl ?_
  show _ ≤ tally v (_ :: ((s.leaving []).file only.settled).statements)
  rw [tally_cons, tally_file]
  show _ ≤ _ + (v.occurrences only.element.settled + tally v s.statements)
  rw [Element.occurrences_settled hv]
  omega

-- A jump that leaves protected code is taken back, which ends the run.
theorem bears_leavesTry (hv : v.kind = .call) :
    (after [Opcode.goto, Opcode.gotoW] .high leavesTry do
      discard Action.removeLastStatement
      Action.abort).Bears v n := by
  refine bears_after _ _ fun fresh statements s t hsurvives happlies ht => ?_
  rw [leavesTry, Bool.and_eq_true, Bool.and_eq_true] at happlies
  have hlast := happlies.1.2
  cases hst : s.statements with
  | nil => simp [State.lastIs, State.lastStatement?, hst] at hlast
  | cons last rest =>
    have hjump : last.element.kind = .jump := by
      simpa [State.lastIs, State.lastStatement?, hst] using hlast
    rw [exec_bind, exec_discard, Action.exec_removeLastStatement_of_cons hst] at ht
    obtain ⟨-, rfl⟩ := Prod.mk.inj ht
    refine hsurvives.restate rfl ?_ fun ha _ => ?_
    · rw [hst, tally_cons, Element.occurrences_jump hv hjump, Nat.zero_add]
      rfl
    · cases ha

theorem bears (hv : v.kind = .call) : ∀ d ∈ rules, d.Bears v n := by
  simp only [rules, List.forall_mem_cons]
  exact ⟨bears_on _ fun _ _ => bears_returnVoid hv,
    bears_on _ fun code _ => bears_returnValue code,
    bears_idle (by decide) (.still (.read _) fun _ => bears_jump hv _),
    bears_idle (by decide) (.still (.read _) fun _ => bears_jump hv _),
    bears_leavesTry hv,
    bears_on _ fun _ _ => .pop fun _ h => bears_branch h _ _,
    bears_on _ fun _ _ => .pop fun _ _ => .pop_bare _,
    bears_on _ fun _ _ => .pop fun _ h => bears_branch h _ _,
    bears_on _ fun _ _ => .pop fun _ h => .enlist_of_mem h (List.mem_cons_self ..),
    List.forall_mem_nil _⟩

end Jump

namespace Boolean

-- The value is no int constant, so no bit above it is folded.
theorem bears_foldBit (hv : v.kind = .call) (hn : 1 ≤ n) :
    (after [Opcode.iconst0] .normal choosesBit foldBit).Bears v n := by
  refine bears_after _ _ fun fresh statements s t hsurvives happlies _ => ?_
  simp only [choosesBit, Bool.and_eq_true] at happlies
  obtain ⟨below, hbelow, hone⟩ := Option.any_eq_true _ _ |>.1 happlies.1.1.2
  have hle := hsurvives.le_of_peek hbelow
  have hzero := Element.occurrences_isInt hv hone
  omega

theorem bears (hv : v.kind = .call) (hn : 1 ≤ n) : ∀ d ∈ rules, d.Bears v n := by
  simp only [rules, List.forall_mem_cons]
  refine ⟨bears_foldBit hv hn,
    bears_rewriteLast _ hv _ fun s e d h => Element.occurrences_booleanAssignment? hv h,
    bears_rewriteLast _ hv _ fun s e d h => ?_,
    bears_rewriteTop _ _ (List.Subset.refl _) fun e d h hs => Element.inner_booleanCall? hv h hs,
    List.forall_mem_nil _⟩
  split at h
  · exact Element.occurrences_booleanReturn? hv h
  · cases h

end Boolean

namespace CallSite

-- A call site leaves an entry in the place of the value, or on top of it. Whether it uses the
-- value is up to its recipe.
def Leaves (v : Element) (n : Nat) (_ : List Entry) (t : State) : Prop :=
  ∃ top, t.stack = [top] ∨ ∃ bottom, t.stack = [top, bottom] ∧ n ≤ v.occurrences bottom.element

theorem leaves_push (e : Element) : Leads (Lone v n) (Leaves v n) (Action.push e) := by
  rintro s t ⟨only, hs, hn⟩ ht
  obtain ⟨-, rfl⟩ := Prod.mk.inj ht
  exact ⟨s.entry e, .inr ⟨only, congrArg (s.entry e :: ·) hs, Nat.le_of_eq hn.symm⟩⟩

theorem leaves_push_bare (e : Element) : Leads Bare (Leaves v n) (Action.push e) := by
  intro s t hs ht
  obtain ⟨-, rfl⟩ := Prod.mk.inj ht
  exact ⟨s.entry e, .inl (congrArg (s.entry e :: ·) hs)⟩

theorem leaves_concatenate (signature : MethodDescriptor) (arguments : List UInt16) :
    Leads (Lone v n) (Leaves v n) (concatenate signature arguments) := by
  refine .popMany (fun _ => ?_) fun _ e _ => ?_
  all_goals
    cases arguments with
    | nil => first | exact leaves_push _ | exact leaves_push_bare _
    | cons recipe constants =>
      refine .inspect fun s => .still (.lift _) fun value => ?_
      split
      · split
        · first | exact leaves_push _ | exact leaves_push_bare _
        · exact .throw _
      · exact .throw _

theorem leaves_capture (index : UInt16) (site : CallSiteRef) (signature : MethodDescriptor)
    (functional backing : UInt16) :
    Leads (Lone v n) (Leaves v n) (capture index site signature functional backing) := by
  refine .inspect fun s => .still (.lift _) fun text => .still (.lift _) fun _ =>
    .still (.lift _) fun handle => .still (.lift _) fun _ => .require ?_
  refine .popMany (fun _ => ?_) fun _ e _ => ?_
  · split
    · exact .throw _
    · split
      · exact .still (.pure none) fun _ => leaves_push _
      · exact .popTarget fun _ _ => leaves_push_bare _
  · split
    · exact .throw _
    · split
      · exact .still (.pure none) fun _ => leaves_push_bare _
      · exact .popTarget_bare _

theorem leaves_invoke (index : UInt16) : Leads (Lone v n) (Leaves v n) (invoke index) := by
  refine .inspect fun s => .still (.lift _) fun site => ?_
  cases s.method.bootstrapMethod? site.bootstrap with
  | none => exact .throw _
  | some bootstrap =>
    refine .still (.lift _) fun factory => .still (.lift _) fun signature => ?_
    split
    · exact leaves_concatenate _ _
    · split
      · exact leaves_capture _ _ _ _ _
      · exact .throw _

-- Nothing is said about what a call site makes of the value.
theorem bears : ∀ d ∈ rules, d.Bears v n := by
  have hcodes : ∀ d ∈ rules, d.codes = [Opcode.invokedynamic] := by decide +kernel
  intro d hd
  have hcode : ∀ code ∈ d.codes, code = Opcode.invokedynamic := by
    rw [hcodes d hd]
    exact fun code hc => List.mem_singleton.1 hc
  exact ⟨fun _ code hc hne => absurd (hcode code hc) hne,
    fun _ code hc hne => absurd (hcode code hc) hne⟩

end CallSite

-- Every instruction but a call site lets a call that is followed survive.
theorem bears (hv : v.kind = .call) (hn : 1 ≤ n) : ∀ d ∈ rules, d.Bears v n := by
  simp only [rules, List.forall_mem_append]
  exact ⟨⟨⟨⟨⟨⟨⟨⟨⟨Literal.bears, Local.bears hv hn⟩, Array.bears⟩, Object.bears hv⟩, Call.bears⟩,
    Arithmetic.bears⟩, Shuffle.bears hv⟩, Jump.bears hv⟩, Boolean.bears hv hn⟩, CallSite.bears⟩

end Instruction

namespace Registry

-- What the corrections of an instruction leave.
theorem survives_runAll {code : Opcode} (hv : v.kind = .call) (hn : 1 ≤ n)
    (hcode : code ≠ Opcode.invokedynamic) {rules : List Rule}
    (hrules : ∀ rule ∈ rules, rule ∈ core.rules .corrective code) {statements : List Entry}
    {s t : State} (hs : Survives v (code ∈ Opcode.invocations) n statements s)
    (h : exec (runAll code rules) s = (.ok ⟨⟩, t)) :
    Survives v (code ∈ Opcode.invocations) n statements t := by
  induction rules generalizing s with
  | nil =>
    obtain ⟨-, rfl⟩ := Prod.mk.inj h
    exact hs
  | cons rule rest ih =>
    obtain ⟨hrule, hrest⟩ := List.forall_mem_cons.1 hrules
    rw [runAll, exec_bind_of_ok (exec_get s)] at h
    split at h
    · rename_i happlies
      obtain ⟨⟨⟩, u, hu, hafter⟩ := exec_bind_eq_ok.1 h
      obtain ⟨d, hd, rfl, hstage, hc⟩ := mem_core hrule
      have hbears := (Instruction.bears hv hn d hd).corrective hstage code hc hcode
      exact ih hrest (hbears statements s u hs happlies hu) hafter
    · exact ih hrest hs h

-- A call that is followed survives every instruction but a call site.
theorem survives_step {code : Opcode} (hv : v.kind = .call) (hn : 1 ≤ n)
    (hcode : code ≠ Opcode.invokedynamic) {s t : State} (hs : Lone v n s.stack)
    (h : exec (core.step code) s = (.ok ⟨⟩, t)) : Survives v false n s.statements t := by
  cases hp : core.primary? s code with
  | none =>
    rw [step, rules_advisory_core] at h
    simp [runAll, exec_bind, hp] at h
  | some rule =>
    rw [exec_step_core hp] at h
    obtain ⟨⟨⟩, u, hu, hafter⟩ := exec_bind_eq_ok.1 h
    obtain ⟨d, hd, rfl, hstage, hc⟩ := mem_core (List.mem_of_find?_eq_some hp)
    have hprimary := (Instruction.bears hv hn d hd).primary hstage code hc hcode s u hs hu
    exact (survives_runAll hv hn hcode (fun _ hrule => hrule) hprimary hafter).ripen

theorem leaves_step_invokedynamic {s t : State} (hs : Lone v n s.stack)
    (h : exec (core.step Opcode.invokedynamic) s = (.ok ⟨⟩, t)) :
    Instruction.CallSite.Leaves v n s.statements t := by
  have hp : core.primary? s Opcode.invokedynamic =
      some (Declaration.on [Opcode.invokedynamic] fun _ => do
        let index ← Action.read Reading.u16
        discard (Action.read Reading.u16)
        Instruction.CallSite.invoke index).rule := rfl
  have hlast : core.rules .corrective Opcode.invokedynamic =
      [(Declaration.after [Opcode.invokedynamic] .high Instruction.CallSite.followsCheck do
        discard Action.removeLastStatement).rule] := rfl
  rw [exec_step_core hp, hlast] at h
  obtain ⟨⟨⟩, u, hu, hafter⟩ := exec_bind_eq_ok.1 h
  have hleads : Leads (Lone v n) (Instruction.CallSite.Leaves v n)
      (Action.read Reading.u16 >>= fun index => discard (Action.read Reading.u16) >>= fun _ =>
        Instruction.CallSite.invoke index) :=
    .still (.read _) fun _ => .still (Still.read _).discard fun _ =>
      Instruction.CallSite.leaves_invoke _
  have hstack : t.stack = u.stack := by
    rw [runAll, exec_bind_of_ok (exec_get u)] at hafter
    split at hafter
    · obtain ⟨⟨⟩, w, hw, hafter⟩ := exec_bind_eq_ok.1 hafter
      obtain ⟨-, rfl⟩ := Prod.mk.inj hafter
      have hw' : exec (discard Action.removeLastStatement) u = (.ok ⟨⟩, w) := hw
      rw [exec_discard, Action.exec_removeLastStatement] at hw'
      cases hst : u.statements with
      | nil =>
        rw [hst] at hw'
        cases (Prod.mk.inj hw').1
      | cons last rest =>
        rw [hst] at hw'
        obtain ⟨-, rfl⟩ := Prod.mk.inj hw'
        rfl
    · obtain ⟨-, rfl⟩ := Prod.mk.inj hafter
      rfl
  rw [Instruction.CallSite.Leaves, hstack]
  exact hleads s u hs hu

end Registry

end JvmLift
