import JvmLift.Proofs.Counting.Steps

namespace JvmLift

theorem Element.isPendingIncrementOf_bare (e load : Element) :
    e.bare.isPendingIncrementOf load.bare = e.isPendingIncrementOf load := by
  obtain ⟨shape, stamp⟩ := e
  obtain ⟨other, place⟩ := load
  rw [bare_mk, bare_mk]
  cases shape with
  | increment v delta ty affix =>
    cases affix with
    | pending => cases other <;> rfl
    | _ => rfl
  | _ => rfl

-- The relation does not look at stamps.
theorem Element.isPendingIncrementOf_congr {e d load other : Element} (he : e.bare = d.bare)
    (hload : load.bare = other.bare) :
    e.isPendingIncrementOf load = d.isPendingIncrementOf other := by
  rw [← isPendingIncrementOf_bare, he, hload, isPendingIncrementOf_bare]

theorem Element.bare_withAffix (e : Element) (affix : Affix) :
    (e.withAffix affix).bare = e.bare.withAffix affix := by
  obtain ⟨shape, stamp⟩ := e
  rw [bare_mk]
  cases shape <;> simp only [withAffix, ofShape, bare_mk, Shape.map]

theorem Element.kind_withAffix (e : Element) (affix : Affix) :
    (e.withAffix affix).kind = e.kind := by
  obtain ⟨shape, stamp⟩ := e
  cases shape <;> rfl

theorem Element.kind_of_isPendingIncrementOf {e load : Element}
    (h : e.isPendingIncrementOf load) : e.kind = .increment := by
  obtain ⟨shape, stamp⟩ := e
  cases shape with
  | increment => rfl
  | _ => cases h

theorem Element.isNarrowCast_of_kind {e : Element}
    (h : e.kind = .localVar ∨ e.kind = .increment) : e.isNarrowCast = false := by
  obtain ⟨shape, stamp⟩ := e
  cases shape with
  | cast => rcases h with h | h <;> cases h
  | _ => rfl

-- A variable as an expression.
def LocalVariable.load (v : LocalVariable) (slot : UInt16) : Element :=
  .ofShape (.localVar (v.ref slot))

theorem LocalVariable.isPendingIncrementOf_load (v : LocalVariable) (slot : UInt16)
    (delta : Int32) : (v.pending slot delta).isPendingIncrementOf (v.load slot) := by
  simp [pending, load, Element.isPendingIncrementOf, Element.ofShape]

-- A run that puts a value on top of some entries.
structure State.Leaves (m : Method) (s : State) (below : List Entry) (e : Element) (t : State) :
    Prop where
  runs : Registry.core.Runs s t
  tame : t.Tame m
  statements : t.statements = s.statements
  top : ∃ entry, t.stack = entry :: below ∧ entry.element.bare = e ∧
    ∀ d ∈ below ++ s.statements, d.precedes entry

namespace State

variable {m : Method} {s w : State}

theorem leaves_of_push (hw : w.Tame m) (hst : w.statements = s.statements) {below : List Entry}
    (hb : below.Sublist w.stack) {e : Element} (he : e.kind = .localVar ∨ e.kind = .increment)
    (hruns : Registry.core.Runs s ((w.leaving below).push e)) :
    s.Leaves m below e.bare ((w.leaving below).push e) where
  runs := hruns
  tame := hw.pushing hb he
  statements := hst
  top := by
    refine ⟨w.entry e, rfl, bare_entry w e, fun d hd => hw.ordered.precedes_entry ?_ e⟩
    rw [← hst] at hd
    rcases List.mem_append.1 hd with hd | hd
    · exact List.mem_append_left _ (hb.subset hd)
    · exact List.mem_append_right _ hd

namespace Tame

variable (h : s.Tame m) {slot : UInt16} {v : LocalVariable} (hv : m.Covers slot v)
  {rest : Bytes} {pc : Nat} (hlt : pc < m.code.length)
include h hv hlt

-- A load leaves the variable unless it is next to an increment of the variable.
theorem leaves_load (hc : s.cursor = .fresh (Opcode.loadInt slot ++ rest) pc)
    (hn : slot < 256 → ∀ top below, s.stack = top :: below →
      top.element.isPendingIncrementOf (v.load slot) = false) :
    ∃ t, s.Leaves m s.stack (v.load slot) t ∧
      t.cursor = .fresh rest (pc + (Opcode.loadInt slot).length) := by
  obtain ⟨head, operand, hcode, -, hstep⟩ :=
    (Opcode.loads_loadInt slot).exec_step h.method hv hlt rest
  have hw := h.moved hc rest (Nat.le_add_right pc (Opcode.loadInt slot).length)
  have ht := hw.pushing (.refl _) (e := v.load slot) (.inl rfl)
  have hcorrect : exec (Registry.runAll head (Registry.core.rules .corrective head))
      (s.yielding s.stack (v.load slot) rest (pc + (Opcode.loadInt slot).length) pc) =
        (.ok ⟨⟩, s.yielding s.stack (v.load slot) rest
          (pc + (Opcode.loadInt slot).length) pc) := by
    rcases Opcode.head_loadInt hcode with ⟨hplain, hhead⟩ | ⟨-, rfl⟩
    · refine Registry.exec_corrections_load_of_spared hhead ?_ ht.narrowIncrement?
      refine Instruction.Local.topTwo_push _ fun top below hs => ?_
      exact (Element.isPendingIncrementOf_congr rfl (bare_entry ..)).trans (hn hplain top below hs)
    · rw [Registry.corrective_wide]
      rfl
  rw [hcode] at hc
  have hex := Registry.executes_of_fresh h.running hc (hstep.trans hcorrect)
  exact ⟨_, leaves_of_push (s := s) hw rfl (.refl _) (.inl rfl) (.single hex), rfl⟩

-- A load above an increment of its variable makes one that uses the new value.
theorem leaves_useNew (hc : s.cursor = .fresh (Opcode.loadInt slot ++ rest) pc)
    (hplain : slot < 256) {top : Entry} {below : List Entry} (hs : s.stack = top :: below)
    (hp : top.element.isPendingIncrementOf (v.load slot)) :
    ∃ t, s.Leaves m below (top.element.bare.withAffix .before) t ∧
      t.cursor = .fresh rest (pc + (Opcode.loadInt slot).length) := by
  obtain ⟨head, operand, hcode, -, hstep⟩ :=
    (Opcode.loads_loadInt slot).exec_step h.method hv hlt rest
  have hw := (h.moved hc rest (Nat.le_add_right pc (Opcode.loadInt slot).length)).pushing
    (.refl _) (e := v.load slot) (.inl rfl)
  have hb : below.Sublist (s.yielding s.stack (v.load slot) rest
      (pc + (Opcode.loadInt slot).length) pc).stack := by
    show below.Sublist (_ :: s.stack)
    rw [hs]
    exact (List.sublist_cons_self ..).trans (List.sublist_cons_self ..)
  have hkind : (top.element.withAffix .before).kind = .increment := by
    rw [Element.kind_withAffix]
    exact Element.kind_of_isPendingIncrementOf hp
  have hentry := bare_entry (s.moved rest (pc + (Opcode.loadInt slot).length) pc) (v.load slot)
  rw [← Element.isPendingIncrementOf_congr rfl hentry] at hp
  have hhead : head ∈ Opcode.primitiveLoads := by
    rcases Opcode.head_loadInt hcode with ⟨-, hhead⟩ | ⟨hwide, -⟩
    · exact hhead
    · exact absurd hplain hwide
  have hstack : (s.yielding s.stack (v.load slot) rest
      (pc + (Opcode.loadInt slot).length) pc).stack = _ :: top :: below := congrArg (_ :: ·) hs
  have hcorrect := Registry.exec_corrections_useNew hhead hstack hp
  rw [hcode] at hc
  have hex := Registry.executes_of_fresh h.running hc (hstep.trans hcorrect)
  rw [← Element.bare_withAffix]
  exact ⟨_, leaves_of_push (s := s) hw rfl hb (.inr hkind) (.single hex), rfl⟩

-- An increment stays pending unless it is next to a load of its variable.
theorem leaves_increase (delta : Int8)
    (hc : s.cursor = .fresh (Opcode.increaseInt slot delta ++ rest) pc)
    (hn : slot < 256 → ∀ top below, s.stack = top :: below →
      (v.pending slot delta.toInt32).isPendingIncrementOf top.element = false) :
    ∃ t, s.Leaves m s.stack (v.pending slot delta.toInt32) t ∧
      t.cursor = .fresh rest (pc + (Opcode.increaseInt slot delta).length) := by
  obtain ⟨head, operand, hcode, hhead, hstep⟩ :=
    Instruction.Local.exec_step_increaseInt h.method hv hlt delta rest
  have hw := h.moved hc rest (Nat.le_add_right pc (Opcode.increaseInt slot delta).length)
  have hcorrect : exec (Registry.runAll head (Registry.core.rules .corrective head))
      (s.yielding s.stack (v.pending slot delta.toInt32) rest
        (pc + (Opcode.increaseInt slot delta).length) pc) =
        (.ok ⟨⟩, s.yielding s.stack (v.pending slot delta.toInt32) rest
          (pc + (Opcode.increaseInt slot delta).length) pc) := by
    rcases hhead with ⟨hplain, rfl⟩ | ⟨-, rfl⟩
    · apply Registry.exec_runAll_of_spared
      intro rule hrule
      rw [Registry.corrective_iinc] at hrule
      rw [List.mem_singleton.1 hrule]
      refine Instruction.Local.topTwo_push _ fun top below hs => ?_
      exact (Element.isPendingIncrementOf_congr (bare_entry ..) rfl).trans (hn hplain top below hs)
    · rw [Registry.corrective_wide]
      rfl
  rw [hcode] at hc
  have hex := Registry.executes_of_fresh h.running hc (hstep.trans hcorrect)
  exact ⟨_, leaves_of_push (s := s) hw rfl (.refl _) (.inr rfl) (.single hex), rfl⟩

-- An increment above a load of its variable is one that uses the old value.
theorem leaves_useOld (delta : Int8)
    (hc : s.cursor = .fresh (Opcode.increaseInt slot delta ++ rest) pc) (hplain : slot < 256)
    {load : Entry} {below : List Entry} (hs : s.stack = load :: below)
    (hp : (v.pending slot delta.toInt32).isPendingIncrementOf load.element) :
    ∃ t, s.Leaves m below ((v.pending slot delta.toInt32).withAffix .after) t ∧
      t.cursor = .fresh rest (pc + (Opcode.increaseInt slot delta).length) := by
  obtain ⟨head, operand, hcode, hhead, hstep⟩ :=
    Instruction.Local.exec_step_increaseInt h.method hv hlt delta rest
  have hw := (h.moved hc rest (Nat.le_add_right pc (Opcode.increaseInt slot delta).length)).pushing
    (.refl _) (e := v.pending slot delta.toInt32) (.inr rfl)
  have hb : below.Sublist (s.yielding s.stack (v.pending slot delta.toInt32) rest
      (pc + (Opcode.increaseInt slot delta).length) pc).stack := by
    show below.Sublist (_ :: s.stack)
    rw [hs]
    exact (List.sublist_cons_self ..).trans (List.sublist_cons_self ..)
  obtain ⟨-, rfl⟩ : slot < 256 ∧ head = Opcode.iinc := by
    rcases hhead with hhead | ⟨hwide, -⟩
    · exact hhead
    · exact absurd hplain hwide
  have hentry := bare_entry (s.moved rest (pc + (Opcode.increaseInt slot delta).length) pc)
    (v.pending slot delta.toInt32)
  rw [← Element.isPendingIncrementOf_congr hentry rfl] at hp
  have hstack : (s.yielding s.stack (v.pending slot delta.toInt32) rest
      (pc + (Opcode.increaseInt slot delta).length) pc).stack = _ :: load :: below :=
    congrArg (_ :: ·) hs
  have hcorrect := Registry.exec_corrections_useOld hstack hp
  have hkind := (Element.kind_withAffix _ Affix.after).trans
    (Element.kind_of_isPendingIncrementOf hp)
  rw [hcode] at hc
  have hex := Registry.executes_of_fresh h.running hc (hstep.trans hcorrect)
  have hleaves := leaves_of_push (s := s) hw rfl hb (.inr hkind) (.single hex)
  rw [Element.bare_withAffix, hentry] at hleaves
  exact ⟨_, hleaves, rfl⟩

-- Wherever a load stands, it leaves something.
theorem exists_leaves_load (hc : s.cursor = .fresh (Opcode.loadInt slot ++ rest) pc) :
    ∃ below e t, s.Leaves m below e t ∧
      t.cursor = .fresh rest (pc + (Opcode.loadInt slot).length) := by
  by_cases hn : slot < 256 → ∀ top below, s.stack = top :: below →
      top.element.isPendingIncrementOf (v.load slot) = false
  · obtain ⟨t, ht⟩ := h.leaves_load hv hlt hc hn
    exact ⟨_, _, t, ht⟩
  · push Not at hn
    obtain ⟨hplain, top, below, hs, hp⟩ := hn
    obtain ⟨t, ht⟩ := h.leaves_useNew hv hlt hc hplain hs (eq_true_of_ne_false hp)
    exact ⟨_, _, t, ht⟩

theorem exists_leaves_increase (delta : Int8)
    (hc : s.cursor = .fresh (Opcode.increaseInt slot delta ++ rest) pc) :
    ∃ below e t, s.Leaves m below e t ∧
      t.cursor = .fresh rest (pc + (Opcode.increaseInt slot delta).length) := by
  by_cases hn : slot < 256 → ∀ top below, s.stack = top :: below →
      (v.pending slot delta.toInt32).isPendingIncrementOf top.element = false
  · obtain ⟨t, ht⟩ := h.leaves_increase hv hlt delta hc hn
    exact ⟨_, _, t, ht⟩
  · push Not at hn
    obtain ⟨hplain, top, below, hs, hp⟩ := hn
    obtain ⟨t, ht⟩ := h.leaves_useOld hv hlt delta hc hplain hs (eq_true_of_ne_false hp)
    exact ⟨_, _, t, ht⟩

-- A store makes an assignment of what is on top of the stack.
theorem stores (hc : s.cursor = .fresh (Opcode.storeInt slot ++ rest) pc) {top : Entry}
    {below : List Entry} (hs : s.stack = top :: below) :
    ∃ t entry, Registry.core.Executes s t ∧ t.Tame m ∧
      t.cursor = .fresh rest (pc + (Opcode.storeInt slot).length) ∧ t.stack = below ∧
      t.statements = entry :: s.statements ∧
      entry.element.bare = .ofShape (.assign slot v.name v.ty top.element.bare) ∧
      ∀ d ∈ s.entries, d.precedes entry := by
  obtain ⟨head, operand, hcode, -, hstep⟩ :=
    (Opcode.stores_storeInt slot).exec_step h.method hv hlt rest hs
  have hbroad := Element.isNarrowCast_of_kind (h.operands top (hs ▸ List.mem_cons_self ..))
  have hinert : (Element.ofShape (.assign slot v.name v.ty top.element)).isInert := by
    show (decide (v.ty ≠ .boolean) && !top.element.isNarrowCast) = true
    rw [hbroad, decide_eq_true hv.ty]
    rfl
  have hb : below.Sublist s.stack := hs ▸ List.sublist_cons_self ..
  have ht := h.stating hc rest (Nat.le_add_right pc (Opcode.storeInt slot).length) hb hinert
  have hcorrect : exec (Registry.runAll head (Registry.core.rules .corrective head))
      (s.stating below (.ofShape (.assign slot v.name v.ty top.element)) rest
        (pc + (Opcode.storeInt slot).length) pc) =
      (.ok ⟨⟩, s.stating below (.ofShape (.assign slot v.name v.ty top.element)) rest
        (pc + (Opcode.storeInt slot).length) pc) := by
    rcases Registry.exec_corrections_store (hcode ▸ Opcode.stores_storeInt slot) rfl
      ht.narrowIncrement? with hcorrect | ⟨e, he, -⟩
    · exact hcorrect
    · have hnone := Element.booleanAssignment?_eq_none (ht.stated _ (List.mem_cons_self ..))
      rw [hnone] at he
      cases he
  have hordered := h.ordered.moved hc rest (Nat.le_add_right pc (Opcode.storeInt slot).length)
  rw [hcode] at hc
  have hex := Registry.executes_of_fresh h.running hc (hstep.trans hcorrect)
  refine ⟨_, (s.moved rest (pc + (Opcode.storeInt slot).length) pc).entry _, hex, ht, rfl, rfl,
    rfl, bare_entry _ _, fun d hd => hordered.precedes_entry hd _⟩

end Tame

end State

end JvmLift
