import JvmLift.Proofs.Counting.Runs

namespace JvmLift

namespace Element

@[simp]
theorem evaluate?_bare (e : Element) (locals : Locals) :
    e.bare.evaluate? locals = e.evaluate? locals := by
  obtain ⟨shape, stamp⟩ := e
  rw [bare_mk]
  cases shape with
  | constant value ty => cases value <;> rfl
  | increment v delta ty affix => cases affix <;> rfl
  | _ => rfl

theorem execute?_map_bare (es : List Element) (locals : Locals) :
    execute? (es.map bare) locals = execute? es locals := by
  induction es generalizing locals with
  | nil => rfl
  | cons e es ih =>
    have hvalue := e.evaluate?_bare locals
    obtain ⟨shape, stamp⟩ := e
    rw [List.map_cons]
    rw [bare_mk] at hvalue ⊢
    cases shape with
    | assign slot name ty value =>
      simp only [execute?, ofShape, Shape.map, evaluate?_bare, ih]
    | ret => rfl
    | _ =>
      simp only [execute?, ofShape, Shape.map, ih] at hvalue ⊢
      rw [hvalue]

theorem increments_mk (shape : Shape Element) (stamp : Stamp) :
    increments ⟨shape, stamp⟩ =
      (increment? ⟨shape, stamp⟩).toList ++ shape.children.flatMap increments := by
  have hbelow : (shape.children.flatMap subterms).filterMap increment? =
      shape.children.flatMap increments := List.filterMap_flatMap
  rw [increments, subterms_mk, List.filterMap_cons, hbelow]
  cases increment? ⟨shape, stamp⟩ <;> rfl

@[simp]
theorem increment?_bare (e : Element) : e.bare.increment? = e.increment? := by
  obtain ⟨shape, stamp⟩ := e
  rw [bare_mk]
  cases shape <;> rfl

@[simp]
theorem increments_bare (e : Element) : e.bare.increments = e.increments := by
  induction e using children_induction with | h e ih =>
  obtain ⟨shape, stamp⟩ := e
  have hroot := increment?_bare ⟨shape, stamp⟩
  have hbelow : (shape.map bare).children.flatMap increments =
      shape.children.flatMap increments := by
    rw [Shape.children_map, List.flatMap_map]
    exact List.flatMap_congr ih
  rw [bare_mk, ofShape] at hroot ⊢
  rw [increments_mk, increments_mk, hbelow, hroot]

theorem bare_settled (e : Element) : e.settled.bare = e.bare.settled := by
  obtain ⟨shape, stamp⟩ := e
  rw [bare_mk]
  cases shape with
  | increment v delta ty affix => cases affix <;> rfl
  | _ => exact bare_mk ..

end Element

namespace Count

-- Finished elements that stand for some statements, whatever follows them.
structure Restores (counts : List Count) (elements : List Element) : Prop where
  increments : List.Forall₂
    (fun c (slot, delta, affix) => slot = c.slot ∧ delta = c.delta.toInt32 ∧ affix ≠ .pending)
    counts (elements.flatMap Element.increments)
  finished : ∀ e ∈ elements, e.contains Element.isUnfinished = false
  execution : ∀ es locals,
    Element.execute? (elements ++ es) locals = Element.execute? es (runAll counts locals)

theorem restores_nil : Restores [] [] where
  increments := .nil
  finished := List.forall_mem_nil _
  execution _ _ := rfl

theorem Restores.append {counts others : List Count} {xs ys : List Element}
    (h : Restores counts xs) (hs : Restores others ys) : Restores (counts ++ others) (xs ++ ys)
    where
  increments := by
    rw [List.flatMap_append]
    exact List.rel_append h.increments hs.increments
  finished := List.forall_mem_append.2 ⟨h.finished, hs.finished⟩
  execution es locals := by
    rw [List.append_assoc, h.execution, hs.execution, runAll, runAll, runAll, List.foldl_append]

variable {c : Count} {v w : LocalVariable} {target : UInt16}

theorem restores_alone (h : c.target = none) :
    Restores [c] [(v.pending c.slot c.delta.toInt32).settled] where
  increments := .cons ⟨rfl, rfl, nofun⟩ .nil
  finished := List.forall_mem_singleton.2 rfl
  execution es locals := by
    simp only [runAll, List.foldl_cons, List.foldl_nil, run, h]
    rfl

theorem restores_before (h : c.target = some target) (hl : c.leading) :
    Restores [c] [.ofShape (.assign target w.name w.ty
      ((v.pending c.slot c.delta.toInt32).withAffix .before))] where
  increments := .cons ⟨rfl, rfl, nofun⟩ .nil
  finished := List.forall_mem_singleton.2 rfl
  execution es locals := by
    simp only [runAll, List.foldl_cons, List.foldl_nil, run, h, hl]
    rfl

theorem restores_after (h : c.target = some target) (hl : c.leading = false) :
    Restores [c] [.ofShape (.assign target w.name w.ty
      ((v.pending c.slot c.delta.toInt32).withAffix .after))] where
  increments := .cons ⟨rfl, rfl, nofun⟩ .nil
  finished := List.forall_mem_singleton.2 rfl
  execution es locals := by
    simp only [runAll, List.foldl_cons, List.foldl_nil, run, h, hl]
    rfl

theorem restores_apart (h : c.target = some target) (hl : c.leading) :
    Restores [c] [(v.pending c.slot c.delta.toInt32).settled,
      .ofShape (.assign target w.name w.ty (v.load c.slot))] where
  increments := .cons ⟨rfl, rfl, nofun⟩ .nil
  finished := by
    rw [List.forall_mem_cons, List.forall_mem_singleton]
    exact ⟨rfl, rfl⟩
  execution es locals := by
    let counted : Locals := Function.update locals c.slot (locals c.slot + c.delta.toInt32)
    have hvalue : counted c.slot = locals c.slot + c.delta.toInt32 := Function.update_self ..
    simp only [runAll, List.foldl_cons, List.foldl_nil, run, h, hl]
    show Element.execute? es (Function.update counted target (counted c.slot)) = _
    rw [hvalue]
    rfl

end Count

namespace State

variable {m : Method} {s t u : State} {below : List Entry} {d e : Element}

namespace Leaves

theorem trans (h : s.Leaves m below d t) {others : List Entry} (h' : t.Leaves m others e u) :
    s.Leaves m others e u where
  runs := h.runs.trans h'.runs
  tame := h'.tame
  statements := h'.statements.trans h.statements
  top := by
    have htop := h'.top
    rwa [h.statements] at htop

-- What is left on the stack counts as a statement in the end.
theorem flush_result (h : s.Leaves m s.stack e t) :
    t.flush.result.map Element.bare = s.flush.result.map Element.bare ++ [e.settled] := by
  obtain ⟨entry, hstack, rfl, hlast⟩ := h.top
  have hflush := flush_of_last hlast (.inr ⟨hstack, h.statements⟩)
  have hentry : entry.settled.element.bare = entry.element.bare.settled := Element.bare_settled _
  rw [result, hflush, List.reverse_cons, List.map_append, List.map_append, List.map_singleton,
    List.map_singleton, hentry]
  rfl

end Leaves

-- A run that makes a statement, with some entries left on the stack.
structure Assigns (m : Method) (s : State) (below : List Entry) (e : Element) (t : State) :
    Prop where
  runs : Registry.core.Runs s t
  tame : t.Tame m
  stack : t.stack = below
  statements : ∃ entry, t.statements = entry :: s.statements ∧ entry.element.bare = e ∧
    ∀ d ∈ below ++ s.statements, d.precedes entry

theorem Leaves.assigns (h : s.Leaves m below e t) {slot : UInt16} {v : LocalVariable}
    (hv : m.Covers slot v) {rest : Bytes} {pc : Nat} (hlt : pc < m.code.length)
    (hc : t.cursor = .fresh (Opcode.storeInt slot ++ rest) pc) :
    ∃ u, s.Assigns m below (.ofShape (.assign slot v.name v.ty e)) u ∧
      u.cursor = .fresh rest (pc + (Opcode.storeInt slot).length) := by
  obtain ⟨top, hstack, rfl, -⟩ := h.top
  obtain ⟨u, entry, hex, hu, hcu, hbelow, hstatements, hbare, hlast⟩ :=
    h.tame.stores hv hlt hc hstack
  rw [h.statements] at hstatements
  refine ⟨u, ⟨h.runs.tail hex, hu, hbelow, entry, hstatements, hbare, fun d hd => hlast d ?_⟩, hcu⟩
  rw [entries, hstack, h.statements]
  exact List.mem_cons_of_mem _ hd

theorem Assigns.flush_result (h : s.Assigns m s.stack e t) :
    t.flush.result.map Element.bare = s.flush.result.map Element.bare ++ [e] := by
  obtain ⟨entry, hstatements, rfl, hlast⟩ := h.statements
  have hinert := h.tame.stated entry (hstatements ▸ List.mem_cons_self ..)
  have hsettled := Entry.settled_of_isInert hinert
  have hflush := flush_of_last hlast (.inl ⟨h.stack, hsettled.symm ▸ hstatements⟩)
  rw [result, hflush, hsettled, List.reverse_cons, List.map_append, List.map_append]
  rfl

-- A tame state with nothing but increments on the stack, and with a pending one of the parked
-- variable on top if there is any.
structure Parked (m : Method) (parked : Option UInt16) (s : State) : Prop where
  tame : s.Tame m
  increments : ∀ e ∈ s.stack, e.element.kind = .increment
  top : match parked with
    | none => s.stack = []
    | some slot => ∃ top below v delta, s.stack = top :: below ∧ m.Covers slot v ∧
      top.element.bare = v.pending slot delta

end State

namespace Opcode

theorem length_loadInt_pos (slot : UInt16) : 0 < (loadInt slot).length :=
  (loads_loadInt slot).length_pos

theorem length_storeInt_pos (slot : UInt16) : 0 < (storeInt slot).length :=
  (stores_storeInt slot).length_pos

theorem length_increaseInt_pos (slot : UInt16) (delta : Int8) :
    0 < (increaseInt slot delta).length := by
  unfold increaseInt
  split_ifs <;> exact Nat.succ_pos _

end Opcode

theorem Method.Covers.unique {m : Method} {slot : UInt16} {v w : LocalVariable}
    (hv : m.Covers slot v) (hw : m.Covers slot w) : v = w :=
  hw.only v hv.declared hv.placed

namespace State.Parked

variable {m : Method} {s : State} {parked : Option UInt16} (h : s.Parked m parked)
include h

theorem not_isPendingIncrementOf (e : Element) :
    ∀ top below, s.stack = top :: below → e.isPendingIncrementOf top.element = false := by
  intro top below hs
  have hkind := h.increments top (hs ▸ List.mem_cons_self ..)
  obtain ⟨⟨shape, stamp⟩, pc, version⟩ := top
  cases shape with
  | increment =>
    obtain ⟨shape, stamp⟩ := e
    cases shape with
    | increment v delta ty affix => cases affix <;> rfl
    | _ => rfl
  | _ => cases hkind

-- Only the variable that is parked on top may be merged with a load.
theorem isPendingIncrementOf_load {slot : UInt16} {v : LocalVariable} (hne : parked ≠ some slot) :
    ∀ top below, s.stack = top :: below →
      top.element.isPendingIncrementOf (v.load slot) = false := by
  intro top below hs
  have htop := h.top
  cases parked with
  | none =>
    rw [hs] at htop
    cases htop
  | some other =>
    obtain ⟨top', below', w, delta, hs', -, hbare⟩ := htop
    obtain ⟨rfl, rfl⟩ := List.cons.inj (hs.symm.trans hs')
    have hslot : other ≠ slot := fun he => hne (congrArg some he)
    rw [← Element.isPendingIncrementOf_bare, hbare]
    show (decide (other = slot) && _) = false
    rw [decide_eq_false hslot]
    rfl

end State.Parked

namespace Count

-- A method has one int variable for each slot that a statement uses.
def Declared (m : Method) (c : Count) : Prop :=
  ∀ slot ∈ c.slots, ∃ v, m.Covers slot v ∧ v.ty = .int

-- A run that parks what it must and otherwise adds elements to those that the state stands for.
structure Performs (m : Method) (s : State) (parked : Option UInt16) (elements : List Element)
    (t : State) : Prop where
  runs : Registry.core.Runs s t
  parked : t.Parked m parked
  values : t.flush.result.map Element.bare = s.flush.result.map Element.bare ++ elements

theorem Performs.trans {m : Method} {s t u : State} {parked parked' : Option UInt16}
    {before after : List Element} (h : Performs m s parked before t)
    (h' : Performs m t parked' after u) : Performs m s parked' (before ++ after) u where
  runs := h.runs.trans h'.runs
  parked := h'.parked
  values := by rw [h'.values, h.values, List.append_assoc]

section Clear

variable {m : Method} {s t : State} {c : Count} {parked : Option UInt16} {slot : UInt16}
  {v w : LocalVariable} (hp : s.Parked m parked)
include hp

-- An increment that stays on the stack is parked.
theorem performs_of_leaves (hv : m.Covers slot v) {delta : Int32}
    (h : s.Leaves m s.stack (v.pending slot delta) t) :
    Performs m s (some slot) [(v.pending slot delta).settled] t := by
  refine ⟨h.runs, ⟨h.tame, ?_, ?_⟩, h.flush_result⟩
  · obtain ⟨entry, hstack, hbare, -⟩ := h.top
    rw [hstack, List.forall_mem_cons, ← Element.kind_bare, hbare]
    exact ⟨rfl, hp.increments⟩
  · obtain ⟨entry, hstack, hbare, -⟩ := h.top
    exact ⟨entry, s.stack, v, delta, hstack, hv, hbare⟩

theorem performs_of_assigns {e : Element} (h : s.Assigns m s.stack e t) :
    Performs m s parked [e] t := by
  refine ⟨h.runs, ⟨h.tame, ?_, ?_⟩, h.flush_result⟩
  · rw [h.stack]
    exact hp.increments
  · rw [h.stack]
    exact hp.top

variable {rest : Bytes} {pc : Nat} (hv : m.Covers c.slot v)
include hv

-- An increment alone is parked.
theorem exists_performs_alone (ht : c.target = none)
    (hc : s.cursor = .fresh (c.code ++ rest) pc) (hlen : pc + c.code.length ≤ m.code.length) :
    ∃ t elements, Performs m s (c.parks parked) elements t ∧ Restores [c] elements ∧
      t.cursor = .fresh rest (pc + c.code.length) := by
  have hcode : c.code = Opcode.increaseInt c.slot c.delta := by simp only [code, ht]
  have hparks : c.parks parked = some c.slot := by simp [parks, ht]
  have hpos := Opcode.length_increaseInt_pos c.slot c.delta
  rw [hcode] at hc hlen ⊢
  have hlt : pc < m.code.length := by omega
  obtain ⟨t, hleaves, hct⟩ := hp.tame.leaves_increase hv hlt c.delta hc fun _ =>
    hp.not_isPendingIncrementOf _
  rw [hparks]
  exact ⟨t, _, performs_of_leaves hp hv hleaves, restores_alone ht, hct⟩

section Value

variable (hc : s.cursor = .fresh (c.value ++ rest) pc)
  (hlen : pc + c.value.length ≤ m.code.length)
include hc hlen

-- An increment in front of a load is parked at first.
theorem exists_leaves_leading (hl : c.leading) :
    ∃ t, s.Leaves m s.stack (v.pending c.slot c.delta.toInt32) t ∧
      t.cursor = .fresh (Opcode.loadInt c.slot ++ rest)
        (pc + (Opcode.increaseInt c.slot c.delta).length) := by
  have hload := Opcode.length_loadInt_pos c.slot
  rw [value_of_leading hl, List.length_append] at hlen
  rw [value_of_leading hl, List.append_assoc] at hc
  have hlt : pc < m.code.length := by omega
  exact hp.tame.leaves_increase hv hlt c.delta hc fun _ => hp.not_isPendingIncrementOf _

-- The load of a new value finds the increment below it.
theorem exists_leaves_before (hl : c.leading) (hplain : c.slot < 256) :
    ∃ t, s.Leaves m s.stack ((v.pending c.slot c.delta.toInt32).withAffix .before) t ∧
      t.cursor = .fresh rest (pc + c.value.length) := by
  obtain ⟨t, ht, hct⟩ := exists_leaves_leading hp hv hc hlen hl
  obtain ⟨top, hstack, hbare, -⟩ := ht.top
  have hload := Opcode.length_loadInt_pos c.slot
  rw [value_of_leading hl, List.length_append] at hlen ⊢
  have hlt : pc + (Opcode.increaseInt c.slot c.delta).length < m.code.length := by omega
  have hpending : top.element.isPendingIncrementOf (v.load c.slot) := by
    rw [← Element.isPendingIncrementOf_bare, hbare]
    exact v.isPendingIncrementOf_load c.slot _
  obtain ⟨u, hu, hcu⟩ := ht.tame.leaves_useNew hv hlt hct hplain hstack hpending
  rw [hbare] at hu
  rw [← Nat.add_assoc]
  exact ⟨u, ht.trans hu, hcu⟩

-- A wide load of a new value does not.
theorem exists_leaves_apart (hl : c.leading) (hwide : ¬c.slot < 256) :
    ∃ t u, s.Leaves m s.stack (v.pending c.slot c.delta.toInt32) t ∧
      t.Leaves m t.stack (v.load c.slot) u ∧ u.cursor = .fresh rest (pc + c.value.length) := by
  obtain ⟨t, ht, hct⟩ := exists_leaves_leading hp hv hc hlen hl
  have hload := Opcode.length_loadInt_pos c.slot
  rw [value_of_leading hl, List.length_append] at hlen ⊢
  have hlt : pc + (Opcode.increaseInt c.slot c.delta).length < m.code.length := by omega
  obtain ⟨u, hu, hcu⟩ := ht.tame.leaves_load hv hlt hct fun hplain => absurd hplain hwide
  rw [← Nat.add_assoc]
  exact ⟨t, u, ht, hu, hcu⟩

-- The increment finds the load of the old value below it, unless the load was merged with what is
-- parked or is wide.
theorem exists_leaves_after (hl : c.leading = false) (hplain : c.slot < 256)
    (hne : parked ≠ some c.slot) :
    ∃ t, s.Leaves m s.stack ((v.pending c.slot c.delta.toInt32).withAffix .after) t ∧
      t.cursor = .fresh rest (pc + c.value.length) := by
  have hincrease := Opcode.length_increaseInt_pos c.slot c.delta
  rw [value_of_not_leading hl, List.length_append] at hlen ⊢
  rw [value_of_not_leading hl, List.append_assoc] at hc
  have hlt : pc < m.code.length := by omega
  have hlt' : pc + (Opcode.loadInt c.slot).length < m.code.length := by omega
  obtain ⟨t, ht, hct⟩ := hp.tame.leaves_load hv hlt hc fun _ => hp.isPendingIncrementOf_load hne
  obtain ⟨top, hstack, hbare, -⟩ := ht.top
  have hpending : (v.pending c.slot c.delta.toInt32).isPendingIncrementOf top.element := by
    rw [← Element.isPendingIncrementOf_bare, hbare]
    exact v.isPendingIncrementOf_load c.slot _
  obtain ⟨u, hu, hcu⟩ := ht.tame.leaves_useOld hv hlt' c.delta hct hplain hstack hpending
  rw [← Nat.add_assoc]
  exact ⟨u, ht.trans hu, hcu⟩

end Value

-- What is parked stays below an assignment. Only an increment that its load does not see is
-- parked in front of it.
theorem exists_performs_assigned {target : UInt16} (ht : c.target = some target)
    (hw : m.Covers target w) (hclear : c.isClear parked)
    (hc : s.cursor = .fresh (c.code ++ rest) pc) (hlen : pc + c.code.length ≤ m.code.length) :
    ∃ t elements, Performs m s (c.parks parked) elements t ∧ Restores [c] elements ∧
      t.cursor = .fresh rest (pc + c.code.length) := by
  have hstore := Opcode.length_storeInt_pos target
  rw [code_of_target ht, List.length_append] at hlen ⊢
  rw [code_of_target ht, List.append_assoc] at hc
  have hlt : pc + c.value.length < m.code.length := by omega
  rw [← Nat.add_assoc]
  by_cases hl : c.leading
  · by_cases hplain : c.slot < 256
    · have hparks : c.parks parked = parked := by
        have hnot : ¬256 ≤ c.slot := UInt16.not_le.2 hplain
        simp [parks, ht, hnot]
      obtain ⟨t, hleaves, hct⟩ := exists_leaves_before hp hv hc (by omega) hl hplain
      obtain ⟨u, hassigns, hcu⟩ := hleaves.assigns hw hlt hct
      rw [hparks]
      exact ⟨u, _, performs_of_assigns hp hassigns, restores_before ht hl, hcu⟩
    · have hparks : c.parks parked = some c.slot := by
        have hwide : 256 ≤ c.slot := UInt16.not_lt.1 hplain
        simp [parks, hl, hwide]
      obtain ⟨t, u, hleaves, hloaded, hcu⟩ := exists_leaves_apart hp hv hc (by omega) hl hplain
      obtain ⟨x, hassigns, hcx⟩ := hloaded.assigns hw hlt hcu
      have hparked := performs_of_leaves hp hv hleaves
      have hperforms := performs_of_assigns hparked.parked hassigns
      rw [hparks]
      exact ⟨x, _, hparked.trans hperforms, restores_apart ht hl, hcx⟩
  · have hl : c.leading = false := by simpa using hl
    have hparks : c.parks parked = parked := by simp [parks, ht, hl]
    obtain ⟨hplain, hne⟩ : c.slot < 256 ∧ parked ≠ some c.slot := by
      simpa [isClear, ht, hl] using hclear
    obtain ⟨t, hleaves, hct⟩ := exists_leaves_after hp hv hc (by omega) hl hplain hne
    obtain ⟨u, hassigns, hcu⟩ := hleaves.assigns hw hlt hct
    rw [hparks]
    exact ⟨u, _, performs_of_assigns hp hassigns, restores_after ht hl, hcu⟩

omit hv in
-- A statement that is clear is performed in whatever code it stands.
theorem exists_performs (hd : c.Declared m) (hclear : c.isClear parked)
    (hc : s.cursor = .fresh (c.code ++ rest) pc) (hlen : pc + c.code.length ≤ m.code.length) :
    ∃ t elements, Performs m s (c.parks parked) elements t ∧ Restores [c] elements ∧
      t.cursor = .fresh rest (pc + c.code.length) := by
  obtain ⟨v, hv, -⟩ := hd c.slot (List.mem_cons_self ..)
  cases ht : c.target with
  | none => exact exists_performs_alone hp hv ht hc hlen
  | some target =>
    obtain ⟨w, hw, -⟩ := hd target (by simp [slots, ht])
    exact exists_performs_assigned hp hv ht hw hclear hc hlen

end Clear

-- With the return behind them the elements are what the statements are restored from.
theorem Restores.restored {counts : List Count} {elements result : List Element}
    (h : Restores counts elements)
    (hb : result.map Element.bare = elements ++ [.ofShape .ret]) : Restored counts result where
  increments := by
    have hincrements : result.flatMap Element.increments =
        (result.map Element.bare).flatMap Element.increments := by
      rw [List.flatMap_map]
      exact List.flatMap_congr fun e _ => (Element.increments_bare e).symm
    have hret : Element.increments (.ofShape .ret) = [] := rfl
    rw [hincrements, hb, List.flatMap_append, List.flatMap_singleton, hret, List.append_nil]
    exact h.increments
  execution locals := by
    rw [← Element.execute?_map_bare, hb, h.execution]
    rfl

variable {m : Method}

-- Statements that are clear are performed one after the other.
theorem exists_performs_all {counts : List Count} {parked : Option UInt16} {s : State}
    (hp : s.Parked m parked) (hd : ∀ c ∈ counts, c.Declared m) (hclear : allClear parked counts)
    {rest : Bytes} {pc : Nat} (hc : s.cursor = .fresh (counts.flatMap code ++ rest) pc)
    (hlen : pc + (counts.flatMap code).length ≤ m.code.length) :
    ∃ t parked' elements, Performs m s parked' elements t ∧ Restores counts elements ∧
      t.cursor = .fresh rest (pc + (counts.flatMap code).length) := by
  induction counts generalizing s parked pc with
  | nil =>
    have hrefl : Performs m s parked [] s := ⟨.refl, hp, (List.append_nil _).symm⟩
    exact ⟨s, parked, [], hrefl, restores_nil, hc⟩
  | cons c counts ih =>
    obtain ⟨hfirst, hrest⟩ := List.forall_mem_cons.1 hd
    obtain ⟨hclear, hclears⟩ := Bool.and_eq_true_iff.1 hclear
    rw [List.flatMap_cons, List.append_assoc] at hc
    rw [List.flatMap_cons, List.length_append] at hlen ⊢
    obtain ⟨t, xs, ht, hxs, hct⟩ := exists_performs hp hfirst hclear hc (by omega)
    obtain ⟨u, parked', ys, hu, hys, hcu⟩ := ih ht.parked hrest hclears hct (by omega)
    rw [← Nat.add_assoc]
    exact ⟨u, parked', xs ++ ys, ht.trans hu, hxs.append hys, hcu⟩

theorem parked_start (m : Method) : (State.start m (.ofCode m.code)).Parked m none where
  tame := ⟨rfl, rfl, State.ordered_start .., List.forall_mem_nil _, List.forall_mem_nil _⟩
  increments := List.forall_mem_nil _
  top := rfl

theorem isStatement_of_increment {e : Element} (h : e.kind = .increment) : e.isStatement := by
  obtain ⟨shape, stamp⟩ := e
  cases shape with
  | increment => rfl
  | _ => cases h

-- Statements that are all clear are restored from their code.
theorem exists_restored {counts : List Count} (hcode : m.code = body counts)
    (hd : ∀ c ∈ counts, c.Declared m) (hclear : allClear none counts) :
    ∃ result, m.decompile = .ok result ∧ Restored counts result := by
  have hc : (State.start m (.ofCode m.code)).cursor =
      .fresh (counts.flatMap code ++ [Opcode.returnVoid]) 0 := by
    rw [hcode]
    rfl
  have hlen : 0 + (counts.flatMap code).length ≤ m.code.length := by
    rw [hcode, body, List.length_append]
    omega
  obtain ⟨t, parked, elements, ht, helements, hct⟩ :=
    exists_performs_all (parked_start m) hd hclear hc hlen
  have hstatements : ∀ e ∈ t.stack, e.element.isStatement := fun e he =>
    isStatement_of_increment (ht.parked.increments e he)
  obtain ⟨u, hex, hdone, hstack, hvalues⟩ :=
    Registry.exists_executes_return ht.parked.tame.running hct hstatements
  have hbare : u.flush.result.map Element.bare = elements ++ [.ofShape .ret] := by
    rw [hvalues, ht.values]
    rfl
  have hfinished : ∀ e ∈ elements ++ [.ofShape .ret],
      e.contains Element.isUnfinished = false :=
    List.forall_mem_append.2 ⟨helements.finished, List.forall_mem_singleton.2 rfl⟩
  have hresult := Registry.decompile_of_runs (Cursor.endsAt_ofBytes m.code 0)
    (ht.runs.tail hex) (.inr hdone) (by rw [hstack]; exact List.forall_mem_nil _)
  exact ⟨_, hresult.trans (verified_of_bare hbare hfinished), helements.restored hbare⟩

end Count

end JvmLift
