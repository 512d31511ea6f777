import JvmLift.Proofs.Completion

namespace JvmLift

-- The position at which an element was made.
def Element.origin (e : Element) : Nat :=
  e.stamp.pc.getD 0

theorem Element.stamp_settled (e : Element) : e.settled.stamp = e.stamp := by
  unfold Element.settled
  split <;> rfl

namespace Entry

-- What an entry keeps from when it is made to the end: its mark and the stamp of its element.
def label (e : Entry) : (Nat × Nat) × Stamp :=
  (e.mark, e.element.stamp)

variable {d e : Entry}

theorem pc_of_label (h : d.label = e.label) : d.pc = e.pc :=
  congrArg (·.1.1) h

theorem version_of_label (h : d.label = e.label) : d.version = e.version :=
  congrArg (·.1.2) h

theorem origin_of_label (h : d.label = e.label) : d.element.origin = e.element.origin :=
  congrArg (·.2.pc.getD 0) h

theorem isStamped_of_label (h : d.label = e.label) :
    d.element.isStamped = e.element.isStamped :=
  congrArg (·.2.pc.isSome) h

theorem precedes_of_label {a b : Entry} (hd : d.label = a.label) (he : e.label = b.label)
    (h : d.precedes e) : a.precedes b := by
  rw [precedes_iff] at h ⊢
  rwa [← pc_of_label hd, ← pc_of_label he, ← version_of_label hd, ← version_of_label he]

theorem label_settled (e : Entry) : e.settled.label = e.label :=
  congrArg (Prod.mk e.mark) e.element.stamp_settled

end Entry

theorem State.isStamped_entry (s : State) (e : Element) : (s.entry e).element.isStamped := by
  show (s.stamp e).isStamped
  unfold State.stamp
  split
  · assumption
  · rfl

-- Every entry of a state is one of another state as far as its label goes.
def State.Within (t s : State) : Prop :=
  ∀ e ∈ t.entries, e.label ∈ s.entries.map Entry.label

namespace State.Within

variable {s t u : State}

theorem refl (s : State) : s.Within s :=
  fun _ he => List.mem_map_of_mem he

theorem of_sublist (h : t.entries.Sublist s.entries) : t.Within s :=
  fun _ he => List.mem_map_of_mem (h.subset he)

theorem trans (h : u.Within t) (h' : t.Within s) : u.Within s := by
  intro e he
  obtain ⟨d, hd, hlabel⟩ := List.mem_map.1 (h e he)
  rw [← hlabel]
  exact h' d hd

theorem reduce (s : State) : (exec Action.reduce s).2.Within s := by
  rw [Action.exec_reduce]
  cases hs : s.stack with
  | nil => exact refl s
  | cons top rest =>
    dsimp only
    split
    · intro e he
      rcases List.mem_append.1 he with he | he
      · exact List.mem_map_of_mem (List.mem_append_left _ (hs ▸ List.mem_cons_of_mem _ he))
      · rcases mem_file.1 he with rfl | he
        · have htop : top ∈ s.entries := List.mem_append_left _ (hs ▸ List.mem_cons_self ..)
          have hlabel := Entry.label_settled top
          exact List.mem_map.2 ⟨top, htop, hlabel.symm⟩
        · exact List.mem_map_of_mem (List.mem_append_right _ he)
    · exact refl s

theorem reduceMany (n : Nat) (s : State) : (exec (Action.reduceMany n) s).2.Within s :=
  Action.reduceMany_induct (·.Within s) (fun t h => (reduce t).trans h) n (refl s)

end State.Within

-- What an operation leaves was there before, or is made by it.
theorem Operation.label_mem {α : Type} (op : Operation α) (s : State) :
    ∀ e ∈ (exec op.action s).2.entries,
      e.label ∈ s.entries.map Entry.label ∨ ∃ x, e = s.entry x := by
  have hkept {t : State} (h : t.Within s) :
      ∀ e ∈ t.entries, e.label ∈ s.entries.map Entry.label ∨ ∃ x, e = s.entry x :=
    fun e he => .inl (h e he)
  cases op with
  | nextInstruction =>
    rw [action, Action.exec_nextInstruction]
    rcases exec Reading.instruction s.cursor with ⟨_ | _, c⟩
    · exact hkept (State.Within.refl s)
    · exact hkept (State.Within.refl s)
  | next | peek | commit | skip =>
    rw [action, Action.exec_read]
    exact hkept (State.Within.refl s)
  | push x =>
    intro e he
    rcases List.mem_cons.1 he with rfl | he
    · exact .inr ⟨x, rfl⟩
    · exact .inl (List.mem_map_of_mem he)
  | pop =>
    rw [action, Action.exec_popEntry]
    cases hs : s.stack with
    | nil => exact hkept (State.Within.refl s)
    | cons top rest =>
      refine hkept (State.Within.of_sublist ?_)
      rw [State.entries, State.entries, hs]
      exact List.sublist_cons_self ..
  | popMany count =>
    rw [action, Action.exec_popMany]
    split
    · exact hkept (State.Within.refl s)
    · exact hkept (State.Within.of_sublist ((List.drop_sublist ..).append_right _))
  | insert offset x =>
    rw [action, Action.exec_insert]
    split
    · exact hkept (State.Within.refl s)
    · rename_i ho
      simp only [Bool.or_eq_true, decide_eq_true_eq] at ho
      intro e he
      rcases List.mem_append.1 he with he | he
      · rcases (List.mem_insertIdx (by omega)).1 he with rfl | he
        · exact .inr ⟨x, rfl⟩
        · exact .inl (List.mem_map_of_mem (List.mem_append_left _ he))
      · exact .inl (List.mem_map_of_mem (List.mem_append_right _ he))
  | reduce => exact hkept (State.Within.reduce s)
  | reduceAll => exact hkept (State.Within.reduceMany _ s)
  | enlist x =>
    intro e he
    rcases List.mem_append.1 he with he | he
    · exact .inl (List.mem_map_of_mem (List.mem_append_left _ he))
    · rcases List.mem_cons.1 he with rfl | he
      · exact .inr ⟨x, rfl⟩
      · exact .inl (List.mem_map_of_mem (List.mem_append_right _ he))
  | removeStatement index =>
    rw [action, Action.exec_removeStatement]
    split
    · exact hkept (State.Within.of_sublist ((List.eraseIdx_sublist ..).append_left _))
    · exact hkept (State.Within.refl s)
  | removeLastStatement =>
    rw [action, Action.exec_removeLastStatement]
    cases hs : s.statements with
    | nil => exact hkept (State.Within.refl s)
    | cons last rest =>
      refine hkept (State.Within.of_sublist ?_)
      rw [State.entries, State.entries, hs]
      exact (List.sublist_cons_self ..).append_left _
  | replaceStatement index x =>
    rw [action, Action.exec_replaceStatement]
    split
    · refine hkept fun e he => ?_
      rcases List.mem_append.1 he with he | he
      · exact List.mem_map_of_mem (List.mem_append_left _ he)
      · -- the element that takes the place takes over the stamp
        have hlabels := map_modify_of_eq (g := Entry.label)
          (f := fun old : Entry => { old with element := x.stamped old.element.stamp })
          (fun _ => rfl) s.statements (s.statements.length - 1 - index)
        have hlabel := hlabels ▸ List.mem_map_of_mem he
        rw [State.entries, List.map_append]
        exact List.mem_append_right _ hlabel
    · exact hkept (State.Within.refl s)
  | abort => exact hkept (State.Within.refl s)

-- No operation takes back a turn, and none goes back to an instruction.
theorem Operation.progress {α : Type} (op : Operation α) {s : State} (h : s.Ordered) :
    s.version ≤ (exec op.action s).2.version ∧
      s.instructionPc ≤ (exec op.action s).2.instructionPc := by
  have hreduce (t : State) (ht : s.version ≤ t.version ∧ s.instructionPc ≤ t.instructionPc) :
      s.version ≤ (exec Action.reduce t).2.version ∧
        s.instructionPc ≤ (exec Action.reduce t).2.instructionPc := by
    rw [Action.exec_reduce]
    cases t.stack with
    | nil => exact ht
    | cons top rest =>
      dsimp only
      split
      · exact ht
      · exact ht
  have hsame : s.version ≤ s.version ∧ s.instructionPc ≤ s.instructionPc := ⟨by omega, by omega⟩
  have hmade : s.version ≤ s.version + 1 ∧ s.instructionPc ≤ s.instructionPc :=
    ⟨by omega, by omega⟩
  cases op with
  | nextInstruction =>
    rw [action, Action.exec_nextInstruction]
    rcases exec Reading.instruction s.cursor with ⟨_ | _, c⟩
    · exact hsame
    · exact ⟨Nat.le_refl _, h.read⟩
  | next | peek | commit | skip =>
    rw [action, Action.exec_read]
    exact hsame
  | push x | enlist x => exact hmade
  | pop =>
    rw [action, Action.exec_popEntry]
    cases s.stack with
    | nil => exact hsame
    | cons top rest => exact hsame
  | popMany count =>
    rw [action, Action.exec_popMany]
    split
    · exact hsame
    · exact hsame
  | insert offset x =>
    rw [action, Action.exec_insert]
    split
    · exact hsame
    · exact hmade
  | reduce => exact hreduce s hsame
  | reduceAll => exact Action.reduceMany_induct _ hreduce _ hsame
  | removeStatement index =>
    rw [action, Action.exec_removeStatement]
    split
    · exact hsame
    · exact hsame
  | removeLastStatement =>
    rw [action, Action.exec_removeLastStatement]
    cases s.statements with
    | nil => exact hsame
    | cons last rest => exact hsame
  | replaceStatement index x =>
    rw [action, Action.exec_replaceStatement]
    split
    · exact hsame
    · exact hsame
  | abort => exact hsame

-- What a state has left of an earlier one, and what was made since.
structure State.Follows (t s : State) : Prop where
  version : s.version ≤ t.version
  pc : s.pc ≤ t.pc
  entries : ∀ e ∈ t.entries,
    e.label ∈ s.entries.map Entry.label ∨ s.version < e.version ∧ s.pc ≤ e.pc

theorem State.Follows.refl (s : State) : s.Follows s where
  version := Nat.le_refl _
  pc := Nat.le_refl _
  entries _ he := .inl (List.mem_map_of_mem he)

theorem State.Follows.trans {s t u : State} (h : u.Follows t) (h' : t.Follows s) :
    u.Follows s where
  version := Nat.le_trans h'.version h.version
  pc := Nat.le_trans h'.pc h.pc
  entries e he := by
    have hv := h'.version
    have hp := h'.pc
    rcases h.entries e he with hold | ⟨hversion, hpc⟩
    · obtain ⟨d, hd, hlabel⟩ := List.mem_map.1 hold
      rw [← hlabel, ← Entry.version_of_label hlabel, ← Entry.pc_of_label hlabel]
      exact h'.entries d hd
    · exact .inr ⟨by omega, by omega⟩

-- What holds while an instruction is executed that was read in an earlier state. The cursor may be
-- anywhere behind it.
structure State.Amid (t s : State) : Prop where
  ordered : t.Ordered
  version : s.version ≤ t.version
  place : s.pc ≤ t.instructionPc
  entries : ∀ e ∈ t.entries,
    e.label ∈ s.entries.map Entry.label ∨ s.version < e.version ∧ s.pc ≤ e.pc

namespace State.Amid

variable {s t : State}

theorem operate (h : t.Amid s) {α : Type} (op : Operation α) : (exec op.action t).2.Amid s := by
  obtain ⟨hversion, hplace⟩ := op.progress h.ordered
  refine ⟨h.ordered.operate op, Nat.le_trans h.version hversion, Nat.le_trans h.place hplace,
    fun e he => ?_⟩
  rcases op.label_mem t e he with hold | ⟨x, rfl⟩
  · obtain ⟨d, hd, hlabel⟩ := List.mem_map.1 hold
    rw [← hlabel, ← Entry.version_of_label hlabel, ← Entry.pc_of_label hlabel]
    exact h.entries d hd
  · exact .inr ⟨Nat.lt_succ_of_le h.version, h.place⟩

-- Looking at the next instruction leaves the cursor where it is.
theorem followingCode? (h : t.Amid s) : (exec Action.followingCode? t).2.Amid s := by
  rw [Action.Composed.exec_followingCode?]
  refine ⟨h.ordered.read_on ?_, h.version, h.place, h.entries⟩
  exact Nat.le_of_eq (Reading.pc_peekInstruction t.cursor).symm

theorem follows (h : t.Amid s) : t.Follows s :=
  ⟨h.version, Nat.le_trans h.place h.ordered.read, h.entries⟩

end State.Amid

namespace Registry

section Core

variable {s t u : State}

-- An instruction adds entries at its own position and changes no label.
theorem Executes.follows (h : core.Executes s t) (ho : s.Ordered) : t.Ordered ∧ t.Follows s := by
  obtain ⟨code, c, hi, ht⟩ := h.exists_read
  have hc := Reading.pc_le_instruction s.cursor
  rw [hi] at hc
  have hread : ({ s with cursor := c, instructionPc := s.pc } : State).Amid s :=
    ⟨ho.next_instruction hc, Nat.le_refl _, Nat.le_refl _,
      fun e he => .inl (List.mem_map_of_mem he)⟩
  have hkept := (composed_step_core code).preserves (State.Amid · s)
    (fun op _ _ h => h.operate op) (fun _ h => h.followingCode?) hread
  rw [ht] at hkept
  exact ⟨hkept.ordered, hkept.follows⟩

theorem Runs.follows (h : core.Runs s t) (ho : s.Ordered) : t.Ordered ∧ t.Follows s := by
  induction h with
  | refl => exact ⟨ho, .refl s⟩
  | tail _ he ih =>
    obtain ⟨ht, hf⟩ := he.follows ih.1
    exact ⟨ht, hf.trans ih.2⟩

-- Every entry of a run was made by one of its instructions.
theorem Runs.exists_maker (h : core.Runs s u) (ho : s.Ordered) (hs : s.entries = []) {e : Entry}
    (he : e ∈ u.entries) :
    ∃ v t, core.Runs s v ∧ core.Executes v t ∧ core.Runs t u ∧ v.version < e.version ∧
      e.label ∈ t.entries.map Entry.label := by
  induction h generalizing e with
  | refl =>
    rw [hs] at he
    cases he
  | @tail v t hr hx ih =>
    obtain ⟨hv, -⟩ := Runs.follows hr ho
    rcases (hx.follows hv).2.entries e he with hold | ⟨hversion, -⟩
    · obtain ⟨d, hd, hlabel⟩ := List.mem_map.1 hold
      obtain ⟨v', t', hr', hx', hrest, hversion, hmem⟩ := ih hd
      rw [hlabel] at hmem
      rw [Entry.version_of_label hlabel] at hversion
      exact ⟨v', t', hr', hx', hrest.tail hx, hversion, hmem⟩
    · exact ⟨v, t, hr, hx, .refl, hversion, List.mem_map_of_mem he⟩

end Core

end Registry

-- Every entry is stamped when it is made, and stays so.
def State.Stamped (s : State) : Prop :=
  ∀ e ∈ s.entries, e.element.isStamped

theorem State.Within.stamped {s t : State} (h : t.Within s) (hs : s.Stamped) : t.Stamped := by
  intro e he
  obtain ⟨d, hd, hlabel⟩ := List.mem_map.1 (h e he)
  rw [← Entry.isStamped_of_label hlabel]
  exact hs d hd

namespace Registry

theorem Executes.stamped {s t : State} (h : core.Executes s t) (hs : s.Stamped) : t.Stamped := by
  have hoperate {α : Type} (op : Operation α) (u : State) (hu : u.Stamped) :
      (exec op.action u).2.Stamped := by
    intro e he
    rcases op.label_mem u e he with hold | ⟨x, rfl⟩
    · obtain ⟨d, hd, hlabel⟩ := List.mem_map.1 hold
      rw [← Entry.isStamped_of_label hlabel]
      exact hu d hd
    · exact u.isStamped_entry x
  obtain ⟨-, code, u, hu, ht⟩ := h
  have hfetched := hoperate .nextInstruction s hs
  have hnext : exec Operation.nextInstruction.action s = (.ok code, u) := hu
  rw [hnext] at hfetched
  have hkept := (composed_step_core code).preserves State.Stamped (fun op _ => hoperate op)
    (fun v hv => by
      rw [Action.Composed.exec_followingCode?]
      exact hv) hfetched
  rwa [ht] at hkept

theorem Runs.stamped {s t : State} (h : core.Runs s t) (hs : s.Stamped) : t.Stamped := by
  induction h with
  | refl => exact hs
  | tail _ he ih => exact he.stamped ih

end Registry

-- The statements are in the order of their origins if no two of them are the other way round.
theorem State.Ordered.pairwise_origin_iff {s : State} (h : s.Ordered) :
    (s.result.Pairwise fun a b => a.origin ≤ b.origin) ↔
      ∀ d ∈ s.statements, ∀ e ∈ s.statements, d.precedes e →
        d.element.origin ≤ e.element.origin := by
  rw [State.result, List.pairwise_map]
  constructor
  · intro hp d hd e he
    have hforward := hp.imp (S := fun a b : Entry => a.precedes b → a.element.origin ≤ b.element.origin)
      fun hle _ => hle
    -- of two statements only one precedes the other
    have hback := h.increasing.imp
      (S := flip fun a b : Entry => a.precedes b → a.element.origin ≤ b.element.origin) (by
      intro a b hab hba
      rw [Entry.precedes_iff] at hab hba
      omega)
    have hall := hforward.forall_of_forall_of_flip (fun _ _ _ => Nat.le_refl _) hback
    exact hall (List.mem_reverse.2 hd) (List.mem_reverse.2 he)
  · intro hle
    exact h.increasing.imp_of_mem fun ha hb hab =>
      hle _ (List.mem_reverse.1 ha) _ (List.mem_reverse.1 hb) hab

namespace Registry

-- An instruction has put an entry behind another one that was made later.
structure Misplaces (s t : State) (d e : Entry) : Prop where
  there : d ∈ t.entries
  moved : e ∈ t.entries
  now : s.version < e.version
  behind : d.precedes e
  later : e.element.origin < d.element.origin

section Order

variable {s t u v : State}

-- What is left in the end and is as old as a state of the run is an entry of that state.
theorem Runs.exists_entry (htu : core.Runs t u) (ht : t.Ordered) (hwithin : v.Within u) {x : Entry}
    (hx : x ∈ v.statements) (hold : x.version ≤ t.version ∨ x.pc < t.pc) :
    ∃ y ∈ t.entries, y.label = x.label := by
  obtain ⟨z, hz, hlabel⟩ := List.mem_map.1 (hwithin x (List.mem_append_right _ hx))
  rcases (Runs.follows htu ht).2.entries z hz with hmem | ⟨hversion, hpc⟩
  · obtain ⟨y, hy, hlabel'⟩ := List.mem_map.1 hmem
    exact ⟨y, hy, hlabel'.trans hlabel⟩
  · rw [Entry.version_of_label hlabel] at hversion
    rw [Entry.pc_of_label hlabel] at hpc
    omega

-- A turn is that of one entry.
theorem Runs.label_eq (htu : core.Runs t u) (ht : t.Ordered) (hwithin : v.Within u) {x y : Entry}
    (hx : x ∈ v.statements) (hy : y ∈ t.entries) (hversion : x.version = y.version) :
    x.label = y.label := by
  obtain ⟨z, hz, hlabel⟩ := htu.exists_entry ht hwithin hx (.inl (hversion ▸ ht.counted y hy))
  have hzy : z.version = y.version := (Entry.version_of_label hlabel).trans hversion
  rw [← hlabel, List.inj_on_of_nodup_map ht.distinct hz hy hzy]

-- Where the statements are in order, none of those that are misplaced is left in the end.
theorem Misplaces.not_mem (h : Misplaces s t d e) (htu : core.Runs t u) (ht : t.Ordered)
    (hwithin : v.Within u)
    (hsorted : ∀ d ∈ v.statements, ∀ e ∈ v.statements, d.precedes e →
      d.element.origin ≤ e.element.origin)
    (hd : d.version ∈ v.statements.map (·.version)) :
    e.version ∉ v.statements.map (·.version) := by
  intro hkept
  obtain ⟨d', hd', hdv⟩ := List.mem_map.1 hd
  obtain ⟨e', he', hev⟩ := List.mem_map.1 hkept
  have hdlabel := htu.label_eq ht hwithin hd' h.there hdv
  have helabel := htu.label_eq ht hwithin he' h.moved hev
  have hle := hsorted d' hd' e' he'
    (Entry.precedes_of_label hdlabel.symm helabel.symm h.behind)
  rw [Entry.origin_of_label hdlabel, Entry.origin_of_label helabel] at hle
  exact absurd h.later (Nat.not_lt_of_le hle)

-- Statements that are out of order were misplaced by the instruction that made the later one.
theorem exists_misplaces (hruns : core.Runs s u) (hs : s.Ordered) (hempty : s.entries = [])
    (hwithin : v.Within u) {d e : Entry} (hd : d ∈ v.statements) (he : e ∈ v.statements)
    (hprecedes : d.precedes e) (hlater : e.element.origin < d.element.origin) :
    ∃ r t d' e', core.Runs s r ∧ core.Executes r t ∧ Misplaces r t d' e' ∧
      d'.label = d.label ∧ e'.label = e.label := by
  obtain ⟨z, hz, hlabel⟩ := List.mem_map.1 (hwithin e (List.mem_append_right _ he))
  obtain ⟨r, t, hr, hx, htu, hversion, hmem⟩ := Runs.exists_maker hruns hs hempty hz
  rw [hlabel] at hmem
  obtain ⟨e', he', helabel⟩ := List.mem_map.1 hmem
  obtain ⟨ht, -⟩ := hx.follows (Runs.follows hr hs).1
  -- what precedes the entry was made by the same instruction or before
  have hcounted := ht.counted e' he'
  have hplace := (ht.placed e' he').2
  have hread := ht.read
  have hepc := Entry.pc_of_label helabel
  have heversion := Entry.version_of_label helabel
  have hp := Entry.precedes_iff.1 hprecedes
  obtain ⟨d', hd', hdlabel⟩ := htu.exists_entry ht hwithin hd (by omega)
  rw [Entry.version_of_label hlabel, ← heversion] at hversion
  refine ⟨r, t, d', e', hr, hx, ⟨hd', he', hversion, ?_, ?_⟩, hdlabel, helabel⟩
  · exact Entry.precedes_of_label hdlabel.symm helabel.symm hprecedes
  · rw [Entry.origin_of_label hdlabel, Entry.origin_of_label helabel]
    exact hlater

-- The statements of a run are in the order of the code exactly if no instruction has put an entry
-- behind one that was made later, where both become statements.
theorem decompile_ordered_iff {σ : Type} (observer : Observer σ) (memory : σ) (m : Method)
    (code : Bytes) (start : Nat) {statements : List Element}
    (hquiet : ∀ memory s, (observer.notice memory s).2 = s)
    (h : (core.decompile observer memory m (.behind code start)).result = .ok statements) :
    let versions :=
      (core.decompile observer memory m (.behind code start)).state.statements.map (·.version)
    (∀ e ∈ statements, e.isStamped) ∧
      ((statements.Pairwise fun a b => a.origin ≤ b.origin) ↔
        ∀ s t d e, core.Runs (.start m (.behind code start)) s → core.Executes s t →
          Misplaces s t d e → d.version ∈ versions → e.version ∉ versions) := by
  obtain ⟨u, hruns, hdone, hstate, hfinish⟩ := exists_runs_of_decompile hquiet h
  rw [hstate, result_of_exec_finish hfinish]
  have hend := endsAt_behind code start
  have hstart := State.ordered_start m (.behind code start)
  have hu := (Runs.follows hruns hstart).1
  have hv : (exec finish u).2.Ordered := by
    rw [exec_finish_snd]
    exact hu.reduceMany _
  have hwithin : (exec finish u).2.Within u := by
    rw [exec_finish_snd]
    exact .reduceMany _ u
  generalize (exec finish u).2 = v at hv hwithin
  refine ⟨fun e he => ?_, ?_⟩
  · obtain ⟨x, hx, rfl⟩ := List.mem_map.1 he
    have hstamped := Runs.stamped hruns (List.forall_mem_nil _)
    exact hwithin.stamped hstamped x (List.mem_append_right _ (List.mem_reverse.1 hx))
  · rw [hv.pairwise_origin_iff]
    constructor
    · intro hsorted s t d e hs he hmisplaced hd
      have htu := he.runs_to_end hend hruns hdone hs
      obtain ⟨ht, -⟩ := he.follows (Runs.follows hs hstart).1
      exact hmisplaced.not_mem htu ht hwithin hsorted hd
    · intro hplaced d hd e he hprecedes
      by_contra hlater
      obtain ⟨s, t, d', e', hs, hx, hmisplaced, hdlabel, helabel⟩ :=
        exists_misplaces hruns hstart rfl hwithin hd he hprecedes (Nat.lt_of_not_le hlater)
      refine hplaced s t d' e' hs hx hmisplaced ?_ ?_
      · rw [Entry.version_of_label hdlabel]
        exact List.mem_map_of_mem hd
      · rw [Entry.version_of_label helabel]
        exact List.mem_map_of_mem he

end Order

-- A method that calls for two values, does something to them and drops them.
def callsThenDrops (between : Bytes) : Method :=
  { className := "A", name := "m", descriptor := "()V", signature := ⟨[], .void⟩
    code := [Opcode.invokestatic, 0, 6, Opcode.invokestatic, 0, 9] ++ between ++
      [Opcode.pop, Opcode.pop, Opcode.returnVoid]
    pool := ⟨#[.utf8 "A", .classRef 1, .utf8 "f", .utf8 "()I", .nameAndType 3 4, .methodRef 2 5,
      .utf8 "h", .nameAndType 7 4, .methodRef 2 8]⟩ }

-- The positions at which the statements of a method were made.
def origins (m : Method) : Option (List (Option Nat)) :=
  (core.decompile Observer.idle ⟨⟩ m (.behind m.code 0)).result.toOption.map (·.map (·.stamp.pc))

theorem exists_statements_of_origins (m : Method) (pcs : List (Option Nat))
    (h : origins m = some pcs) :
    ∃ statements, (core.decompile Observer.idle ⟨⟩ m (.behind m.code 0)).result = .ok statements ∧
      statements.map (·.stamp.pc) = pcs :=
  exists_eq_ok_of_toOption h

theorem pairwise_origin_iff_map (statements : List Element) :
    (statements.Pairwise fun a b => a.origin ≤ b.origin) ↔
      (statements.map (·.stamp.pc)).Pairwise fun a b => a.getD 0 ≤ b.getD 0 := by
  rw [List.pairwise_map]
  rfl

-- The second call is dropped before the first one, and comes behind it all the same.
theorem decompile_ordered_iff_dropped_calls :
    let m := callsThenDrops []
    ∃ statements, (core.decompile Observer.idle ⟨⟩ m (.behind m.code 0)).result = .ok statements ∧
      statements.map (·.stamp.pc) = [some 0, some 3, some 8] ∧
      ∀ s t d e, core.Runs (.start m (.behind m.code 0)) s → core.Executes s t →
        Misplaces s t d e →
        let last := (core.decompile Observer.idle ⟨⟩ m (.behind m.code 0)).state.statements
        d.version ∈ last.map (·.version) → e.version ∉ last.map (·.version) := by
  intro m
  obtain ⟨statements, h, hpcs⟩ := exists_statements_of_origins m
    [some 0, some 3, some 8] (by decide +kernel)
  have hiff := decompile_ordered_iff Observer.idle ⟨⟩ m m.code 0 (fun _ _ => rfl) h
  have hsorted : statements.Pairwise fun a b => a.origin ≤ b.origin := by
    rw [pairwise_origin_iff_map, hpcs]
    decide
  exact ⟨statements, h, hpcs, hiff.2.1 hsorted⟩

-- Two calls that change places before they are dropped come out in the wrong order.
theorem decompile_of_swapped_calls :
    let m := callsThenDrops [Opcode.swap]
    ∃ statements, (core.decompile Observer.idle ⟨⟩ m (.behind m.code 0)).result = .ok statements ∧
      statements.map (·.stamp.pc) = [some 3, some 0, some 9] ∧
      ¬statements.Pairwise fun a b => a.origin ≤ b.origin := by
  intro m
  obtain ⟨statements, h, hpcs⟩ := exists_statements_of_origins m
    [some 3, some 0, some 9] (by decide +kernel)
  refine ⟨statements, h, hpcs, fun hsorted => ?_⟩
  rw [pairwise_origin_iff_map, hpcs] at hsorted
  revert hsorted
  decide

end Registry

end JvmLift
