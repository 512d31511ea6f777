import JvmLift.Proofs.Arrays
import JvmLift.Proofs.OperandStack.Agreement

namespace JvmLift

namespace Opcode

abbrev lastore : Opcode := 0x50

abbrev dastore : Opcode := 0x52

-- The category of the element that is read from an array or stored into one.
def elementCategory (code : Opcode) : Nat :=
  if code ∈ [laload, daload, lastore, dastore] then 2 else 1

end Opcode

-- A value on the machine's operand stack: its category and a number that stands for it. Two
-- references are to the same array if their numbers are the same.
structure Cell where
  category : Nat
  value : Nat

namespace Fragment

open Instruction Opcode

-- What the machine takes from its operand stack and leaves on it at an instruction that neither
-- copies a value nor stores into an array, the top first. A new array gets the position of the
-- instruction that makes it, and what is read from a variable or from an array can be any value.
inductive Turns (m : Method) (pc : Nat) : Bytes → List Cell → List Cell → Prop where
  | push {a : Action Unit} {code : Bytes} (h : Pushes a code) (value : Nat) :
    Turns m pc code [] [⟨movedCategory code, value⟩]
  | load {slot : UInt16} {code : Bytes} (h : Loads slot code) (value : Nat) :
    Turns m pc code [] [⟨movedCategory code, value⟩]
  | store {slot : UInt16} {code : Bytes} (h : Stores slot code) (value : Nat) :
    Turns m pc code [⟨movedCategory code, value⟩] []
  | allocate {component : JvmType} {code : Bytes} (h : Allocates m component code)
    (length : Nat) : Turns m pc code [⟨1, length⟩] [⟨1, pc⟩]
  | arrayLoad {code : Opcode} (h : code ∈ range iaload saload) (index array value : Nat) :
    Turns m pc [code] [⟨1, index⟩, ⟨1, array⟩] [⟨elementCategory code, value⟩]

end Fragment

-- A state in straight-line code on arrays and variables. Every entry of its stack has a value.
structure State.Steady (m : Method) (s : State) : Prop where
  plain : (s.at (.fresh s.cursor.remaining s.pc)).Plain m
  valued : ∀ e ∈ s.stack, e.element.isSpent = false

theorem State.Plain.steady {m : Method} {s : State} {c : Cursor} (h : (s.at c).Plain m)
    (hvalued : ∀ e ∈ s.stack, e.element.isSpent = false) : s.Steady m :=
  ⟨⟨h.method, ⟨_, _, rfl⟩, h.entries⟩, hvalued⟩

theorem State.steady_start (m : Method) (code : Bytes) (pc : Nat) :
    (start m (.behind code pc)).Steady m :=
  (State.plain_start m (Cursor.behind_eq code pc)).steady (List.forall_mem_nil _)

namespace Fragment

open Instruction Opcode Registry

section Executed

variable {m : Method} {s t : State} {code rest : Bytes} {below : List Entry} {c : Cursor}
  (hs : s.Steady m)
include hs

-- Behind an instruction that leaves some entries.
theorem steady_of_plain (hb : below ⊆ s.stack) (hplain : (t.at c).Plain m) (ht : t.stack = below) :
    t.Steady m :=
  hplain.steady fun e he => hs.valued e (hb (ht ▸ he))

variable (hrem : s.cursor.remaining = code ++ rest)
include hrem

theorem plain_fresh : (s.at (.fresh (code ++ rest) s.pc)).Plain m :=
  hrem ▸ hs.plain

-- Behind an instruction that leaves some entries and pushes an element on them.
theorem steady_of_push {after : Nat} (hb : below ⊆ s.stack) {e : Element} (hplain : e.isPlain)
    (hvalue : e.isSpent = false) (ht : t.at c =
      (((s.at (.fresh (code ++ rest) s.pc)).moved rest after s.pc).leaving below).push e) :
    t.Steady m ∧ t.stack.length = below.length + 1 := by
  have hstack : t.stack = _ :: below := congrArg State.stack ht
  have hkept : below ⊆ ((s.at (.fresh (code ++ rest) s.pc)).moved rest after s.pc).stack := hb
  have hstays := ((plain_fresh hs hrem).moved rest after s.pc).pushing hkept hplain
  refine ⟨State.Plain.steady (c := c) (ht ▸ hstays) ?_, congrArg List.length hstack⟩
  rw [hstack, List.forall_mem_cons, State.isSpent_entry]
  exact ⟨hvalue, fun e he => hs.valued e (hb he)⟩

variable (he : core.Executes s t)
include he

-- The entries change in number as the values of the machine do.
theorem Turns.executed {takes leaves : List Cell} (h : Turns m s.pc code takes leaves) :
    t.Steady m ∧ t.stack.length + takes.length = s.stack.length + leaves.length := by
  have hplain := plain_fresh hs hrem
  cases h with
  | push h =>
    obtain ⟨c, he⟩ := h.implements.executes_fresh hrem he
    obtain ⟨-, -, e, hk, -, ht⟩ := h.executed hplain he rfl
    exact steady_of_push hs hrem (List.Subset.refl _) (Element.isPlain_of_constant hk)
      (Element.isSpent_of_constant hk) ht
  | load h =>
    obtain ⟨c, he⟩ := h.implements.executes_fresh hrem he
    obtain ⟨-, v, -, ht | ⟨load, increment, below, hstack, hp, -⟩⟩ := h.executed hplain he rfl
    · exact steady_of_push hs hrem (List.Subset.refl _) rfl rfl ht
    · have hstack' : s.stack = increment :: below := hstack
      have hvalue := hs.valued increment (hstack' ▸ List.mem_cons_self ..)
      rw [Element.isSpent_of_isPendingIncrementOf hp] at hvalue
      cases hvalue
  | store h =>
    obtain ⟨c, he⟩ := h.implements.executes_fresh hrem he
    obtain ⟨ht, top, below, v, place, hstack, -, hresult⟩ := h.executed hplain he rfl
    have hstack' : s.stack = top :: below := hstack
    have hleft : t.stack = below := by
      rcases hresult with hresult | ⟨e, -, hresult⟩
      all_goals exact congrArg State.stack hresult
    refine ⟨steady_of_plain hs (hstack' ▸ List.subset_cons_self ..) ht hleft, ?_⟩
    rw [hleft, hstack']
    rfl
  | @allocate component _ h =>
    obtain ⟨a, ha, hcorrected, hexec⟩ := implements_allocation h
    obtain ⟨c, he⟩ := ha.executes_fresh hrem he
    have hmake := ha.exec_of_not_mem rfl he hcorrected
    have hm : ((s.at (.fresh (code ++ rest) s.pc)).moved rest (s.pc + code.length) s.pc).method =
      m := hplain.method
    obtain ⟨length, below, hstack, ht⟩ := Array.allocate_eq_ok ((hexec _ hm).symm.trans hmake)
    have hstack' : s.stack = length :: below := hstack
    obtain ⟨hsteady, hlen⟩ :=
      steady_of_push hs hrem (hstack' ▸ List.subset_cons_self ..) rfl rfl ht
    refine ⟨hsteady, ?_⟩
    rw [hlen, hstack']
    rfl
  | arrayLoad h =>
    obtain ⟨ha, hcorrected⟩ := implements_arrayLoad h
    obtain ⟨c, he⟩ := ha.executes_fresh hrem he
    obtain ⟨index, array, below, ty, hstack, ht⟩ :=
      Array.load_eq_ok (ha.exec_of_not_mem rfl he hcorrected)
    have hstack' : s.stack = index :: array :: below := hstack
    have hb : below ⊆ s.stack := by
      rw [hstack']
      exact List.subset_cons_of_subset _ (List.subset_cons_self ..)
    obtain ⟨hsteady, hlen⟩ := steady_of_push hs hrem hb rfl rfl ht
    refine ⟨hsteady, ?_⟩
    rw [hlen, hstack']
    rfl

-- A store leaves an entry exactly if it finds a new array.
theorem executed_arrayStore {head : Opcode} (h : head ∈ range iastore sastore)
    (hcode : code = [head]) :
    t.Steady m ∧ t.stack.length + 3 = s.stack.length + if s.fillsNewArray then 1 else 0 := by
  subst hcode
  obtain ⟨ha, hcorrected⟩ := implements_arrayStore h
  obtain ⟨c, he⟩ := ha.executes_fresh hrem he
  obtain ⟨value, index, array, below, hstack, hresult⟩ :=
    Array.store_eq_ok (ha.exec_of_not_mem rfl he hcorrected)
  have hstack' : s.stack = value :: index :: array :: below := hstack
  have hb : below ⊆ s.stack := by
    rw [hstack']
    exact List.subset_cons_of_subset _ (List.subset_cons_of_subset _ (List.subset_cons_self ..))
  rcases hresult with ⟨hfills, ht⟩ | ⟨hfills, e, hk, ht⟩
  · have hfills' : s.fillsNewArray = false := hfills
    have hplain := ((plain_fresh hs hrem).moved rest (s.pc + 1) s.pc).enlisting hb
      (e := .ofShape (.arrayStore array.element index.element value.element)) rfl
    have hleft : t.stack = below := congrArg State.stack ht
    refine ⟨steady_of_plain hs hb (ht ▸ hplain) hleft, ?_⟩
    rw [hfills', hleft, hstack']
    rfl
  · have hfills' : s.fillsNewArray = true := hfills
    obtain ⟨shape, stamp⟩ := e
    cases shape with
    | newArray =>
      obtain ⟨hsteady, hlen⟩ := steady_of_push hs hrem hb rfl rfl ht
      refine ⟨hsteady, ?_⟩
      rw [hfills', hlen, hstack']
      rfl
    | _ => cases hk

end Executed

-- A copy adds an entry exactly if it is not that of a new array in front of an index.
theorem executed_copy {m : Method} {s t : State} {rest : Bytes} (hs : s.Steady m)
    (hrem : s.cursor.remaining = dup :: rest) (he : core.Executes s t) :
    t.Steady m ∧ t.stack.length = s.stack.length +
      if s.topIs .newArray ∧ rest.head?.any Array.isIndexCode then 0 else 1 := by
  by_cases htop : s.topIs .newArray
  · obtain ⟨top, below, hstack, hk⟩ := State.topIs_iff.1 htop
    obtain ⟨c, hstep, -, -⟩ := exec_step_dup_newArray hstack hk hrem
    obtain rfl := he.unique (executes_of_cons he.1 hrem hstep)
    have hplain : ((s.fetch.at c).at (.fresh (dup :: rest) s.pc)).Plain m :=
      ⟨hs.plain.method, ⟨_, _, rfl⟩, hs.plain.entries⟩
    have hmem : top ∈ s.stack := hstack ▸ List.mem_cons_self ..
    by_cases hnext : rest.head?.any Array.isIndexCode
    · rw [if_pos hnext, if_pos ⟨htop, hnext⟩]
      exact ⟨hplain.steady hs.valued, rfl⟩
    · rw [if_neg hnext, if_neg fun h => hnext h.2]
      refine ⟨(hplain.push (hs.plain.stack hmem)).steady ?_, rfl⟩
      refine List.forall_mem_cons.2 ⟨?_, hs.valued⟩
      exact (State.isSpent_entry _ _).trans (hs.valued top hmem)
  · rw [if_neg fun h => htop h.1]
    have hplace : s.cursor.Alike (.fresh (dup :: rest) s.pc) := hrem ▸ s.cursor.alike_fresh
    obtain ⟨c, he, -⟩ := he.alike hrem hplace.symm fun _ => htop
    have hplain : (s.at (.fresh ([dup] ++ rest) s.pc)).Plain m := plain_fresh hs hrem
    obtain ⟨hplain, top, below, hstack, ht⟩ := executed_dup hplain he rfl htop
    have hstack' : s.stack = top :: below := hstack
    have hpushed : t.stack = _ :: _ :: below := congrArg State.stack ht
    obtain ⟨htop, hbelow⟩ := List.forall_mem_cons.1 (hstack' ▸ hs.valued)
    refine ⟨hplain.steady ?_, ?_⟩
    · rw [hpushed]
      refine List.forall_mem_cons.2 ⟨?_, List.forall_mem_cons.2 ⟨?_, hbelow⟩⟩
      · exact (State.isSpent_entry _ _).trans htop
      · exact (State.isSpent_entry _ _).trans htop
    · rw [hpushed, hstack']
      rfl

end Fragment

-- A state of a run beside the machine's operand stack, with the arrays that a copy was suppressed
-- of and that no store has made up for it yet.
structure Ledger where
  state : State
  operands : List Cell
  owed : List Nat

namespace Ledger

open Opcode

-- In front of the code of a method from a position on.
def start (m : Method) (code : Bytes) (pc : Nat) : Ledger :=
  ⟨.start m (.behind code pc), [], []⟩

-- The entries and the suppressed copies are as many as the machine's operands.
def Balanced (b : Ledger) : Prop :=
  b.state.stack.length + b.owed.length = b.operands.length

-- The machine and the core execute one instruction. A copy is suppressed if it adds no entry, and a
-- store into an array makes up for one copy of it. The array that is stored into is noted.
inductive Step (m : Method) : Option Nat → Ledger → Ledger → Prop where
  | turn {code : Bytes} {takes leaves below : List Cell} {owed : List Nat} {s t : State}
    (h : Fragment.Turns m s.pc code takes leaves) (hcode : code <+: s.cursor.remaining)
    (he : Registry.core.Executes s t) :
    Step m none ⟨s, takes ++ below, owed⟩ ⟨t, leaves ++ below, owed⟩
  | copy {value : Nat} {below : List Cell} {owed : List Nat} {s t : State}
    (hcode : [dup] <+: s.cursor.remaining) (he : Registry.core.Executes s t) :
    Step m none ⟨s, ⟨1, value⟩ :: below, owed⟩ ⟨t, ⟨1, value⟩ :: ⟨1, value⟩ :: below,
      if t.stack.length = s.stack.length then value :: owed else owed⟩
  | store {code : Opcode} {value index array : Nat} {below : List Cell} {owed : List Nat}
    {s t : State} (h : code ∈ range iastore sastore) (hcode : [code] <+: s.cursor.remaining)
    (he : Registry.core.Executes s t) :
    Step m (some array)
      ⟨s, ⟨elementCategory code, value⟩ :: ⟨1, index⟩ :: ⟨1, array⟩ :: below, owed⟩
      ⟨t, below, owed.erase array⟩

-- The machine and the core execute any number of instructions.
abbrev Runs (m : Method) : Ledger → Ledger → Prop :=
  Relation.ReflTransGen fun b c => ∃ stored, Step m stored b c

variable {m : Method} {b c : Ledger} {array : Nat}

theorem Step.steady {stored : Option Nat} (h : Step m stored b c) (hb : b.state.Steady m) :
    c.state.Steady m := by
  cases h with
  | turn h hcode he =>
    obtain ⟨rest, hrest⟩ := hcode
    exact (h.executed hb hrest.symm he).1
  | copy hcode he =>
    obtain ⟨rest, hrest⟩ := hcode
    exact (Fragment.executed_copy hb hrest.symm he).1
  | store h hcode he =>
    obtain ⟨rest, hrest⟩ := hcode
    exact (Fragment.executed_arrayStore hb hrest.symm he h rfl).1

theorem Runs.steady (h : Runs m b c) (hb : b.state.Steady m) : c.state.Steady m := by
  induction h with
  | refl => exact hb
  | tail _ hstep ih =>
    obtain ⟨stored, hstep⟩ := hstep
    exact hstep.steady ih

-- Everything but a store into an array keeps the balance.
theorem Step.balanced (h : Step m none b c) (hb : b.state.Steady m) (hbalanced : b.Balanced) :
    c.Balanced := by
  cases h with
  | @turn _ _ _ _ _ s _ h hcode he =>
    obtain ⟨rest, hrest⟩ := hcode
    have hs : s.Steady m := hb
    have hlen := (h.executed hs hrest.symm he).2
    simp only [Balanced, List.length_append] at hbalanced ⊢
    omega
  | @copy value below owed s t hcode he =>
    obtain ⟨rest, hrest⟩ := hcode
    have hs : s.Steady m := hb
    have hlen := (Fragment.executed_copy hs hrest.symm he).2
    simp only [Balanced, List.length_cons] at hbalanced ⊢
    by_cases hsuppressed : t.stack.length = s.stack.length
    · rw [if_pos hsuppressed, List.length_cons]
      omega
    · rw [if_neg hsuppressed]
      split at hlen
      · exact absurd hlen hsuppressed
      · omega

-- A store keeps the balance exactly if it gives its array back just for a suppressed copy.
theorem Step.balanced_iff (h : Step m (some array) b c) (hb : b.state.Steady m)
    (hbalanced : b.Balanced) :
    c.Balanced ↔ (b.state.fillsNewArray ↔ array ∈ b.owed) := by
  cases h with
  | @store code value index _ below owed s t h hcode he =>
    obtain ⟨rest, hrest⟩ := hcode
    have hs : s.Steady m := hb
    have hlen := (Fragment.executed_arrayStore hs hrest.symm he h rfl).2
    simp only [Balanced, List.length_cons] at hbalanced ⊢
    by_cases howed : array ∈ owed
    · have herase := List.length_erase_of_mem howed
      have hpos := List.length_pos_of_mem howed
      simp only [howed, iff_true, herase]
      split at hlen
      · exact iff_of_true (by omega) ‹_›
      · exact iff_of_false (by omega) ‹_›
    · rw [List.erase_of_not_mem howed]
      simp only [howed, iff_false]
      split at hlen
      · exact iff_of_false (by omega) (not_not.2 ‹_›)
      · exact iff_of_true (by omega) ‹_›

-- On the way to a state the entries and the suppressed copies are everywhere as many as the
-- machine's operands exactly if every store into an array gives the array back where a copy of it
-- was suppressed and not made up for, and nowhere else.
theorem balanced_iff_repaid (m : Method) (code : Bytes) (pc : Nat) (last : Ledger) :
    (∀ b, Runs m (start m code pc) b → Runs m b last → b.Balanced) ↔
      ∀ array b c, Runs m (start m code pc) b → Step m (some array) b c → Runs m c last →
        (b.state.fillsNewArray ↔ array ∈ b.owed) := by
  constructor
  · intro hbalanced array b c hb hstep hc
    have hnext : Runs m (start m code pc) c := hb.tail ⟨array, hstep⟩
    have hrest : Runs m b last := .head ⟨array, hstep⟩ hc
    have hsteady := Runs.steady hb (State.steady_start m code pc)
    exact (hstep.balanced_iff hsteady (hbalanced b hb hrest)).1 (hbalanced c hnext hc)
  · intro hrepaid b hb
    induction hb with
    | refl => exact fun _ => rfl
    | @tail b c hb hstep ih =>
      intro hc
      obtain ⟨stored, hstep⟩ := hstep
      have hsteady := Runs.steady hb (State.steady_start m code pc)
      have hbalanced := ih (.head ⟨stored, hstep⟩ hc)
      cases stored with
      | none => exact hstep.balanced hsteady hbalanced
      | some array =>
        exact (hstep.balanced_iff hsteady hbalanced).2 (hrepaid array b c hb hstep hc)

-- A method that stores into an array and keeps no reference to it.
def fillsTemporary : Method :=
  { className := "A", name := "m", descriptor := "()V", signature := ⟨[], .void⟩
    code := [iconst0 + 1, newarray, 10, iconst0, iconst5, iastore, returnVoid] }

-- No copy was suppressed, and the machine has nothing left. The array is given back all the same,
-- and the method cannot be decompiled.
theorem not_balanced_of_temporary :
    let m := fillsTemporary
    ∃ b, Runs m (start m m.code 0) b ∧ b.operands = [] ∧ b.owed = [] ∧
      b.state.stack.map (·.element.kind) = [.newArray] ∧
      (Registry.core.decompile Observer.idle ⟨⟩ m (.behind m.code 0)).result.isOk = false := by
  intro m
  let s := (start m m.code 0).state
  let t := Beside.after (iconst0 + 1) s
  let u := Beside.after newarray t
  let v := Beside.after iconst0 u
  let w := Beside.after iconst5 v
  let x := Beside.after iastore w
  have hpush (pc : Nat) (code : Opcode) (h : code ∈ range iconstM1 iconst5) (value : Nat) :
      Fragment.Turns m pc [code] [] [⟨Opcode.movedCategory [code], value⟩] :=
    .push (.int h) value
  have hmake : Fragment.Turns m t.pc [newarray, 10] [⟨1, 1⟩] [⟨1, t.pc⟩] :=
    .allocate (.primitive rfl) 1
  have hlength : Step m none ⟨s, [] ++ [], []⟩ ⟨t, [⟨1, 1⟩] ++ [], []⟩ :=
    .turn (hpush s.pc (iconst0 + 1) (by decide) 1) (by decide +kernel)
      (Registry.executes_of_isOk rfl rfl (by decide +kernel))
  have hmade : Step m none ⟨t, [⟨1, 1⟩] ++ [], []⟩ ⟨u, [⟨1, t.pc⟩] ++ [], []⟩ :=
    .turn hmake (by decide +kernel)
      (Registry.executes_of_isOk (by decide +kernel) (by decide +kernel) (by decide +kernel))
  have hindex : Step m none ⟨u, [] ++ [⟨1, t.pc⟩], []⟩ ⟨v, [⟨1, 0⟩] ++ [⟨1, t.pc⟩], []⟩ :=
    .turn (hpush u.pc iconst0 (by decide) 0) (by decide +kernel)
      (Registry.executes_of_isOk (by decide +kernel) (by decide +kernel) (by decide +kernel))
  have hvalue : Step m none ⟨v, [] ++ [⟨1, 0⟩, ⟨1, t.pc⟩], []⟩
      ⟨w, [⟨1, 5⟩] ++ [⟨1, 0⟩, ⟨1, t.pc⟩], []⟩ :=
    .turn (hpush v.pc iconst5 (by decide) 5) (by decide +kernel)
      (Registry.executes_of_isOk (by decide +kernel) (by decide +kernel) (by decide +kernel))
  have hstored : Step m (some t.pc) ⟨w, [⟨1, 5⟩, ⟨1, 0⟩, ⟨1, t.pc⟩], []⟩ ⟨x, [], []⟩ :=
    @Step.store m iastore 5 0 t.pc [] [] w x (by decide) (by decide +kernel)
      (Registry.executes_of_isOk (by decide +kernel) (by decide +kernel) (by decide +kernel))
  refine ⟨⟨x, [], []⟩, ?_, rfl, rfl, by decide +kernel, by decide +kernel⟩
  exact ((((Relation.ReflTransGen.single ⟨_, hlength⟩).tail ⟨_, hmade⟩).tail ⟨_, hindex⟩).tail
    ⟨_, hvalue⟩).tail ⟨_, hstored⟩

end Ledger

end JvmLift
