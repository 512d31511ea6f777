import JvmLift.Proofs.Arrays
import JvmLift.Proofs.Fragment.Instructions
import JvmLift.Proofs.Jumps.Fold

namespace JvmLift

namespace Opcode

-- The codes of jumps, conditional or not.
def jumps : List Opcode :=
  goto :: gotoW :: conditional

end Opcode

-- Whether the last two statements are a branch and a jump.
def State.forks (s : State) : Bool :=
  s.lastIs .jump && (s.lastStatement? 1).any fun e => e.kind = .branch

namespace State

variable {s t : State}

theorem forks_congr (h : t.statements = s.statements) : t.forks = s.forks := by
  simp only [forks, lastIs, lastStatement?, h]

theorem not_chooses_of_forks (h : s.forks = false) :
    ¬∃ one below branch jump earlier, s.Chooses one below branch jump earlier := by
  rintro ⟨one, below, branch, jump, earlier, hc⟩
  simp [forks, lastIs, lastStatement?, hc.statements, hc.branch, hc.jump] at h

end State

theorem Element.intConstant?_bare (e : Element) : e.bare.intConstant? = e.intConstant? := by
  obtain ⟨shape, stamp⟩ := e
  rw [bare_mk]
  cases shape <;> rfl

namespace Registry

-- One instruction that is no jump is executed.
def Proceeds (r : Registry) (s t : State) : Prop :=
  (∀ code ∈ s.cursor.remaining.head?, code ∉ Opcode.jumps) ∧ r.Executes s t

-- The core executes a code without jumps from one state to the other. The statements stay.
structure Passes (code : Bytes) (s t : State) : Prop where
  runs : Relation.ReflTransGen core.Proceeds s t
  method : t.method = s.method
  running : t.aborted = false
  remaining : s.cursor.remaining = code ++ t.cursor.remaining
  pc : t.pc = s.pc + code.length
  statements : t.statements = s.statements

variable {m : Method} {s t u : State} {code more rest : Bytes} {a : Action Unit}

theorem passes_nil (h : s.aborted = false) : Passes [] s s :=
  ⟨.refl, rfl, h, rfl, rfl, rfl⟩

theorem Passes.trans (h : Passes code s t) (h' : Passes more t u) : Passes (code ++ more) s u where
  runs := h.runs.trans h'.runs
  method := h'.method.trans h.method
  running := h'.running
  remaining := by rw [h.remaining, h'.remaining, List.append_assoc]
  pc := by rw [h'.pc, h.pc, List.length_append, Nat.add_assoc]
  statements := h'.statements.trans h.statements

-- What follows a code that was passed is what followed it before.
theorem Passes.prefix_remaining (h : Passes code s t) (hp : code ++ more <+: s.cursor.remaining) :
    more <+: t.cursor.remaining := by
  rw [h.remaining] at hp
  exact (List.prefix_append_right_inj code).1 hp

-- An instruction that leaves some entries and pushes an element on them.
theorem exists_passes_yielding (h : Implements code a)
    (hcode : code.headD Opcode.nop ∉ corrected ++ Opcode.jumps)
    (hrunning : s.aborted = false) (hrem : s.cursor.remaining = code ++ rest) {below : List Entry}
    {e : Element} (ha : exec a (s.moved rest (s.pc + code.length) s.pc) =
      (.ok ⟨⟩, s.yielding below e rest (s.pc + code.length) s.pc)) :
    ∃ t top, Passes code s t ∧ t.stack = top :: below ∧ top.element.bare = e.bare := by
  obtain ⟨hcorrected, hjump⟩ := not_or.1 (mt List.mem_append.2 hcode)
  obtain ⟨c, he, hc⟩ := h.exists_executes hrem hrunning ha hcorrected
  have hhead : ∀ head ∈ s.cursor.remaining.head?, head ∉ Opcode.jumps := by
    obtain ⟨head, operand, rfl, -⟩ := h
    rw [hrem]
    rintro other ⟨⟩
    exact hjump
  refine ⟨_, _, ⟨.single ⟨hhead, he⟩, rfl, hrunning, ?_, hc.pc, rfl⟩, rfl, State.bare_entry _ _⟩
  have hremaining : c.remaining = rest := hc.remaining.trans (Cursor.remaining_fresh ..)
  rw [hrem]
  exact congrArg (code ++ ·) hremaining.symm

-- The copy of a new array in front of an index does nothing.
theorem exists_passes_dup {top : Entry} {below : List Entry} {next : Opcode}
    (hrunning : s.aborted = false) (hs : s.stack = top :: below)
    (hk : top.element.kind = .newArray) (hrem : s.cursor.remaining = Opcode.dup :: next :: rest)
    (hnext : Instruction.Array.isIndexCode next) :
    ∃ t, Passes [Opcode.dup] s t ∧ t.stack = s.stack := by
  obtain ⟨c, hstep, hremaining, hpc⟩ := exec_step_dup_newArray hs hk hrem
  rw [List.head?_cons, Option.any_some, if_pos hnext] at hstep
  have hhead : ∀ head ∈ s.cursor.remaining.head?, head ∉ Opcode.jumps := by
    rw [hrem]
    rintro head ⟨⟩
    decide
  refine ⟨s.fetch.at c, ⟨.single ⟨hhead, executes_of_cons hrunning hrem hstep⟩, rfl, hrunning, ?_,
    hpc, rfl⟩, rfl⟩
  rw [hrem]
  exact congrArg (Opcode.dup :: ·) hremaining.symm

end Registry

namespace Fragment

open Instruction Opcode Registry

-- Wherever a run comes to the code, it leaves the element on the stack and nothing else. The
-- positions of what it is made of aside, the element is always the same.
def Delivers (m : Method) (code : Bytes) (e : Element) : Prop :=
  ∀ s : State, s.method = m → s.aborted = false → s.forks = false →
    code <+: s.cursor.remaining →
    ∃ t top, Passes code s t ∧ t.stack = top :: s.stack ∧ top.element.bare = e

-- The instructions that push a number that can be an index or a length.
inductive PushesIndex : Nat → Bytes → Prop where
  | short {n : Nat} (h : n ≤ 5) : PushesIndex n [iconst0 + .ofNat n]
  | byte {n : Nat} (h : n ≤ 127) : PushesIndex n [bipush, .ofNat n]
  | wide {n : Nat} (h : n ≤ 32767) : PushesIndex n (sipush :: wideBytes (.ofNat n))

namespace PushesIndex

variable {m : Method} {n : Nat} {code : Bytes}

theorem pushes (h : PushesIndex n code) : Pushes (Action.push (.int (.ofNat n))) code := by
  cases h with
  | short h =>
    have hcodes : ∀ n ≤ 5, iconst0 + .ofNat n ∈ range iconstM1 iconst5 ∧
        Int32.ofInt ((iconst0 + .ofNat n).toNat - iconst0.toNat) = .ofNat n := by decide
    obtain ⟨hcode, hvalue⟩ := hcodes n h
    exact hvalue ▸ .int hcode
  | byte h =>
    have hvalue : (Int8.ofNat n).toInt32 = .ofNat n := by
      apply Int32.toInt_inj.1
      rw [Int8.toInt_toInt32, Int8.toInt_ofNat_of_lt (by omega), Int32.toInt_ofNat_of_lt (by omega)]
    exact hvalue ▸ .byte (.ofNat n)
  | wide h =>
    have hvalue : (Int16.ofNat n).toInt32 = .ofNat n := by
      apply Int32.toInt_inj.1
      rw [Int16.toInt_toInt32, Int16.toInt_ofNat_of_lt (by omega),
        Int32.toInt_ofNat_of_lt (by omega)]
    exact hvalue ▸ .short (.ofNat n)

theorem exists_isIndexCode (h : PushesIndex n code) :
    ∃ next operand, code = next :: operand ∧ Array.isIndexCode next := by
  cases h with
  | short h =>
    have hcodes : ∀ n ≤ 5, Array.isIndexCode (iconst0 + .ofNat n) := by decide
    exact ⟨_, _, rfl, hcodes n h⟩
  | byte | wide => exact ⟨_, _, rfl, rfl⟩

theorem eq_iconst0_or_not_mem (h : PushesIndex n code) :
    n = 0 ∧ code = [iconst0] ∨ code.headD nop ∉ corrected ++ jumps := by
  have hwide : bipush ∉ corrected ++ jumps ∧ sipush ∉ corrected ++ jumps := by decide +kernel
  cases h with
  | short h =>
    have hcodes : ∀ n ≤ 5, n = 0 ∨ iconst0 + .ofNat n ∉ corrected ++ jumps := by decide +kernel
    rcases hcodes n h with rfl | hcode
    · exact .inl ⟨rfl, rfl⟩
    · exact .inr hcode
  | byte => exact .inr hwide.1
  | wide => exact .inr hwide.2

-- A zero may be one of two constants to choose from. The others are never asked.
theorem delivers (h : PushesIndex n code) : Delivers m code (.int (.ofNat n)) := by
  rintro s - hrunning hforks ⟨rest, hrest⟩
  rcases h.eq_iconst0_or_not_mem with ⟨rfl, rfl⟩ | hcode
  · have hstep := exec_step_iconst0_of_not_chooses (State.not_chooses_of_forks hforks)
    have he : core.Executes s (s.fetch.push (.int 0)) :=
      executes_of_cons hrunning hrest.symm hstep
    have hhead : ∀ head ∈ s.cursor.remaining.head?, head ∉ jumps := by
      rw [← hrest]
      rintro head ⟨⟩
      decide
    refine ⟨_, _, ⟨.single ⟨hhead, he⟩, rfl, hrunning, ?_, rfl, rfl⟩, rfl, State.bare_entry _ _⟩
    show s.cursor.remaining = [iconst0] ++ (s.cursor.advance 1).remaining
    rw [Cursor.remaining_advance, ← hrest]
    rfl
  · exact exists_passes_yielding h.pushes.implements hcode hrunning hrest.symm rfl

end PushesIndex

-- The code of an initializer: what pushes its index and its value, and what stores it.
structure Initializer where
  index : Bytes
  value : Bytes
  store : Opcode
  element : Element

-- The new array under construction is copied for the initializer.
def Initializer.code (i : Initializer) : Bytes :=
  dup :: (i.index ++ (i.value ++ [i.store]))

-- The initializer at a position.
structure Initializer.Fills (m : Method) (i : Initializer) (position : Nat) : Prop where
  index : PushesIndex position i.index
  value : Delivers m i.value i.element
  store : i.store ∈ range iastore sastore

-- A new array with the initializers from a position on.
def initialized (component : JvmType) (length : Nat) (initializers : List (Initializer × Nat)) :
    Element :=
  .ofShape (.newArray (.array component) component (.int (.ofNat length))
    (initializers.map fun (i, position) => (.ofNat position, i.element)))

variable {m : Method} {s : State} {component : JvmType} {n : Nat} {code length allocation : Bytes}

-- The instruction that makes an array finds its length on top.
theorem Allocates.exists_passes {top : Entry} {below : List Entry}
    (h : Allocates m component allocation) (hm : s.method = m) (hrunning : s.aborted = false)
    (hs : s.stack = top :: below) (hlength : top.element.bare = .int (.ofNat n))
    (hp : allocation <+: s.cursor.remaining) :
    ∃ t array, Passes allocation s t ∧ t.stack = array :: below ∧
      array.element.bare = initialized component n [] := by
  obtain ⟨rest, hrest⟩ := hp
  obtain ⟨a, ha, -, hexec⟩ := implements_allocation h
  have hcode : allocation.headD nop ∉ corrected ++ jumps := by
    have hcodes : newarray ∉ corrected ++ jumps ∧ anewarray ∉ corrected ++ jumps := by
      decide +kernel
    cases h with
    | primitive => exact hcodes.1
    | reference => exact hcodes.2
  let u := s.moved rest (s.pc + allocation.length) s.pc
  have hmake : exec a u = (.ok ⟨⟩, (u.leaving below).push
      (.ofShape (.newArray (.array component) component top.element []))) :=
    (hexec u hm).trans (Array.exec_allocate component hs)
  obtain ⟨t, array, hpass, ht, hbare⟩ :=
    exists_passes_yielding ha hcode hrunning hrest.symm hmake
  refine ⟨t, array, hpass, ht, hbare.trans ?_⟩
  show Element.bare ⟨_, _⟩ = _
  rw [Element.bare_mk, initialized]
  simp [Shape.map, hlength]

theorem exists_shape_of_bare {e : Element} {initializers : List (Initializer × Nat)}
    (h : e.bare = initialized component n initializers) :
    ∃ length below, e.shape = .newArray (.array component) component length below ∧
      length.bare = .int (.ofNat n) ∧ below.map (fun (p, e) => (p, e.bare)) =
        initializers.map fun (i, position) => (.ofNat position, i.element) := by
  obtain ⟨shape, stamp⟩ := e
  rw [Element.bare_mk, initialized] at h
  cases shape with
  | newArray ty other length below =>
    simp only [Element.ofShape, Shape.map, Element.mk.injEq, Shape.newArray.injEq, and_true] at h
    obtain ⟨rfl, rfl, hlength, hbelow⟩ := h
    exact ⟨length, below, rfl, hlength, hbelow⟩
  | _ => cases h

-- The store finds the array below the index and the value, and adds the value to it.
theorem exists_passes_store {value index array : Entry} {below : List Entry} {store : Opcode}
    {i : Initializer} {position : Nat} {done : List (Initializer × Nat)}
    (hrunning : s.aborted = false) (hs : s.stack = value :: index :: array :: below)
    (hvalue : value.element.bare = i.element) (hindex : index.element.bare = .int (.ofNat position))
    (harray : array.element.bare = initialized component n done)
    (hstore : store ∈ range iastore sastore) (hp : [store] <+: s.cursor.remaining) :
    ∃ t filled, Passes [store] s t ∧ t.stack = filled :: below ∧
      filled.element.bare = initialized component n (done ++ [(i, position)]) := by
  obtain ⟨rest, hrest⟩ := hp
  obtain ⟨length, initializers, hshape, hlength, hinitializers⟩ := exists_shape_of_bare harray
  have hposition : index.element.intConstant? = some (.ofNat position) := by
    rw [← Element.intConstant?_bare, hindex]
    rfl
  have hcodes : ∀ code ∈ range iastore sastore, code ∉ corrected ++ jumps := by decide +kernel
  obtain ⟨t, filled, hpass, ht, hbare⟩ := exists_passes_yielding (implements_arrayStore hstore).1
    (hcodes store hstore) hrunning hrest.symm (Array.exec_store_newArray hs hshape hposition)
  refine ⟨t, filled, hpass, ht, hbare.trans ?_⟩
  rw [Element.bare_mk, initialized]
  simp [Shape.map, hlength, hinitializers, hvalue]

-- An initializer leaves the array that it finds on top with one initializer more.
theorem Initializer.Fills.exists_passes {i : Initializer} {position : Nat} (h : i.Fills m position)
    (hm : s.method = m) (hrunning : s.aborted = false) (hforks : s.forks = false) {array : Entry}
    {below : List Entry} (hs : s.stack = array :: below) {done : List (Initializer × Nat)}
    (harray : array.element.bare = initialized component n done)
    (hp : i.code <+: s.cursor.remaining) :
    ∃ t filled, Passes i.code s t ∧ t.stack = filled :: below ∧
      filled.element.bare = initialized component n (done ++ [(i, position)]) := by
  obtain ⟨next, operand, hnext, hcode⟩ := h.index.exists_isIndexCode
  have hk : array.element.kind = .newArray := by
    rw [← Element.kind_bare, harray]
    rfl
  obtain ⟨rest, hrest⟩ := hp
  have hrem : s.cursor.remaining =
      dup :: next :: (operand ++ (i.value ++ [i.store]) ++ rest) := by
    rw [← hrest, Initializer.code, hnext]
    rfl
  obtain ⟨u, hcopied, hu⟩ := exists_passes_dup hrunning hs hk hrem hcode
  have hpindex : i.index ++ (i.value ++ [i.store]) <+: u.cursor.remaining :=
    hcopied.prefix_remaining ⟨rest, hrest⟩
  obtain ⟨v, index, hindexed, hv, hindex⟩ := h.index.delivers u (hcopied.method.trans hm)
    hcopied.running (State.forks_congr hcopied.statements ▸ hforks)
    ((List.prefix_append ..).trans hpindex)
  have hpast := hcopied.trans hindexed
  have hpvalue := hindexed.prefix_remaining hpindex
  obtain ⟨w, value, hvalued, hw, hvalue⟩ := h.value v (hpast.method.trans hm) hpast.running
    (State.forks_congr hpast.statements ▸ hforks) ((List.prefix_append ..).trans hpvalue)
  have hstack : w.stack = value :: index :: array :: below := by rw [hw, hv, hu, hs]
  obtain ⟨t, filled, hstored, ht, hfilled⟩ := exists_passes_store hvalued.running hstack hvalue
    hindex harray h.store (hvalued.prefix_remaining hpvalue)
  exact ⟨t, filled, hcopied.trans (hindexed.trans (hvalued.trans hstored)), ht, hfilled⟩

-- Initializers one after the other are added in their order.
theorem exists_passes_initializers {initializers : List Initializer} {position : Nat}
    (h : ∀ p ∈ initializers.zipIdx position, p.1.Fills m p.2) (hm : s.method = m)
    (hrunning : s.aborted = false) (hforks : s.forks = false) {array : Entry} {below : List Entry}
    (hs : s.stack = array :: below) {done : List (Initializer × Nat)}
    (harray : array.element.bare = initialized component n done)
    (hp : initializers.flatMap Initializer.code <+: s.cursor.remaining) :
    ∃ t filled, Passes (initializers.flatMap Initializer.code) s t ∧ t.stack = filled :: below ∧
      filled.element.bare = initialized component n (done ++ initializers.zipIdx position) := by
  induction initializers generalizing position s array done with
  | nil => exact ⟨s, array, passes_nil hrunning, hs, by simpa using harray⟩
  | cons i rest ih =>
    rw [List.zipIdx_cons] at h
    obtain ⟨hi, hrest⟩ := List.forall_mem_cons.1 h
    rw [List.flatMap_cons] at hp ⊢
    obtain ⟨u, filled, hfirst, hu, hfilled⟩ := hi.exists_passes hm hrunning hforks hs harray
      ((List.prefix_append ..).trans hp)
    obtain ⟨t, last, hlater, ht, hlast⟩ := ih hrest (hfirst.method.trans hm) hfirst.running
      (State.forks_congr hfirst.statements ▸ hforks) hu hfilled (hfirst.prefix_remaining hp)
    refine ⟨t, last, hfirst.trans hlater, ht, hlast.trans ?_⟩
    rw [List.zipIdx_cons, List.append_assoc]
    rfl

-- The code of an array with an initializer for every element.
def literalCode (length allocation : Bytes) (initializers : List Initializer) : Bytes :=
  length ++ (allocation ++ initializers.flatMap Initializer.code)

-- The new array with all of its elements.
def literal (component : JvmType) (initializers : List Initializer) : Element :=
  initialized component initializers.length initializers.zipIdx

theorem delivers_literal {initializers : List Initializer}
    (hlength : PushesIndex initializers.length length) (halloc : Allocates m component allocation)
    (h : ∀ p ∈ initializers.zipIdx, p.1.Fills m p.2) :
    Delivers m (literalCode length allocation initializers) (literal component initializers) := by
  intro s hm hrunning hforks hp
  obtain ⟨u, top, hpushed, hu, htop⟩ := hlength.delivers s hm hrunning hforks
    ((List.prefix_append ..).trans hp)
  have hpalloc := hpushed.prefix_remaining hp
  obtain ⟨v, array, hmade, hv, harray⟩ := halloc.exists_passes (hpushed.method.trans hm)
    hpushed.running hu htop ((List.prefix_append ..).trans hpalloc)
  have hpast := hpushed.trans hmade
  obtain ⟨t, filled, hfilled, ht, hbare⟩ := exists_passes_initializers h (hpast.method.trans hm)
    hpast.running (State.forks_congr hpast.statements ▸ hforks) hv harray
    (hmade.prefix_remaining hpalloc)
  exact ⟨t, filled, hpushed.trans (hmade.trans hfilled), ht, hbare⟩

-- Array literals to any depth. What is not an array literal itself is any other code that leaves
-- an element on the stack and nothing else.
inductive Literal (m : Method) : Bytes → Element → Prop where
  | leaf {code : Bytes} {e : Element} (h : Delivers m code e) : Literal m code e
  | array {component : JvmType} {length allocation : Bytes} {initializers : List Initializer}
    (hlength : PushesIndex initializers.length length)
    (halloc : Allocates m component allocation)
    (hindex : ∀ p ∈ initializers.zipIdx, PushesIndex p.2 p.1.index)
    (hvalue : ∀ p ∈ initializers.zipIdx, Literal m p.1.value p.1.element)
    (hstore : ∀ p ∈ initializers.zipIdx, p.1.store ∈ range iastore sastore) :
    Literal m (literalCode length allocation initializers) (literal component initializers)

theorem Literal.delivers {e : Element} (h : Literal m code e) : Delivers m code e := by
  induction h with
  | leaf h => exact h
  | array hlength halloc hindex _ hstore ih =>
    exact delivers_literal hlength halloc fun p hp => ⟨hindex p hp, ih p hp, hstore p hp⟩

-- The code of an array literal leaves the array with all of its elements on the stack and nothing
-- else, if that is so of the code of every element. Literals therefore nest to any depth.
theorem arrayLiteral_delivers (m : Method) :
    (∀ {component : JvmType} {length allocation : Bytes} {initializers : List Initializer},
      PushesIndex initializers.length length → Allocates m component allocation →
      (∀ p ∈ initializers.zipIdx, p.1.Fills m p.2) →
      Delivers m (length ++ (allocation ++ initializers.flatMap Initializer.code))
        (.ofShape (.newArray (.array component) component (.int (.ofNat initializers.length))
          (initializers.zipIdx.map fun (i, position) => (.ofNat position, i.element))))) ∧
    ∀ {code : Bytes} {e : Element}, Literal m code e → Delivers m code e :=
  ⟨delivers_literal, Literal.delivers⟩

-- A method that makes an array of two rows.
def makesRows : Method :=
  { className := "A", name := "m", descriptor := "()[[I", signature := ⟨[], .array (.array .int)⟩
    code := [iconst0 + 2, anewarray, 0, 2,
      dup, iconst0, iconst0 + 2, newarray, 10, dup, iconst0, iconst0 + 1, iastore,
        dup, iconst0 + 1, iconst0 + 2, iastore, iastore + 4,
      dup, iconst0 + 1, iconst0 + 1, newarray, 10, dup, iconst0, bipush, 100, iastore, iastore + 4]
    pool := ⟨#[.utf8 "[I", .classRef 1]⟩ }

-- An array of ints as an element.
def row (values : List Int32) : Element :=
  .ofShape (.newArray (.array .int) .int (.int (.ofNat values.length))
    (values.zipIdx.map fun (value, position) => (.ofNat position, .int value)))

-- The rows are literals among the initializers of one.
theorem arrayLiteral_delivers_rows :
    Delivers makesRows makesRows.code (.ofShape (.newArray (.array (.array .int)) (.array .int)
      (.int 2) [(0, row [1, 2]), (1, row [100])])) := by
  have hint : Allocates makesRows .int [newarray, 10] := .primitive rfl
  have hints : Allocates makesRows (.array .int) [anewarray, 0, 2] :=
    @Allocates.reference makesRows 2 "[I" _ (by decide +kernel) (by decide +kernel)
  have hleaf {n : Nat} {code : Bytes} (h : PushesIndex n code) :
      Literal makesRows code (.int (.ofNat n)) := .leaf h.delivers
  let one : Initializer := ⟨[iconst0], [iconst0 + 1], iastore, .int 1⟩
  let two : Initializer := ⟨[iconst0 + 1], [iconst0 + 2], iastore, .int 2⟩
  let hundred : Initializer := ⟨[iconst0], [bipush, 100], iastore, .int 100⟩
  have hshort : Literal makesRows (literalCode [iconst0 + 1] [newarray, 10] [hundred])
      (row [100]) :=
    .array (.short (by decide)) hint (List.forall_mem_singleton.2 (.short (by decide)))
      (List.forall_mem_singleton.2 (hleaf (.byte (by decide))))
      (List.forall_mem_singleton.2 (by decide))
  have hlong : Literal makesRows (literalCode [iconst0 + 2] [newarray, 10] [one, two])
      (row [1, 2]) :=
    .array (.short (by decide)) hint
      (List.forall_mem_cons.2
        ⟨.short (by decide), List.forall_mem_singleton.2 (.short (by decide))⟩)
      (List.forall_mem_cons.2
        ⟨hleaf (.short (by decide)), List.forall_mem_singleton.2 (hleaf (.short (by decide)))⟩)
      (List.forall_mem_cons.2 ⟨by decide, List.forall_mem_singleton.2 (by decide)⟩)
  let first : Initializer :=
    ⟨[iconst0], literalCode [iconst0 + 2] [newarray, 10] [one, two], iastore + 4, row [1, 2]⟩
  let second : Initializer :=
    ⟨[iconst0 + 1], literalCode [iconst0 + 1] [newarray, 10] [hundred], iastore + 4, row [100]⟩
  have hrows : Literal makesRows (literalCode [iconst0 + 2] [anewarray, 0, 2] [first, second])
      (literal (.array .int) [first, second]) :=
    .array (.short (by decide)) hints
      (List.forall_mem_cons.2
        ⟨.short (by decide), List.forall_mem_singleton.2 (.short (by decide))⟩)
      (List.forall_mem_cons.2 ⟨hlong, List.forall_mem_singleton.2 hshort⟩)
      (List.forall_mem_cons.2 ⟨by decide, List.forall_mem_singleton.2 (by decide)⟩)
  exact (arrayLiteral_delivers makesRows).2 hrows

end Fragment

end JvmLift
