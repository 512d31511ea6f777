import JvmLift.Proofs.OperandStack

namespace JvmLift

-- The categories of the values among entries of the symbolic stack, without the calls of type void
-- and the pending increments.
def valueCategories (entries : List Entry) : List Nat :=
  (entries.filter fun e => !e.element.isSpent).map fun e => e.element.ty.category

section Categories

variable {entries : List Entry} {e : Entry}

theorem valueCategories_append (above below : List Entry) :
    valueCategories (above ++ below) = valueCategories above ++ valueCategories below := by
  rw [valueCategories, List.filter_append, List.map_append]
  rfl

theorem valueCategories_cons_of_spent (h : e.element.isSpent) :
    valueCategories (e :: entries) = valueCategories entries := by
  rw [valueCategories, List.filter_cons_of_neg (by simp [h])]
  rfl

theorem valueCategories_cons_of_not_spent (h : e.element.isSpent = false) :
    valueCategories (e :: entries) = e.element.ty.category :: valueCategories entries := by
  rw [valueCategories, List.filter_cons_of_pos (by simp [h])]
  rfl

theorem length_valueCategories_eq_iff :
    (valueCategories entries).length = entries.length ↔
      ∀ e ∈ entries, e.element.isSpent = false := by
  rw [valueCategories, List.length_map, List.length_filter_eq_length_iff]
  simp only [Bool.not_eq_true']

-- What is on top has no value if it has not the category of the first value.
theorem isSpent_of_valueCategories {category : Nat} {categories : List Nat}
    (h : valueCategories (e :: entries) = category :: categories)
    (hne : e.element.ty.category ≠ category) : e.element.isSpent := by
  by_contra hv
  rw [valueCategories_cons_of_not_spent (eq_false_of_ne_true hv)] at h
  exact hne (List.cons.inj h).1

-- The top values are at the very top exactly if what lies below them is left when that many
-- entries are taken away.
theorem valueCategories_drop_iff {takes below : List Nat}
    (h : valueCategories entries = takes ++ below) (hlen : takes.length ≤ entries.length) :
    valueCategories (entries.drop takes.length) = below ↔
      ∀ e ∈ entries.take takes.length, e.element.isSpent = false := by
  have hsplit : valueCategories (entries.take takes.length) ++
      valueCategories (entries.drop takes.length) = takes ++ below := by
    rw [← valueCategories_append, List.take_append_drop, h]
  have htake : (entries.take takes.length).length = takes.length :=
    List.length_take_of_le hlen
  rw [← length_valueCategories_eq_iff, htake]
  constructor
  · intro hdrop
    rw [hdrop] at hsplit
    rw [List.append_cancel_right hsplit]
  · intro hlength
    exact (List.append_inj hsplit hlength).2

end Categories

-- What an instruction may do to the symbolic stack where the machine takes and leaves some values.
inductive Changes (s t : State) : List Nat → List Nat → Prop where
  | make {takes : List Nat} {top : Entry} (hlen : takes.length ≤ s.stack.length)
    (ht : t.stack = top :: s.stack.drop takes.length) (hv : top.element.isSpent = false) :
    Changes s t takes [top.element.ty.category]
  | park {takes : List Nat} {top : Entry} (hlen : takes.length ≤ s.stack.length)
    (ht : t.stack = top :: s.stack.drop takes.length) (hv : top.element.isSpent) :
    Changes s t takes []
  | drop {takes : List Nat} (hlen : takes.length ≤ s.stack.length)
    (ht : t.stack = s.stack.drop takes.length) : Changes s t takes []
  -- the declaration of a variable need not have the category that the code loads
  | load {top : Entry} (category : Nat) (ht : t.stack = top :: s.stack)
    (hr : top.element.isRead) : Changes s t [] [category]
  -- a load is merged with an increment below it
  | useNew {increment top : Entry} {rest : List Entry} (category : Nat)
    (hs : s.stack = increment :: rest) (hp : increment.element.isSpent) (ht : t.stack = top :: rest)
    (hr : top.element.isRead) : Changes s t [] [category]
  -- an increment is merged with a load below it
  | useOld {load top : Entry} {rest : List Entry} (hs : s.stack = load :: rest)
    (hl : load.element.isSpent = false) (ht : t.stack = top :: rest)
    (hr : top.element.isRead) : Changes s t [] []
  -- two entries of one word are taken for a value of two words
  | dropPair {top next : Entry} {rest : List Entry} (hs : s.stack = top :: next :: rest)
    (htop : top.element.ty.category = 1) (hnext : next.element.ty.category = 1)
    (ht : t.stack = rest) : Changes s t [2] []
  -- an entry of two words is taken for two values of one word
  | dropWide {top : Entry} {rest : List Entry} (hs : s.stack = top :: rest)
    (htop : top.element.ty.category = 2) (ht : t.stack = rest) : Changes s t [1, 1] []

-- What an instruction takes are values, and a variable that it leaves on top has the category of
-- what the machine has there.
structure State.Meets (s t : State) (takes operands : List Nat) : Prop where
  taken : ∀ e ∈ s.stack.take takes.length, e.element.isSpent = false
  read : ∀ e ∈ t.stack.head?, e.element.isRead → operands.head? = some e.element.ty.category

theorem head?_valueCategories {entries : List Entry} {e : Entry} (he : e ∈ entries.head?)
    (hr : e.element.isRead) : (valueCategories entries).head? = some e.element.ty.category := by
  obtain ⟨rest, rfl⟩ := List.head?_eq_some_iff.1 he
  rw [valueCategories_cons_of_not_spent (Element.isSpent_of_isRead hr)]
  rfl

-- Where a variable has come to the top, the stacks agree exactly if its category is right.
theorem State.agrees_iff_meets_of_read {s t : State} {top : Entry} {rest : List Entry}
    {category : Nat} {below : List Nat} (ht : t.stack = top :: rest) (hr : top.element.isRead)
    (hrest : valueCategories rest = below) :
    valueCategories t.stack = category :: below ↔ s.Meets t [] (category :: below) := by
  constructor
  · exact fun heq => ⟨List.forall_mem_nil _, fun e he hr => heq ▸ head?_valueCategories he hr⟩
  · intro hmeets
    have htop := hmeets.read top (by rw [ht]; rfl) hr
    rw [ht, valueCategories_cons_of_not_spent (Element.isSpent_of_isRead hr), hrest]
    exact congrArg (· :: below) (Option.some.inj htop).symm

-- What has no value is taken for the operands, which stay.
theorem State.agrees_iff_meets_of_spent {s t : State} {takes below : List Nat} {top : Entry}
    (htop : top ∈ s.stack.take takes.length) (hspent : top.element.isSpent) (hne : takes ≠ [])
    (ht : valueCategories t.stack = takes ++ below) :
    valueCategories t.stack = below ↔ s.Meets t takes below := by
  refine iff_of_false (fun heq => ?_) fun hmeets => ?_
  · rw [heq] at ht
    exact hne (List.self_eq_append_left.1 ht)
  · have hvalue := hmeets.taken top htop
    rw [hspent] at hvalue
    cases hvalue

-- The stacks go on to agree exactly if the operands are met.
theorem Changes.valueCategories_eq_iff {s t : State} {takes leaves below : List Nat}
    (h : Changes s t takes leaves) (hs : valueCategories s.stack = takes ++ below) :
    valueCategories t.stack = leaves ++ below ↔ s.Meets t takes (leaves ++ below) := by
  -- where the values agree, the top entry does
  have hread (heq : valueCategories t.stack = leaves ++ below) : ∀ e ∈ t.stack.head?,
      e.element.isRead → (leaves ++ below).head? = some e.element.ty.category :=
    fun e he hr => heq ▸ head?_valueCategories he hr
  cases h with
  | @make _ top hlen ht hv =>
    have hdrop := valueCategories_drop_iff hs hlen
    rw [ht, valueCategories_cons_of_not_spent hv] at hread ⊢
    constructor
    · intro heq
      exact ⟨hdrop.1 (List.cons.inj heq).2, by rw [ht]; exact hread heq⟩
    · intro hmeets
      rw [hdrop.2 hmeets.taken]
      rfl
  | @park _ top hlen ht hv =>
    have hdrop := valueCategories_drop_iff hs hlen
    rw [ht, valueCategories_cons_of_spent hv] at hread ⊢
    constructor
    · intro heq
      exact ⟨hdrop.1 heq, by rw [ht]; exact hread heq⟩
    · exact fun hmeets => hdrop.2 hmeets.taken
  | drop hlen ht =>
    have hdrop := valueCategories_drop_iff hs hlen
    constructor
    · intro heq
      exact ⟨hdrop.1 (ht ▸ heq), hread heq⟩
    · intro hmeets
      rw [ht]
      exact hdrop.2 hmeets.taken
  | load category ht hr => exact State.agrees_iff_meets_of_read ht hr hs
  | useNew category hstack hp ht hr =>
    rw [hstack, valueCategories_cons_of_spent hp] at hs
    exact State.agrees_iff_meets_of_read ht hr hs
  | @useOld load top rest hstack hl ht hr =>
    rw [hstack, valueCategories_cons_of_not_spent hl] at hs
    have hbelow : below = load.element.ty.category :: valueCategories rest := hs.symm
    rw [hbelow]
    exact State.agrees_iff_meets_of_read ht hr rfl
  | @dropPair top next rest hstack htop hnext ht =>
    rw [hstack] at hs
    have hspent := isSpent_of_valueCategories hs (by rw [htop]; decide)
    rw [valueCategories_cons_of_spent hspent] at hs
    have hspent' := isSpent_of_valueCategories hs (by rw [hnext]; decide)
    rw [valueCategories_cons_of_spent hspent', ← ht] at hs
    exact State.agrees_iff_meets_of_spent (hstack ▸ List.mem_cons_self ..) hspent nofun hs
  | @dropWide top rest hstack htop ht =>
    rw [hstack] at hs
    have hspent := isSpent_of_valueCategories hs (by rw [htop]; decide)
    rw [valueCategories_cons_of_spent hspent, ← ht] at hs
    exact State.agrees_iff_meets_of_spent (hstack ▸ List.mem_cons_self ..) hspent nofun hs

namespace Fragment

open Instruction Opcode Registry

section Changes

variable {m : Method} {s t : State} {rest : Bytes} {pc : Nat} (hs : s.Plain m)
  (he : core.Executes s t)
include hs he

-- The distance of a shift need not have the category of the value.
theorem changes_of_binary {code : Opcode} {op : BinaryOp} {ty : JvmType} (left right : Nat)
    (h : (code, op, ty) ∈ Arithmetic.binaryOperators)
    (hc : s.cursor = .fresh ([code] ++ rest) pc) :
    t.Plain m ∧ Changes s t [right, left] [ty.category] := by
  obtain ⟨ht, r, l, below, hstack, rfl⟩ := executed_binary hs he h hc
  have hlen : 2 ≤ s.stack.length := by simp [hstack]
  have hdrop : below = s.stack.drop 2 := by simp [hstack]
  have hty : _ = ty := State.ty_entry ((s.moved rest (pc + 1) pc).leaving below)
    (.ofShape (.binary l.element op r.element ty))
  rw [← congrArg JvmType.category hty]
  exact ⟨ht, .make hlen (congrArg (_ :: ·) hdrop) (State.isSpent_entry _ _)⟩

-- What an instruction that is executed has done to the symbolic stack.
theorem Moves.changes {code : Bytes} {takes leaves : List Nat} (h : Moves m code takes leaves)
    (hc : s.cursor = .fresh (code ++ rest) pc) : t.Plain m ∧ Changes s t takes leaves := by
  cases h with
  | push h =>
    obtain ⟨ht, -, e, hk, hcategory, rfl⟩ := h.executed hs he hc
    rw [← hcategory, ← State.ty_entry (s.moved rest (pc + code.length) pc) e]
    exact ⟨ht, .make (Nat.zero_le _) rfl
      ((State.isSpent_entry _ _).trans (Element.isSpent_of_constant hk))⟩
  | load h =>
    obtain ⟨ht, v, -, rfl | ⟨load, increment, below, hstack, hp, rfl⟩⟩ := h.executed hs he hc
    · exact ⟨ht, .load _ rfl (State.isRead_entry _ _)⟩
    · exact ⟨ht, .useNew _ hstack (Element.isSpent_of_isPendingIncrementOf hp) rfl
        ((State.isRead_entry _ _).trans (Element.isRead_withAffix hp nofun))⟩
  | store h =>
    obtain ⟨ht, top, below, v, -, hstack, -, hresult⟩ := h.executed hs he hc
    have hlen : 1 ≤ s.stack.length := by simp [hstack]
    have hdrop : below = s.stack.drop 1 := by simp [hstack]
    rcases hresult with rfl | ⟨e, -, rfl⟩
    · exact ⟨ht, .drop hlen hdrop⟩
    · exact ⟨ht, .drop hlen hdrop⟩
  | increment slot delta =>
    obtain ⟨ht, v, rfl | ⟨increment, load, below, hstack, hp, rfl⟩⟩ := executed_increment hs he hc
    · exact ⟨ht, .park (Nat.zero_le _) rfl (State.isSpent_entry _ _)⟩
    · exact ⟨ht, .useOld hstack (Element.isSpent_of_isPendingIncrementOf_right hp) rfl
        ((State.isRead_entry _ _).trans (Element.isRead_withAffix hp nofun))⟩
  | incrementWide slot delta =>
    obtain ⟨ht, v, rfl⟩ := executed_incrementWide hs he hc
    exact ⟨ht, .park (Nat.zero_le _) rfl (State.isSpent_entry _ _)⟩
  | binary h => exact changes_of_binary hs he _ _ h hc
  | shift h => exact changes_of_binary hs he _ _ h hc
  | @call _ member signature h hd hname =>
    obtain ⟨ht, found, described, top, stamp, c, hmember, hsignature, hlen, hstack, htop, hty⟩ :=
      executed_call hs he hc
    obtain rfl := Except.ok.inj (h.symm.trans hmember)
    obtain rfl := Option.some.inj (hd.symm.trans hsignature)
    rw [if_neg hname] at hty
    have hspent : top.element.isSpent = decide (signature.result = .void) :=
      (congrArg Element.isSpent htop).trans (by rw [← hty]; rfl)
    have htakes : (signature.parameters.reverse.map (·.category)).length =
        signature.parameters.length := by simp
    refine ⟨ht, ?_⟩
    split
    · exact .park (htakes ▸ hlen) (htakes ▸ hstack) (hspent.trans (decide_eq_true ‹_›))
    · have hty' : signature.result.category = top.element.ty.category :=
        congrArg JvmType.category (hty.symm.trans (congrArg Element.ty htop).symm)
      rw [hty']
      exact .make (htakes ▸ hlen) (htakes ▸ hstack) (hspent.trans (decide_eq_false ‹_›))
  | pop =>
    obtain ⟨ht, top, hstack⟩ := executed_pop hs he hc
    exact ⟨ht, .drop (by simp [hstack]) (by simp [hstack])⟩
  | popPair =>
    obtain ⟨ht, ⟨top, next, hstack, -, -⟩ | ⟨top, hstack, htop⟩⟩ := executed_pop2 hs he hc
    · exact ⟨ht, .drop (by simp [hstack]) (by simp [hstack])⟩
    · exact ⟨ht, .dropWide hstack htop rfl⟩
  | popWide =>
    obtain ⟨ht, ⟨top, next, hstack, htop, hnext⟩ | ⟨top, hstack, -⟩⟩ := executed_pop2 hs he hc
    · exact ⟨ht, .dropPair hstack htop hnext rfl⟩
    · exact ⟨ht, .drop (by simp [hstack]) (by simp [hstack])⟩

end Changes

end Fragment

-- A state of a run beside the machine's operand stack, which is given by the categories of its
-- values, the top first.
structure Beside where
  state : State
  operands : List Nat

namespace Beside

-- In front of the code of a method from a position on.
def start (m : Method) (code : Bytes) (pc : Nat) : Beside :=
  ⟨.start m (.behind code pc), []⟩

-- The symbolic stack has a value for each of the machine's, and with the same category.
def Agrees (b : Beside) : Prop :=
  valueCategories b.state.stack = b.operands

instance (b : Beside) : Decidable b.Agrees :=
  inferInstanceAs (Decidable (_ = _))

-- The machine and the core execute one instruction.
inductive Step (m : Method) : List Nat → Beside → Beside → Prop where
  | mk {code : Bytes} {takes leaves below : List Nat} {s t : State}
    (h : Fragment.Moves m code takes leaves) (hcode : code <+: s.cursor.remaining)
    (he : Registry.core.Executes s t) :
    Step m takes ⟨s, takes ++ below⟩ ⟨t, leaves ++ below⟩

-- The machine and the core execute any number of instructions.
abbrev Runs (m : Method) : Beside → Beside → Prop :=
  Relation.ReflTransGen fun b c => ∃ takes, Step m takes b c

variable {m : Method} {b c : Beside} {takes : List Nat}

theorem Step.plain (h : Step m takes b c) (hb : b.state.Plain m) : c.state.Plain m := by
  obtain ⟨h, hcode, he⟩ := h
  obtain ⟨bytes, pc, hc⟩ := hb.fresh
  rw [hc, Cursor.remaining_fresh] at hcode
  obtain ⟨rest, rfl⟩ := hcode
  exact (h.changes hb he hc).1

theorem Runs.plain (h : Runs m b c) (hb : b.state.Plain m) : c.state.Plain m := by
  induction h with
  | refl => exact hb
  | tail _ hstep ih =>
    obtain ⟨takes, hstep⟩ := hstep
    exact hstep.plain ih

-- An instruction keeps the agreement exactly if its operands are met.
theorem Step.agrees_iff (h : Step m takes b c) (hb : b.state.Plain m) (ha : b.Agrees) :
    c.Agrees ↔ b.state.Meets c.state takes c.operands := by
  obtain ⟨h, hcode, he⟩ := h
  obtain ⟨bytes, pc, hc⟩ := hb.fresh
  rw [hc, Cursor.remaining_fresh] at hcode
  obtain ⟨rest, rfl⟩ := hcode
  exact (h.changes hb he hc).2.valueCategories_eq_iff ha

-- On the way to a state the symbolic stack agrees with the machine's everywhere exactly if every
-- instruction finds values where the machine has its operands, and variables come to the top with
-- the category that the machine has there.
theorem agrees_iff_meets (m : Method) (code : Bytes) (pc : Nat) (last : Beside) :
    (∀ b, Runs m (start m code pc) b → Runs m b last → b.Agrees) ↔
      ∀ takes b c, Runs m (start m code pc) b → Step m takes b c → Runs m c last →
        b.state.Meets c.state takes c.operands := by
  constructor
  · intro hagrees takes b c hb hstep hc
    have hnext : Runs m (start m code pc) c := hb.tail ⟨takes, hstep⟩
    have hrest : Runs m b last := .head ⟨takes, hstep⟩ hc
    have hplain := Runs.plain hb (State.plain_start m (Cursor.behind_eq code pc))
    exact (hstep.agrees_iff hplain (hagrees b hb hrest)).1 (hagrees c hnext hc)
  · intro hmeets b hb
    induction hb with
    | refl => exact fun _ => rfl
    | @tail b c hb hstep ih =>
      intro hc
      obtain ⟨takes, hstep⟩ := hstep
      have hplain := Runs.plain hb (State.plain_start m (Cursor.behind_eq code pc))
      have hagrees := ih (.head ⟨takes, hstep⟩ hc)
      exact (hstep.agrees_iff hplain hagrees).2 (hmeets takes b c hb hstep hc)

-- A method that calls a method without a result between a constant and its store.
def storesBehindCall : Method :=
  { className := "A", name := "m", descriptor := "()V", signature := ⟨[], .void⟩
    code := [Opcode.iconst5, Opcode.invokestatic, 0, 6, Opcode.istore0, Opcode.returnVoid]
    locals := [⟨"x", .int, 0, 0, 6⟩]
    pool := ⟨#[.utf8 "A", .classRef 1, .utf8 "f", .utf8 "()V", .nameAndType 3 4, .methodRef 2 5]⟩ }

-- The state behind an instruction.
def after (code : Opcode) (s : State) : State :=
  (exec (Registry.core.step code) s.fetch).2

-- The store takes the call instead of the constant, which stays on the symbolic stack while the
-- machine's is empty.
theorem not_agrees_of_void_call :
    ∃ b, Runs storesBehindCall (start storesBehindCall storesBehindCall.code 0) b ∧
      b.operands = [] ∧ valueCategories b.state.stack = [1] := by
  let s := (start storesBehindCall storesBehindCall.code 0).state
  let t := after Opcode.iconst5 s
  let u := after Opcode.invokestatic t
  let v := after Opcode.istore0 u
  have hpush : Fragment.Moves storesBehindCall [Opcode.iconst5] [] [1] :=
    .push (.int (by decide))
  have hcall : Fragment.Moves storesBehindCall [Opcode.invokestatic, 0, 6] [] [] :=
    @Fragment.Moves.call storesBehindCall 6 ⟨"A", "f", "()V", false⟩ ⟨[], .void⟩
      (by decide +kernel) (by decide +kernel) (by decide) (by decide)
  have hstore : Fragment.Moves storesBehindCall [Opcode.istore0] [1] [] :=
    .store (@Fragment.Stores.short Opcode.istore0 (by decide))
  have hpushed : Step storesBehindCall [] ⟨s, [] ++ []⟩ ⟨t, [1] ++ []⟩ :=
    .mk hpush (by decide +kernel) (Registry.executes_of_isOk rfl rfl (by decide +kernel))
  have hcalled : Step storesBehindCall [] ⟨t, [] ++ [1]⟩ ⟨u, [] ++ [1]⟩ :=
    .mk hcall (by decide +kernel)
      (Registry.executes_of_isOk (by decide +kernel) (by decide +kernel) (by decide +kernel))
  have hstored : Step storesBehindCall [1] ⟨u, [1] ++ []⟩ ⟨v, [] ++ []⟩ :=
    .mk hstore (by decide +kernel)
      (Registry.executes_of_isOk (by decide +kernel) (by decide +kernel) (by decide +kernel))
  refine ⟨⟨v, []⟩, ?_, rfl, by decide +kernel⟩
  exact ((Relation.ReflTransGen.single ⟨[], hpushed⟩).tail ⟨[], hcalled⟩).tail ⟨[1], hstored⟩

end Beside

end JvmLift
