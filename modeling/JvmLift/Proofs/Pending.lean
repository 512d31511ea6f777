import JvmLift.Proofs.Inversion
import JvmLift.Proofs.Keeps
import JvmLift.Proofs.Occurrences

namespace JvmLift

open Element (count_of_perm count_reverse occurrences_stamped inner_stamped inner_le)

-- How often entries have an element in them.
def tally (v : Element) (entries : List Entry) : Nat :=
  v.count (entries.map (·.element))

-- Whether the last of some statements, which come with the last one first, is an element.
def endsWith (v : Element) (statements : List Entry) : Bool :=
  statements.head?.any (·.element.same v)

section Tally

variable {v : Element}

@[simp]
theorem tally_cons (d : Entry) (entries : List Entry) :
    tally v (d :: entries) = v.occurrences d.element + tally v entries :=
  rfl

theorem count_result (s : State) : v.count s.result = tally v s.statements := by
  rw [State.result, List.map_reverse, count_reverse, tally]

theorem lastStatement?_any_same (s : State) :
    (s.lastStatement? 0).any (·.same v) = endsWith v s.statements := by
  rw [State.lastStatement?, endsWith, ← List.head?_eq_getElem?, Option.any_map]

@[simp]
theorem occurrences_entry (s : State) (e : Element) :
    v.occurrences (s.entry e).element = v.occurrences e := by
  obtain ⟨stamp, h⟩ := s.exists_entry_eq e
  rw [h, occurrences_stamped]

@[simp]
theorem inner_entry (s : State) (e : Element) :
    v.inner (s.entry e).element = v.inner e := by
  obtain ⟨stamp, h⟩ := s.exists_entry_eq e
  rw [h, inner_stamped]

theorem tally_file (s : State) (d : Entry) :
    tally v (s.file d).statements = v.occurrences d.element + tally v s.statements := by
  have hperm : (s.statements.takeWhile d.precedes ++ d :: s.statements.dropWhile d.precedes).Perm
      (d :: s.statements) := by
    refine List.perm_middle.trans ?_
    rw [List.takeWhile_append_dropWhile]
  have hcount := count_of_perm (v := v) (hperm.map (·.element))
  rw [State.file, List.span_eq_takeWhile_dropWhile]
  exact hcount

end Tally

namespace Element

-- Whether a call or a construction has an argument for every parameter.
def isSaturated (e : Element) : Bool :=
  match e.shape with
  | .call c => c.args.length = c.signature.parameters.length
  | .newInstance _ signature args => args.length = signature.parameters.length
  | _ => true

-- Whether `v` is in an element a number of times. A fresh element, which may still be rewritten,
-- must have them below its top layer.
def Carries (v : Element) (fresh : Bool) (n : Nat) (e : Element) : Prop :=
  if fresh then n ≤ v.inner e ∧ e.isSaturated else n ≤ v.occurrences e

variable {v : Element} {fresh : Bool} {n : Nat} {e : Element}

theorem carries_of_inner (h : n ≤ v.inner e) (hs : e.isSaturated) : v.Carries fresh n e := by
  cases fresh with
  | false => exact Nat.le_trans h (inner_le e)
  | true => exact ⟨h, hs⟩

theorem Carries.le_occurrences (h : v.Carries fresh n e) : n ≤ v.occurrences e := by
  cases fresh with
  | false => exact h
  | true => exact Nat.le_trans h.1 (inner_le e)

theorem carries_entry (s : State) :
    v.Carries fresh n (s.entry e).element ↔ v.Carries fresh n e := by
  obtain ⟨stamp, h⟩ := s.exists_entry_eq e
  have hs : (s.entry e).element.isSaturated = e.isSaturated := by
    rw [h]
    rfl
  rw [Carries, Carries, inner_entry, occurrences_entry, hs]

end Element

namespace State

-- What becomes of the only entry of a stack that has `v` in it `n` times: it gets into a
-- statement, it stays below one other entry, or it stays alone or gets into the only entry.
inductive Survives (v : Element) (fresh : Bool) (n : Nat) (statements : List Entry) (t : State) :
    Prop where
  | finalized (hs : t.stack = []) (hn : tally v statements + n ≤ tally v t.statements)
  | covered {top bottom : Entry} (hs : t.stack = [top, bottom])
    (hn : n ≤ v.occurrences bottom.element) (ht : tally v t.statements = tally v statements)
  | alone {only : Entry} (hs : t.stack = [only]) (hn : v.Carries fresh n only.element)
    (ht : tally v t.statements = tally v statements)
    (hl : t.aborted = false → endsWith v t.statements → endsWith v statements)

namespace Survives

variable {v : Element} {fresh : Bool} {n : Nat} {statements : List Entry} {t u : State}

theorem ripen (h : Survives v fresh n statements t) : Survives v false n statements t := by
  cases h with
  | finalized hs hn => exact .finalized hs hn
  | covered hs hn ht => exact .covered hs hn ht
  | alone hs hn ht hl => exact .alone hs hn.le_occurrences ht hl

-- A change of the statements that keeps what is counted.
theorem restate (h : Survives v fresh n statements t) (hs : u.stack = t.stack)
    (ht : tally v u.statements = tally v t.statements)
    (hl : u.aborted = false → endsWith v u.statements →
      t.aborted = false ∧ endsWith v t.statements) :
    Survives v fresh n statements u := by
  cases h with
  | finalized hst hn => exact .finalized (hs.trans hst) (ht ▸ hn)
  | covered hst hn hts => exact .covered (hs.trans hst) hn (ht.trans hts)
  | alone hst hn hts hlast =>
    refine .alone (hs.trans hst) hn (ht.trans hts) fun ha he => ?_
    obtain ⟨hat, het⟩ := hl ha he
    exact hlast hat het

-- Where something is below the top of the stack, it is what survives.
theorem le_of_peek (h : Survives v fresh n statements t) {e : Element}
    (he : t.peekAt? 1 = some e) : n ≤ v.occurrences e := by
  cases h with
  | finalized hs hn => simp [State.peekAt?, hs] at he
  | covered hs hn ht =>
    obtain rfl : _ = e := by simpa [State.peekAt?, hs] using he
    exact hn
  | alone hs hn ht hl => simp [State.peekAt?, hs] at he

end Survives

end State

namespace Action

variable {α : Type}

-- An action that changes neither the stack nor the statements.
def Still (a : Action α) : Prop :=
  ∀ stack statements,
    Keeps (fun s => s.stack = stack ∧ s.statements = statements) (fun _ => True) a

namespace Still

protected theorem pure (v : α) : Still (pure v) :=
  fun _ _ => .pure trivial

protected theorem throw (f : Fault) : Still (throw f : Action α) :=
  fun _ _ => .throw f

protected theorem bind {β : Type} {a : Action α} {f : α → Action β} (ha : Still a)
    (hf : ∀ v, Still (f v)) : Still (a >>= f) :=
  fun stack statements => (ha stack statements).bind fun v _ => hf v stack statements

theorem inspect {f : State → Action α} (hf : ∀ s, Still (f s)) : Still (get >>= f) :=
  fun stack statements => .inspect fun s _ => hf s stack statements

theorem map {β : Type} {a : Action α} (g : α → β) (ha : Still a) : Still (g <$> a) :=
  fun stack statements => (ha stack statements).map g fun _ _ => trivial

protected theorem discard {a : Action α} (ha : Still a) : Still (discard a) :=
  ha.map _

theorem lift (e : Except ClassFileError α) : Still (liftM e : Action α) :=
  fun _ _ => .lift e

theorem read (r : Reading α) : Still (Action.read r) :=
  fun _ _ => .read (fun _ _ h => h) r

theorem followingCode? : Still Action.followingCode? :=
  fun _ _ => .followingCode? fun _ _ h => h

theorem peek : Still Action.peek := by
  refine .inspect fun s => ?_
  cases s.peekAt? 0 with
  | none => exact .throw _
  | some e => exact .pure e

theorem local? (slot : UInt16) (pc : Nat) : Still (Action.local? slot pc) := by
  refine .inspect fun s => ?_
  cases s.local? slot pc with
  | error e => exact .throw e
  | ok v => exact .pure v

theorem classType (index : UInt16) : Still (Action.classType index) := by
  refine .inspect fun s => (Still.lift _).bind fun name => ?_
  cases JvmType.ofClassName? name with
  | none => exact .throw _
  | some ty => exact .pure ty

theorem requireTarget (offset : Int) : Still (Instruction.Jump.requireTarget offset) := by
  refine .inspect fun s => ?_
  cases Instruction.Jump.target s offset with
  | error fault => exact .throw fault
  | ok pc => exact .pure pc

end Still

-- An action that leads from a stack, if it succeeds, to a state that fits the statements before.
def Leads (pre : List Entry → Prop) (post : List Entry → State → Prop) (a : Action Unit) : Prop :=
  ∀ s t, pre s.stack → exec a s = (.ok ⟨⟩, t) → post s.statements t

-- Nothing is on the stack.
def Bare (stack : List Entry) : Prop :=
  stack = []

-- A single entry is on the stack, and has an element in it a number of times.
def Lone (v : Element) (n : Nat) (stack : List Entry) : Prop :=
  ∃ only : Entry, stack = [only] ∧ v.occurrences only.element = n

namespace Leads

section Combined

variable {pre : List Entry → Prop} {post : List Entry → State → Prop}

protected theorem throw (f : Fault) : Leads pre post (throw f) := by
  intro s t _ h
  cases (Prod.mk.inj h).1

theorem throw_bind {β : Type} (f : Fault) (g : β → Action Unit) :
    Leads pre post ((MonadExcept.throw f : Action β) >>= g) := by
  intro s t _ h
  cases (Prod.mk.inj h).1

theorem require {p : Prop} [Decidable p] {f : Fault} {a : Action Unit} (h : Leads pre post a) :
    Leads pre post (if p then a else (MonadExcept.throw f : Action PUnit) >>= fun _ => a) := by
  split
  · exact h
  · exact .throw_bind f _

theorem refuse {p : Prop} [Decidable p] {f : Fault} {a : Action Unit} (h : Leads pre post a) :
    Leads pre post (if p then (MonadExcept.throw f : Action PUnit) >>= fun _ => a else a) := by
  split
  · exact .throw_bind f _
  · exact h

theorem inspect {f : State → Action Unit} (hf : ∀ s, Leads pre post (f s)) :
    Leads pre post (get >>= f) :=
  fun s t hs h => hf s s t hs h

-- What leaves the stack and the statements alone may come first.
theorem still {a : Action α} {f : α → Action Unit} (ha : Still a)
    (hf : ∀ v, Leads pre post (f v)) : Leads pre post (a >>= f) := by
  intro s t hs h
  obtain ⟨v, u, hu, h⟩ := exec_bind_eq_ok.1 h
  have hkept := (ha s.stack s.statements).state s ⟨rfl, rfl⟩
  rw [hu] at hkept
  rw [← hkept.2]
  exact hf v u t (hkept.1 ▸ hs) h

end Combined

section Bare

variable {post : List Entry → State → Prop}

-- There is nothing to pop.
theorem pop_bare (f : Element → Action Unit) : Leads Bare post (pop >>= f) := by
  intro s t hs h
  obtain ⟨e, u, hu, -⟩ := exec_bind_eq_ok.1 h
  obtain ⟨top, below, hcons, -⟩ := pop_eq_ok hu
  rw [show s.stack = [] from hs] at hcons
  cases hcons

theorem popTarget_bare (f : Option Element → Action Unit) :
    Leads Bare post ((some <$> pop) >>= f) := by
  rw [map_eq_pure_bind, bind_assoc]
  exact .pop_bare _

end Bare

section Lone

variable {v : Element} {n : Nat} {post : List Entry → State → Prop}

theorem pop {f : Element → Action Unit}
    (hf : ∀ e, v.occurrences e = n → Leads Bare post (f e)) :
    Leads (Lone v n) post (Action.pop >>= f) := by
  rintro s t ⟨only, hs, hn⟩ h
  obtain ⟨e, u, hu, h⟩ := exec_bind_eq_ok.1 h
  rw [exec_pop_of_cons hs] at hu
  obtain ⟨he, rfl⟩ := Prod.mk.inj hu
  cases he
  exact hf only.element hn (s.leaving []) t rfl h

theorem popTarget {f : Option Element → Action Unit}
    (hf : ∀ e, v.occurrences e = n → Leads Bare post (f (some e))) :
    Leads (Lone v n) post ((some <$> Action.pop) >>= f) := by
  rw [map_eq_pure_bind, bind_assoc]
  exact .pop fun e he => by simpa using hf e he

-- Of many values none or one is popped.
theorem popMany {count : Nat} {f : List Element → Action Unit}
    (hnone : count = 0 → Leads (Lone v n) post (f []))
    (hone : count = 1 → ∀ e, v.occurrences e = n → Leads Bare post (f [e])) :
    Leads (Lone v n) post (Action.popMany count >>= f) := by
  rintro s t ⟨only, hs, hn⟩ h
  obtain ⟨es, u, hu, h⟩ := exec_bind_eq_ok.1 h
  obtain ⟨hcount, rfl, rfl⟩ := popMany_eq_ok hu
  rw [hs, List.length_singleton] at hcount
  obtain rfl | rfl : count = 0 ∨ count = 1 := by omega
  · exact hnone rfl s t ⟨only, hs, hn⟩ h
  · rw [hs] at h
    exact hone rfl only.element hn (s.leaving []) t rfl h

end Lone

section Survives

variable {v : Element} {fresh : Bool} {n : Nat}

theorem push_bare {e : Element} (h : n ≤ v.inner e) (hsat : e.isSaturated) :
    Leads Bare (State.Survives v fresh n) (push e) := by
  intro s t hs ht
  obtain ⟨-, rfl⟩ := Prod.mk.inj ht
  have hstack : (s.push e).stack = [s.entry e] := congrArg (s.entry e :: ·) hs
  have hcarries : v.Carries fresh n (s.entry e).element :=
    (Element.carries_entry s).2 (Element.carries_of_inner h hsat)
  exact .alone hstack hcarries rfl fun _ hl => hl

theorem enlist_bare {e : Element} (h : n ≤ v.inner e) :
    Leads Bare (State.Survives v fresh n) (enlist e) := by
  intro s t hs ht
  obtain ⟨-, rfl⟩ := Prod.mk.inj ht
  refine .finalized hs ?_
  have hin := inner_le (v := v) e
  show _ ≤ tally v (s.entry e :: s.statements)
  rw [tally_cons, occurrences_entry]
  omega

theorem push (e : Element) : Leads (Lone v n) (State.Survives v fresh n) (Action.push e) := by
  rintro s t ⟨only, hs, hn⟩ ht
  obtain ⟨-, rfl⟩ := Prod.mk.inj ht
  exact .covered (congrArg (s.entry e :: ·) hs) (Nat.le_of_eq hn.symm) rfl

-- What is done without the value leaves it where it is.
theorem leave {a : Action Unit} (h : ∀ s, (exec a s).2.stack = s.stack ∧
      tally v (exec a s).2.statements = tally v s.statements ∧
      ((exec a s).2.aborted = false → endsWith v (exec a s).2.statements →
        endsWith v s.statements)) :
    Leads (Lone v n) (State.Survives v false n) a := by
  rintro s t ⟨only, hs, hn⟩ ht
  obtain ⟨hstack, htally, hlast⟩ := h s
  rw [ht] at hstack htally hlast
  exact .alone (hstack.trans hs) (Nat.le_of_eq hn.symm) htally hlast

end Survives

end Leads

end Action

end JvmLift
