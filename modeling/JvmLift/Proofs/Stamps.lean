import JvmLift.Proofs.ProgramOrder
import JvmLift.Proofs.Tree.Inside

namespace JvmLift

namespace Element

-- Zero or null, as a jump that names one operand only compares with it.
def isComparand (e : Element) : Bool :=
  match e.shape with
  | .constant (.int value) .int => value = 0
  | .constant .null _ => true
  | _ => false

-- A piece of text, or pieces that were joined to one.
def isText (e : Element) : Bool :=
  match e.shape with
  | .constant (.string _) _ => true
  | .binary _ op _ ty => op = .plus && ty = .string
  | _ => false

end Element

-- What a layer may hold that was never on the stack: the operand that a jump leaves out, and the
-- pieces of a joined text.
def Shape.supplied : Shape Element → List Element
  | .branch _ _ right _ => [right].filter (·.isComparand)
  | .binary left op right ty =>
    if op.isComparison then [right].filter (·.isComparand)
    else if op = .plus ∧ ty = .string then [left, right].filter (·.isText)
    else []
  | _ => []

namespace Element

section Traced

variable (given : Stamp → Prop)

-- In all of a tree there are no stamps but given ones, and nothing that was on the stack has none.
def Traced (e : Element) : Prop :=
  ∀ x : Element, x.Inside e → (x.stamp = {} ∨ given x.stamp) ∧
    ∀ c, x.shape.Holds c → c.isStamped ∨ c ∈ x.shape.supplied

-- What may be on the stack or among the statements.
structure Placed (e : Element) : Prop where
  isStamped : e.isStamped
  traced : e.Traced given

variable {given} {shape : Shape Element}

theorem traced_mk {stamp : Stamp} : Traced given ⟨shape, stamp⟩ ↔ (stamp = {} ∨ given stamp) ∧
    ∀ c ∈ shape.children, (c.isStamped ∨ c ∈ shape.supplied) ∧ c.Traced given := by
  constructor
  · intro h
    obtain ⟨hstamp, hheld⟩ := h _ .self
    refine ⟨hstamp, fun c hc => ?_⟩
    have hholds := Shape.holds_iff_mem_children.2 hc
    exact ⟨hheld c hholds, fun x hx => h x (.stored hholds hx)⟩
  · rintro ⟨hstamp, hbelow⟩ x hx
    rcases inside_mk.1 hx with rfl | ⟨c, hc, hxc⟩
    · exact ⟨hstamp, fun c hc => (hbelow c (Shape.holds_iff_mem_children.1 hc)).1⟩
    · exact (hbelow c hc).2 x hxc

-- A new layer over elements from the stack is traced, without a stamp or with that of another one.
theorem traced_ofShape (h : ∀ c ∈ shape.children, c.Placed given) :
    (ofShape shape).Traced given :=
  traced_mk.2 ⟨.inl rfl, fun c hc => ⟨.inl (h c hc).isStamped, (h c hc).traced⟩⟩

theorem traced_of_none (h : shape.children = []) : (ofShape shape).Traced given :=
  traced_ofShape (h ▸ List.forall_mem_nil _)

theorem traced_of_one {a : Element} (h : shape.children = [a]) (ha : a.Placed given) :
    (ofShape shape).Traced given :=
  traced_ofShape (h ▸ List.forall_mem_singleton.2 ha)

theorem Traced.reshape {e : Element} (h : e.Traced given)
    (hc : ∀ c ∈ shape.children, c.Placed given) : Traced given ⟨shape, e.stamp⟩ :=
  traced_mk.2 ⟨(h e .self).1, (traced_mk.1 (traced_ofShape hc)).2⟩

theorem Traced.stamped {e : Element} {stamp : Stamp} (h : e.Traced given) (hs : given stamp) :
    (e.stamped stamp).Traced given := by
  obtain ⟨shape, old⟩ := e
  exact traced_mk.2 ⟨.inr hs, (traced_mk.1 h).2⟩

theorem Placed.given_stamp {e : Element} (h : e.Placed given) : given e.stamp := by
  rcases (h.traced e .self).1 with hnone | hgiven
  · have hs := h.isStamped
    rw [Element.isStamped, hnone] at hs
    cases hs
  · exact hgiven

-- What a layer that supplies nothing holds was on the stack.
theorem Traced.below {e : Element} (h : e.Traced given) (hshape : e.shape = shape)
    (hs : shape.supplied = []) : ∀ c ∈ shape.children, c.Placed given := by
  obtain ⟨shape, stamp⟩ := e
  cases hshape
  intro c hc
  obtain ⟨hstamped, htraced⟩ := (traced_mk.1 h).2 c hc
  refine ⟨hstamped.resolve_right fun hmem => ?_, htraced⟩
  rw [hs] at hmem
  cases hmem

end Traced

end Element

namespace LineTable

-- The stamp of what an instruction makes.
def stampAt (table : LineTable) (pc : Nat) : Stamp :=
  ⟨table.lineAt? pc, some pc⟩

-- A stamp is that of one of some instructions.
def Gives (table : LineTable) (executed : Nat → Prop) (stamp : Stamp) : Prop :=
  ∃ pc, executed pc ∧ stamp = table.stampAt pc

end LineTable

namespace Element

variable {given : Stamp → Prop}

theorem Placed.settled {e : Element} (h : e.Placed given) : e.settled.Placed given := by
  constructor
  · rw [Element.isStamped, stamp_settled]
    exact h.isStamped
  · unfold Element.settled
    split
    · exact h.traced.reshape (List.forall_mem_nil _)
    · exact h.traced

end Element

end JvmLift
