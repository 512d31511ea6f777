import JvmLift.Proofs.Tree

namespace JvmLift

-- An element is stored in one of the places that a layer has for elements.
inductive Shape.Holds {ε : Type} (c : ε) : Shape ε → Prop where
  | field {owner ty : JvmType} {name : String} : Holds c (.field ⟨some c, owner, ty, name⟩)
  | loadedArray {index : ε} {ty : JvmType} : Holds c (.arrayLoad c index ty)
  | loadIndex {array : ε} {ty : JvmType} : Holds c (.arrayLoad array c ty)
  | leftOperand {op : BinaryOp} {right : ε} {ty : JvmType} : Holds c (.binary c op right ty)
  | rightOperand {left : ε} {op : BinaryOp} {ty : JvmType} : Holds c (.binary left op c ty)
  | operand {op : UnaryOp} {ty : JvmType} : Holds c (.unary c op ty)
  | comparedLeft {right : ε} : Holds c (.compare c right)
  | comparedRight {left : ε} : Holds c (.compare left c)
  | cast {ty : JvmType} : Holds c (.cast c ty)
  | instanceOf {ty : JvmType} : Holds c (.instanceOf c ty)
  | callTarget {k : Call ε} (h : k.target = some c) : Holds c (.call k)
  | callArgument {k : Call ε} (h : c ∈ k.args) : Holds c (.call k)
  | argument {ty : JvmType} {signature : MethodDescriptor} {args : List ε} (h : c ∈ args) :
    Holds c (.newInstance ty signature args)
  | length {ty component : JvmType} {initializers : List (Int32 × ε)} :
    Holds c (.newArray ty component c initializers)
  | initializer {ty component : JvmType} {length : ε} {initializers : List (Int32 × ε)}
    {index : Int32} (h : (index, c) ∈ initializers) :
    Holds c (.newArray ty component length initializers)
  | receiver {l : Lambda ε} (h : l.receiver = some c) : Holds c (.lambda l)
  | assigned {slot : UInt16} {name : String} {ty : JvmType} : Holds c (.assign slot name ty c)
  | fieldTarget {owner ty : JvmType} {name : String} {value : ε} :
    Holds c (.assignField ⟨some c, owner, ty, name⟩ value)
  | fieldValue {f : FieldAccess ε} : Holds c (.assignField f c)
  | storedArray {index value : ε} : Holds c (.arrayStore c index value)
  | storeIndex {array value : ε} : Holds c (.arrayStore array c value)
  | storedValue {array index : ε} : Holds c (.arrayStore array index c)
  | returned : Holds c (.returnValue c)
  | branchLeft {op : BinaryOp} {right : ε} {target : Nat} : Holds c (.branch c op right target)
  | branchRight {left : ε} {op : BinaryOp} {target : Nat} : Holds c (.branch left op c target)
  | thrown : Holds c (.throw c)

-- The list of what is directly below a layer leaves out none of the places.
theorem Shape.holds_iff_mem_children {ε : Type} {s : Shape ε} {c : ε} :
    s.Holds c ↔ c ∈ s.children := by
  constructor
  · intro h
    cases h with
    | initializer h => exact List.mem_cons_of_mem _ (List.mem_map_of_mem h)
    | _ => simp [*]
  · intro h
    cases s with
    | constant | localVar | increment | allocate | ret | jump => cases h
    | field f =>
      obtain ⟨target, owner, ty, name⟩ := f
      obtain rfl : target = some c := by simpa using h
      exact .field
    | arrayLoad array index ty =>
      obtain rfl | rfl : c = array ∨ c = index := by simpa using h
      · exact .loadedArray
      · exact .loadIndex
    | binary left op right ty =>
      obtain rfl | rfl : c = left ∨ c = right := by simpa using h
      · exact .leftOperand
      · exact .rightOperand
    | unary operand op ty =>
      obtain rfl : c = operand := by simpa using h
      exact .operand
    | compare left right =>
      obtain rfl | rfl : c = left ∨ c = right := by simpa using h
      · exact .comparedLeft
      · exact .comparedRight
    | cast value ty =>
      obtain rfl : c = value := by simpa using h
      exact .cast
    | instanceOf value ty =>
      obtain rfl : c = value := by simpa using h
      exact .instanceOf
    | call k =>
      rcases List.mem_append.1 h with h | h
      · exact .callTarget (by simpa using h)
      · exact .callArgument h
    | newInstance ty signature args => exact .argument h
    | newArray ty component length initializers =>
      rcases List.mem_cons.1 h with rfl | h
      · exact .length
      · obtain ⟨⟨index, value⟩, hm, rfl⟩ := List.mem_map.1 h
        exact .initializer hm
    | lambda l => exact .receiver (by simpa using h)
    | assign slot name ty value =>
      obtain rfl : c = value := by simpa using h
      exact .assigned
    | assignField f value =>
      obtain ⟨target, owner, ty, name⟩ := f
      rcases List.mem_append.1 h with h | h
      · obtain rfl : target = some c := by simpa using h
        exact .fieldTarget
      · obtain rfl : c = value := by simpa using h
        exact .fieldValue
    | arrayStore array index value =>
      obtain rfl | rfl | rfl : c = array ∨ c = index ∨ c = value := by simpa using h
      · exact .storedArray
      · exact .storeIndex
      · exact .storedValue
    | returnValue value =>
      obtain rfl : c = value := by simpa using h
      exact .returned
    | branch left op right target =>
      obtain rfl | rfl : c = left ∨ c = right := by simpa using h
      · exact .branchLeft
      · exact .branchRight
    | throw value =>
      obtain rfl : c = value := by simpa using h
      exact .thrown

namespace Element

-- An element is a tree or stored in it, at any depth.
inductive Inside (x : Element) : Element → Prop where
  | self : Inside x x
  | stored {c : Element} {shape : Shape Element} {stamp : Stamp} (h : shape.Holds c)
    (hc : Inside x c) : Inside x ⟨shape, stamp⟩

theorem inside_mk {x : Element} {shape : Shape Element} {stamp : Stamp} :
    x.Inside ⟨shape, stamp⟩ ↔ x = ⟨shape, stamp⟩ ∨ ∃ c ∈ shape.children, x.Inside c := by
  constructor
  · intro h
    cases h with
    | self => exact .inl rfl
    | stored h hc => exact .inr ⟨_, Shape.holds_iff_mem_children.1 h, hc⟩
  · rintro (rfl | ⟨c, hc, hx⟩)
    · exact .self
    · exact .stored (Shape.holds_iff_mem_children.2 hc) hx

-- A search through a tree sees everything that is stored in it.
theorem contains_iff_inside {p : Element → Bool} {e : Element} :
    e.contains p ↔ ∃ x, x.Inside e ∧ p x := by
  induction e using children_induction with | h e ih =>
  obtain ⟨shape, stamp⟩ := e
  rw [contains_mk, Bool.or_eq_true, List.any_eq_true]
  constructor
  · rintro (h | ⟨c, hc, hfound⟩)
    · exact ⟨_, .self, h⟩
    · obtain ⟨x, hx, hp⟩ := (ih c hc).1 hfound
      exact ⟨x, inside_mk.2 (.inr ⟨c, hc, hx⟩), hp⟩
  · rintro ⟨x, hx, hp⟩
    rcases inside_mk.1 hx with rfl | ⟨c, hc, hxc⟩
    · exact .inl hp
    · exact .inr ⟨c, hc, (ih c hc).2 ⟨x, hxc, hp⟩⟩

end Element

end JvmLift
