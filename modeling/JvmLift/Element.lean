import JvmLift.Element.Shape

namespace JvmLift

-- Where in the code an element was made. An element made to complete another one may lack it.
structure Stamp where
  line : Option UInt16 := none
  pc : Option Nat := none
deriving DecidableEq

-- A tree of expressions and statements.
structure Element where
  shape : Shape Element
  stamp : Stamp

namespace Element

mutual

-- Computes a value for a tree from the values of the trees below it.
def fold {α : Type} (f : Shape α → Stamp → α) : Element → α
  | ⟨shape, stamp⟩ => f (foldShape f shape) stamp

def foldShape {α : Type} (f : Shape α → Stamp → α) : Shape Element → Shape α
  | .constant value ty => .constant value ty
  | .localVar v => .localVar v
  | .field a => .field (foldField f a)
  | .arrayLoad array index ty => .arrayLoad (array.fold f) (index.fold f) ty
  | .binary left op right ty => .binary (left.fold f) op (right.fold f) ty
  | .unary operand op ty => .unary (operand.fold f) op ty
  | .compare left right => .compare (left.fold f) (right.fold f)
  | .cast value ty => .cast (value.fold f) ty
  | .instanceOf value ty => .instanceOf (value.fold f) ty
  | .increment v delta ty affix => .increment v delta ty affix
  | .call c => .call (foldCall f c)
  | .allocate ty => .allocate ty
  | .newInstance ty signature args => .newInstance ty signature (foldList f args)
  | .newArray ty component length initializers =>
    .newArray ty component (length.fold f) (foldInitializers f initializers)
  | .lambda l => .lambda (foldLambda f l)
  | .assign slot name ty value => .assign slot name ty (value.fold f)
  | .assignField a value => .assignField (foldField f a) (value.fold f)
  | .arrayStore array index value => .arrayStore (array.fold f) (index.fold f) (value.fold f)
  | .ret => .ret
  | .returnValue value => .returnValue (value.fold f)
  | .branch left op right target => .branch (left.fold f) op (right.fold f) target
  | .jump target => .jump target
  | .throw value => .throw (value.fold f)

def foldField {α : Type} (f : Shape α → Stamp → α) : FieldAccess Element → FieldAccess α
  | ⟨target, owner, ty, name⟩ => ⟨foldOption f target, owner, ty, name⟩

def foldCall {α : Type} (f : Shape α → Stamp → α) : Call Element → Call α
  | ⟨owner, name, signature, target, args, ty⟩ =>
    ⟨owner, name, signature, foldOption f target, foldList f args, ty⟩

def foldLambda {α : Type} (f : Shape α → Stamp → α) : Lambda Element → Lambda α
  | ⟨receiver, kind, interface, method, interfaceSignature, declaring, backing, backingSignature,
      enclosed⟩ =>
    ⟨foldOption f receiver, kind, interface, method, interfaceSignature, declaring, backing,
      backingSignature, enclosed⟩

def foldOption {α : Type} (f : Shape α → Stamp → α) : Option Element → Option α
  | none => none
  | some e => some (e.fold f)

def foldList {α : Type} (f : Shape α → Stamp → α) : List Element → List α
  | [] => []
  | e :: es => e.fold f :: foldList f es

def foldInitializers {α : Type} (f : Shape α → Stamp → α) :
    List (Int32 × Element) → List (Int32 × α)
  | [] => []
  | e :: es => foldInitializer f e :: foldInitializers f es

def foldInitializer {α : Type} (f : Shape α → Stamp → α) : Int32 × Element → Int32 × α
  | (i, e) => (i, e.fold f)

end

section Fold

variable {α : Type} (f : Shape α → Stamp → α)

theorem foldOption_eq (e : Option Element) : foldOption f e = e.map (fold f) := by
  cases e <;> simp [foldOption]

theorem foldList_eq (es : List Element) : foldList f es = es.map (fold f) := by
  induction es with
  | nil => simp [foldList]
  | cons e es ih => simp [foldList, ih]

theorem foldInitializers_eq (es : List (Int32 × Element)) :
    foldInitializers f es = es.map fun (i, e) => (i, e.fold f) := by
  induction es with
  | nil => simp [foldInitializers]
  | cons e es ih =>
    obtain ⟨i, a⟩ := e
    simp [foldInitializers, foldInitializer, ih]

theorem foldShape_eq (shape : Shape Element) : foldShape f shape = shape.map (fold f) := by
  cases shape with
  | field a | assignField a =>
    cases a
    simp [foldShape, Shape.map, foldField, foldOption_eq]
  | call c =>
    cases c
    simp [foldShape, Shape.map, foldCall, foldOption_eq, foldList_eq]
  | lambda l =>
    cases l
    simp [foldShape, Shape.map, foldLambda, foldOption_eq]
  | _ => simp [foldShape, Shape.map, foldList_eq, foldInitializers_eq]

-- A fold is determined by what it does to one layer.
theorem fold_mk (shape : Shape Element) (stamp : Stamp) :
    fold f ⟨shape, stamp⟩ = f (shape.map (fold f)) stamp := by
  rw [fold, foldShape_eq]

end Fold

theorem sizeOf_option_lt {e : Element} {o : Option Element} (h : e ∈ o.toList) :
    sizeOf e < sizeOf o := by
  cases o with
  | none => simp at h
  | some a =>
    obtain rfl : e = a := by simpa using h
    simp

theorem sizeOf_pair_lt {e : Element} {es : List (Int32 × Element)} (h : e ∈ es.map (·.2)) :
    sizeOf e < sizeOf es := by
  obtain ⟨⟨i, a⟩, hm, rfl⟩ := List.mem_map.1 h
  have := List.sizeOf_lt_of_mem hm
  simp only [Prod.mk.sizeOf_spec] at this
  show sizeOf a < sizeOf es
  omega

-- An element below another one is smaller.
theorem sizeOf_children_lt {e c : Element} (h : c ∈ e.shape.children) : sizeOf c < sizeOf e := by
  obtain ⟨shape, stamp⟩ := e
  rw [mk.sizeOf_spec]
  suffices sizeOf c < sizeOf shape by omega
  cases shape with
  | field f =>
    obtain ⟨target, owner, ty, name⟩ := f
    have : sizeOf c < sizeOf target := sizeOf_option_lt h
    simp only [Shape.field.sizeOf_spec, FieldAccess.mk.sizeOf_spec]
    omega
  | call k =>
    obtain ⟨owner, name, signature, target, args, ty⟩ := k
    simp only [Shape.call.sizeOf_spec, Call.mk.sizeOf_spec]
    rcases List.mem_append.1 h with h | h
    · have : sizeOf c < sizeOf target := sizeOf_option_lt h
      omega
    · have : sizeOf c < sizeOf args := List.sizeOf_lt_of_mem h
      omega
  | newInstance ty signature args =>
    have : sizeOf c < sizeOf args := List.sizeOf_lt_of_mem h
    simp only [Shape.newInstance.sizeOf_spec]
    omega
  | newArray ty component length initializers =>
    simp only [Shape.newArray.sizeOf_spec]
    rcases List.mem_cons.1 h with rfl | h
    · omega
    · have := sizeOf_pair_lt h
      omega
  | lambda l =>
    obtain ⟨receiver⟩ := l
    have : sizeOf c < sizeOf receiver := sizeOf_option_lt h
    simp only [Shape.lambda.sizeOf_spec, Lambda.mk.sizeOf_spec]
    omega
  | assignField f value =>
    obtain ⟨target, owner, ty, name⟩ := f
    simp only [Shape.assignField.sizeOf_spec, FieldAccess.mk.sizeOf_spec]
    rcases List.mem_append.1 h with h | h
    · have : sizeOf c < sizeOf target := sizeOf_option_lt h
      omega
    · obtain rfl : c = value := by simpa using h
      omega
  | constant | localVar | increment | allocate | ret | jump => simp [Shape.children] at h
  | _ =>
    simp only [Shape.children, List.mem_cons, List.not_mem_nil, or_false] at h
    rcases h with rfl | rfl | rfl <;> simp +arith

def kind (e : Element) : Kind :=
  e.shape.kind

def children (e : Element) : List Element :=
  e.shape.children

@[simp]
theorem children_mk (shape : Shape Element) (stamp : Stamp) :
    (mk shape stamp).children = shape.children :=
  rfl

-- The same tree at another place in the code.
def stamped (e : Element) (stamp : Stamp) : Element :=
  ⟨e.shape, stamp⟩

def isStamped (e : Element) : Bool :=
  e.stamp.pc.isSome

-- The tree and all trees in it, each in front of those below it.
def subterms (e : Element) : List Element :=
  (e.fold fun shape stamp =>
    let below : Shape Element := shape.map (·.1)
    ((⟨below, stamp⟩ : Element), ⟨below, stamp⟩ :: shape.children.flatMap (·.2))).2

-- Whether the tree or one in it has a property.
def contains (e : Element) (p : Element → Bool) : Bool :=
  e.subterms.any p

-- Whether two trees are equal wherever they were made.
def same (e : Element) : Element → Bool :=
  e.fold fun shape _ other =>
    (shape.map fun _ => ()).same (other.shape.map fun _ => ()) &&
      (List.zipWith (fun test child => test child) shape.children other.children).all (·)

def ofShape (shape : Shape Element) : Element :=
  ⟨shape, {}⟩

def constant (value : Constant) (ty : JvmType) : Element :=
  ofShape (.constant value ty)

def int (value : Int32) : Element :=
  constant (.int value) .int

def long (value : Int64) : Element :=
  constant (.long value) .long

def float (value : Decimal.Float32Bits) : Element :=
  constant (.float value) .float

def double (value : Decimal.Float64Bits) : Element :=
  constant (.double value) .double

def boolean (value : Bool) : Element :=
  constant (.boolean value) .boolean

def string (text : String) : Element :=
  constant (.string text) .string

def null : Element :=
  constant .null .null

-- The type of the value that an element produces. A statement produces none.
def ty (e : Element) : JvmType :=
  match e.shape with
  | .constant _ ty | .arrayLoad _ _ ty | .binary _ _ _ ty | .unary _ _ ty | .cast _ ty
  | .increment _ _ ty _ | .allocate ty | .newInstance ty _ _ | .newArray ty _ _ _ => ty
  | .localVar v => v.ty
  | .field f => f.ty
  | .call c => c.ty
  | .lambda l => l.interface
  | .compare .. => .int
  | .instanceOf .. => .boolean
  | .assign .. | .assignField .. | .arrayStore .. | .ret | .returnValue .. | .branch .. | .jump ..
  | .throw .. => .void

def isExpression (e : Element) : Bool :=
  match e.shape with
  | .assign .. | .assignField .. | .arrayStore .. | .ret | .returnValue .. | .branch .. | .jump ..
  | .throw .. => false
  | _ => true

-- Whether the element can stand as a statement: of the expressions only those that have an
-- effect of their own.
def isStatement (e : Element) : Bool :=
  !e.isExpression ||
    match e.shape with
    | .call .. | .increment .. | .newInstance .. => true
    | _ => false

def localVar? (e : Element) : Option LocalRef :=
  match e.shape with
  | .localVar v => some v
  | _ => none

def call? (e : Element) : Option (Call Element) :=
  match e.shape with
  | .call c => some c
  | _ => none

def intConstant? (e : Element) : Option Int32 :=
  match e.shape with
  | .constant (.int value) _ => some value
  | _ => none

-- Whether the element is a constant of type int. A boolean or a char may be kept as an int
-- constant of its own type.
def isInt (e : Element) (value : Int32) : Bool :=
  e.intConstant? = some value && e.ty = .int

-- Whether the element must not be left in a result: an object that was never constructed or an
-- increment whose use was never seen.
def isUnfinished (e : Element) : Bool :=
  match e.shape with
  | .allocate _ | .increment _ _ _ .pending => true
  | _ => false

end Element

end JvmLift
