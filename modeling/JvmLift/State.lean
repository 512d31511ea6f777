import JvmLift.Cursor
import JvmLift.Element
import JvmLift.LineTable

namespace JvmLift

-- An element with the position at which it was put into the state, and its turn. No two entries
-- of a state have the same turn.
structure Entry where
  element : Element
  pc : Nat
  version : Nat

namespace Entry

-- Whether the entry belongs in front of another one.
def precedes (a b : Entry) : Bool :=
  a.pc < b.pc || a.pc = b.pc && a.version < b.version

end Entry

-- What a run works on: the code, the symbolic operand stack with its top first, and the
-- statements that are complete, the last one first.
structure State where
  method : Method
  cursor : Cursor
  lines : LineTable
  stack : List Entry := []
  statements : List Entry := []
  version : Nat := 0
  startPc : Nat
  instructionPc : Nat
  aborted : Bool := false

namespace State

-- The state in front of the first instruction that the cursor is at.
def start (method : Method) (cursor : Cursor) : State :=
  { method, cursor, lines := .ofEntries method.lines, startPc := cursor.pc,
    instructionPc := cursor.pc }

def pool (s : State) : Pool :=
  s.method.pool

-- The position of the next byte.
def pc (s : State) : Nat :=
  s.cursor.pc

-- The line of the current instruction.
def line? (s : State) : Option UInt16 :=
  s.lines.lineAt? s.instructionPc

-- Gives an element the current position unless it has one.
def stamp (s : State) (e : Element) : Element :=
  if e.isStamped then e else e.stamped ⟨s.line?, some s.instructionPc⟩

def local? (s : State) (slot : UInt16) (pc : Nat) : Except Fault LocalRef :=
  match s.method.localAt? slot pc with
  | some v => .ok ⟨v.name, v.ty, slot⟩
  | none => .error (.noLocal slot pc s.method.className s.method.name)

-- The element a number of entries below the top.
def peekAt? (s : State) (depth : Nat) : Option Element :=
  s.stack[depth]?.map (·.element)

-- The statement a number of statements before the last one.
def lastStatement? (s : State) (depth : Nat) : Option Element :=
  s.statements[depth]?.map (·.element)

-- Whether the top element is of a kind.
def topIs (s : State) (kind : Kind) : Bool :=
  (s.peekAt? 0).any fun e => e.kind = kind

-- Whether the last statement is of a kind.
def lastIs (s : State) (kind : Kind) : Bool :=
  (s.lastStatement? 0).any fun e => e.kind = kind

-- The computational categories on the stack, top first.
def categories (s : State) : List Nat :=
  s.stack.map fun e => e.element.ty.category

-- Whether the categories on top of the stack are the given ones, top first.
def hasCategories (s : State) (categories : List Nat) : Bool :=
  categories.isPrefixOf s.categories

-- The result of a run that ends here, in program order.
def result (s : State) : List Element :=
  s.statements.reverse.map (·.element)

-- A new entry for an element, made at the current instruction.
def entry (s : State) (e : Element) : Entry :=
  ⟨s.stamp e, s.instructionPc, s.version + 1⟩

def push (s : State) (e : Element) : State :=
  { s with stack := s.entry e :: s.stack, version := s.version + 1 }

-- Puts an element below the top `depth` entries.
def pushBelow (s : State) (depth : Nat) (e : Element) : State :=
  { s with stack := s.stack.insertIdx depth (s.entry e), version := s.version + 1 }

def enlist (s : State) (e : Element) : State :=
  { s with statements := s.entry e :: s.statements, version := s.version + 1 }

-- Puts an entry among the statements at the place of its position and turn.
def file (s : State) (e : Entry) : State :=
  let (later, earlier) := s.statements.span e.precedes
  { s with statements := later ++ e :: earlier }

def abort (s : State) : State :=
  { s with aborted := true }

end State

-- An increment whose use was never seen counts as one that takes effect afterwards.
def Element.settled (e : Element) : Element :=
  match e.shape with
  | .increment v delta ty .pending => ⟨.increment v delta ty .after, e.stamp⟩
  | _ => e

-- A step of a run. What it has done to the state stays done when it fails.
abbrev Action := ExceptT Fault (StateM State)

namespace Action

instance : MonadLift (Except ClassFileError) Action where
  monadLift
    | .ok a => pure a
    | .error e => throw (.classFile e)

def read {α : Type} (r : Reading α) : Action α := do
  let s ← get
  let (result, cursor) := r.run.run s.cursor
  set { s with cursor }
  match result with
  | .ok a => return a
  | .error e => throw e

-- Looks at the code of the instruction that follows, if there is one.
def followingCode? : Action (Option Opcode) := do
  let s ← get
  let (result, cursor) := Reading.peekInstruction.run.run s.cursor
  set { s with cursor }
  return result.toOption

-- Reads the next instruction code and makes it the current one.
def nextInstruction : Action Opcode := do
  let pc := (← get).pc
  let code ← read Reading.instruction
  modify ({ · with instructionPc := pc })
  return code

def push (e : Element) : Action Unit :=
  modify (·.push e)

def popEntry : Action Entry := do
  match (← get).stack with
  | [] => throw .popEmpty
  | top :: rest =>
    modify ({ · with stack := rest })
    return top

def pop : Action Element := do
  return (← popEntry).element

-- Pops a number of elements and returns them in the order in which they were pushed.
def popMany (count : Nat) : Action (List Element) := do
  let s ← get
  if s.stack.length < count then throw (.popMany count s.stack.length)
  set { s with stack := s.stack.drop count }
  return (s.stack.take count).reverse.map (·.element)

def peek : Action Element := do
  match (← get).peekAt? 0 with
  | some e => return e
  | none => throw .peekEmpty

-- Puts an element into the stack. An offset of zero is the top, and a negative one counts the
-- entries that stay above.
def insert (offset : Int) (e : Element) : Action Unit := do
  let s ← get
  if 0 < offset || s.stack.length + offset < 0 then
    throw (.insertOffset offset s.stack.length)
  set (s.pushBelow (-offset).toNat e)

-- Moves the top of the stack to the statements and tells whether there was one.
def reduce : Action Bool := do
  let s ← get
  match s.stack with
  | [] => return false
  | top :: rest =>
    if top.element.isStatement then
      set ({ s with stack := rest }.file { top with element := top.element.settled })
      return true
    else throw (.notStatement top.element.kind)

-- Reduces a number of times, or less often if the stack is empty before.
def reduceMany : Nat → Action Bool
  | 0 => return false
  | n + 1 => do
    if ← reduce then
      discard (reduceMany n)
      return true
    else return false

-- Moves the whole stack to the statements and tells whether there was anything on it.
def reduceAll : Action Bool := do
  reduceMany (← get).stack.length

def enlist (e : Element) : Action Unit :=
  modify (·.enlist e)

-- Removes the statement at an index, which counts from the first one.
def removeStatement (index : Nat) : Action Element := do
  let s ← get
  let count := s.statements.length
  if h : index < count then
    let place := count - 1 - index
    set { s with statements := s.statements.eraseIdx place }
    return s.statements[place].element
  else throw (.noStatementAt index count)

def removeLastStatement : Action Element := do
  match (← get).statements with
  | [] => throw .noStatement
  | last :: rest =>
    modify ({ · with statements := rest })
    return last.element

-- Puts another element in the place of a statement. It takes over the place in the code.
def replaceStatement (index : Nat) (e : Element) : Action Unit := do
  let s ← get
  let count := s.statements.length
  if index < count then
    set { s with
      statements := s.statements.modify (count - 1 - index) fun old =>
        { old with element := e.stamped old.element.stamp } }
  else throw (.noStatementAt index count)

def abort : Action Unit :=
  modify (·.abort)

def local? (slot : UInt16) (pc : Nat) : Action LocalRef := do
  match (← get).local? slot pc with
  | .ok v => return v
  | .error e => throw e

end Action

end JvmLift
