import JvmLift.State

namespace JvmLift

-- How early a rule is asked.
inductive Priority where
  | lowest
  | low
  | normal
  | high
  | highest
deriving DecidableEq

namespace Priority

def all : List Priority :=
  [lowest, low, normal, high, highest]

def name : Priority → String
  | lowest => "Lowest"
  | low => "Low"
  | normal => "Default"
  | high => "High"
  | highest => "Highest"

-- Puts the highest priorities first. What has one priority keeps its order.
def sort {ρ : Type} (priority : ρ → Priority) (rules : List ρ) : List ρ :=
  all.reverse.flatMap fun p => rules.filter fun rule => priority rule = p

end Priority

-- When the rules of an instruction are asked. One primary rule executes the instruction.
-- Advisory rules prepare the state for it, and corrective rules rewrite what it left behind.
inductive Stage where
  | primary
  | advisory
  | corrective
deriving DecidableEq

-- What is done at an instruction in the states that it applies to.
structure Rule where
  priority : Priority := .normal
  applies : State → Opcode → Bool := fun _ _ => true
  run : Opcode → Action Unit

-- A rule with the instructions and the stage that it is for.
structure Declaration where
  codes : List Opcode
  stage : Stage := .primary
  rule : Rule

-- The rules of every instruction for each stage, in the order in which they are asked.
structure Registry where
  rules : Stage → Opcode → List Rule

namespace Registry

def empty : Registry :=
  ⟨fun _ _ => []⟩

-- The rules declared for a stage of an instruction, in the order of declaration.
def declared (ds : List Declaration) (stage : Stage) (code : Opcode) : List Rule :=
  ds.flatMap fun d =>
    if d.stage = stage then (d.codes.filter (· = code)).map fun _ => d.rule else []

def ofDeclarations (ds : List Declaration) : Registry :=
  ⟨fun stage code => Priority.sort Rule.priority (declared ds stage code)⟩

-- The rules of both registries. At equal priority those of the first one come first.
def merge (a b : Registry) : Registry :=
  ⟨fun stage code => Priority.sort Rule.priority (a.rules stage code ++ b.rules stage code)⟩

-- The rule that executes an instruction in a state.
def primary? (r : Registry) (s : State) (code : Opcode) : Option Rule :=
  (r.rules .primary code).find? fun rule => rule.applies s code

-- Runs the rules that apply, each in the state that the one before it left.
def runAll (code : Opcode) : List Rule → Action Unit
  | [] => return
  | rule :: rest => do
    if rule.applies (← get) code then rule.run code
    runAll code rest

-- Executes one instruction.
def step (r : Registry) (code : Opcode) : Action Unit := do
  runAll code (r.rules .advisory code)
  let s ← get
  match r.primary? s code with
  | some rule => rule.run code
  | none => throw (.unsupported code s.instructionPc)
  runAll code (r.rules .corrective code)

end Registry

namespace Declaration

-- A rule that executes instructions.
def on (codes : List Opcode) (run : Opcode → Action Unit) : Declaration :=
  { codes, rule := { run } }

-- A rule that takes over instructions in some states.
def override (codes : List Opcode) (applies : State → Bool) (run : Opcode → Action Unit) :
    Declaration :=
  { codes, rule := { priority := .high, applies := fun s _ => applies s, run } }

-- A rule that rewrites what an instruction left behind.
def after (codes : List Opcode) (priority : Priority) (applies : State → Bool)
    (run : Action Unit) : Declaration :=
  { codes, stage := .corrective,
    rule := { priority, applies := fun s _ => applies s, run := fun _ => run } }

-- A rule that replaces the top of the stack wherever a rewriting applies to it.
def rewriteTop (codes : List Opcode) (priority : Priority)
    (rewrite? : Element → Option Element) : Declaration :=
  after codes priority (fun s => ((s.peekAt? 0).bind rewrite?).isSome) do
    let e ← Action.pop
    Action.push ((rewrite? e).getD e)

-- A rule that replaces the last statement wherever a rewriting applies to it.
def rewriteLast (codes : List Opcode) (priority : Priority)
    (rewrite? : State → Element → Option Element) : Declaration :=
  after codes priority (fun s => ((s.lastStatement? 0).bind (rewrite? s)).isSome) do
    let s ← get
    match (s.lastStatement? 0).bind (rewrite? s) with
    | some e => Action.replaceStatement (s.statements.length - 1) e
    | none => return

end Declaration

end JvmLift
