import JvmLift.Registry

namespace JvmLift.Instruction.Shuffle

-- What an instruction does to a stack with the given categories on top, the top first. The
-- elements pushed back are named by their depth, the lowest one first.
structure Form where
  categories : List Nat
  order : List Nat
deriving DecidableEq

-- The forms of an instruction. Those with fewer words come as fewer elements.
def forms : List (Opcode × List Form) :=
  [(Opcode.dup, [⟨[1], [0, 0]⟩]),
   (Opcode.dupX1, [⟨[1, 1], [0, 1, 0]⟩]),
   (Opcode.dupX2, [⟨[1, 1, 1], [0, 2, 1, 0]⟩, ⟨[1, 2], [0, 1, 0]⟩]),
   (Opcode.dup2, [⟨[1, 1], [1, 0, 1, 0]⟩, ⟨[2], [0, 0]⟩]),
   (Opcode.dup2X1, [⟨[1, 1, 1], [1, 0, 2, 1, 0]⟩, ⟨[2, 1], [0, 1, 0]⟩]),
   (Opcode.dup2X2,
     [⟨[1, 1, 1, 1], [1, 0, 3, 2, 1, 0]⟩, ⟨[2, 1, 1], [0, 2, 1, 0]⟩,
      ⟨[1, 1, 2], [1, 0, 2, 1, 0]⟩, ⟨[2, 2], [0, 1, 0]⟩]),
   (Opcode.swap, [⟨[1, 1], [0, 1]⟩])]

-- The fault of a stack that an instruction has no form for. It shows the top of the stack.
def shapeFault (s : State) (code : Opcode) : Fault :=
  .stackShape code s.instructionPc (s.categories.take 4)

def require (categories : List Nat) (code : Opcode) : Action Unit := do
  let s ← get
  unless s.hasCategories categories do throw (shapeFault s code)

-- Pops what the form covers and pushes it back in the form's order.
def rearrange (forms : List Form) (code : Opcode) : Action Unit := do
  let s ← get
  match forms.find? fun form => s.hasCategories form.categories with
  | none => throw (shapeFault s code)
  | some form =>
    let popped := (← Action.popMany form.categories.length).reverse
    (form.order.filterMap (popped[·]?)).forM Action.push

-- Makes statements of what is discarded.
def discardOne (code : Opcode) : Action Unit := do
  require [1] code
  discard Action.reduce

def discardTwo (code : Opcode) : Action Unit := do
  if (← get).hasCategories [1, 1] then
    discard Action.reduce
    discard Action.reduce
  else
    require [2] code
    discard Action.reduce

open Opcode Declaration in
def rules : List Declaration :=
  [on [pop] discardOne, on [pop2] discardTwo] ++
  forms.map fun (code, forms) => on [code] (rearrange forms)

end JvmLift.Instruction.Shuffle
