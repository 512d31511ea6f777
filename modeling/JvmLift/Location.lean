import JvmLift.ClassModel
import JvmLift.Decompile

namespace JvmLift

-- What is remembered from the first instruction at or behind the end of a line on: the size of
-- the stack then, and the value that is waited for.
structure LineEnd where
  exitSize : Option Nat := none
  lingering : Option Element := none

namespace LineEnd

-- Ends the run once the code from `stop` on has consumed what the line left on the stack. A
-- single value, such as the start of a chain of calls, is followed until it is gone.
def observer (stop : Nat) : Observer LineEnd :=
  ⟨fun memory s =>
    if s.aborted || s.pc < stop then (memory, s)
    else
      let size := s.stack.length
      let exitSize := memory.exitSize.getD size
      let memory := { memory with exitSize := some exitSize }
      match s.stack, memory.lingering with
      | [], _ => (memory, s.abort)
      | [top], none =>
        if top.element.ty = .void then
          match Action.reduce.run.run s with
          | (.ok _, s) => (memory, s.abort)
          | (.error _, s) => (memory, s)
        else ({ memory with lingering := some top.element }, s)
      | _, none => (memory, s)
      | _ :: rest, some value =>
        if exitSize < size || (s.lastStatement? 0).any (·.same value) then
          (memory, { s with stack := rest }.abort)
        else (memory, s)⟩

end LineEnd

namespace Registry

-- Decompiles the code of a line of a method. The fault is why a run cannot start.
def decompileLine {σ : Type} (r : Registry) (observer : Observer σ) (memory : σ) (method : Method)
    (line : UInt16) : Except Fault (Outcome σ) := do
  match method.codeRange? line with
  | none => throw (.noLine line method.className method.name)
  | some (start, stop) =>
    let (skipped, cursor) := (Reading.skip start).run.run (.ofCode method.code)
    discard skipped
    let outcome := r.decompile ((LineEnd.observer stop).andThen observer) ({}, memory) method cursor
    return { outcome with memory := outcome.memory.2 }

-- Decompiles the code of a line of the first method of a name that has it.
def decompileLocation {σ : Type} (r : Registry) (observer : Observer σ) (memory : σ)
    (c : ClassModel) (name : String) (line : UInt16) : Except Fault (Outcome σ) := do
  match (c.methodsNamed name).find? fun m => m.hasLine line with
  | none => throw (.noMethodWithLine c.name name line)
  | some method => r.decompileLine observer memory method line

end Registry

end JvmLift
