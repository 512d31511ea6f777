import JvmLift.Instruction

namespace JvmLift

-- Something that looks at the state after every instruction. It has a memory of its own and may
-- change the state.
structure Observer (σ : Type) where
  notice : σ → State → σ × State

namespace Observer

-- Looks away.
def idle : Observer Unit :=
  ⟨fun memory s => (memory, s)⟩

-- One observer after the other.
def andThen {σ τ : Type} (first : Observer σ) (second : Observer τ) : Observer (σ × τ) :=
  ⟨fun (m, n) s =>
    let (m, s) := first.notice m s
    let (n, s) := second.notice n s
    ((m, n), s)⟩

end Observer

-- What has become of a run: its statements or its fault, the last state, and what the observer
-- remembers.
structure Outcome (σ : Type) where
  result : Except Fault (List Element)
  state : State
  memory : σ

namespace Fault

-- Code that ends inside an instruction is truncated.
def inside (code : Opcode) (pc : Nat) (fault : Fault) : Fault :=
  if fault.kind = .endOfStream then .truncated code pc else fault

end Fault

-- Makes statements of what is left on the stack. None of them may be unfinished.
def finish : Action (List Element) := do
  discard Action.reduceAll
  let statements := (← get).result
  match statements.find? fun e => e.contains Element.isUnfinished with
  | some e => throw (.unfinished e.kind e.stamp.pc)
  | none => return statements

namespace Registry

-- Executes up to a number of instructions. It ends when the run is aborted or the code is at
-- its end.
def runLoop {σ : Type} (r : Registry) (observer : Observer σ) :
    Nat → σ → State → Except Fault Unit × σ × State
  | 0, memory, s => (.ok (), memory, s)
  | n + 1, memory, s =>
    if s.aborted then (.ok (), memory, s)
    else
      match Action.nextInstruction.run.run s with
      | (.error fault, s) =>
        (if fault.kind = .endOfStream then .ok () else .error fault, memory, s)
      | (.ok code, s) =>
        match (r.step code).run.run s with
        | (.error fault, s) => (.error (fault.inside code s.instructionPc), memory, s)
        | (.ok (), s) =>
          let (memory, s) := observer.notice memory s
          runLoop r observer n memory s

-- Decompiles from a position in the code. Every instruction consumes a byte, so the number of
-- bytes bounds that of instructions.
def decompile {σ : Type} (r : Registry) (observer : Observer σ) (memory : σ) (method : Method)
    (cursor : Cursor) : Outcome σ :=
  let s := State.start method cursor
  match r.runLoop observer (cursor.remaining.length + 1) memory s with
  | (.error fault, memory, s) => ⟨.error fault, s, memory⟩
  | (.ok (), memory, s) =>
    let (result, s) := finish.run.run s
    ⟨result, s, memory⟩

end Registry

namespace Method

-- The statements of the whole body.
def decompile (m : Method) : Except Fault (List Element) :=
  (Registry.core.decompile Observer.idle () m (.ofCode m.code)).result

end Method

end JvmLift
