import JvmLift.Proofs.Fragment
import JvmLift.Proofs.Tree
import Mathlib.Data.List.Forall2
import Mathlib.Logic.Function.Basic

namespace JvmLift

-- The values of int variables by their slots.
abbrev Locals := UInt16 → Int32

namespace Element

-- The value of an expression on int variables, and the variables behind it.
def evaluate? (e : Element) (locals : Locals) : Option (Int32 × Locals) :=
  match e.shape with
  | .constant (.int value) _ => some (value, locals)
  | .localVar v => some (locals v.slot, locals)
  | .increment v delta _ .before =>
    some (locals v.slot + delta, Function.update locals v.slot (locals v.slot + delta))
  | .increment v delta _ .after =>
    some (locals v.slot, Function.update locals v.slot (locals v.slot + delta))
  | _ => none

-- Executes statements on int variables up to the return.
def execute? : List Element → Locals → Option Locals
  | [], locals => some locals
  | e :: es, locals =>
    match e.shape with
    | .assign slot _ _ value =>
      (value.evaluate? locals).bind fun (value, locals) =>
        execute? es (Function.update locals slot value)
    | .ret => some locals
    | _ => (e.evaluate? locals).bind fun (_, locals) => execute? es locals

-- The slot of an increment, what it adds and its affix.
def increment? (e : Element) : Option (UInt16 × Int32 × Affix) :=
  match e.shape with
  | .increment v delta _ affix => some (v.slot, delta, affix)
  | _ => none

-- The increments in a tree.
def increments (e : Element) : List (UInt16 × Int32 × Affix) :=
  e.subterms.filterMap increment?

end Element

-- A statement that counts an int variable up or down by one. Its value, which is the new one
-- behind a leading operator and the old one otherwise, may be assigned to a variable.
structure Count where
  slot : UInt16
  up : Bool
  leading : Bool
  target : Option UInt16
deriving DecidableEq

namespace Opcode

-- The shortest code of a load of an int variable.
def loadInt (slot : UInt16) : Bytes :=
  if slot < 4 then [iload0 + slot.toUInt8]
  else if slot < 256 then [iload, slot.toUInt8]
  else wide :: iload :: wideBytes slot

-- The shortest code of a store to an int variable.
def storeInt (slot : UInt16) : Bytes :=
  if slot < 4 then [istore0 + slot.toUInt8]
  else if slot < 256 then [istore, slot.toUInt8]
  else wide :: istore :: wideBytes slot

-- The shortest code of an increment of an int variable.
def increaseInt (slot : UInt16) (delta : Int8) : Bytes :=
  if slot < 256 then [iinc, slot.toUInt8, delta.toUInt8]
  else wide :: iinc :: (wideBytes slot ++ wideBytes delta.toInt16.toUInt16)

end Opcode

namespace Count

def delta (c : Count) : Int8 :=
  if c.up then 1 else -1

-- The variables of a statement.
def slots (c : Count) : List UInt16 :=
  c.slot :: c.target.toList

-- What a statement does to the variables.
def run (c : Count) (locals : Locals) : Locals :=
  let old := locals c.slot
  let new := old + c.delta.toInt32
  let counted := Function.update locals c.slot new
  match c.target with
  | none => counted
  | some target => Function.update counted target (if c.leading then new else old)

def runAll (counts : List Count) (locals : Locals) : Locals :=
  counts.foldl (fun locals c => c.run locals) locals

-- The code of a statement: the value is loaded behind the increment if the operator leads, and
-- in front of it otherwise.
def code (c : Count) : Bytes :=
  let increase := Opcode.increaseInt c.slot c.delta
  match c.target with
  | none => increase
  | some target =>
    if c.leading then increase ++ (Opcode.loadInt c.slot ++ Opcode.storeInt target)
    else Opcode.loadInt c.slot ++ (increase ++ Opcode.storeInt target)

-- What of the code is in front of the store.
def value (c : Count) : Bytes :=
  if c.leading then Opcode.increaseInt c.slot c.delta ++ Opcode.loadInt c.slot
  else Opcode.loadInt c.slot ++ Opcode.increaseInt c.slot c.delta

theorem value_of_leading {c : Count} (hl : c.leading) :
    c.value = Opcode.increaseInt c.slot c.delta ++ Opcode.loadInt c.slot :=
  if_pos hl

theorem value_of_not_leading {c : Count} (hl : c.leading = false) :
    c.value = Opcode.loadInt c.slot ++ Opcode.increaseInt c.slot c.delta := by
  rw [value, if_neg (by rw [hl]; exact Bool.false_ne_true)]

theorem code_of_target {c : Count} {target : UInt16} (ht : c.target = some target) :
    c.code = c.value ++ Opcode.storeInt target := by
  simp only [code, value, ht]
  split <;> exact (List.append_assoc ..).symm

-- The code of statements and of the return behind them.
def body (counts : List Count) : Bytes :=
  counts.flatMap code ++ [Opcode.returnVoid]

-- Statements that stand for the given ones: they have one increment for each of them, with what
-- it adds and with a settled affix, and they do the same to all variables.
structure Restored (counts : List Count) (result : List Element) : Prop where
  increments : List.Forall₂
    (fun c (slot, delta, affix) => slot = c.slot ∧ delta = c.delta.toInt32 ∧ affix ≠ .pending)
    counts (result.flatMap Element.increments)
  execution : ∀ locals, Element.execute? result locals = some (runAll counts locals)

-- The variable of the increment that is parked on top of the symbolic stack behind a statement.
-- Only an increment that no load is next to is parked, and no correction sees wide loads.
def parks (c : Count) (parked : Option UInt16) : Option UInt16 :=
  if c.target.isNone || c.leading && 256 ≤ c.slot then some c.slot else parked

-- Whether a statement is read for what it is where an increment is parked: the load of an old
-- value must neither be wide nor of the variable that is parked.
def isClear (c : Count) (parked : Option UInt16) : Bool :=
  c.target.isNone || c.leading || c.slot < 256 && parked ≠ some c.slot

def allClear : Option UInt16 → List Count → Bool
  | _, [] => true
  | parked, c :: counts => c.isClear parked && allClear (c.parks parked) counts

end Count

end JvmLift
