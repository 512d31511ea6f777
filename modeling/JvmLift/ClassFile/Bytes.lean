namespace JvmLift

abbrev Bytes := List UInt8

-- The number that bytes spell, the highest first.
def bigEndian (bytes : Bytes) : Nat :=
  bytes.foldl (fun n b => 256 * n + b.toNat) 0

-- A way to read a value from the front of some bytes and leave the rest.
abbrev Read (α : Type) := StateT Bytes Option α

namespace Read

def take (n : Nat) : Read Bytes := fun s =>
  if n ≤ s.length then some (s.splitAt n) else none

def u8 : Read UInt8 := fun s =>
  match s with
  | b :: r => some (b, r)
  | [] => none

def u16 : Read UInt16 := do return .ofNat (bigEndian (← take 2))

def u32 : Read UInt32 := do return .ofNat (bigEndian (← take 4))

def u64 : Read UInt64 := do return .ofNat (bigEndian (← take 8))

def many {α : Type} (item : Read α) : Nat → Read (List α)
  | 0 => pure []
  | n + 1 => do
    let first ← item
    return first :: (← many item n)

-- A list with its length in front of it.
def counted {α : Type} (item : Read α) : Read (List α) := do
  many item (← u16).toNat

end Read

end JvmLift
