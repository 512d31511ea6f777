import JvmLift.ClassFile.Bytes
import JvmLift.Fault

namespace JvmLift

-- What a source of code does when it is asked for a byte.
inductive Delivery where
  | byte (value : UInt8)
  | interrupted
deriving DecidableEq

-- A source of code. When nothing is left to deliver it has ended, or it fails from then on.
structure Source where
  deliveries : List Delivery
  failure : Option String := none
deriving DecidableEq

namespace Source

def ofBytes (bytes : Bytes) : Source :=
  ⟨bytes.map .byte, none⟩

-- The bytes that are still to come.
def bytes (s : Source) : Bytes :=
  s.deliveries.filterMap fun
    | .byte b => some b
    | .interrupted => none

-- Asks for bytes until there are `n` or the source has no more. An interruption is passed over.
def pull : Nat → List Delivery → Bytes × List Delivery
  | 0, rest => ([], rest)
  | _ + 1, [] => ([], [])
  | n + 1, .interrupted :: rest => pull (n + 1) rest
  | n + 1, .byte b :: rest =>
    let (more, rest) := pull n rest
    (b :: more, rest)

-- The fault of asking a source that has no more bytes.
def fault (s : Source) : Fault :=
  match s.failure with
  | none => .endOfCode
  | some reason => .unreadable reason

end Source

-- A position in code. Bytes that were pulled but not consumed are in the buffer, and the
-- first `peeked` of them have been looked at since the last byte was consumed.
structure Cursor where
  source : Source
  buffer : Bytes := []
  peeked : Nat := 0
  pc : Nat := 0
deriving DecidableEq

-- A step of reading code. What it has done to the cursor stays done when it fails.
abbrev Reading := ExceptT Fault (StateM Cursor)

namespace Cursor

def ofCode (code : Bytes) : Cursor :=
  { source := .ofBytes code }

-- The bytes that are not consumed yet.
def remaining (c : Cursor) : Bytes :=
  c.buffer ++ c.source.bytes

end Cursor

namespace Reading

-- Makes sure that the buffer holds `n` bytes. Nothing is consumed, even if it fails.
def fill (n : Nat) : Reading Unit := do
  let c ← get
  let (pulled, rest) := Source.pull (n - c.buffer.length) c.source.deliveries
  let buffer := c.buffer ++ pulled
  set { c with source := { c.source with deliveries := rest }, buffer }
  if buffer.length < n then throw c.source.fault

-- Consumes `n` bytes and forgets what was looked at.
def next (n : Nat) : Reading Bytes := do
  modify ({ · with peeked := 0 })
  fill n
  let c ← get
  set { c with buffer := c.buffer.drop n, pc := c.pc + n }
  return c.buffer.take n

-- Looks at `n` more bytes without consuming them.
def peek (n : Nat) : Reading Bytes := do
  fill ((← get).peeked + n)
  let c ← get
  set { c with peeked := c.peeked + n }
  return (c.buffer.drop c.peeked).take n

-- Consumes what was looked at.
def commit : Reading Unit :=
  modify fun c =>
    { c with buffer := c.buffer.drop c.peeked, pc := c.pc + c.peeked, peeked := 0 }

-- Consumes up to `n` bytes and returns how many there were. If the source fails, the bytes in
-- front of the failure are lost and the position stays.
def skip (n : Nat) : Reading Nat := do
  if n = 0 then return 0
  let c ← get
  let rest := n - c.buffer.length
  let (pulled, deliveries) := Source.pull rest c.source.deliveries
  let c := { c with
    source := { c.source with deliveries }, buffer := c.buffer.drop n, peeked := 0 }
  set c
  if pulled.length < rest && c.source.failure.isSome then throw c.source.fault
  let skipped := n - rest + pulled.length
  set { c with pc := c.pc + skipped }
  return skipped

def u8 : Reading UInt8 := do return .ofNat (bigEndian (← next 1))

def i8 : Reading Int8 := do return (← u8).toInt8

def u16 : Reading UInt16 := do return .ofNat (bigEndian (← next 2))

def i16 : Reading Int16 := do return (← u16).toInt16

def i32 : Reading Int32 := do
  let word : UInt32 := .ofNat (bigEndian (← next 4))
  return word.toInt32

def instruction : Reading Opcode := u8

def peekU8 : Reading UInt8 := do return .ofNat (bigEndian (← peek 1))

def peekU16 : Reading UInt16 := do return .ofNat (bigEndian (← peek 2))

def peekInstruction : Reading Opcode := peekU8

end Reading

end JvmLift
