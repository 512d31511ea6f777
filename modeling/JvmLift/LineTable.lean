import JvmLift.Method

namespace JvmLift

-- Which line the code at a position was compiled from. Entries are ordered by start.
structure LineTable where
  entries : List LineEntry
deriving DecidableEq

namespace LineTable

def ofEntries (entries : List LineEntry) : LineTable :=
  ⟨sortLines entries⟩

-- The line of the last entry that does not start behind `pc`.
def lineAt? (t : LineTable) (pc : Nat) : Option UInt16 :=
  (t.entries.filter fun e => e.start.toNat ≤ pc).getLast?.map (·.line)

end LineTable

end JvmLift
