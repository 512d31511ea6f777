import JvmLift.Location
import JvmLift.Pool.Builder
import JvmLift.Trace
import JvmLift.Proofs.Order
import JvmLift.Proofs.Extension
import JvmLift.Proofs.Line
import JvmLift.Proofs.Stopping
import JvmLift.Proofs.ProgramOrder
import JvmLift.Proofs.Fragment.Body
import JvmLift.Proofs.Counting.Loss
import JvmLift.Proofs.OperandStack.Agreement
import JvmLift.Proofs.IntCode.Meaning
import JvmLift.Proofs.Finished
import JvmLift.Proofs.Merging
import JvmLift.Proofs.Cursor.Plain
import JvmLift.Proofs.Keeps.Core
import JvmLift.Proofs.Stamps.Result
import JvmLift.Proofs.Merging.Selection
import JvmLift.Proofs.ModifiedUtf8
import JvmLift.ClassFile.Layout
import JvmLift.Proofs.Layout
import JvmLift.Proofs.Layout.ClassFile
import JvmLift.Proofs.Pool
import JvmLift.Proofs.Pool.Builder
import JvmLift.Proofs.Pool.Calls
import JvmLift.Proofs.Jumps
import JvmLift.Proofs.Jumps.Runs
import JvmLift.Proofs.Jumps.Fold
import JvmLift.Proofs.Words
import JvmLift.Proofs.Unaware
import JvmLift.Proofs.Leaving
import JvmLift.Proofs.Conditions
import JvmLift.Proofs.Conditions.Choice
import JvmLift.Proofs.Occurrences
import JvmLift.Proofs.Pending
import JvmLift.Proofs.Pending.Rewriting
import JvmLift.Proofs.Pending.Core
import JvmLift.Proofs.Lingering
import JvmLift.Proofs.Discards
import JvmLift.Proofs.Place
import JvmLift.Proofs.Arrays
import JvmLift.Proofs.Arrays.Literal
import JvmLift.Proofs.Arrays.Copies
import JvmLift.Proofs.Narrow
import JvmLift.Proofs.CallSites
import JvmLift.Proofs.Concatenation
import JvmLift.Proofs.ReceiverCheck
import JvmLift.Proofs.Truncation
import JvmLift.Proofs.Covering
import JvmLift.Proofs.Descriptor
import JvmLift.Proofs.Descriptor.Method
import JvmLift.Proofs.Pool.Slots
import JvmLift.Proofs.Layout.Attribute
import JvmLift.Proofs.LineRanges
import JvmLift.Proofs.Written
import JvmLift.Proofs.Grammar
import JvmLift.Proofs.Grouping
import JvmLift.Proofs.Signs
import JvmLift.Proofs.Quotation
import JvmLift.Proofs.Sorting
import JvmLift.Proofs.Arrays.Positions
import JvmLift.Proofs.Written.Core
import JvmLift.Proofs.Source
import JvmLift.Proofs.Source.Tokens
import JvmLift.Proofs.Source.Lexing
import JvmLift.Proofs.Source.Nesting
import JvmLift.Proofs.Source.Starts
import JvmLift.Proofs.Source.Reading
import JvmLift.Proofs.Source.Parsing
import JvmLift.Proofs.Source.Phrases
import JvmLift.Proofs.Source.Writing
import JvmLift.Proofs.Source.Keeping
import JvmLift.Proofs.Source.Regular
import JvmLift.Proofs.Inlining
import JvmLift.Proofs.Operands
import JvmLift.Proofs.Flushing
import JvmLift.Proofs.Failures
import JvmLift.Proofs.Parameters
import JvmLift.Proofs.Lambdas
import JvmLift.Proofs.Substitution
