import BinaryLayout.FormatCache
import BinaryLayout.Main
import BinaryLayout.Proofs.SinglePass
import BinaryLayout.Proofs.Accounting.Trace
import BinaryLayout.Proofs.Layout.Reads
import BinaryLayout.Proofs.Accounting.Values
import BinaryLayout.Proofs.Accounting.Limit
import BinaryLayout.Proofs.Files.Tree
import BinaryLayout.Proofs.Command.Halves
import BinaryLayout.Proofs.Command.InputKept
import BinaryLayout.Proofs.Count
import BinaryLayout.Proofs.Encoding.Field
import BinaryLayout.Proofs.Encoding.Layout
import BinaryLayout.Proofs.Layout.Keys
import BinaryLayout.Proofs.Layout.Writing
import BinaryLayout.Proofs.Mapping.Writes
import BinaryLayout.Proofs.Runs.Touched
import BinaryLayout.Proofs.Runs.Ideal
import BinaryLayout.Proofs.Layout.Bundles
import BinaryLayout.Proofs.Layout.Shape
import BinaryLayout.Proofs.Cache.Session
import BinaryLayout.Proofs.Cache.Contents
import BinaryLayout.Proofs.Cache.Identity
import BinaryLayout.Proofs.Command.Outcome
import BinaryLayout.Proofs.Layout.Closings
import BinaryLayout.Proofs.Runs.Saturation
import BinaryLayout.Proofs.Layout.Compose
import BinaryLayout.Proofs.Bytewise.Agreement
import BinaryLayout.Proofs.Glob.Compare
import BinaryLayout.Proofs.Glob.Spells
import BinaryLayout.Proofs.Glob.Found
import BinaryLayout.Proofs.Command.NamedFile
import BinaryLayout.Proofs.Runs.Passes
import BinaryLayout.Proofs.Fields.Numbers
import BinaryLayout.Proofs.Fields.Texts
import BinaryLayout.Proofs.Fields.HexDigits
import BinaryLayout.Proofs.Fields.Terminated
import BinaryLayout.Proofs.Runs.Shift
import BinaryLayout.Proofs.Layout.Brackets
import BinaryLayout.Proofs.Runs.Unrolled
import BinaryLayout.Proofs.Layout.MissingColon
import BinaryLayout.Proofs.Command.Stages
import BinaryLayout.Proofs.Mapping.History
import BinaryLayout.Proofs.Json.Carried
import BinaryLayout.Proofs.Hexadecimal
import BinaryLayout.Proofs.Command.HexArgument
import BinaryLayout.Proofs.Json.Grammar
import BinaryLayout.Proofs.Json.Passing
import BinaryLayout.Proofs.Limits.Json
import BinaryLayout.Proofs.Equality.Numbers
import BinaryLayout.Proofs.Equality.Trees
import BinaryLayout.Proofs.Turns
import BinaryLayout.Proofs.Bytewise.Scanner
import BinaryLayout.Proofs.Bytewise.Stack
import BinaryLayout.Proofs.Bytewise.Counts
