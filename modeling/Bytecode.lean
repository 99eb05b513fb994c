import Bytecode.Access
import Bytecode.Archive.Bytes
import Bytecode.Archive.Checksum
import Bytecode.Archive.Directory
import Bytecode.Archive.ExtraField
import Bytecode.Archive.Inflate
import Bytecode.Archive.Listing
import Bytecode.Archive.PrefixCode
import Bytecode.Archive.Zip
import Bytecode.Class.ArrayClass
import Bytecode.Class.Basic
import Bytecode.Class.Hierarchy
import Bytecode.ClassFile.Basic
import Bytecode.ClassFile.Constant
import Bytecode.ClassFile.Layout
import Bytecode.ClassFile.Pool
import Bytecode.ClassFile.Reader
import Bytecode.ClassPath.Basic
import Bytecode.ClassPath.Search
import Bytecode.CommandLine.Options
import Bytecode.CommandLine.Run
import Bytecode.Descriptor.Element
import Bytecode.Descriptor.Grammar
import Bytecode.Descriptor.Parse
import Bytecode.Descriptor.ValueType
import Bytecode.Execution.Arithmetic
import Bytecode.Execution.Basic
import Bytecode.Execution.Fields
import Bytecode.Execution.Instruction
import Bytecode.Execution.Invocation
import Bytecode.Fault
import Bytecode.FileSystem.Path
import Bytecode.FileSystem.Tree
import Bytecode.FloatingPoint.Arithmetic
import Bytecode.FloatingPoint.Conversion
import Bytecode.FloatingPoint.Digits
import Bytecode.FloatingPoint.Format
import Bytecode.FloatingPoint.Spelling
import Bytecode.Frame.Basic
import Bytecode.Frame.Locals
import Bytecode.Frame.OperandStack
import Bytecode.Heap.Object
import Bytecode.Heap.Store
import Bytecode.Instruction.Basic
import Bytecode.Instruction.Decode
import Bytecode.Instruction.Size
import Bytecode.Log
import Bytecode.Machine.Basic
import Bytecode.Machine.Creation
import Bytecode.Machine.Loading
import Bytecode.Machine.Resolution
import Bytecode.Machine.Session
import Bytecode.Main
import Bytecode.Native.Basic
import Bytecode.Native.Library
import Bytecode.Native.Print
import Bytecode.Opcode
import Bytecode.Proofs.Archive.Checksums
import Bytecode.Proofs.Archive.Inflation
import Bytecode.Proofs.Archive.Members
import Bytecode.Proofs.Archive.PrefixCodes
import Bytecode.Proofs.Archive.Tokens
import Bytecode.Proofs.Class.ArrayTypes
import Bytecode.Proofs.Class.Assignability
import Bytecode.Proofs.Class.Covariance
import Bytecode.Proofs.Class.Lookup
import Bytecode.Proofs.Class.Overriding
import Bytecode.Proofs.ClassFile.PoolLayout
import Bytecode.Proofs.ClassFile.RoundTrip
import Bytecode.Proofs.ClassFile.Truncation
import Bytecode.Proofs.CommandLine.Options
import Bytecode.Proofs.CommandLine.Run
import Bytecode.Proofs.Contract.Charter
import Bytecode.Proofs.Contract.Execution
import Bytecode.Proofs.Contract.Faults
import Bytecode.Proofs.Contract.Machine
import Bytecode.Proofs.Contract.Native
import Bytecode.Proofs.Contract.Operands
import Bytecode.Proofs.Contract.Session
import Bytecode.Proofs.Contract.Terms
import Bytecode.Proofs.Contract.Thread
import Bytecode.Proofs.Descriptor.Grammar
import Bytecode.Proofs.Dialogue.Basic
import Bytecode.Proofs.Dialogue.Conduct
import Bytecode.Proofs.Dialogue.Execution
import Bytecode.Proofs.Dialogue.Loading
import Bytecode.Proofs.Dialogue.Machine
import Bytecode.Proofs.Dialogue.Native
import Bytecode.Proofs.Dialogue.Session
import Bytecode.Proofs.Dialogue.Thread
import Bytecode.Proofs.Execution.Addresses
import Bytecode.Proofs.Execution.CallingConvention
import Bytecode.Proofs.Execution.Decoding
import Bytecode.Proofs.Execution.InstanceCalls
import Bytecode.Proofs.Execution.IntegerArithmetic
import Bytecode.Proofs.Execution.LocalAccess
import Bytecode.Proofs.Execution.LocalMemory
import Bytecode.Proofs.Execution.LocalSlots
import Bytecode.Proofs.Execution.NativeCalls
import Bytecode.Proofs.Execution.Shuffles
import Bytecode.Proofs.Execution.SuperCalls
import Bytecode.Proofs.Execution.Switches
import Bytecode.Proofs.FileSystem.Saving
import Bytecode.Proofs.FloatingPoint.Arithmetic
import Bytecode.Proofs.FloatingPoint.Digits
import Bytecode.Proofs.FloatingPoint.Rounding
import Bytecode.Proofs.FloatingPoint.Shortest
import Bytecode.Proofs.FloatingPoint.Spelling
import Bytecode.Proofs.FloatingPoint.Values
import Bytecode.Proofs.Heap.Elements
import Bytecode.Proofs.Heap.Fields
import Bytecode.Proofs.Heap.Grounded
import Bytecode.Proofs.Heap.NestedArrays
import Bytecode.Proofs.Heap.Strings
import Bytecode.Proofs.Heap.Typing
import Bytecode.Proofs.Heap.Vectors
import Bytecode.Proofs.History.Basic
import Bytecode.Proofs.History.Chronicle
import Bytecode.Proofs.History.Heap
import Bytecode.Proofs.History.InternalFaults
import Bytecode.Proofs.History.Order
import Bytecode.Proofs.History.Registry
import Bytecode.Proofs.History.Tasks
import Bytecode.Proofs.History.TypeTests
import Bytecode.Proofs.Loading.Acceptance
import Bytecode.Proofs.Loading.Answers
import Bytecode.Proofs.Loading.Circularity
import Bytecode.Proofs.Loading.Conduct
import Bytecode.Proofs.Loading.Course
import Bytecode.Proofs.Loading.Define
import Bytecode.Proofs.Loading.Founded
import Bytecode.Proofs.Loading.Growth
import Bytecode.Proofs.Loading.Initialize
import Bytecode.Proofs.Loading.Load
import Bytecode.Proofs.Loading.Loadable
import Bytecode.Proofs.Loading.Order
import Bytecode.Proofs.Loading.Reachable
import Bytecode.Proofs.Loading.Registry
import Bytecode.Proofs.Loading.Resolved
import Bytecode.Proofs.Loading.Rest
import Bytecode.Proofs.Request
import Bytecode.Proofs.Text.ModifiedUtf8
import Bytecode.Proofs.Text.Split
import Bytecode.Proofs.Text.Units
import Bytecode.Proofs.Thread.Confinement
import Bytecode.Proofs.Thread.Equations
import Bytecode.Proofs.Thread.Nesting
import Bytecode.Proofs.Thread.Unwinding
import Bytecode.Proofs.TypeObjects.Loads
import Bytecode.Proofs.TypeObjects.Names
import Bytecode.Proofs.TypeObjects.Order
import Bytecode.Proofs.TypeObjects.Places
import Bytecode.Proofs.TypeObjects.Requests
import Bytecode.Proofs.TypeObjects.Uniqueness
import Bytecode.Text.Hex
import Bytecode.Text.Hidden
import Bytecode.Text.ModifiedUtf8
import Bytecode.Text.Quoted
import Bytecode.Text.Utf16
import Bytecode.Text.Utf8
import Bytecode.Thread.Basic
import Bytecode.Value
