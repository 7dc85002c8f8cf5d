import NanScript.Main
import NanScript.Proofs.Allocation.Closure
import NanScript.Proofs.Allocation.Sharing
import NanScript.Proofs.Arena.Vector
import NanScript.Proofs.Boxing
import NanScript.Proofs.BuildPaths
import NanScript.Proofs.Delivery
import NanScript.Proofs.Emission.Discipline
import NanScript.Proofs.Emission.Function
import NanScript.Proofs.Emission.Loops
import NanScript.Proofs.Emission.Symbols
import NanScript.Proofs.Emission.Texts
import NanScript.Proofs.Heap.Collection
import NanScript.Proofs.Heap.Limit
import NanScript.Proofs.Interner
import NanScript.Proofs.Parser.Calls
import NanScript.Proofs.Parser.Panic
import NanScript.Proofs.Parser.Parsed
import NanScript.Proofs.Parser.ProgramComplete
import NanScript.Proofs.Printing.RoundTrip
import NanScript.Proofs.Record.Map
import NanScript.Proofs.Relexing
import NanScript.Proofs.Resolution
import NanScript.Proofs.Safepoint
import NanScript.Proofs.Tiling
import NanScript.Proofs.Wrapping
import NanScript.FileTree
import NanScript.Session
import NanScript.Tree.Printer
