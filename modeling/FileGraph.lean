import FileGraph.Main
import FileGraph.Proofs.Graph.Counters
import FileGraph.Proofs.Graph.Document
import FileGraph.Proofs.Graph.Modules
import FileGraph.Proofs.Resolver
import FileGraph.Proofs.Digraph.Shortest
import FileGraph.Proofs.Graph.ShortestPath
import FileGraph.Proofs.FileTree.Surface
import FileGraph.Proofs.Graph.FileOrder
import FileGraph.Proofs.Graph.Rescan
import FileGraph.Proofs.Digraph.Closed
import FileGraph.Proofs.Json.Yield
import FileGraph.Proofs.Statement.Amount
import FileGraph.Proofs.Graph.Limits
import FileGraph.Proofs.Run
import FileGraph.Proofs.Run.Stored
import FileGraph.Proofs.Statement.Stands
import FileGraph.Proofs.Statement.Lines
import FileGraph.Proofs.Statement.Occurrences
import FileGraph.Proofs.Statement.Declaration
import FileGraph.Proofs.Statement.Recovery
import FileGraph.Proofs.Statement.Go.Recovery
import FileGraph.Proofs.Resolver.FileId
import FileGraph.Proofs.Resolver.Relative
import FileGraph.Proofs.Resolver.Python
import FileGraph.Proofs.Resolver.Rust
import FileGraph.Proofs.Path.Below
import FileGraph.Proofs.Resolver.Package
import FileGraph.Proofs.Resolver.Aliased
import FileGraph.Proofs.Graph.Essential
import FileGraph.Proofs.Graph.Hubs
import FileGraph.Proofs.Graph.Connected
import FileGraph.Proofs.Graph.Offered
import FileGraph.Proofs.Run.Named
import FileGraph.Proofs.Table
import FileGraph.Proofs.Alias
import FileGraph.Proofs.Digraph.Loop.Cycle
import FileGraph.Proofs.Digraph.Loop.Depth
import FileGraph.Proofs.Digraph.Loop.Numbering
