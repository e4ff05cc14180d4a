import IncludeGraph.Main
import IncludeGraph.Proofs.Bounds
import IncludeGraph.Proofs.Collection
import IncludeGraph.Proofs.Density
import IncludeGraph.Proofs.Digraph.FinishOrder
import IncludeGraph.Proofs.Digraph.PostOrder
import IncludeGraph.Proofs.DiscoveryOrder
import IncludeGraph.Proofs.DisjointParts
import IncludeGraph.Proofs.EdgeLists
import IncludeGraph.Proofs.Exclusion
import IncludeGraph.Proofs.Explanations
import IncludeGraph.Proofs.FileLines
import IncludeGraph.Proofs.Fingerprint
import IncludeGraph.Proofs.Grouping
import IncludeGraph.Proofs.Interning
import IncludeGraph.Proofs.Labels
import IncludeGraph.Proofs.Optimality
import IncludeGraph.Proofs.ParallelEdges
import IncludeGraph.Proofs.PlainSources
import IncludeGraph.Proofs.Reconciliation
import IncludeGraph.Proofs.ReportText
import IncludeGraph.Proofs.Stalling
import IncludeGraph.Proofs.Verdict
