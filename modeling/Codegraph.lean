import Codegraph.Store.Uninit
import Codegraph.Store.Verdict
import Codegraph.Store.Conservation
import Codegraph.Watch.Degradation
import Codegraph.Watch.ScanAgreement
import Codegraph.Daemon.Rendezvous
import Codegraph.Daemon.Residue
import Codegraph.Daemon.ReplyAccounting
import Codegraph.Graph.Hierarchy
import Codegraph.Graph.Impact
import Codegraph.Graph.ShortestPath
import Codegraph.Resolve.ContextParity
import Codegraph.Sync.Recovery
import Codegraph.GitPending.History
import Codegraph.Graph.Cycles
import Codegraph.Graph.DepthFirst
import Codegraph.Graph.TwoEndedWalk
import Codegraph.Graph.NamedWalk
import Codegraph.Graph.DescendantCounts
import Codegraph.Query.SearchFilters
import Codegraph.DeadCode.Corroboration
import Codegraph.Query.ResidualText
import Codegraph.Store.LeaseExclusion
import Codegraph.Resolve.StripComments
import Codegraph.Resolve.ByteBlanking
import Codegraph.Cpp.FirstBranches
import Codegraph.Cpp.PreParse
import Codegraph.Dart.QueryOrder
import Codegraph.Lanes.JavaHeads
import Codegraph.Lanes.ModuleSurfaces
import Codegraph.Lanes.PhpHeads
import Codegraph.Lanes.SolidityHeads
import Codegraph.Lanes.ClassHeads
import Codegraph.Macros.SkippedVisits
import Codegraph.Lua.Exports
import Codegraph.Macros.Decisions
import Codegraph.Store.RetriedNames
import Codegraph.Resolve.RustTokens
import Codegraph.Embedded.ComponentIdentity
import Codegraph.Installer.MarkedSections
import Codegraph.Installer.Jsonc
import Codegraph.Installer.CommentInjection
import Codegraph.Resolve.LoaderFootprints
import Codegraph.Resolve.RootGuard
import Codegraph.Store.ChecksumPayload
import Codegraph.DeadCode.Ancestors
import Codegraph.Daemon.LeaseKeeper
import Codegraph.Mcp.GlobMatch
import Codegraph.Mcp.ProjectServices
import Codegraph.Store.Removal
import Codegraph.Watch.Settling
