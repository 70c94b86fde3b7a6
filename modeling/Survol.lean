import Survol.Dockit.Descriptors
import Survol.Dockit.Factorisation
import Survol.Dockit.NestedRuns
import Survol.Dockit.Interleaving
import Survol.Dockit.ArgumentsRoundTrip
import Survol.Dockit.FileLifeCycle
import Survol.Dockit.SplitCall
import Survol.Dockit.LineRoundTrip
import Survol.Dockit.UnparsableLines
import Survol.Dockit.ProcessForest
import Survol.Dockit.ProcessTree
import Survol.Dockit.ProcessDates
import Survol.Uris.FileUrls
import Survol.Uris.FormXids
import Survol.Uris.Aliases
import Survol.Uris.QueryUrls
import Survol.Odbc.Secrets
import Survol.Credentials.Coherence
import Survol.SubServers.Election
import Survol.Events.Delivery
import Survol.Menus.MenuTrees
import Survol.Dot.DisplayedData
import Survol.Dockit.ArgumentClusters
import Survol.Dockit.MatchedBatches
import Survol.Dockit.SentBatches
import Survol.Dockit.ArgumentsTail
import Survol.Dockit.Creations
import Survol.Dockit.BigramKeys
import Survol.Lib.Xml
import Survol.Dockit.XmlWriter
import Survol.Dockit.XmlSummary
import Survol.Dockit.XmlReading
import Survol.Dockit.CachedAccesses
import Survol.Dockit.FailedCalls
import Survol.Dockit.FailedRuns
import Survol.Json.Export
import Survol.Json.Exported
import Survol.Dot.Edges
import Survol.Dot.EdgeEnds
import Survol.Dockit.BigramPasses
import Survol.Lib.Splitting
import Survol.Lib.PosixPath
import Survol.Dockit.AbsPaths
import Survol.Dockit.LexicalPaths
import Survol.Dockit.Reassembly
import Survol.Dockit.DescriptorArrays
import Survol.Dockit.UnfinishedReport
import Survol.Events.Atomicity
import Survol.Uris.KeyLists
import Survol.Uris.ModeLaws
import Survol.Lib.Chain
import Survol.Uris.IdenticalNodes
import Survol.Wbem.ClassTrees
import Survol.Lib.Brackets
import Survol.Lib.Positions
import Survol.Symbols.TopLevelSplit
import Survol.Symbols.SymToArgs
import Survol.Symbols.ExtractClasses
import Survol.Symbols.ExtractedClasses
import Survol.Symbols.TypeExpressions
import Survol.Strace.ParseArgs
import Survol.Lib.FieldStorage
import Survol.Credentials.Forms
import Survol.Scripts.Parameters
import Survol.Scripts.MergeScripts
import Survol.Sql.Tokens
import Survol.Sql.Queries
import Survol.Sql.TableNames
import Survol.Sql.TableDependencies
import Survol.Lib.Transitions
import Survol.Dockit.UpdateQueue
import Survol.Dockit.ObjectUpdates
import Survol.Lib.Memo
import Survol.Scripts.HierarchicalSearch
import Survol.Dockit.PackagesCache
import Survol.Lib.Triples
import Survol.Dockit.DockerFile
import Survol.Dockit.DockerInstalls
import Survol.Lib.Grouping
import Survol.Lib.SpanTable
import Survol.Html.ObjectTables
import Survol.Events.Collections
import Survol.Dockit.ReplayContext
import Survol.Menus.ObjectTypes
import Survol.Wmi.ClassPages
import Survol.Wbem.ClassPages
import Survol.Bookmarks.BookmarkFiles
import Survol.Lib.DepthSearch
import Survol.PeFiles.Dependencies
import Survol.Dockit.PlainArguments
import Survol.Dockit.LogStates
import Survol.Dockit.ScannedAccesses
import Survol.Lib.Markup
