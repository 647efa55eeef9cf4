import BlockQuery.Main
import BlockQuery.Proofs.Derivation
import BlockQuery.Proofs.PathLens
import BlockQuery.Proofs.Reads
import BlockQuery.Proofs.Parsing
import BlockQuery.Proofs.Blank
import BlockQuery.Proofs.DecimalText
import BlockQuery.Proofs.Tree
import BlockQuery.Proofs.Escape
import BlockQuery.Proofs.Codec
import BlockQuery.Proofs.LineText
import BlockQuery.Proofs.BlockSteps
import BlockQuery.Proofs.Rows
import BlockQuery.Proofs.Layout
import BlockQuery.Proofs.RowSteps
import BlockQuery.Proofs.Written
import BlockQuery.Proofs.DistinctKeys
import BlockQuery.Proofs.RoundTrip
import BlockQuery.Proofs.Descent
import BlockQuery.Proofs.ErrorSource
import BlockQuery.Proofs.StrictMode
import BlockQuery.Proofs.CompiledQuery
import BlockQuery.Proofs.ValueOrder
import BlockQuery.Proofs.ValueKeys
import BlockQuery.Proofs.PathRemoval
import BlockQuery.Proofs.KeyInvariant
import BlockQuery.Proofs.UniqueJson
import BlockQuery.Proofs.IntegerDivision
import BlockQuery.Proofs.Digits
import BlockQuery.Proofs.Binary64
import BlockQuery.Proofs.JsonReads
import BlockQuery.Proofs.Shortest
import BlockQuery.Proofs.JsonNumber
import BlockQuery.Proofs.NumberReaders
import BlockQuery.Proofs.Placement
import BlockQuery.Proofs.RelativeLayout
import BlockQuery.Proofs.Composition
import BlockQuery.Proofs.TokenText
import BlockQuery.Proofs.QueryLayout
import BlockQuery.Proofs.JsonTokens
import BlockQuery.Proofs.JsonLayout
import BlockQuery.Proofs.JsonRoundTrip
import BlockQuery.Proofs.CacheRun
import BlockQuery.Proofs.PathFrame
import BlockQuery.Proofs.PathRestore
import BlockQuery.Proofs.PathReading
import BlockQuery.Proofs.PathUpdate
import BlockQuery.Proofs.Regrouped
import BlockQuery.Proofs.PipeLaws
import BlockQuery.Proofs.QueryWords
import BlockQuery.Proofs.Places
import BlockQuery.Proofs.DerivedWords
import BlockQuery.Proofs.WordCount
import BlockQuery.Proofs.QueryText
import BlockQuery.Proofs.MapCollect
import BlockQuery.Proofs.NodePaths
import BlockQuery.Proofs.NestedKeys
import BlockQuery.Proofs.IndexWords
import BlockQuery.Proofs.Slices
import BlockQuery.Proofs.RenderedGroups
import BlockQuery.Proofs.PathGrowth
import BlockQuery.Proofs.ContainerKeys
import BlockQuery.Proofs.AdditionLaws
import BlockQuery.Proofs.AlternativeLaws
import BlockQuery.Proofs.JsonSpacing
import BlockQuery.Proofs.FormatChoice
import BlockQuery.Proofs.ScalarCodec
import BlockQuery.Proofs.QuotedKeys
import BlockQuery.Proofs.LinePositions
import BlockQuery.Proofs.WalkLog
