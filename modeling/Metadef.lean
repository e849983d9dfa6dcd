import Metadef.Theorems.GraphCopy
import Metadef.Theorems.EdgeReplacement
import Metadef.Theorems.UnlinkAll
import Metadef.Theorems.DataRouting
import Metadef.Theorems.WaitingThreads
import Metadef.Theorems.DescriptorCopy
import Metadef.Theorems.DumpRoundTrip
import Metadef.Theorems.EqualWiring
import Metadef.Theorems.WholeOrder
import Metadef.Theorems.TopoComplete
import Metadef.Theorems.EventNodes
import Metadef.Theorems.TransChain
import Metadef.Theorems.KeptOrder
import Metadef.Theorems.CopiedInputs
import Metadef.Theorems.MovedControls
import Metadef.Theorems.InsertedNodes
import Metadef.Theorems.CleanReplacement
import Metadef.Theorems.GraphClones
import Metadef.Theorems.NodeReplacement
import Metadef.Theorems.UnusedDescriptors
import Metadef.Theorems.NthLayer
import Metadef.Theorems.AnchorsInStep
import Metadef.Theorems.MovedOutputs
import Metadef.Theorems.NodeSubgraphs
import Metadef.Theorems.WeightsRead
import Metadef.Theorems.WeightsByIndex
import Metadef.Theorems.BatchOutputs
import Metadef.Theorems.BranchShapes
import Metadef.Theorems.MemorySizes
import Metadef.Theorems.AdaptedDescs
import Metadef.Theorems.RefBounds
import Metadef.Theorems.FormatTermination
import Metadef.Theorems.BrushedBodies
import Metadef.Theorems.SortByNames
import Metadef.Theorems.PassRuns
import Metadef.Theorems.BufferOutputs
import Metadef.Theorems.FusedIndexes
import Metadef.Theorems.TopScopes
import Metadef.Theorems.CaughtFormats
import Metadef.Theorems.TypeIndexes
import Metadef.Theorems.CleanDecodes
import Metadef.Theorems.NarrowReads
import Metadef.Theorems.OutputTexts
import Metadef.Theorems.ParserLookups
import Metadef.Theorems.AttributeOrder
import Metadef.Theorems.DynamicPorts
import Metadef.Theorems.PartialBuilds
import Metadef.Theorems.StringConstants
import Metadef.Theorems.SetTensors
import Metadef.Theorems.OriginNames
import Metadef.Theorems.RefMapping
