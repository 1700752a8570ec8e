import EvioTool.Laws.PrimitiveLeaf
import EvioTool.Laws.EventTree
import EvioTool.Laws.Extent
import EvioTool.Laws.Finish
import EvioTool.Laws.Reader
import EvioTool.Laws.Chunk
import EvioTool.Laws.Skip
import EvioTool.Laws.Return
import EvioTool.Laws.Stall
import EvioTool.Laws.Reconnect
import EvioTool.Laws.Fillers
import EvioTool.Laws.Twins
import EvioTool.Laws.Clear
import EvioTool.Laws.Leak
import EvioTool.Defs.VTPRecord
import EvioTool.Laws.VTPRecord
import EvioTool.Defs.SVTFrame
import EvioTool.Laws.SVTFrame
import EvioTool.Defs.EcalHit
import EvioTool.Defs.EcalBank
import EvioTool.Laws.BlockIterator
import EvioTool.Laws.Cluster
import EvioTool.Defs.FADCSlot
import EvioTool.Laws.FADCSlot
import EvioTool.Laws.Words
import EvioTool.Lib.FirstFit
import EvioTool.Laws.Mirror
import EvioTool.Defs.Tree
import EvioTool.Lib.Shadow
import EvioTool.Laws.FillInv
import EvioTool.Laws.Crate
import EvioTool.Laws.SVTLeaf
import EvioTool.Defs.Casts
import EvioTool.Laws.Casts
import EvioTool.Laws.VTPEvent
import EvioTool.Laws.VTPRun
import EvioTool.Defs.Mode7
import EvioTool.Lib.DeadTime
import EvioTool.Laws.Mode7
import EvioTool.Laws.Pulses
import EvioTool.Laws.Damage
import EvioTool.Defs.NameIndex
import EvioTool.Laws.NameIndex
import EvioTool.Laws.LeafPath
import EvioTool.Lib.Tracks
import EvioTool.Laws.ConfigStops
import EvioTool.Defs.TriggerFilter
import EvioTool.Laws.LeafReads
import EvioTool.Laws.FilterReads
import EvioTool.Laws.TriggerFilter
import EvioTool.Defs.Blaster
import EvioTool.Laws.Blaster
import EvioTool.Laws.FADCExtent
import EvioTool.Lib.Text
import EvioTool.Defs.DAQMap
import EvioTool.Defs.TriggerConfig
import EvioTool.Defs.ConfigEdits
import EvioTool.Laws.ConfigEdits
import EvioTool.Laws.DAQMap
import EvioTool.Laws.SlotHistory
import EvioTool.Laws.ConfigPaths
import EvioTool.Laws.ConfigShape
import EvioTool.Laws.Windows
import EvioTool.Laws.SampleReads
import EvioTool.Laws.SVTReads
import EvioTool.Laws.SVTRaw
import EvioTool.Defs.VTPTrigger
import EvioTool.Laws.VTPTrigger
import EvioTool.Laws.VTPTime
import EvioTool.Laws.TSBank
import EvioTool.Laws.TriggerNames
import EvioTool.Laws.LastLine
import EvioTool.Defs.VTPStore
import EvioTool.Laws.VTPStore
import EvioTool.Laws.ConfigNumbers
import EvioTool.Laws.EcalConfig
import EvioTool.Defs.HitMap
import EvioTool.Laws.HitMap
import EvioTool.Laws.HitMapReads
import EvioTool.Lib.Once
import EvioTool.Lib.Stoi
import EvioTool.Defs.TriggerSpecifier
import EvioTool.Laws.TriggerSpecifier
import EvioTool.Laws.FailedAdd
import EvioTool.Lib.Registry
import EvioTool.Defs.AddBank
import EvioTool.Laws.AddBank
import EvioTool.Lib.MaxRuns
import EvioTool.Laws.StringLeaf
import EvioTool.Lib.Placed
import EvioTool.Defs.DataSet
import EvioTool.Laws.DataSet
import EvioTool.Defs.StoreLocation
import EvioTool.Laws.StoreLocation
import EvioTool.Lib.NextIn
import EvioTool.Defs.Neighbours
import EvioTool.Laws.Neighbours
import EvioTool.Defs.Mode3
import EvioTool.Laws.Maximum
import EvioTool.Laws.Mode7Single
import EvioTool.Lib.Splice
import EvioTool.Lib.ByteOrder
import EvioTool.Defs.EvioWrite
import EvioTool.Defs.EvioFmt
import EvioTool.Defs.EvioSwap
import EvioTool.Defs.EvioRead
import EvioTool.Defs.EvioBlocks
import EvioTool.Defs.ForeignTree
import EvioTool.Defs.WrittenFile
import EvioTool.Laws.EvioNumbers
import EvioTool.Laws.EvioFmt
import EvioTool.Laws.EvioSwap
import EvioTool.Laws.EvioComposite
import EvioTool.Laws.EvioRead
import EvioTool.Laws.EvioRandom
import EvioTool.Laws.EvioBuffer
import EvioTool.Laws.EvioWrite
import EvioTool.Defs.FileReader
import EvioTool.Defs.FilterFiles
import EvioTool.Laws.FileReader
import EvioTool.Laws.FilterFiles
