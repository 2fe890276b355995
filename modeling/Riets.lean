import Riets.AnalyzersInUse
import Riets.AutomatonKeys
import Riets.BackupCleanup
import Riets.BackupGaps
import Riets.CheckpointSafety
import Riets.CoverSpan
import Riets.DeleteLog
import Riets.DictionaryChange
import Riets.DocumentProjection
import Riets.FailedAppend
import Riets.GraphRepair
import Riets.HighlightRecall
import Riets.IdAllocation
import Riets.IndexRecovery
import Riets.LiveStats
import Riets.MergeAgreement
import Riets.PhraseAlignment
import Riets.PolicyJson
import Riets.PostingForm
import Riets.PreparedRanking
import Riets.RankCut
import Riets.RankFilter
import Riets.RankFusion
import Riets.RestoreSwap
import Riets.RowHiding
import Riets.RowOrder
import Riets.RowTables
import Riets.SegmentFiles
import Riets.SettingsChange
import Riets.Shutdown
import Riets.StoreVisit
import Riets.Sweep
import Riets.VarintExact
import Riets.VectorBinding
import Riets.VectorFileMerge
import Riets.VectorMerge
import Riets.WalHistory
