import EnhancedLetIndex.Engine.AddRecord
import EnhancedLetIndex.Engine.MergeTrace
import EnhancedLetIndex.Engine.Refused
import EnhancedLetIndex.Engine.Sharing
import EnhancedLetIndex.Incremental.Agreement
import EnhancedLetIndex.Incremental.Resume
import EnhancedLetIndex.Pgm.Minimal
import EnhancedLetIndex.Reference.Command
import EnhancedLetIndex.Reference.Scan
import EnhancedLetIndex.Swat.Accuracy
import EnhancedLetIndex.Swat.Fetch
import EnhancedLetIndex.Swat.Interior
import EnhancedLetIndex.Swat.View
import EnhancedLetIndex.Transcript.TwoRuns
import EnhancedLetIndex.Workload.Generate
import EnhancedLetIndex.Workload.Interactive
