import BatchWriter.Basic
import BatchWriter.Column
import BatchWriter.Writer
import BatchWriter.Commit
import BatchWriter.System
import BatchWriter.Loop
import BatchWriter.Resolve
import BatchWriter.Shape
import BatchWriter.Walk
import BatchWriter.Reach
import BatchWriter.Strings
import BatchWriter.Rows
import BatchWriter.Rollback
import BatchWriter.Fill
import BatchWriter.Stable
import BatchWriter.Tags
import BatchWriter.Clean
import BatchWriter.Order
import BatchWriter.Records
import BatchWriter.Cover
import BatchWriter.Sound
import BatchWriter.History
import BatchWriter.Recover
import BatchWriter.Table
import BatchWriter.Retry
import BatchWriter.Unwind
import BatchWriter.Refinement
import BatchWriter.Stale
