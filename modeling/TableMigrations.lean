import TableMigrations.Main
import TableMigrations.Proofs.Execution
import TableMigrations.Proofs.History
import TableMigrations.Proofs.Cancellation
import TableMigrations.Proofs.Recording
import TableMigrations.Proofs.Rerun
import TableMigrations.Proofs.Retry
import TableMigrations.Proofs.Scan
import TableMigrations.Proofs.Agreement
import TableMigrations.Proofs.NumberText
import TableMigrations.Proofs.ShortestText
import TableMigrations.Proofs.Grammar
import TableMigrations.Proofs.Batches
import TableMigrations.Proofs.RoundTrip
import TableMigrations.Proofs.Addressing
import TableMigrations.Proofs.Permanence
import TableMigrations.Proofs.Concurrency
import TableMigrations.Proofs.Status
import TableMigrations.Proofs.Atomicity
import TableMigrations.Proofs.FirstRefusal
import TableMigrations.Proofs.JsonRoundTrip
import TableMigrations.Proofs.Streaming
import TableMigrations.Proofs.Chunking
import TableMigrations.Proofs.Grouping
import TableMigrations.Proofs.Patching
import TableMigrations.Proofs.Filing
import TableMigrations.Proofs.NameOrder
import TableMigrations.Proofs.Lines
import TableMigrations.Proofs.Counts
import TableMigrations.Proofs.DatabaseRuns
