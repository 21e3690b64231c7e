import AegisWorkers.Deduplication
import AegisWorkers.Deliveries
import AegisWorkers.Custody
import AegisWorkers.Cancel
import AegisWorkers.Lifecycle
import AegisWorkers.Idempotency
import AegisWorkers.Provenance
import AegisWorkers.Whitelist
import AegisWorkers.Estimate
import AegisWorkers.Accounting
import AegisWorkers.Replay
import AegisWorkers.Retries
import AegisWorkers.Coherence
import AegisWorkers.DeadLetters
import AegisWorkers.Independence
import AegisWorkers.Handling
import AegisWorkers.Attempts
import AegisWorkers.Answers
import AegisWorkers.Gauge
import AegisWorkers.Schema
import AegisWorkers.EmailTask
import AegisWorkers.Board
import AegisWorkers.Linearization
import AegisWorkers.Budget
import AegisWorkers.Drain
import AegisWorkers.Guarantees
import AegisWorkers.Constraints
import AegisWorkers.Documents
import AegisWorkers.Finish
import AegisWorkers.Tolerance
import AegisWorkers.Counters
import AegisWorkers.Backoff
import AegisWorkers.Exclusion
import AegisWorkers.Health
import AegisWorkers.Confinement
