import UtxoLedger.Ledger.Mining

/-!
The mining loop: a cycle at the start, and one more each time it is woken, until it is cancelled. It
is woken by transactions that are queued, or by a timer.
-/

namespace UtxoLedger

/-- When the loop mines. -/
inductive Schedule where
  /-- As soon as a transaction is queued. -/
  | immediate
  /-- After so many seconds, or earlier when a transaction is queued. -/
  | interval (seconds : UInt64)
  deriving DecidableEq, Repr

/-- Where the loop stands. -/
inductive Phase where
  | idle
  /-- It waits for a signal. -/
  | waiting
  | stopped
  deriving DecidableEq, Repr

/-- A ledger with the loop that mines on it. -/
structure Loop where
  ledger : Ledger
  phase : Phase
  /-- Wake signals that nobody has taken yet. -/
  signals : Nat
  cancelled : Bool
  cycles : Nat

namespace Loop

/-- The loop on a ledger, before it starts. -/
def ofLedger (ledger : Ledger) : Loop :=
  ⟨ledger, .idle, 0, false, 0⟩

/-- Sends a wake signal. A loop that waits takes one; besides, one signal is kept. -/
def wake (loop : Loop) : Loop :=
  let room := if loop.phase = .waiting then 2 else 1
  { loop with signals := min (loop.signals + 1) room }

def cancel (loop : Loop) : Loop :=
  { loop with cancelled := true }

/-- What one look for work gives. -/
inductive Wait where
  /-- A signal was there and has been taken. -/
  | work
  | cancelled
  | pending
  deriving DecidableEq, Repr

/-- Looks for work once: cancellation comes before a signal. -/
def wait (loop : Loop) : Wait × Loop :=
  if loop.cancelled then (.cancelled, loop)
  else
    match loop.signals with
    | 0 => (.pending, loop)
    | signals + 1 => (.work, { loop with signals })

variable [CryptoSuite]

/-- Queues a transaction and wakes the loop; a transaction that is refused does not wake it. -/
def queue (loop : Loop) (tx : Transaction) : Except Error (TxId × Loop) :=
  (loop.ledger.queue tx).map fun (id, ledger) => (id, { loop with ledger }.wake)

/-- One mining cycle. A failure leaves the ledger for the next cycle. -/
def mine (loop : Loop) (key : SecretKey) (stamp : Nat → Stamp) : Loop :=
  let ledger :=
    match loop.ledger.generate key (stamp loop.cycles) with
    | .ok (_, ledger) => ledger
    | .error _ => loop.ledger
  { loop with ledger, cycles := loop.cycles + 1 }

/-- Takes up to `signals` signals, mining a cycle for each, and then waits. -/
def drain (loop : Loop) (key : SecretKey) (stamp : Nat → Stamp) : (signals : Nat) → Loop
  | 0 => { loop with phase := .waiting }
  | signals + 1 => ({ loop with signals }.mine key stamp).drain key stamp signals

/-- Lets the loop go on until it ends or has to wait. -/
def poll (loop : Loop) (key : SecretKey) (stamp : Nat → Stamp) : Loop :=
  if loop.cancelled then { loop with phase := .stopped }
  else
    match loop.phase with
    | .stopped => loop
    | .idle => (loop.mine key stamp).drain key stamp loop.signals
    | .waiting => loop.drain key stamp loop.signals

end Loop

end UtxoLedger
