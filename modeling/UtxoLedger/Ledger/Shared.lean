import UtxoLedger.Ledger.Lookups

/-!
A ledger that miners and clients share. Each call on it is one step: reading what is pending, reading
the tip, looking up an output, queueing, committing. Between two steps of one of them the others may
take any of theirs.
-/

namespace UtxoLedger

/-- What a miner is asked for. -/
inductive Job where
  /-- A mining cycle. -/
  | generate (key : SecretKey) (stamp : Stamp)
  /-- The first block. -/
  | mint (key : SecretKey) (stamp : Stamp) (coins : UInt32) (owner : PublicKey)

/-- A miner at work, by the call that it makes next. -/
inductive Miner where
  /-- It reads what is pending. -/
  | collecting (key : SecretKey) (stamp : Stamp)
  /-- It has transactions, and reads the tip. -/
  | aiming (key : SecretKey) (stamp : Stamp) (txs : List Transaction)
  /-- It assembles a block behind the tip that it has read. -/
  | assembling (key : SecretKey) (stamp : Stamp) (tip : Option BlockRecord)
      (lookups : Lookups Pending)
  /-- It is to mint the first block, and reads the tip. -/
  | opening (key : SecretKey) (stamp : Stamp) (coins : UInt32) (owner : PublicKey)
  /-- It has a signed block over what it has accepted, and commits it. -/
  | committing (tip : Option BlockRecord) (p : Pending) (block : Block)
  /-- It is done. -/
  | ended (answer : Except Error (Option Block))

/-- A miner that begins with a job. -/
def Job.start : Job → Miner
  | generate key stamp => .collecting key stamp
  | mint key stamp coins owner => .opening key stamp coins owner

namespace Miner

variable [CryptoSuite]

/-- Signs a block over what has been accepted. -/
def sealing (key : SecretKey) (stamp : Stamp) (tip : Option BlockRecord) (p : Pending) : Miner :=
  match p.seal key stamp tip with
  | .error e => .ended (.error e)
  | .ok block => .committing tip p block

/-- One call on the ledger, with all that the miner does by itself behind it. -/
def turn (ledger : Ledger) : Miner → Miner × Ledger
  | collecting key stamp =>
    if ledger.pending.isEmpty then (.ended (.ok none), ledger)
    else (.aiming key stamp ledger.pending, ledger)
  | aiming key stamp txs =>
    (.assembling key stamp ledger.tip? (.assemble ledger.tip? txs), ledger)
  | assembling key stamp tip (.look o next) =>
    (.assembling key stamp tip (next (ledger.utxo? o)), ledger)
  | assembling key stamp tip (.done p) =>
    if p.isEmpty then (.ended (.ok none), ledger) else (sealing key stamp tip p, ledger)
  | opening key stamp coins owner =>
    match ledger.tip? with
    | some tip => (.ended (.error (.blockValidation (.chainNotEmpty tip.height))), ledger)
    | none =>
      match Pending.new.add (Ledger.mintingTx coins owner) with
      | .error e => (.ended (.error e), ledger)
      | .ok (_, p) => (sealing key stamp none p, ledger)
  | committing tip p block =>
    match ledger.commit (p.commit tip block) with
    | .error e => (.ended (.error e), ledger)
    | .ok after => (.ended (.ok (some block)), after)
  | ended answer => (.ended answer, ledger)

/-- Several turns, undisturbed. -/
def turns (ledger : Ledger) (miner : Miner) : Nat → Miner × Ledger
  | 0 => (miner, ledger)
  | n + 1 =>
    let (miner, ledger) := miner.turn ledger
    turns ledger miner n

end Miner

/-- A ledger with the miners that work on it. -/
structure Shared where
  ledger : Ledger
  miners : List Miner

/-- What happens next. -/
inductive Move where
  /-- A client queues a transaction. -/
  | queue (tx : Transaction)
  /-- A miner begins with a job. -/
  | start (job : Job)
  /-- The miner with this number takes its turn. -/
  | turn (number : Nat)

namespace Shared

variable [CryptoSuite]

/-- The shared ledger before anything has happened. -/
def empty : Shared :=
  ⟨.empty, []⟩

/-- One move. -/
def next (shared : Shared) : Move → Shared
  | .queue tx =>
    match shared.ledger.queue tx with
    | .error _ => shared
    | .ok (_, after) => { shared with ledger := after }
  | .start job => { shared with miners := shared.miners ++ [job.start] }
  | .turn number =>
    match shared.miners[number]? with
    | none => shared
    | some miner =>
      let (miner, ledger) := miner.turn shared.ledger
      ⟨ledger, shared.miners.set number miner⟩

/-- The shared ledger after moves, in whatever order they have come. -/
def run (moves : List Move) : Shared :=
  moves.foldl next empty

end Shared

end UtxoLedger
