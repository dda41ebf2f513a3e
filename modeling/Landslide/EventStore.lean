import Landslide.Kv

/-!
# The read/write event store

The operations of `store.rs`.  Every mutation is one serializable transaction,
and an append retries its transaction against a fresh snapshot when its commit
is refused.  A transaction body that returns early drops the transaction, so an
early result is what the body throws.

`Call` lists the public mutations, and `Call.proc` is what each of them does.
The durability waits (`await_durable`, `await_seq`) read no state and change
none, and are left out, as is the backend sequence of a `CommitTicket`.
-/

namespace Landslide

open TxnKv Std

/-- Results of the public operations. -/
inductive Reply where
  | infos (infos : List CommitInfo)
  | purged (n : Nat)
  | compacted (record : CompactionRecord)
  | done
deriving DecidableEq, Repr

/-- What a public operation returns. -/
abbrev Result : Type := Except Error Reply

/-- A transaction body; it throws an early result. -/
abbrev TxnM (D S α : Type) : Type := KvM D S Result α

/-- A public operation; its transactions carry the commit infos. -/
abbrev StoreProc (D S : Type) : Type := Proc Key (Val D S) Result (List CommitInfo) Result

/-- Commit-conflict retries per append. -/
def commitRetries : Nat := 8

/-- Records deleted per transaction of a purge. -/
def purgeChunk : Nat := 1024

section

variable {D S : Type}

/-! ## Replaying operations into a transaction -/

/-- The token check of an append. -/
def checkFence (stream : String) : Option String → TxnM D S Unit
  | none => pure ()
  | some token => do
      let fence ← .read (Key.fence stream)
      match fence with
      | none => pure ()
      | some currentToken =>
          if currentToken = token then pure ()
          else .throw (.error (.fenceMismatch stream currentToken))

/-- The envelope of event `i` of a batch; its timestamp never moves backwards. -/
def batchEnvelope (first startSeq : Nat) (stamps : Nat → Stamp) (i : Nat) (lastTs : Int)
    (e : NewEvent D) : Envelope D :=
  { Envelope.new e (first + i) (stamps i) with
    seq := startSeq + i
    tsMs := max (stamps i).nowMs lastTs }

/-- Writes the events of a batch from event `i` on, with their time index, and
returns the last timestamp. -/
def putRecords (stream : String) (indexTs : Bool) (first startSeq : Nat) (stamps : Nat → Stamp) :
    Nat → Int → List (NewEvent D) → TxnM D S Int
  | _, lastTs, [] => pure lastTs
  | i, lastTs, e :: events => do
      let env := batchEnvelope first startSeq stamps i lastTs e
      .write (Key.record stream (first + i)) env
      if indexTs then .write (Key.ts stream env.tsMs (first + i)) ()
      putRecords stream indexTs first startSeq stamps (i + 1) env.tsMs events

/-- Replays one append: checks, versions, sequences, timestamps and the tail.
Returns the commit info and the cursor of `g/seq`. -/
def replayAppend (seq : Nat) (stream : String) (expected : ExpectedVersion)
    (fromVersion : Option Nat) (fenceToken : Option String) (events : List (NewEvent D))
    (indexTs : Bool) (stamps : Nat → Stamp) : TxnM D S (CommitInfo × Nat) := do
  let tail ← tail stream
  let current := tail.map (·.version)
  checkFence stream fenceToken
  if !expected.admits current then
    .throw (.error (.versionConflict stream expected current))
  else if events.isEmpty then
    .throw (.error (.invalidInput "empty batch"))
  else
    let first := fromVersion.getD (current.elim 0 (· + 1))
    let n := events.length
    let last := first + n - 1
    let startSeq := seq + 1
    let lastTs ← putRecords stream indexTs first startSeq stamps 0 (tail.elim 0 (·.tsMs)) events
    .write (Key.tail stream) { version := current.elim last (max · last), tsMs := lastTs }
    return ({ firstVersion := first, lastVersion := last, startSequence := startSeq },
      startSeq + n - 1)

/-- Sets or clears the fence of a stream. -/
def replayFence (stream : String) (token : Option String) : TxnM D S Unit :=
  match token.filter (· ≠ "") with
  | some t => .write (Key.fence stream) t
  | none => .remove (Key.fence stream)

/-- Stamps the global sequence and leaves it out of conflict detection. -/
def commitSeq (seq : Nat) : TxnM D S Unit := do
  .write Key.seq seq
  .unmarkWrite Key.seq

/-- The global sequence counter. -/
def seqCursor : TxnM D S Nat := do
  let seq ← .read Key.seq
  return seq.getD 0

/-! ## Transactions -/

/-- One transaction without retries. -/
def once (body : TxnM D S (List CommitInfo)) (ok : List CommitInfo → Reply) : StoreProc D S :=
  .txn body fun
    | .committed infos => .ret (.ok (ok infos))
    | .conflict => .ret (.error .backend)
    | .aborted r => .ret r

/-- The transaction of an append. -/
def appendBody (stream : String) (expected : ExpectedVersion) (fromVersion : Option Nat)
    (fenceToken : Option String) (events : List (NewEvent D)) (indexTs : Bool)
    (stamps : Nat → Stamp) : TxnM D S (List CommitInfo) := do
  let seq ← seqCursor
  let r ← replayAppend seq stream expected fromVersion fenceToken events indexTs stamps
  commitSeq r.2
  return [r.1]

/-- The attempts of an append: `retries` more after this one. -/
def commitLoop (stream : String) (expected : ExpectedVersion) (fromVersion : Option Nat)
    (fenceToken : Option String) (events : List (NewEvent D)) (indexTs : Bool)
    (stamps : Nat → Nat → Stamp) : Nat → StoreProc D S
  | 0 => .txn (appendBody stream expected fromVersion fenceToken events indexTs (stamps 0)) fun
      | .committed infos => .ret (.ok (.infos infos))
      | .aborted r => .ret r
      | .conflict => .get (Key.tail stream) fun t =>
          .ret (.error (.versionConflict stream expected (t.map (·.version))))
  | retries + 1 =>
      .txn (appendBody stream expected fromVersion fenceToken events indexTs
          (stamps (retries + 1))) fun
      | .committed infos => .ret (.ok (.infos infos))
      | .aborted r => .ret r
      | .conflict =>
          commitLoop stream expected fromVersion fenceToken events indexTs stamps retries

/-- Conditional append with retries.  `stamps r` are the draws of the attempt
with `r` retries left. -/
def commitAppends [Payload D] (stream : String) (expected : ExpectedVersion)
    (fromVersion : Option Nat) (fenceToken : Option String) (events : List (NewEvent D))
    (indexTs : Bool) (stamps : Nat → Nat → Stamp) : StoreProc D S :=
  match checkBatch events with
  | .error e => .ret (.error e)
  | .ok () =>
      commitLoop stream expected fromVersion fenceToken events indexTs stamps commitRetries

/-- `append` and `append_lazy`. -/
def append [Payload D] (stream : String) (expected : ExpectedVersion)
    (events : List (NewEvent D)) (stamps : Nat → Nat → Stamp) : StoreProc D S :=
  commitAppends stream expected none none events true stamps

/-- `append_with_token_lazy`, and `append_with_token` with `indexTs` set. -/
def appendWithToken [Payload D] (stream token : String) (expected : ExpectedVersion)
    (events : List (NewEvent D)) (indexTs : Bool) (stamps : Nat → Nat → Stamp) : StoreProc D S :=
  commitAppends stream expected none (some token) events indexTs stamps

/-- Appends at `fromVersion`, over existing events. -/
def appendAt [Payload D] (stream : String) (fromVersion : Nat) (expected : ExpectedVersion)
    (events : List (NewEvent D)) (stamps : Nat → Nat → Stamp) : StoreProc D S :=
  commitAppends stream expected (some fromVersion) none events true stamps

def fenceBody (stream : String) (token : Option String) : TxnM D S (List CommitInfo) := do
  let tail ← tail stream
  replayFence stream token
  return [tailCommitInfo tail]

/-- Sets or clears the fence token of a stream. -/
def fence (stream : String) (token : Option String) : StoreProc D S :=
  once (fenceBody stream token) .infos

def forkBody (parent : String) (atVersion : Nat) (child : String) :
    TxnM D S (List CommitInfo) := do
  let parentTail ← tail parent
  match parentTail with
  | none => .throw (.error (.invalidInput s!"parent '{parent}' does not exist"))
  | some parentTail =>
      if parentTail.version < atVersion then
        let v := parentTail.version
        .throw (.error (.invalidInput
          s!"parent '{parent}' is at v{v}, cannot fork at v{atVersion}"))
      else
        let childTail ← tail child
        if childTail.isSome then
          .throw (.error (.versionConflict child .noStream (childTail.map (·.version))))
        else
          .write (Key.fork child) { stream := parent, atVersion := atVersion }
          .write (Key.tail child) { version := atVersion, tsMs := parentTail.tsMs }
          .write (Key.forks parent child) atVersion
          return []

/-- Forks a stream: fork reference, child tail and parent pin. -/
def fork (parent : String) (atVersion : Nat) (child : String) : StoreProc D S :=
  once (forkBody parent atVersion child) fun _ => .done

def trimBody (stream : String) (fromVersion : Nat) (txn : Nat) :
    TxnM D S (List CommitInfo) := do
  let tail ← tail stream
  .write (Key.rollback stream fromVersion) txn
  return [tailCommitInfo tail]

/-- Hides versions from `fromVersion` on with global sequence above `txn`. -/
def trim (stream : String) (fromVersion : Nat) (txn : Nat) : StoreProc D S :=
  once (trimBody stream fromVersion txn) .infos

def trimBelowBody (stream : String) (floor : Nat) : TxnM D S (List CommitInfo) := do
  let tail ← tail stream
  let old ← .read (Key.trim stream)
  -- floors only move forward and can only cover the existing history
  let floor := max (tail.elim floor fun t => min floor (t.version + 1)) (old.getD 0)
  .write (Key.trim stream) floor
  return [tailCommitInfo tail]

/-- Hides all events below `floor`. -/
def trimBelow (stream : String) (floor : Nat) : StoreProc D S :=
  once (trimBelowBody stream floor) .infos

def deleteStreamBody (stream : String) : TxnM D S (List CommitInfo) := do
  let tail ← tail stream
  if tail.isSome then
    .write (Key.deleted stream) ()
    return []
  else .throw (.ok .done)

/-- Logically deletes a stream. -/
def deleteStream (stream : String) : StoreProc D S :=
  once (deleteStreamBody stream) fun _ => .done

/-! ## Physical retention -/

def versionOf : (k : Key) × Val D S k → Option Nat
  | ⟨.record _ v, _⟩ => some v
  | _ => none

/-- Deletes a chunk of records. -/
def deleteRecords (stream : String) : List Nat → TxnM D S (List CommitInfo)
  | [] => pure []
  | v :: versions => do
      .remove (Key.record stream v)
      deleteRecords stream versions

/-- The chunks of a purge from `next` on.  The first argument bounds their
number. -/
def purgeLoop (stream : String) (floor : Nat) : Nat → Nat → Nat → StoreProc D S
  | 0, _, _ => .ret (.error .depth)
  | chunks + 1, next, purged =>
      if next < floor then
        .scan (recordRange stream next (some floor)) fun rows =>
          let versions := (rows.filterMap versionOf).take purgeChunk
          match versions.getLast? with
          | none => .ret (.ok (.purged purged))
          | some last => .txn (deleteRecords stream versions) fun
              | .committed _ => purgeLoop stream floor chunks (last + 1) (purged + versions.length)
              | .conflict => .ret (.error .backend)
              | .aborted r => .ret r
      else .ret (.ok (.purged purged))

/-- Deletes the records below `floor` and above the highest live fork pin. -/
def purgeBelow (stream : String) (floor : Nat) : StoreProc D S :=
  .ofReads (ceiling stream : KvM D S Error (Option Nat)) fun
    | .error e => .ret (.error e)
    | .ok c => purgeLoop stream floor (floor + 1) (c.elim 0 (· + 1)) 0

/-! ## Cross-stream transactions -/

/-- One queued operation of a `Transaction`. -/
inductive Op (D : Type) where
  | append (stream : String) (expected : ExpectedVersion) (events : List (NewEvent D))
  | fence (stream : String) (token : Option String)

/-- The batch caps of every queued append, in order. -/
def checkOps [Payload D] : List (Op D) → Except Error Unit
  | [] => .ok ()
  | .append _ _ events :: ops =>
      match checkBatch events with
      | .error e => .error e
      | .ok () => checkOps ops
  | .fence _ _ :: ops => checkOps ops

/-- Replays the queued operations.  `stamps j` are the draws of operation `j`. -/
def replayOps (stamps : Nat → Nat → Stamp) :
    Nat → Nat → List (Op D) → TxnM D S (List CommitInfo × Nat)
  | _, seq, [] => pure ([], seq)
  | j, seq, .append stream expected events :: ops => do
      let r ← replayAppend seq stream expected none none events true (stamps j)
      let rest ← replayOps stamps (j + 1) r.2 ops
      return (r.1 :: rest.1, rest.2)
  | j, seq, .fence stream token :: ops => do
      replayFence stream token
      replayOps stamps (j + 1) seq ops

def commitBody (ops : List (Op D)) (stamps : Nat → Nat → Stamp) :
    TxnM D S (List CommitInfo) := do
  let seq ← seqCursor
  let r ← replayOps stamps 0 seq ops
  commitSeq r.2
  return r.1

/-- Replays the operations of a transaction and commits once. -/
def commit [Payload D] (ops : List (Op D)) (stamps : Nat → Nat → Stamp) : StoreProc D S :=
  match checkOps ops with
  | .error e => .ret (.error e)
  | .ok () => once (commitBody ops stamps) .infos

/-! ## Snapshots -/

def publishBody (stream : String) (record : CompactionRecord) (state : S) (ulid : String) :
    TxnM D S (List CommitInfo) := do
  let cursor ← seqCursor
  let seq := cursor + 1
  .write (Key.snap stream seq)
    { throughVersion := record.throughVersion, tsMs := record.tsMs, state := state }
  .write (Key.compaction ulid) record
  commitSeq seq
  return []

/-- Publishes a snapshot and announces the compaction. -/
def publishSnapshot (stream : String) (record : CompactionRecord) (state : S) (ulid : String) :
    StoreProc D S :=
  once (publishBody stream record state ulid) fun _ => .done

/-- Reads the history of a stream, builds its snapshot and publishes it.
`depth` bounds the fork chain. -/
def compactInner (depth : Nat) (stream : String) (jobId : Option String)
    (build : List (Event D) → Except Error S) (nowMs : Int) (ulid : String) : StoreProc D S :=
  .ofReads (resolveHistory depth stream [] 0 none) fun
    | .error e => .ret (.error e)
    | .ok events =>
        match build events with
        | .error e => .ret (.error e)
        | .ok state =>
            match events.getLast? with
            | none => .ret (.error (.invalidInput s!"'{stream}' has no events to compact"))
            | some last =>
                let record : CompactionRecord :=
                  { stream := stream, throughVersion := last.version,
                    eventsCompacted := events.length, jobId := jobId, tsMs := nowMs }
                once (publishBody stream record state ulid) fun _ => .compacted record

/-! ## Calls -/

/-- The public mutations, each with what it draws from outside. -/
inductive Call (D S : Type) where
  | append (stream : String) (expected : ExpectedVersion) (events : List (NewEvent D))
      (stamps : Nat → Nat → Stamp)
  | appendWithToken (stream token : String) (expected : ExpectedVersion)
      (events : List (NewEvent D)) (indexTs : Bool) (stamps : Nat → Nat → Stamp)
  | appendAt (stream : String) (fromVersion : Nat) (expected : ExpectedVersion)
      (events : List (NewEvent D)) (stamps : Nat → Nat → Stamp)
  | commit (ops : List (Op D)) (stamps : Nat → Nat → Stamp)
  | fence (stream : String) (token : Option String)
  | fork (parent : String) (atVersion : Nat) (child : String)
  | trim (stream : String) (fromVersion : Nat) (txn : Nat)
  | trimBelow (stream : String) (floor : Nat)
  | purgeBelow (stream : String) (floor : Nat)
  | deleteStream (stream : String)
  | publishSnapshot (stream : String) (record : CompactionRecord) (state : S) (ulid : String)
  | compact (depth : Nat) (stream : String) (jobId : Option String)
      (build : List (Event D) → Except Error S) (nowMs : Int) (ulid : String)

/-- What a call does. -/
def Call.proc [Payload D] : Call D S → StoreProc D S
  | .append stream expected events stamps => Landslide.append stream expected events stamps
  | .appendWithToken stream token expected events indexTs stamps =>
      Landslide.appendWithToken stream token expected events indexTs stamps
  | .appendAt stream fromVersion expected events stamps =>
      Landslide.appendAt stream fromVersion expected events stamps
  | .commit ops stamps => Landslide.commit ops stamps
  | .fence stream token => Landslide.fence stream token
  | .fork parent atVersion child => Landslide.fork parent atVersion child
  | .trim stream fromVersion txn => Landslide.trim stream fromVersion txn
  | .trimBelow stream floor => Landslide.trimBelow stream floor
  | .purgeBelow stream floor => Landslide.purgeBelow stream floor
  | .deleteStream stream => Landslide.deleteStream stream
  | .publishSnapshot stream record state ulid =>
      Landslide.publishSnapshot stream record state ulid
  | .compact depth stream jobId build nowMs ulid =>
      Landslide.compactInner depth stream jobId build nowMs ulid

end

end Landslide
