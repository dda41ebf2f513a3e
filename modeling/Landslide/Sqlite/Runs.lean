import Landslide.Sqlite.Sync

/-!
# Runs of a database

A database is opened, synced, checkpointed and reopened, in any order.  Opening
drops the handle before.  A state records the transactions captured so far, and
whether a checkpoint of the handle failed after it took the pending fold.

Whatever the run, a restore shows the image of all captured transactions and the
image of the handle (`restore_shows_captured`).  With failing calls this holds as
long as no checkpoint seals what was captured after a checkpoint of the same
handle failed (`restore_shows_image`): that checkpoint publishes a manifest
without the transactions that the failed one had taken
(`restore_loses_dropped_pages`).
-/

namespace Landslide.Sqlite

open Std Overlay TxnKv

/-! ## Folded batches -/

/-- The transactions appended for the captured ones: each as it is, or a run of
them folded into one. -/
inductive Folded : List Delta → List Delta → Prop where
  | nil : Folded [] []
  | keep {captured appended : List Delta} (d : Delta) : Folded captured appended →
      Folded (captured ++ [d]) (appended ++ [d])
  | fold {captured appended group : List Delta} : group ≠ [] → Folded captured appended →
      Folded (captured ++ group) (appended ++ [fold group])

namespace Folded

variable {captured appended : List Delta}

/-- The appended transactions do what the captured ones do. -/
theorem applied_eq (h : Folded captured appended) (image : DbImage) :
    image.applied appended = image.applied captured := by
  induction h with
  | nil => rfl
  | keep d _ ih => rw [DbImage.applied_append, DbImage.applied_append, ih]
  | fold hne _ ih =>
      rw [DbImage.applied_append, DbImage.applied_append, ih, ← apply_fold _ hne]
      rfl

theorem grows (h : Folded captured appended) {size : Nat} (hg : Grows size captured) :
    Grows size appended := by
  induction h with
  | nil => exact hg
  | @keep captured appended d hf ih =>
      rw [Grows.append] at hg ⊢
      refine ⟨ih hg.1, ?_⟩
      rw [← DbImage.dbSize_applied { dbSize := size }, hf.applied_eq, DbImage.dbSize_applied]
      exact hg.2
  | @fold captured appended group hne hf ih =>
      rw [Grows.append] at hg ⊢
      refine ⟨ih hg.1, ?_⟩
      rw [← DbImage.dbSize_applied { dbSize := size }, hf.applied_eq, DbImage.dbSize_applied]
      exact hg.2.fold hne

theorem keepAll (h : Folded captured appended) (deltas : List Delta) :
    Folded (captured ++ deltas) (appended ++ deltas) := by
  induction deltas generalizing captured appended with
  | nil => simpa using h
  | cons d deltas ih => simpa using ih (h.keep d)

/-- A batch extends the appended transactions. -/
theorem batch (h : Folded captured appended) (coalesce : Bool) (deltas : List Delta) :
    Folded (captured ++ deltas) (appended ++ batch coalesce deltas) := by
  rw [Sqlite.batch]
  split
  · next hc =>
    refine h.fold ?_
    rintro rfl
    exact absurd hc.2 (by simp)
  · exact h.keepAll deltas

end Folded

/-! ## Runs -/

/-- One operation of a run, with what it reads and draws. -/
inductive Op where
  | open
  | sync (coalesce : Bool) (wal : Option Bytes) (stamps : Nat → Nat → Stamp)
  | checkpoint (opts : CheckpointOpts) (wal : Option Bytes) (stamps : Nat → Nat → Stamp)
      (nowMs : Int) (ulid : String) (fault : Option Fault)

/-- A state of a run.  `captured` and `dropped` are recorded for the statements
only. -/
structure State (D S B : Type) where
  remote : Remote D S B := {}
  db : Option Db := none
  /-- The transactions captured by syncs that succeeded. -/
  captured : List Delta := []
  /-- A checkpoint of the handle failed after it took the pending fold. -/
  dropped : Bool := false

section

variable {D S B : Type} [Payload D] (env : Outside D S B) (name : String)

/-- The transactions that a sync of a handle captures. -/
def Db.captures (db : Db) (wal : Option Bytes) : List Delta :=
  found db.cursor db.image.txid wal

def step (st : State D S B) (op : Op) : State D S B :=
  match op, st.db with
  | .open, _ =>
      let out := openDb env name st.remote
      { st with remote := out.2, db := out.1.toOption, dropped := false }
  | .sync coalesce wal stamps, some db =>
      let out := syncInner env coalesce wal stamps db st.remote
      { st with
        remote := out.2.2
        db := some out.2.1
        captured := st.captured ++ if out.1.isOk then db.captures wal else [] }
  | .checkpoint opts wal stamps nowMs ulid fault, some db =>
      let synced := (syncInner env false wal stamps db st.remote).1.isOk
      let out := checkpointWith env opts wal stamps nowMs ulid fault db st.remote
      { remote := out.2.2
        db := some out.2.1
        captured := st.captured ++ if synced then db.captures wal else []
        dropped := st.dropped || (synced && !out.1.isOk) }
  | _, none => st

/-- The states reached by operations that each meet `P` where they run. -/
inductive Reached (P : State D S B → Op → Prop) : State D S B → Prop where
  | start : Reached P {}
  | step {st : State D S B} (op : Op) : Reached P st → P st op → Reached P (step env name st op)

/-- The state after some operations. -/
def run (ops : List Op) : State D S B := ops.foldl (step env name) {}

/-- The operations each meet `P` where they run, from a state on. -/
def Meets (P : State D S B → Op → Prop) : State D S B → List Op → Prop
  | _, [] => True
  | st, op :: ops => P st op ∧ Meets P (step env name st op) ops

end

/-- No call of the operation fails. -/
def Op.Faultless : Op → Prop
  | .checkpoint _ _ _ _ _ fault => fault = none
  | _ => True

/-- A checkpoint after a failed one of the same handle has nothing to seal. -/
def Op.Clean {D S B : Type} (st : State D S B) : Op → Prop
  | .checkpoint _ wal _ _ _ _ => ∀ db, st.db = some db → st.dropped = true →
      db.pending.txidStart = none ∧ db.captures wal = []
  | _ => True

/-- A checkpoint does not fail, and it keeps the purge boundary. -/
def Op.Keeps {D S B : Type} (env : Outside D S B) (name : String) (st : State D S B) : Op → Prop
  | .checkpoint opts _ _ _ _ fault => fault = none ∧ Sqlite.Keeps env name opts st.remote.store
  | _ => True

section

variable {D S B : Type} {env : Outside D S B} {name : String}

/-! ## The invariant -/

/-- What holds in every state of a run. -/
structure Inv (env : Outside D S B) (name : String) (tight : Prop) (st : State D S B)
    (batches parts : List (List Delta)) : Prop where
  stored : Stored env name tight st.remote batches parts
  folded : Folded st.captured batches.flatten
  consecutive : Consecutive 0 st.captured
  sized : ∀ d ∈ st.captured, d.Sized
  attached : ∀ db, st.db = some db → Attached name st.remote batches st.dropped db

theorem Attached.openDb [Payload D] {tight : Prop} {r : Remote D S B} {batches parts : List (List Delta)}
    (h : Stored env name tight r batches parts) (henv : env.Lawful name)
    (hg : Grows 0 batches.flatten) :
    Stored env name tight (openDb env name r).2 batches parts ∧
      ∀ db, (Sqlite.openDb env name r).1.toOption = some db →
        Attached name (Sqlite.openDb env name r).2 batches false db := by
  obtain ⟨infos, hfence⟩ := fence_exec name (some (env.ulid r.draws)) r.store
  have hst : Stored env name tight
      { r with store := fenced r.store name (some (env.ulid r.draws)), draws := r.draws + 1 }
      batches parts :=
    h.frame (fun k hk => get_fenced_of_ne _ _ _ hk) (Nat.le_succ _) fun _ _ _ _ => rfl
  obtain ⟨image, hrestore, hview⟩ := hst.restoreImpl_eq henv hg
  simp only [Sqlite.openDb, hfence, hrestore]
  refine ⟨hst, fun db hdb => ?_⟩
  cases hdb
  exact ⟨rfl, rfl, hview, fun _ => rfl⟩

namespace Inv

variable {tight : Prop} {st : State D S B} {batches parts : List (List Delta)}

theorem start : Inv env name tight {} [] [] where
  stored := .empty env name tight
  folded := .nil
  consecutive := trivial
  sized := by simp
  attached := by simp

theorem grows (h : Inv env name tight st batches parts) (hg : Grows 0 st.captured) :
    Grows 0 batches.flatten := h.folded.grows hg

/-- The transactions that a handle captures are numbered on. -/
theorem captures (h : Inv env name tight st batches parts) {db : Db} (hdb : st.db = some db)
    (wal : Option Bytes) :
    Consecutive 0 (st.captured ++ db.captures wal) ∧
      ∀ d ∈ st.captured ++ db.captures wal, d.Sized := by
  obtain ⟨hcons, hsized⟩ := found_deltas db.cursor db.image.txid wal
  refine ⟨Consecutive.append.mpr ⟨h.consecutive, ?_⟩, fun d hd => ?_⟩
  · have htxid := DbImage.txid_eq (h.attached db hdb).image
    rw [h.folded.applied_eq, DbImage.txid_applied] at htxid
    rw [Db.captures, show lastTxid 0 st.captured = db.image.txid from htxid.symm]
    exact hcons
  · rcases List.mem_append.mp hd with hd | hd
    · exact h.sized d hd
    · exact hsized d hd

/-- The state after a sync, also the one that a checkpoint starts with. -/
theorem synced [Payload D] (h : Inv env name tight st batches parts) (henv : env.Lawful name)
    {db : Db} (hdb : st.db = some db) (coalesce : Bool) (wal : Option Bytes)
    (stamps : Nat → Nat → Stamp) :
    let out := syncInner env coalesce wal stamps db st.remote
    let captured := st.captured ++ if out.1.isOk then db.captures wal else []
    Grows 0 captured → ∃ batches', Extends name st.remote.store out.2.2.store ∧
      (db.captures wal = [] → out.2.1.pending = db.pending) ∧
      Inv env name tight { st with remote := out.2.2, db := some out.2.1, captured := captured }
        batches' parts := by
  intro out captured hg
  obtain ⟨batches', hst, hext, hflat, hpend, hatt⟩ :=
    h.stored.sync henv (h.attached db hdb) coalesce wal stamps
  have hfolded : Folded captured batches'.flatten := by
    rw [hflat]
    dsimp only [captured]
    split
    · exact h.folded.batch coalesce _
    · simpa using h.folded
  have hnumbered : Consecutive 0 captured ∧ ∀ d ∈ captured, d.Sized := by
    dsimp only [captured]
    split
    · exact h.captures hdb wal
    · simpa using ⟨h.consecutive, h.sized⟩
  refine ⟨batches', hext, hpend, hst, hfolded, hnumbered.1, hnumbered.2, ?_⟩
  rintro db' ⟨⟩
  exact hatt (hfolded.grows hg)

/-- Every operation keeps the invariant, and the handle keeps its pending fold
unless a call fails. -/
theorem step [Payload D] (h : Inv env name tight st batches parts) (henv : env.Lawful name)
    (op : Op) (hg : Grows 0 (step env name st op).captured) (hclean : op.Clean st)
    (hkeeps : tight → op.Keeps env name st) :
    (∃ batches' parts', Inv env name tight (Sqlite.step env name st op) batches' parts') ∧
      (op.Faultless → st.dropped = false → (Sqlite.step env name st op).dropped = false) := by
  cases op with
  | «open» =>
      obtain ⟨hst, hdb⟩ := Attached.openDb h.stored henv (h.grows hg)
      exact ⟨⟨batches, parts, hst, h.folded, h.consecutive, h.sized, hdb⟩, fun _ _ => rfl⟩
  | sync coalesce wal stamps =>
      cases hdb : st.db with
      | none =>
          simp only [Sqlite.step, hdb]
          exact ⟨⟨batches, parts, h⟩, fun _ hd => hd⟩
      | some db =>
          simp only [Sqlite.step, hdb] at hg ⊢
          obtain ⟨batches', -, -, hinv⟩ := h.synced henv hdb coalesce wal stamps hg
          exact ⟨⟨batches', parts, hinv⟩, fun _ hd => hd⟩
  | checkpoint opts wal stamps nowMs ulid fault =>
      cases hdb : st.db with
      | none =>
          simp only [Sqlite.step, hdb]
          exact ⟨⟨batches, parts, h⟩, fun _ hd => hd⟩
      | some db =>
          simp only [Sqlite.step, hdb] at hg ⊢
          obtain ⟨batches', hext, hpend, hinv⟩ := h.synced henv hdb false wal stamps hg
          cases hsync : syncInner env false wal stamps db st.remote with
          | mk res rest =>
          obtain ⟨db₁, r₁⟩ := rest
          simp only [hsync] at hinv hext hpend hg ⊢
          simp only [checkpointWith, hsync]
          cases res with
          | error e =>
              refine ⟨⟨batches', parts, hinv.stored, hinv.folded, hinv.consecutive, hinv.sized, ?_⟩,
                fun _ hd => ?_⟩
              · rintro db' ⟨⟩
                have := hinv.attached db₁ rfl
                simpa [Except.isOk, Except.toBool] using this
              · simpa [Except.isOk, Except.toBool] using hd
          | ok n =>
              have hatt := hinv.attached db₁ rfl
              obtain ⟨hok, parts', hst, hatt'⟩ := hinv.stored.sealPending henv (hinv.grows hg) hatt
                opts nowMs ulid fault
                (fun hd => by
                  obtain ⟨hnone, hnil⟩ := hclean db hdb hd
                  rw [hpend hnil]
                  exact hnone)
                (fun ht => ⟨(hkeeps ht).1, (hkeeps ht).2.extend h.stored hinv.stored hext⟩)
              refine ⟨⟨batches', parts', hst, hinv.folded, hinv.consecutive, hinv.sized, ?_⟩,
                fun hf hd => ?_⟩
              · rintro db' ⟨⟩
                exact hatt'
              · have hres := hok hf
                rw [hd, hres]
                rfl

end Inv

theorem captured_step [Payload D] (st : State D S B) (op : Op) :
    ∃ more, (step env name st op).captured = st.captured ++ more := by
  cases op with
  | «open» => exact ⟨[], by simp [step]⟩
  | sync coalesce wal stamps =>
      cases hdb : st.db with
      | none => exact ⟨[], by simp [step, hdb]⟩
      | some db =>
          simp only [step, hdb]
          exact ⟨_, rfl⟩
  | checkpoint opts wal stamps nowMs ulid fault =>
      cases hdb : st.db with
      | none => exact ⟨[], by simp [step, hdb]⟩
      | some db =>
          simp only [step, hdb]
          exact ⟨_, rfl⟩

theorem grows_step [Payload D] {st : State D S B} {op : Op}
    (hg : Grows 0 (step env name st op).captured) : Grows 0 st.captured := by
  obtain ⟨more, hmore⟩ := captured_step st op
  rw [hmore, Grows.append] at hg
  exact hg.1

namespace Reached

variable [Payload D] {st : State D S B}

theorem foldl {P : State D S B → Op → Prop} (h : Reached env name P st) {ops : List Op}
    (hops : Meets env name P st ops) :
    Reached env name P (ops.foldl (Sqlite.step env name) st) := by
  induction ops generalizing st with
  | nil => exact h
  | cons op ops ih => exact ih (h.step op hops.1) hops.2

theorem run {P : State D S B → Op → Prop} {ops : List Op} (h : Meets env name P {} ops) :
    Reached env name P (run env name ops) := Reached.start.foldl h

/-- A run whose checkpoints are clean keeps the invariant. -/
theorem inv_of_clean (h : Reached env name (fun st op => op.Clean st) st)
    (henv : env.Lawful name) (hg : Grows 0 st.captured) :
    ∃ batches parts, Inv env name False st batches parts := by
  induction h with
  | start => exact ⟨[], [], .start⟩
  | step op _ hop ih =>
      obtain ⟨batches, parts, hinv⟩ := ih (grows_step hg)
      exact (hinv.step henv op hg hop fun hf => hf.elim).1

/-- A run without faults keeps the invariant, and no handle loses its pending
fold. -/
theorem inv_of_faultless {P : State D S B → Op → Prop} {tight : Prop} (h : Reached env name P st)
    (henv : env.Lawful name) (hP : ∀ st op, P st op → op.Faultless)
    (hkeeps : ∀ st op, P st op → tight → op.Keeps env name st) (hg : Grows 0 st.captured) :
    (∃ batches parts, Inv env name tight st batches parts) ∧ st.dropped = false := by
  induction h with
  | start => exact ⟨⟨[], [], .start⟩, rfl⟩
  | @step st op _ hop ih =>
      obtain ⟨⟨batches, parts, hinv⟩, hd⟩ := ih (grows_step hg)
      have hclean : op.Clean st := by
        cases op with
        | checkpoint opts wal stamps nowMs ulid fault =>
            intro db hdb hdropped
            rw [hd] at hdropped
            cases hdropped
        | «open» => trivial
        | sync => trivial
      obtain ⟨hnext, hd'⟩ := hinv.step henv op hg hclean (hkeeps st op hop)
      exact ⟨hnext, hd' (hP st op hop) hd⟩

end Reached

end

/-! ## Concrete runs -/

/-- Codecs that keep the value, ULIDs of distinct lengths, and paths as they are. -/
def plain : Outside (List Delta) Manifest Ltx where
  deltas := ⟨.ok, .ok⟩
  json _ := .error ioError
  ltx := ⟨.ok, .ok⟩
  manifest := ⟨.ok, .ok⟩
  ulid i := String.ofList (List.replicate i 'u')
  path := id

instance : Payload (List Delta) := ⟨fun deltas => 8 + (deltas.map serializedSize).sum⟩

theorem plain_lawful (name : String) : plain.Lawful name where
  deltas a := ⟨a, rfl, rfl⟩
  ltx a := ⟨a, rfl, rfl⟩
  manifest a := ⟨a, rfl, rfl⟩
  fresh i j h := by
    have hlen := congrArg String.length h
    simpa [Outside.segmentPath, plain, toString] using hlen
  stable _ := rfl

/-- A 32-bit field with a small value. -/
def field (n : UInt8) : Bytes := [0, 0, 0, n]

/-- A WAL of pages of two bytes: page number, size field and data of each frame. -/
def walOf (frames : List (UInt8 × UInt8 × UInt8)) : Option Bytes :=
  some ([0x37, 0x7f, 0x06, 0x82] ++ field 0 ++ field 2 ++ field 0 ++ field 7 ++ field 9 ++
    field 0 ++ field 0 ++
    frames.flatMap fun f => field f.1 ++ field f.2.1 ++ field 7 ++ field 9 ++ field 0 ++ field 0 ++
      [f.2.2, f.2.2])

/-- The stamps of the concrete runs. -/
def stamps : Nat → Nat → Stamp := fun _ _ => { ulid := "e", nowMs := 5 }

section

variable {D S B : Type} {env : Outside D S B} {name : String}

/-! ## Restores -/

/-- Two images agree in what a reader sees of them. -/
def DbImage.Agrees (a b : DbImage) : Prop :=
  a.txid = b.txid ∧ a.pageSize = b.pageSize ∧ a.dbSize = b.dbSize ∧ a.toBytes = b.toBytes

theorem DbImage.agrees_of_view {a b : DbImage} (h : a.view = b.view) : a.Agrees b :=
  ⟨txid_eq h, pageSize_eq h, dbSize_eq h, toBytes_congr h⟩

/-- A restore shows the captured transactions and the handle. -/
theorem Inv.restore_eq {tight : Prop} {st : State D S B} {batches parts : List (List Delta)}
    (h : Inv env name tight st batches parts) (henv : env.Lawful name)
    (hg : Grows 0 st.captured) :
    ∃ image tail, restore env st.remote name = .ok (image, tail) ∧
      image.view = (DbImage.applied {} st.captured).view ∧
      ∀ db, st.db = some db → image.view = db.image.view := by
  obtain ⟨image, hrestore, hview⟩ := h.stored.restoreImpl_eq henv (h.grows hg)
  refine ⟨image, tailVersion st.remote.store name, by rw [restore, hrestore], ?_, fun db hdb => ?_⟩
  · rw [hview, h.folded.applied_eq]
  · rw [hview, (h.attached db hdb).image]

/-- After every run without failing calls, a restore returns the image of all
captured transactions, which is also that of the handle. -/
theorem restore_shows_captured [Payload D] (env : Outside D S B) (name : String)
    (henv : env.Lawful name) {st : State D S B}
    (h : Reached env name (fun _ op => op.Faultless) st) (hg : Grows 0 st.captured) {size : Nat}
    (hone : ∀ d ∈ st.captured, d.pageSize = size) :
    ∃ image tail, restore env st.remote name = .ok (image, tail) ∧
      image.Agrees (DbImage.applied {} st.captured) ∧ image.toBytes.isSome = true ∧
      ∀ db, st.db = some db → image.Agrees db.image := by
  obtain ⟨⟨batches, parts, hinv⟩, -⟩ := h.inv_of_faultless henv (fun _ _ hop => hop)
    (fun _ _ _ (hf : False) => hf.elim) hg
  obtain ⟨image, tail, hrestore, hview, hdb⟩ := hinv.restore_eq henv hg
  refine ⟨image, tail, hrestore, DbImage.agrees_of_view hview, ?_, fun db hst => ?_⟩
  · rw [DbImage.toBytes_congr hview]
    exact toBytes_applied_isSome hinv.sized hone
  · exact DbImage.agrees_of_view (hdb db hst)

/-- Two transactions are sealed and purged, the database is reopened, and two more
are folded into one that shrinks it. -/
def reopened : State (List Delta) Manifest Ltx :=
  run plain "d" [.open, .sync false (walOf [(1, 1, 10), (2, 2, 20)]) stamps,
    .checkpoint { coalesceAt := 0, purge := true } (walOf [(1, 1, 10), (2, 2, 20)]) stamps 5 "c"
      none,
    .open, .sync true (walOf [(1, 2, 11), (1, 1, 12)]) stamps]

theorem restore_shows_captured_reopened :
    ∃ image tail, restore plain reopened.remote "d" = .ok (image, tail) ∧
      image.Agrees (DbImage.applied {} reopened.captured) ∧ image.toBytes.isSome = true ∧
      ∀ db, reopened.db = some db → image.Agrees db.image := by
  have hone : ∀ d ∈ reopened.captured, d.pageSize = 2 := by decide +kernel
  exact restore_shows_captured plain "d" (plain_lawful "d")
    (.run ⟨trivial, trivial, rfl, trivial, trivial, trivial⟩) (by decide +kernel) hone

/-- With calls that may fail: in every run whose checkpoints are clean, a restore
returns the image of the handle. -/
theorem restore_shows_image [Payload D] (env : Outside D S B) (name : String)
    (henv : env.Lawful name) {st : State D S B}
    (h : Reached env name (fun st op => op.Clean st) st) (hg : Grows 0 st.captured) {db : Db}
    (hdb : st.db = some db) :
    ∃ image tail, restore env st.remote name = .ok (image, tail) ∧
      image.txid = db.image.txid ∧ image.toBytes = db.image.toBytes := by
  obtain ⟨batches, parts, hinv⟩ := h.inv_of_clean henv hg
  obtain ⟨image, tail, hrestore, -, hview⟩ := hinv.restore_eq henv hg
  exact ⟨image, tail, hrestore, DbImage.txid_eq (hview db hdb), DbImage.toBytes_congr (hview db hdb)⟩

/-- The upload of a checkpoint fails, and the database is reopened before the next
one. -/
def retried : State (List Delta) Manifest Ltx :=
  run plain "d" [.open, .sync false (walOf [(1, 1, 10)]) stamps,
    .checkpoint {} (walOf [(1, 1, 10)]) stamps 5 "c" (some (.putSegment true)),
    .open, .checkpoint {} (walOf [(2, 2, 20)]) stamps 5 "c" none]

theorem restore_shows_image_retried :
    ∃ db, retried.db = some db ∧ ∃ image tail, restore plain retried.remote "d" = .ok (image, tail) ∧
      image.txid = db.image.txid ∧ image.toBytes = db.image.toBytes := by
  obtain ⟨db, hdb⟩ := Option.isSome_iff_exists.mp (show retried.db.isSome = true by decide +kernel)
  refine ⟨db, hdb, restore_shows_image plain "d" (plain_lawful "d") (.run ?_) (by decide +kernel) hdb⟩
  refine ⟨trivial, trivial, fun _ _ hd => ?_, trivial, fun _ _ hd => ?_, trivial⟩
  · exact absurd hd (by decide +kernel)
  · exact absurd hd (by decide +kernel)

/-- The upload of a checkpoint fails.  The next checkpoint of the handle seals only
what was captured since, and a restore lacks the first page. -/
theorem restore_loses_dropped_pages :
    let ops : List Op := [.open, .sync false (walOf [(1, 1, 10)]) stamps,
      .checkpoint {} (walOf [(1, 1, 10)]) stamps 5 "c" (some (.putSegment false)),
      .sync false (walOf [(1, 1, 10), (2, 2, 20)]) stamps]
    let st := run plain "d" ops
    let st' := step plain "d" st
      (.checkpoint {} (walOf [(1, 1, 10), (2, 2, 20)]) stamps 5 "c" none)
    Grows 0 st'.captured ∧
      (st.db.map fun db => (checkpointWith plain {} (walOf [(1, 1, 10), (2, 2, 20)]) stamps 5 "c" none
        db st.remote).1.isOk) = some true ∧
      ((restore plain st'.remote "d").toOption.map (·.1.toBytes)) = some (some [0, 0, 20, 20]) ∧
      (st'.db.map (·.image.toBytes)) = some (some [10, 10, 20, 20]) := by
  decide +kernel

end

end Landslide.Sqlite
