import Landslide.Sqlite.Runs
import Landslide.Sqlite.WalFile

/-!
# Capturing transactions

A session of an open database: SQLite writes the WAL file, and syncs and checkpoints
run in between.  The handle owns the connection, so nothing is written during a sync
or a checkpoint.  SQLite is not part of the repository.  What it may do to the file
is stated by the steps of a session: within a generation it commits and spills behind
the last commit frame, and a new generation, with other salts, starts in the file
that a checkpoint has truncated.

A sync can fail without committing, because the store refuses its append or because
the append never gets there (`refused`).  Whatever the session does, the
transactions appended are the committed ones in order, each once, up to some point,
and a sync that succeeds brings them up to date (`appends_committed`).
-/

namespace Landslide.Sqlite

open TxnKv

section

variable {D S B : Type} (env : Outside D S B) (name : String)

/-! ## What a sync appends -/

/-- The transactions of the event at a version. -/
def loggedAt (σ : Landslide.Db D S) (v : Nat) : List Delta :=
  (σ.get (.record name v)).elim [] fun e => (deltaEvents env (.fromParts e)).toOption.getD []

/-- The transactions of the events that a stream gained. -/
def gained (σ σ' : Landslide.Db D S) : List Delta :=
  (List.range' (nextVersion σ name) (nextVersion σ' name - nextVersion σ name)).flatMap
    (loggedAt env name σ')

/-- The handle after a sync whose append failed without committing. -/
def refused (wal : Option Bytes) (db : Db) : Db :=
  match scan db.cursor db.image.txid wal with
  | none => db
  | some s =>
      if s.deltas = [] then { db with cursor := { s.cursor with frame := s.nextFrame } }
      else { db with cursor := s.cursor }

/-! ## Sessions -/

/-- The WAL file: with no whole header yet, or with a generation. -/
inductive WalFile where
  | blank (file : Option Bytes) (short : ∀ b ∈ file, b.length < headerLen)
  | live (g : Generation)

namespace WalFile

def bytes : WalFile → Option Bytes
  | blank file _ => file
  | live g => some g.file

/-- The file after a truncation. -/
def empty : WalFile := .blank (some []) fun b hb => by cases hb; decide

end WalFile

/-- An open database and its WAL file.  The last three fields are recorded for the
steps and the statements only. -/
structure Session (D S B : Type) where
  remote : Remote D S B
  db : Db
  wal : WalFile
  /-- The salts of the last generation. -/
  salts : Option (Nat × Nat) := none
  /-- The transactions committed since the database was opened. -/
  committed : List Tx := []
  /-- The transactions appended by syncs. -/
  appended : List Delta := []

namespace Session

variable [Payload D]

/-- A sync, and what it appends. -/
def sync (stamps : Nat → Nat → Stamp) (st : Session D S B) : Session D S B :=
  let out := syncInner env false st.wal.bytes stamps st.db st.remote
  { st with
    remote := out.2.2
    db := out.2.1
    appended := st.appended ++ gained env name st.remote.store out.2.2.store }

/-- A checkpoint.  Where it comes to its end it truncates the WAL, unless SQLite
finds the file busy. -/
def checkpoint (opts : CheckpointOpts) (stamps : Nat → Nat → Stamp) (nowMs : Int) (ulid : String)
    (fault : Option Fault) (busy : Bool) (st : Session D S B) : Session D S B :=
  let out := checkpointWith env opts st.wal.bytes stamps nowMs ulid fault st.db st.remote
  { st.sync env name stamps with
    remote := out.2.2
    db := out.2.1
    wal := match out.1 with
      | .ok (some _) => if busy then st.wal else .empty
      | _ => st.wal }

/-- One step: of SQLite on the file, or of the handle. -/
inductive Step : Session D S B → Session D S B → Prop where
  | touch {st : Session D S B} {file file' : Option Bytes} {short : _} (short' : _) :
      st.wal = .blank file short → Step st { st with wal := .blank file' short' }
  /-- A new generation starts, with other salts than the last. -/
  | generation {st : Session D S B} {file : Option Bytes} {short : _} (g : Generation) :
      st.wal = .blank file short → g.txs = [] → st.salts ≠ some g.salts →
      Step st { st with wal := .live g, salts := some g.salts }
  /-- Frames without a commit frame, and a torn frame, are written or overwritten. -/
  | spill {st : Session D S B} {g : Generation} (g' : Generation) :
      st.wal = .live g → g'.head = g.head → g'.txs = g.txs → Step st { st with wal := .live g' }
  /-- A transaction is written behind the last commit frame. -/
  | commit {st : Session D S B} {g : Generation} (g' : Generation) (t : Tx) :
      st.wal = .live g → g'.head = g.head → g'.txs = g.txs ++ [t] →
      Step st { st with wal := .live g', committed := st.committed ++ [t] }
  | sync {st : Session D S B} (stamps : Nat → Nat → Stamp) : Step st (st.sync env name stamps)
  | refused {st : Session D S B} : Step st { st with db := Sqlite.refused st.wal.bytes st.db }
  | checkpoint {st : Session D S B} (opts : CheckpointOpts) (stamps : Nat → Nat → Stamp)
      (nowMs : Int) (ulid : String) (fault : Option Fault) (busy : Bool) :
      Step st (st.checkpoint env name opts stamps nowMs ulid fault busy)

/-- The states of a session whose database was opened at transaction `txid`. -/
inductive Reached : Nat → Session D S B → Prop where
  | opened {r r' : Remote D S B} {db : Db} : openDb env name r = (.ok db, r') →
      Reached db.image.txid { remote := r', db := db, wal := .blank none nofun }
  | step {txid : Nat} {st st' : Session D S B} : Reached txid st → Step env name st st' →
      Reached txid st'

end Session

end

section

variable {D S B : Type} {env : Outside D S B} {name : String}

/-! ## Syncs -/

/-- Records that carry the events of some chunks hold the transactions of them. -/
theorem flatMap_loggedAt {σ : Landslide.Db D S} {events : List (NewEvent D)}
    {cs : List (List Delta)} (h : List.Forall₂ (Stands (deltaEvents env)) events cs) :
    ∀ n, (∀ i e, events[i]? = some e → ∃ r : Envelope D,
        σ.get (.record name (n + i)) = some r ∧ r.Carries e) →
      (List.range' n events.length).flatMap (loggedAt env name σ) = cs.flatten := by
  induction h with
  | nil => exact fun _ _ => rfl
  | @cons e c events cs hstands _ ih =>
      intro n hrecords
      obtain ⟨r, hr, hty, hdata, -⟩ := hrecords 0 e rfl
      have hat : loggedAt env name σ n = c := by
        rw [loggedAt, show σ.get (.record name n) = some r from hr]
        show (deltaEvents env (.fromParts r)).toOption.getD [] = c
        rw [hstands (.fromParts r) hty hdata]
        rfl
      have hrest := ih (n + 1) fun i e' he => by
        rw [Nat.add_assoc, Nat.add_comm 1 i]
        exact hrecords (i + 1) e' he
      rw [List.length_cons, List.range'_succ, List.flatMap_cons, hat, hrest, List.flatten_cons]

theorem gained_self (σ : Landslide.Db D S) : gained env name σ σ = [] := by
  rw [gained, Nat.sub_self]
  rfl

/-- A stream gains what its events stand for. -/
theorem gained_append {σ σ₁ : Landslide.Db D S} {req : AppendReq D} {info : CommitInfo}
    {cs : List (List Delta)} (happ : Appended req (seqOf σ) σ info σ₁) (hs : req.stream = name)
    (hfrom : req.fromVersion = none)
    (hevents : List.Forall₂ (Stands (deltaEvents env)) req.events cs) :
    gained env name σ (σ₁.put .seq (seqOf σ + req.events.length)) = cs.flatten := by
  subst hs
  obtain ⟨hfirst, htail⟩ := happ.nextVersion_eq hfrom
  have hnext : nextVersion (σ₁.put .seq (seqOf σ + req.events.length)) req.stream =
      nextVersion σ req.stream + req.events.length := by
    rw [nextVersion, tailVersion_congr (Store.get_put_of_ne _ _ (by simp)), htail, ← hfirst]
    exact happ.last
  rw [gained, hnext, Nat.add_sub_cancel_left]
  refine flatMap_loggedAt hevents _ fun i e he => ?_
  obtain ⟨r, hr, hcarries, -⟩ := happ.records i e he
  refine ⟨r, ?_, hcarries⟩
  rw [Store.get_put_of_ne _ _ (by simp), ← hfirst]
  exact hr

/-- A sync that fails leaves the store, with the handle as after a refused append.
One that succeeds appends what the scan found. -/
theorem syncInner_found [Payload D] (henv : env.Lawful name) (wal : Option Bytes)
    (stamps : Nat → Nat → Stamp) {db : Db} (hname : db.name = name) (r : Remote D S B) :
    let out := syncInner env false wal stamps db r
    (∃ e, out = (.error e, refused wal db, r)) ∨
      (found db.cursor db.image.txid wal = [] ∧ out = (.ok 0, refused wal db, r)) ∨
      ∃ s last store, scan db.cursor db.image.txid wal = some s ∧ s.deltas ≠ [] ∧
        out = (.ok s.deltas.length, { db with cursor := s.cursor }.advance s.deltas last s.nextFrame,
          { r with store := store }) ∧
        gained env name r.store store = s.deltas := by
  subst hname
  dsimp only
  cases hscan : scan db.cursor db.image.txid wal with
  | none =>
      refine .inr (.inl ⟨by rw [found, hscan]; rfl, ?_⟩)
      simp only [syncInner, refused, hscan]
  | some s =>
      by_cases hnil : s.deltas = []
      · refine .inr (.inl ⟨by rw [found, hscan]; exact hnil, ?_⟩)
        simp only [syncInner, refused, hscan, if_pos hnil]
      obtain ⟨events, hevents, hall⟩ := packChunks_eq henv (chunks [] 0 s.deltas)
      have hflat : (chunks [] 0 s.deltas).flatten = s.deltas := chunks_flatten _ _ _
      rcases commitAppends_exec_cases
          { stream := db.name, expected := expected db.tail, fenceToken := some db.token,
            events := events } false stamps r.store with ⟨e, he⟩ | ⟨info, σ₁, happ, he⟩
      · have hexec : (Call.appendWithToken db.name db.token (expected db.tail) events false
            stamps : Call D S).exec r.store = (.error e, r.store) := he
        refine .inl ⟨e, ?_⟩
        simp only [syncInner, refused, hscan, if_neg hnil, batch, encodeDeltas,
          Bool.false_eq_true, false_and, if_false, hevents, hexec]
      · have hexec : (Call.appendWithToken db.name db.token (expected db.tail) events false
            stamps : Call D S).exec r.store =
              (.ok (.infos [info]), σ₁.put .seq (seqOf r.store + events.length)) := he
        refine .inr (.inr ⟨s, info.lastVersion, _, rfl, hnil, ?_,
          (gained_append happ rfl rfl hall).trans hflat⟩)
        simp only [syncInner, hscan, if_neg hnil, batch, encodeDeltas,
          Bool.false_eq_true, false_and, if_false, hevents, hexec]

/-- A database is opened with a cursor at the start. -/
theorem openDb_ok [Payload D] {r r' : Remote D S B} {db : Db}
    (h : openDb env name r = (.ok db, r')) : db.name = name ∧ db.cursor = {} := by
  simp only [openDb] at h
  split at h
  · cases h
  · split at h
    · cases h
    · cases h
      exact ⟨rfl, rfl⟩

/-- Sealing leaves the handle but for its pending fold. -/
theorem sealPending_frame [Payload D] (env : Outside D S B) (opts : CheckpointOpts) (nowMs : Int)
    (ulid : String) (fault : Option Fault) (db : Db) (r : Remote D S B) :
    let db' := (sealPending env opts nowMs ulid fault db r).2.1
    db'.name = db.name ∧ db'.image = db.image ∧ db'.cursor = db.cursor := by
  dsimp only
  rw [sealPending]
  split
  · exact ⟨rfl, rfl, rfl⟩
  · split
    · exact ⟨rfl, rfl, rfl⟩
    · dsimp only
      split
      · exact ⟨rfl, rfl, rfl⟩
      · split
        · exact ⟨rfl, rfl, rfl⟩
        · split
          · exact ⟨rfl, rfl, rfl⟩
          · split <;> exact ⟨rfl, rfl, rfl⟩

/-! ## The invariant -/

namespace Generation

/-- A generation written on has the cursors it had. -/
theorem At.extend {g g' : Generation} {cursor : WalCursor} {j : Nat} (h : g.At cursor j)
    (hhead : g'.head = g.head) {txs : List Tx} (htxs : g'.txs = g.txs ++ txs)
    (hj : j ≤ g.txs.length) : g'.At cursor j := by
  have hheader : g'.header = g.header := by
    have heq := g'.header_eq
    rw [hhead, g.header_eq] at heq
    exact (Option.some.inj heq).symm
  have hposition : g'.position j = g.position j := by
    rw [position, position, htxs, List.take_append_of_le_length hj]
  rw [At, salts, hheader, hposition]
  exact h

/-- A cursor of the generation. -/
theorem at_position (g : Generation) (j : Nat) :
    g.At { salt1 := g.header.salt1, salt2 := g.header.salt2, frame := g.position j } j := by
  rw [At]
  exact (if_pos rfl).mpr rfl

theorem salts_extend {g g' : Generation} (hhead : g'.head = g.head) : g'.salts = g.salts := by
  have heq := g'.header_eq
  rw [hhead, g.header_eq] at heq
  rw [salts, salts, ← Option.some.inj heq]

end Generation

/-- A cursor is where the transactions `rest` of the file are still to be captured.
Between generations it is obsolete, or at the start. -/
def WalFile.Leaves (salts : Option (Nat × Nat)) (cursor : WalCursor) (rest : List Tx) :
    WalFile → Prop
  | .blank _ _ => rest = [] ∧ (cursor.frame = 0 ∨ salts = some (cursor.salt1, cursor.salt2))
  | .live g => salts = some g.salts ∧ ∃ j, j ≤ g.txs.length ∧ g.At cursor j ∧ rest = g.txs.drop j

namespace Session

/-- The transactions `done` are appended, and `rest` are still in the file. -/
structure Inv (name : String) (txid : Nat) (st : Session D S B)
    (done rest : List Tx) : Prop where
  committed : st.committed = done ++ rest
  appended : st.appended = numbered txid done
  name_eq : st.db.name = name
  image : st.db.image.txid = txid + done.length
  leaves : st.wal.Leaves st.salts st.db.cursor rest

namespace Inv

variable {txid : Nat} {st : Session D S B} {done rest : List Tx}

/-- A scan finds what the file still holds.  One that finds nothing, or whose append
is refused, leaves it, and a cursor past all of it outlives a truncation. -/
theorem scanned (h : Inv name txid st done rest) :
    found st.db.cursor st.db.image.txid st.wal.bytes = numbered (txid + done.length) rest ∧
      Inv name txid { st with db := refused st.wal.bytes st.db } done rest ∧
      (rest = [] → WalFile.empty.Leaves st.salts (refused st.wal.bytes st.db).cursor []) ∧
      ∀ s, scan st.db.cursor st.db.image.txid st.wal.bytes = some s →
        st.wal.Leaves st.salts { s.cursor with frame := s.nextFrame } [] ∧
          WalFile.empty.Leaves st.salts { s.cursor with frame := s.nextFrame } [] := by
  have hleaves := h.leaves
  cases hwal : st.wal with
  | blank file short =>
      rw [hwal] at hleaves
      have hscan : scan st.db.cursor st.db.image.txid file = none := by
        cases file with
        | none => rfl
        | some b => rw [scan, if_pos (short b rfl)]
      simp only [WalFile.bytes, found, refused, hscan]
      refine ⟨?_, ?_, fun _ => ⟨rfl, hleaves.2⟩, by simp⟩
      · rw [hleaves.1]
        rfl
      · rw [← hwal]
        exact h
  | live g =>
      rw [hwal] at hleaves
      obtain ⟨hsalts, j, hj, hat, rfl⟩ := hleaves
      have hscan := g.scan_eq hat (txid + done.length)
      have hfull : (WalFile.live g).Leaves st.salts
          { salt1 := g.header.salt1, salt2 := g.header.salt2,
            frame := g.position g.txs.length } [] :=
        ⟨hsalts, g.txs.length, le_rfl, g.at_position _, by rw [List.drop_length]⟩
      have hempty : ∀ n, WalFile.empty.Leaves st.salts
          { salt1 := g.header.salt1, salt2 := g.header.salt2, frame := n } [] :=
        fun n => ⟨rfl, .inr hsalts⟩
      simp only [WalFile.bytes, found, refused, h.image, hscan]
      refine ⟨rfl, ?_, fun _ => ?_, ?_⟩
      · split
        · next hnil =>
          have hrest := numbered_eq_nil.mp hnil
          refine ⟨h.committed, h.appended, h.name_eq, h.image, ?_⟩
          rw [hrest]
          exact hfull
        · exact ⟨h.committed, h.appended, h.name_eq, h.image, hsalts, j, hj, g.at_position j, rfl⟩
      · split
        · exact hempty _
        · exact hempty _
      · rintro s ⟨⟩
        exact ⟨hfull, hempty _⟩

/-- A sync that succeeds appends what the file still held, and one that fails
nothing.  Once it has succeeded the file may be truncated. -/
theorem sync [Payload D] (h : Inv name txid st done rest) (henv : env.Lawful name)
    (stamps : Nat → Nat → Stamp) :
    let out := syncInner env false st.wal.bytes stamps st.db st.remote
    (out.1.isOk = true → Inv name txid (st.sync env name stamps) (done ++ rest) [] ∧
      Inv name txid { st.sync env name stamps with wal := .empty } (done ++ rest) []) ∧
      (out.1.isOk = false → Inv name txid (st.sync env name stamps) done rest) := by
  obtain ⟨hfound, hrefused, hempty, hfull⟩ := h.scanned
  dsimp only
  rcases syncInner_found henv st.wal.bytes stamps h.name_eq st.remote with
    ⟨e, hout⟩ | ⟨hnil, hout⟩ | ⟨s, last, store, hscan, hne, hout, hgained⟩
  · rw [Session.sync, hout]
    simp only [gained_self, List.append_nil]
    exact ⟨fun hok => (by cases hok), fun _ => ⟨hrefused.committed, hrefused.appended,
      hrefused.name_eq, hrefused.image, hrefused.leaves⟩⟩
  · rw [hfound, numbered_eq_nil] at hnil
    subst hnil
    rw [Session.sync, hout]
    simp only [gained_self, List.append_nil]
    refine ⟨fun _ => ⟨?_, ?_⟩, fun hfail => by cases hfail⟩
    · exact ⟨hrefused.committed, hrefused.appended, hrefused.name_eq, hrefused.image,
        hrefused.leaves⟩
    · exact ⟨hrefused.committed, hrefused.appended, hrefused.name_eq, hrefused.image, hempty rfl⟩
  · rw [found, hscan] at hfound
    have hdeltas : s.deltas = numbered (txid + done.length) rest := hfound
    have hcommitted : st.committed = (done ++ rest) ++ [] := by
      rw [List.append_nil]
      exact h.committed
    have happended : st.appended ++ gained env name st.remote.store store =
        numbered txid (done ++ rest) := by
      rw [hgained, hdeltas, h.appended, numbered_append]
    have himage : (st.db.image.applied s.deltas).txid = txid + (done ++ rest).length := by
      rw [DbImage.txid_applied, hdeltas, h.image, lastTxid_numbered, List.length_append]
      omega
    rw [Session.sync, hout]
    obtain ⟨hlive, hblank⟩ := hfull s hscan
    exact ⟨fun _ => ⟨⟨hcommitted, happended, h.name_eq, himage, hlive⟩,
      hcommitted, happended, h.name_eq, himage, hblank⟩, fun hfail => by cases hfail⟩

/-- A checkpoint appends what its sync does, and it truncates the file only after
one that succeeded. -/
theorem checkpoint [Payload D] (h : Inv name txid st done rest) (henv : env.Lawful name)
    (opts : CheckpointOpts) (stamps : Nat → Nat → Stamp) (nowMs : Int) (ulid : String)
    (fault : Option Fault) (busy : Bool) :
    ∃ done' rest', Inv name txid
      (st.checkpoint env name opts stamps nowMs ulid fault busy) done' rest' := by
  obtain ⟨hok, herror⟩ := h.sync henv stamps
  cases hsync : syncInner env false st.wal.bytes stamps st.db st.remote with
  | mk res rest' =>
  obtain ⟨db₁, r₁⟩ := rest'
  have hsynced : st.sync env name stamps =
      { st with
        remote := r₁, db := db₁,
        appended := st.appended ++ gained env name st.remote.store r₁.store } := by
    rw [Session.sync, hsync]
  rw [hsync, hsynced] at hok herror
  cases res with
  | error e =>
      have hinv := herror rfl
      refine ⟨done, rest, ?_⟩
      simp only [Session.checkpoint, checkpointWith, hsynced, hsync]
      exact hinv
  | ok n =>
      obtain ⟨hinv, htrunc⟩ := hok rfl
      obtain ⟨hname, himage, hcursor⟩ := sealPending_frame env opts nowMs ulid fault db₁ r₁
      refine ⟨done ++ rest, [], ?_⟩
      simp only [Session.checkpoint, checkpointWith, hsynced, hsync]
      refine ⟨hinv.committed, hinv.appended, hname.trans hinv.name_eq, ?_, ?_⟩
      · rw [himage]
        exact hinv.image
      · dsimp only
        rw [hcursor]
        split
        · split
          · exact hinv.leaves
          · exact htrunc.leaves
        · exact hinv.leaves

/-- Every step keeps the invariant. -/
theorem step [Payload D] (h : Inv name txid st done rest) (henv : env.Lawful name)
    {st' : Session D S B} (hstep : Step env name st st') :
    ∃ done' rest', Inv name txid st' done' rest' := by
  have hleaves := h.leaves
  cases hstep with
  | @touch file file' short short' hwal =>
      rw [hwal] at hleaves
      exact ⟨done, rest, h.committed, h.appended, h.name_eq, h.image, hleaves⟩
  | @generation file short g hwal hnil hne =>
      rw [hwal] at hleaves
      obtain ⟨rfl, hcursor⟩ := hleaves
      refine ⟨done, [], h.committed, h.appended, h.name_eq, h.image, rfl, 0, Nat.zero_le _, ?_, ?_⟩
      · rw [Generation.At]
        split
        · next heq =>
          rcases hcursor with hzero | hlast
          · exact hzero
          · -- the cursor of the generation before has other salts
            rw [heq] at hlast
            exact absurd hlast hne
        · rfl
      · rw [hnil]
        rfl
  | @spill g g' hwal hhead htxs =>
      rw [hwal] at hleaves
      obtain ⟨hsalts, j, hj, hat, rfl⟩ := hleaves
      refine ⟨done, _, h.committed, h.appended, h.name_eq, h.image, ?_, j, ?_, ?_, ?_⟩
      · rw [Generation.salts_extend hhead]
        exact hsalts
      · rw [htxs]
        exact hj
      · exact hat.extend hhead (htxs.trans (List.append_nil _).symm) hj
      · rw [htxs]
  | @commit g g' t hwal hhead htxs =>
      rw [hwal] at hleaves
      obtain ⟨hsalts, j, hj, hat, rfl⟩ := hleaves
      refine ⟨done, g.txs.drop j ++ [t], ?_, h.appended, h.name_eq, h.image, ?_, j, ?_, ?_, ?_⟩
      · show st.committed ++ [t] = done ++ (g.txs.drop j ++ [t])
        rw [h.committed, List.append_assoc]
      · rw [Generation.salts_extend hhead]
        exact hsalts
      · rw [htxs, List.length_append]
        omega
      · exact hat.extend hhead htxs hj
      · rw [htxs, List.drop_append_of_le_length hj]
  | sync stamps =>
      obtain ⟨hok, herror⟩ := h.sync henv stamps
      cases hres : (syncInner env false st.wal.bytes stamps st.db st.remote).1.isOk with
      | true => exact ⟨_, _, (hok hres).1⟩
      | false => exact ⟨_, _, herror hres⟩
  | refused => exact ⟨done, rest, h.scanned.2.1⟩
  | checkpoint opts stamps nowMs ulid fault busy =>
      exact h.checkpoint henv opts stamps nowMs ulid fault busy

end Inv

variable [Payload D] {txid : Nat} {st : Session D S B}

theorem Reached.inv (h : Reached env name txid st) (henv : env.Lawful name) :
    ∃ done rest, Inv name txid st done rest := by
  induction h with
  | @opened r r' db hopen =>
      obtain ⟨hname, hcursor⟩ := openDb_ok hopen
      refine ⟨[], [], rfl, rfl, hname, rfl, rfl, .inl ?_⟩
      show db.cursor.frame = 0
      rw [hcursor]
  | step _ hstep ih =>
      obtain ⟨done, rest, hinv⟩ := ih
      exact hinv.step henv hstep

end Session

/-! ## Committed transactions -/

/-- In every state of a session the transactions appended are the committed ones in
order, numbered on from the database that was opened, up to some point.  A sync that
succeeds appends all the others. -/
theorem appends_committed [Payload D] (env : Outside D S B) (name : String)
    (henv : env.Lawful name) {txid : Nat} {st : Session D S B}
    (h : Session.Reached env name txid st) :
    st.appended <+: numbered txid st.committed ∧
      ∀ stamps, (syncInner env false st.wal.bytes stamps st.db st.remote).1.isOk = true →
        (st.sync env name stamps).appended = numbered txid st.committed := by
  obtain ⟨done, rest, hinv⟩ := h.inv henv
  refine ⟨?_, fun stamps hok => ?_⟩
  · rw [hinv.committed, hinv.appended, numbered_append]
    exact List.prefix_append ..
  · rw [((hinv.sync henv stamps).1 hok).1.appended, hinv.committed]

end

/-- A frame of a page of two bytes, in the generation with salts `salt` and 9. -/
def frameOf (salt pgno dbSize data : UInt8) : WalFrame where
  head := field pgno ++ field dbSize ++ field salt ++ field 9 ++ field 0 ++ field 0
  data := [data, data]

/-- The header of the generation with salts `salt` and 9. -/
def headOf (salt : UInt8) : Bytes :=
  [0x37, 0x7f, 0x06, 0x82] ++ field 0 ++ field 2 ++ field 0 ++ field salt ++ field 9 ++ field 0 ++
    field 0

/-- The generation with salts `salt` and 9, with a torn frame at its end. -/
def generationOf (salt : UInt8) (txs : List Tx) (left : List WalFrame)
    (htxs : ∀ t ∈ txs, t.Of ⟨2, salt.toNat, 9⟩)
    (hleft : ∀ f ∈ left, f.Of ⟨2, salt.toNat, 9⟩ ∧ f.dbSize = 0) : Generation where
  head := headOf salt
  header := ⟨2, salt.toNat, 9⟩
  txs := txs
  left := left
  torn := [1, 2, 3]
  length_head := rfl
  header_eq := by simp [header, headOf, field, headerLen, be32, magic]
  txs_of := htxs
  left_of := hleft
  length_torn := by show 3 < 24 + 2; decide

/-- A database that was never written, opened. -/
def fresh : Session (List Delta) Manifest Ltx where
  remote := (openDb plain "d" {}).2
  db := { name := "d", token := plain.ulid 0, image := {}, tail := none, cursor := {}, pending := {} }
  wal := .blank none nofun

/-- A file without a byte holds no generation. -/
theorem WalFile.eq_blank {wal : WalFile} (h : wal.bytes = some []) :
    ∃ file short, wal = .blank file short := by
  cases wal with
  | blank file short => exact ⟨file, short, rfl⟩
  | live g =>
      have hlen := congrArg (·.elim 0 List.length) h
      simp [bytes, Generation.file, g.length_head, headerLen] at hlen

/-- A transaction of two frames is synced.  The next one overwrites the frame that an
aborted one left, its sync is refused, and a checkpoint captures it and truncates the
file.  A third one is committed in the next generation. -/
theorem appends_committed_truncated :
    let t₁ : Tx := ⟨[frameOf 7 1 0 10], frameOf 7 2 2 20⟩
    let t₂ : Tx := ⟨[], frameOf 7 1 2 11⟩
    let t₃ : Tx := ⟨[], frameOf 8 2 2 21⟩
    ∃ st : Session (List Delta) Manifest Ltx, st.committed = [t₁, t₂, t₃] ∧
      st.appended <+: numbered 0 [t₁, t₂, t₃] ∧
      ∀ stamps, (syncInner plain false st.wal.bytes stamps st.db st.remote).1.isOk = true →
        (st.sync plain "d" stamps).appended = numbered 0 [t₁, t₂, t₃] := by
  intro t₁ t₂ t₃
  let g₀ := generationOf 7 [] [] (by decide) (by decide)
  let g₁ := generationOf 7 [t₁] [] (by decide) (by decide)
  let g₂ := generationOf 7 [t₁] [frameOf 7 2 0 99] (by decide) (by decide)
  let g₃ := generationOf 7 [t₁, t₂] [] (by decide) (by decide)
  have h₀ : Session.Reached plain "d" 0 fresh :=
    .opened (show openDb plain "d" {} = (.ok fresh.db, fresh.remote) from rfl)
  have h₁ := (h₀.step (.generation g₀ rfl rfl (by simp [fresh]))).step (.commit g₁ t₁ rfl rfl rfl)
  have h₂ := (h₁.step (.sync stamps)).step (.spill g₂ rfl rfl rfl)
  have h₃ := (h₂.step (.commit g₃ t₂ rfl rfl rfl)).step .refused
  have h₄ := h₃.step (.checkpoint {} stamps 5 "c" none false)
  generalize hst : Session.checkpoint plain "d" {} stamps 5 "c" none false _ = st at h₄
  have hcommitted : st.committed = [t₁, t₂] := by rw [← hst]; rfl
  have hsalts : st.salts = some (7, 9) := by rw [← hst]; rfl
  have hbytes : st.wal.bytes = some [] := by rw [← hst]; decide +kernel
  obtain ⟨file, short, hwal⟩ := WalFile.eq_blank hbytes
  have hall : st.committed ++ [t₃] = [t₁, t₂, t₃] := by rw [hcommitted]; rfl
  have h₅ := h₄.step (.generation (generationOf 8 [] [] (by decide) (by decide)) hwal rfl
    (by rw [hsalts]; decide))
  obtain ⟨st', hst', h₆⟩ : ∃ st' : Session (List Delta) Manifest Ltx,
      st'.committed = [t₁, t₂, t₃] ∧ Session.Reached plain "d" 0 st' :=
    ⟨_, hall, h₅.step
      (.commit (generationOf 8 [t₃] [] (by decide) (by decide)) t₃ rfl rfl rfl)⟩
  refine ⟨st', hst', ?_⟩
  rw [← hst']
  exact appends_committed plain "d" (plain_lawful "d") h₆

end Landslide.Sqlite
