import Landslide.Fuse.Handles

/-!
# The tail a mount finds

A mount takes the tail of its stream from the last event that it replays, past the
latest snapshot.  Where the snapshot covers the whole stream, or a purge took its last
event, there is none or an older one, and the next commit expects the wrong version
(`remount_after_checkpoint_conflicts`).

In every state that handles and purges reach, a mount finds the tail exactly if the
stream has no events, or its last one is stored and past the snapshot (`TailShown`),
and then the next commit of the handle finds the version it expects
(`mount_tail_iff`).
-/

namespace Landslide.Fuse

open Std TxnKv

/-! ## Runs with purges -/

/-- An operation of a handle, or a purge of the stream. -/
inductive Act where
  | of (i : Nat) (op : Op)
  | purge (floor : Nat)

section

variable {D S B : Type} [Payload D] (env : Outside D S B) (vol : String)

def stepAct (st : Shared D S B) : Act → Shared D S B
  | .of i op => stepOf env vol st (i, op)
  | .purge floor =>
      let store := ((Call.purgeBelow vol floor : Call D S).exec st.remote.store).2
      { st with remote := { st.remote with store := store } }

/-- The state that some operations lead to. -/
def runActs (st : Shared D S B) (acts : List Act) : Shared D S B := acts.foldl (stepAct env vol) st

end

/-- Not a mount, and not a commit or a checkpoint of the handle `i`. -/
def Act.Quiet (i : Nat) : Act → Prop
  | .of _ (.mount _) => False
  | .of k (.commit ..) => k ≠ i
  | .of k (.checkpoint ..) => k ≠ i
  | _ => True

section

variable {D S B : Type} {env : Outside D S B} {vol : String}

/-! ## The stream of a volume -/

/-- What holds in every state: the stream has no marks, and the handles are handles of
it. -/
structure Tracked (env : Outside D S B) (vol : String) (st : Shared D S B) : Prop where
  linear : Linear st.remote.store vol
  drawn : Drawn env vol st

theorem Tracked.start (env : Outside D S B) (vol : String) : Tracked env vol {} where
  linear := .empty vol
  drawn := by simp [Drawn, Shared.handle]

theorem Tracked.step [Payload D] {st : Shared D S B} (h : Tracked env vol st) (act : Act) :
    Tracked env vol (stepAct env vol st act) := by
  cases act with
  | purge floor =>
      refine ⟨?_, h.drawn⟩
      simp only [stepAct, purgeBelow_exec]
      exact h.linear.purge _
  | of i op =>
      refine ⟨?_, h.drawn.step (i, op)⟩
      by_cases hop : ∀ clock, op ≠ .mount clock
      · rcases stepOf_touched env vol st i hop with hsame | ⟨v, hv, ht⟩
        · show Linear (stepOf env vol st (i, op)).remote.store vol
          rw [hsame]
          exact h.linear
        · obtain ⟨rfl, -⟩ := h.drawn i v hv
          exact ht.linear h.linear
      · simp only [not_forall, not_not] at hop
        obtain ⟨clock, rfl⟩ := hop
        show Linear (mount env vol clock st.remote).2.store vol
        rw [(mount_cases env vol clock st.remote).1]
        refine h.linear.congr fun k hk _ => get_fencedOff ?_
        rintro rfl
        exact hk

theorem Tracked.run [Payload D] (acts : List Act) : ∀ {st : Shared D S B}, Tracked env vol st →
    Tracked env vol (runActs env vol st acts) := by
  induction acts with
  | nil => exact fun h => h
  | cons act acts ih => exact fun h => ih (h.step act)

/-! ## The last handle -/

/-- The last mount made handle `i`, which has not committed since. -/
structure Fresh (vol : String) (st : Shared D S B) (i : Nat) (v : Volume) : Prop where
  mine : ∃ w, st.handle i = some w ∧ w.vol = vol ∧ w.token = v.token ∧ w.tail = v.tail
  others : ∀ k w, k ≠ i → st.handle k = some w → w.vol = vol ∧ w.token ≠ v.token
  fence : st.remote.store.get (.fence vol) = some v.token
  tail : tailVersion st.remote.store vol = v.tail

/-- A change of the handle's buffer. -/
theorem Fresh.buffer {st : Shared D S B} {i : Nat} {v w w' : Volume} (h : Fresh vol st i v)
    (hw : st.handle i = some w) (hvol : w'.vol = w.vol) (htoken : w'.token = w.token)
    (htail : w'.tail = w.tail) :
    Fresh vol (st.back i { st.one i with volume := some w' }) i v where
  mine := by
    obtain ⟨u, hu, huvol, hutoken, hutail⟩ := h.mine
    rw [hw] at hu
    cases hu
    refine ⟨w', ?_, hvol.trans huvol, htoken.trans hutoken, htail.trans hutail⟩
    rw [Shared.handle, Shared.back, List.getElem?_set_self (Shared.lt_of_handle hw)]
    rfl
  others := by
    intro k u hk hu
    rcases Shared.handle_back hu with ⟨rfl, -⟩ | ⟨-, hold⟩
    · exact absurd rfl hk
    · exact h.others k u hk hold
  fence := h.fence
  tail := h.tail

/-- An operation of another handle, which the fence keeps from appending. -/
theorem Fresh.other [Payload D] {st : Shared D S B} {i k : Nat} {v : Volume}
    (h : Fresh vol st i v) (hki : k ≠ i) {op : Op} (hop : ∀ clock, op ≠ .mount clock) :
    Fresh vol (stepOf env vol st (k, op)) i v := by
  have hstore : (stepOf env vol st (k, op)).remote.store.get (.fence vol) = some v.token ∧
      tailVersion (stepOf env vol st (k, op)).remote.store vol = v.tail := by
    rcases stepOf_touched env vol st k hop with hsame | ⟨u, hu, ht⟩
    · rw [hsame]
      exact ⟨h.fence, h.tail⟩
    · obtain ⟨huvol, hne⟩ := h.others k u hki hu
      have hcur : st.remote.store.get (.fence u.vol) = some v.token := by
        rw [huvol]
        exact h.fence
      rw [ht.fence, ht.tail hcur hne.symm]
      exact ⟨h.fence, h.tail⟩
  refine ⟨?_, ?_, hstore.1, hstore.2⟩
  · obtain ⟨w, hw, hmine⟩ := h.mine
    refine ⟨w, ?_, hmine⟩
    rw [stepOf_back st k hop, Shared.handle, Shared.back, List.getElem?_set_ne hki]
    exact hw
  · intro j u hj hu
    rw [stepOf_back st k hop] at hu
    rcases Shared.handle_back hu with ⟨rfl, hone⟩ | ⟨-, hold⟩
    · obtain ⟨u', hu', hvol, htoken⟩ := (step_hold env vol (st.one j) op hop).2 u hone
      rw [hvol, htoken]
      exact h.others j u' hj hu'
    · exact h.others j u hj hold

theorem Fresh.step [Payload D] {st : Shared D S B} {i : Nat} {v : Volume} (h : Fresh vol st i v)
    {act : Act} (hq : act.Quiet i) : Fresh vol (stepAct env vol st act) i v := by
  cases act with
  | purge floor =>
      simp only [stepAct, purgeBelow_exec]
      refine ⟨h.mine, h.others, ?_, ?_⟩
      · exact (get_purged_of_ne _ _ (by simp)).trans h.fence
      · exact (tailVersion_congr (get_purged_of_ne _ _ (by simp))).trans h.tail
  | of k op =>
      by_cases hki : k = i
      · subst hki
        obtain ⟨w, hw, -⟩ := h.mine
        cases op with
        | mount clock => exact hq.elim
        | commit => exact absurd rfl hq
        | checkpoint => exact absurd rfl hq
        | mutate now d =>
            simp only [stepAct, stepOf, Fuse.step, Shared.one, hw]
            exact h.buffer hw rfl rfl rfl
        | truncate now path size =>
            obtain ⟨hvol, htoken, htail⟩ := w.truncate_hold env now st.remote.bucket path size
            simp only [stepAct, stepOf, Fuse.step, Shared.one, hw]
            exact h.buffer hw hvol htoken htail
      · refine h.other hki ?_
        rintro clock rfl
        exact hq

theorem Fresh.run [Payload D] {i : Nat} {v : Volume} (acts : List Act) :
    ∀ {st : Shared D S B}, Fresh vol st i v → (∀ act ∈ acts, act.Quiet i) →
      Fresh vol (runActs env vol st acts) i v := by
  induction acts with
  | nil => exact fun h _ => h
  | cons act acts ih =>
      intro st h hq
      exact ih (h.step (hq act List.mem_cons_self)) fun a ha => hq a (List.mem_cons_of_mem _ ha)

/-! ## The next commit -/

theorem checkBatch_ne_conflict [Payload D] (events : List (NewEvent D)) (s : String)
    (e : ExpectedVersion) (a : Option Nat) :
    checkBatch events ≠ .error (.versionConflict s e a) := by
  rw [checkBatch]
  split
  · simp
  · split <;> simp

theorem encodeDeltas_ne_nil {env : Outside D S B} {ds : List Delta} {events : List (NewEvent D)}
    (h : encodeDeltas env ds = .ok events) (hne : ds ≠ []) : events ≠ [] := by
  cases ds with
  | nil => exact absurd rfl hne
  | cons d ds =>
      rw [encodeDeltas] at h
      split at h
      · cases h
      · split at h
        · cases h
        · cases h
          simp

theorem upgraded_ne_nil (v : Volume) (h : v.pending ≠ []) : v.upgraded env ≠ [] := by
  rw [Volume.upgraded]
  cases hp : v.pending with
  | nil => exact absurd hp h
  | cons d ds =>
      cases d with
      | write path offset data =>
          rw [upgrade, if_neg List.not_mem_nil]
          split <;> simp
      | mkdir | remove | rename | setAttr | setXattr | symlink => simp [upgrade]

theorem putBlocks_ne_conflict (env : Outside D S B) (fault : Option Fault) (s : String)
    (e : ExpectedVersion) (a : Option Nat) : ∀ (bs : List Bytes) (j : Nat) (bucket : Bucket B),
      (putBlocks env fault j bs bucket).1 ≠ .error (.versionConflict s e a)
  | [], _, _ => by simp [putBlocks]
  | b :: bs, j, bucket => by
      rw [putBlocks]
      split
      · simp [ioError]
      · split
        · simp [ioError]
        · exact putBlocks_ne_conflict env fault s e a bs (j + 1) _

theorem admits_expected (t : Option Nat) : (expected t).admits t = true := by
  cases t <;> simp [expected, ExpectedVersion.admits]

/-- A handle that has the fence and knows the tail of its stream is not told of a
version conflict. -/
theorem commit_ne_conflict [Payload D] (henv : env.Lawful vol) {w : Volume} {r : Remote D S B}
    (hvol : w.vol = vol) (hfence : r.store.get (.fence vol) = some w.token)
    (htail : tailVersion r.store vol = w.tail) (now : Int) (stamps : Nat → Nat → Stamp)
    (fault : Option Fault) (s : String) (e : ExpectedVersion) (a : Option Nat) :
    (w.commit env now stamps fault r).1 ≠ .error (.versionConflict s e a) := by
  subst hvol
  rw [Volume.commit]
  split
  · simp
  next hne =>
  have hput := putBlocks_ne_conflict env fault s e a
    (uploads env r.bucket w.image [] w.pending) 0 r.bucket
  cases hres : putBlocks env fault 0 (uploads env r.bucket w.image [] w.pending) r.bucket with
  | mk res bucket =>
  rw [hres] at hput
  cases res with
  | error e' => exact hput
  | ok u =>
      obtain ⟨events, hevents, -⟩ := encodeDeltas_eq henv (w.upgraded env)
      simp only [hevents]
      split
      · simp [ioError]
      have hnil := encodeDeltas_ne_nil hevents (upgraded_ne_nil w hne)
      cases hcheck : checkBatch events with
      | error e' =>
          have hexec : (Call.appendWithToken w.vol w.token (expected w.tail) events false
              stamps : Call D S).exec r.store = (.error e', r.store) := by
            have := commitAppends_exec (w.batch events) false stamps r.store
            rw [show (w.batch events).events = events from rfl, hcheck] at this
            exact this
          simp only [hexec]
          intro heq
          cases heq
          exact checkBatch_ne_conflict events s e a hcheck
      | ok u =>
          obtain ⟨info, σ₁, -, he⟩ := commitAppends_exec_ok (w.batch events) false stamps r.store
            hcheck (by
              rintro token current ⟨⟩ hcur
              rw [show (w.batch events).stream = w.vol from rfl, hfence] at hcur
              exact (Option.some.inj hcur).symm)
            (by
              show (expected w.tail).admits (tailVersion r.store w.vol) = true
              rw [htail]
              exact admits_expected _) hnil
          have hexec : (Call.appendWithToken w.vol w.token (expected w.tail) events false
              stamps : Call D S).exec r.store = (.ok (.infos [info]), _) := he
          simp only [hexec]
          simp

/-! ## Mounts -/

theorem mount_tail [Payload D] {st : Shared D S B} (h : Tracked env vol st) {clock : Nat → Int}
    {v : Volume} (hmount : (mount env vol clock st.remote).1 = .ok v) :
    v.tail = tailVersion st.remote.store vol ↔ TailShown st.remote.store vol := by
  obtain ⟨-, hok⟩ := mount_cases env vol clock st.remote
  obtain ⟨-, -, -, base, start, hbase, hfold⟩ := hok v hmount
  have hget : ∀ k, k ≠ .fence vol →
      (fencedOff env vol st.remote).store.get k = st.remote.store.get k := fun k => get_fencedOff
  have hlin : Linear (fencedOff env vol st.remote).store vol := by
    refine h.linear.congr fun k hk _ => hget k ?_
    rintro rfl
    exact hk
  have htail : tailVersion (fencedOff env vol st.remote).store vol =
      tailVersion st.remote.store vol := tailVersion_congr (hget _ (by simp))
  have hcov : covered (fencedOff env vol st.remote).store vol = covered st.remote.store vol :=
    covered_congr fun m => hget _ (by simp)
  have hshown : TailShown (fencedOff env vol st.remote).store vol ↔
      TailShown st.remote.store vol := by
    simp only [TailShown, htail, hcov, hget _ (show Key.record vol _ ≠ .fence vol by simp)]
  obtain rfl : start = covered (fencedOff env vol st.remote).store vol := by
    rw [loadBase, latestSnapshot_eval] at hbase
    rw [covered]
    cases hs : snapshotAt (fencedOff env vol st.remote).store vol with
    | none =>
        rw [hs] at hbase
        cases hbase
        rfl
    | some snap =>
        rw [hs] at hbase
        dsimp only at hbase
        split at hbase
        · cases hbase
        · cases hbase
          rfl
  rw [fold, readHistory_of_not_fork hlin.fork, Except.map] at hfold
  injection hfold with hfold
  injection hfold with _ hlast
  rw [← hlast, ← htail, ← hshown]
  exact hlin.last_eq_tail_iff

/-- A mount that finds the tail makes a handle that knows it. -/
theorem Fresh.start [Payload D] {st : Shared D S B} (h : Tracked env vol st)
    (henv : env.Lawful vol) (hulid : ∀ j, env.ulid j ≠ "") {clock : Nat → Int} {v : Volume}
    (hmount : (mount env vol clock st.remote).1 = .ok v)
    (htail : v.tail = tailVersion st.remote.store vol) (i : Nat) :
    Fresh vol (stepAct env vol st (.of i (.mount clock))) st.handles.length v := by
  obtain ⟨hr, hok⟩ := mount_cases env vol clock st.remote
  obtain ⟨hvol, htoken, -, -⟩ := hok v hmount
  simp only [stepAct, stepOf, hr, hmount, Except.toOption]
  refine ⟨⟨v, ?_, hvol, rfl, rfl⟩, ?_, ?_, ?_⟩
  · simp [Shared.handle]
  · intro k w hk hw
    rcases Shared.handle_concat hw with ⟨-, hold⟩ | ⟨rfl, -⟩
    swap
    · exact absurd rfl hk
    obtain ⟨hwvol, j, hj, hjtok⟩ := h.drawn k w hold
    refine ⟨hwvol, fun heq => ?_⟩
    have hpath : env.segmentPath vol j = env.segmentPath vol st.remote.draws := by
      rw [Outside.segmentPath, Outside.segmentPath, ← hjtok, heq, htoken]
    have := henv.fresh _ _ hpath
    omega
  · rw [htoken, fencedOff, get_fenced_self]
    simp [hulid]
  · rw [htail]
    exact tailVersion_congr (get_fencedOff (by simp))

end

section

variable {D S B : Type}

/-- In every state that handles and purges reach, the handle of a mount knows the
current version of the stream, and its next commit is told of no version conflict
whatever happens before it without another mount, exactly if the stream has no events
or its last one is stored and past the latest snapshot. -/
theorem mount_tail_iff [Payload D] (env : Outside D S B) (vol : String) (henv : env.Lawful vol)
    (hulid : ∀ j, env.ulid j ≠ "") (acts : List Act) (clock : Nat → Int) {v : Volume}
    (hmount : (mount env vol clock (runActs env vol {} acts).remote).1 = .ok v) :
    let st := runActs env vol {} acts
    let mounted := stepAct env vol st (.of 0 (.mount clock))
    (v.tail = tailVersion mounted.remote.store vol ∧
      ∀ more : List Act, (∀ act ∈ more, act.Quiet st.handles.length) →
        ∀ w, (runActs env vol mounted more).handle st.handles.length = some w →
          ∀ now stamps fault s e a,
            (w.commit env now stamps fault (runActs env vol mounted more).remote).1 ≠
              .error (.versionConflict s e a)) ↔
      TailShown st.remote.store vol := by
  intro st mounted
  have htracked : Tracked env vol st := Tracked.run acts (.start env vol)
  have hsame : tailVersion mounted.remote.store vol = tailVersion st.remote.store vol := by
    show tailVersion (mount env vol clock st.remote).2.store vol = _
    rw [(mount_cases env vol clock st.remote).1]
    exact tailVersion_congr (get_fencedOff (by simp))
  rw [hsame, mount_tail htracked hmount]
  refine and_iff_left_of_imp fun hshown => ?_
  intro more hquiet w hw now stamps fault s e a
  have hfresh : Fresh vol (runActs env vol mounted more) st.handles.length v :=
    Fresh.run more (Fresh.start htracked henv hulid hmount
      ((mount_tail htracked hmount).mpr hshown) 0) hquiet
  obtain ⟨w', hw', hvol, htoken, htail⟩ := hfresh.mine
  rw [hw] at hw'
  cases hw'
  refine commit_ne_conflict henv hvol ?_ ?_ now stamps fault s e a
  · rw [htoken]
    exact hfresh.fence
  · rw [htail]
    exact hfresh.tail

/-- A file is written and committed. -/
def written : List Act :=
  [.of 0 (.mount fun _ => 1), .of 0 (.mutate 1 (.write "/a" 0 (.inline [1]))),
    .of 0 (.commit 1 stamps none)]

/-- A mount after a commit knows the version. -/
theorem mount_tail_iff_written :
    ∃ v, (mount named "v" (fun _ => 2) (runActs named "v" {} written).remote).1 = .ok v ∧
      v.tail = some 0 ∧
      v.tail = tailVersion
        (stepAct named "v" (runActs named "v" {} written) (.of 0 (.mount fun _ => 2))).remote.store
        "v" := by
  have htail : (mount named "v" (fun _ => 2)
      (runActs named "v" {} written).remote).1.toOption.map (·.tail) = some (some 0) := by
    decide +kernel
  cases hres : (mount named "v" (fun _ => 2) (runActs named "v" {} written).remote).1 with
  | error e =>
      rw [hres] at htail
      cases htail
  | ok v =>
      rw [hres] at htail
      have hv : v.tail = some 0 := Option.some.inj htail
      refine ⟨v, rfl, hv, ((mount_tail_iff named "v" (named_lawful "v") named_ulid written
        (fun _ => 2) hres).mpr (.inr ⟨0, ?_, ?_, ?_⟩)).1⟩ <;> decide +kernel

/-- After a checkpoint, a mount finds no events to replay and takes the stream to be
new.  Its commit is refused. -/
theorem remount_after_checkpoint_conflicts :
    let st := runActs named "v" {} (written ++ [.of 0 (.checkpoint 2 stamps (fun _ => 2) "c" none)])
    let mounted := runActs named "v" st
      [.of 0 (.mount fun _ => 3), .of 1 (.mutate 3 (.write "/b" 0 (.inline [2])))]
    tailVersion st.remote.store "v" = some 0 ∧
      (mount named "v" (fun _ => 3) st.remote).1.toOption.map (·.tail) = some none ∧
      (mounted.handle 1).map (fun w => (w.commit named 3 stamps none mounted.remote).1) =
        some (.error (.versionConflict "v" .noStream (some 0))) := by
  refine ⟨?_, ?_, ?_⟩ <;> decide +kernel

end

end Landslide.Fuse
