import Landslide.Fuse.Volumes

/-!
# What the calls of a handle change

A mount takes the fence.  A commit leaves the store, or appends the batch of the
handle (`Volume.commit_cases`).  A checkpoint does what its commit does, and then it
leaves the store or publishes a snapshot that claims to reach the tail the handle
knows (`Volume.checkpoint_cases`).  None of this assumes anything of the state or of
the handle, which another mount may have fenced off.
-/

namespace Landslide.Fuse

open Std TxnKv

section

variable {D S B : Type} {env : Outside D S B}

/-! ## Mounts -/

/-- The state in which a mount reads. -/
def fencedOff (env : Outside D S B) (vol : String) (r : Remote D S B) : Remote D S B :=
  { r with store := fenced r.store vol (some (env.ulid r.draws)), draws := r.draws + 1 }

theorem get_fencedOff {vol : String} {r : Remote D S B} {k : Key} (h : k ≠ .fence vol) :
    (fencedOff env vol r).store.get k = r.store.get k :=
  get_fenced_of_ne _ _ _ h

/-- A mount takes the fence and reads.  Its handle has the token that it drew. -/
theorem mount_cases [Payload D] (env : Outside D S B) (vol : String) (clock : Nat → Int)
    (r : Remote D S B) :
    (mount env vol clock r).2 = fencedOff env vol r ∧
      ∀ v, (mount env vol clock r).1 = .ok v →
        v.vol = vol ∧ v.token = env.ulid r.draws ∧ v.pending = [] ∧
          ∃ base start, loadBase env (fencedOff env vol r) vol = .ok (base, start) ∧
            fold (fencedOff env vol r).store vol (.included start) .unbounded base
              (replayEvent env clock) = .ok (v.image, v.tail) := by
  obtain ⟨infos, hfence⟩ := fence_exec vol (some (env.ulid r.draws)) r.store
  simp only [Fuse.mount, hfence]
  cases hbase : loadBase env (fencedOff env vol r) vol with
  | error e =>
      rw [fencedOff] at hbase
      simp only [hbase]
      exact ⟨rfl, by simp⟩
  | ok base =>
      obtain ⟨base, start⟩ := base
      rw [fencedOff] at hbase
      simp only [hbase]
      cases hfold : fold (fencedOff env vol r).store vol (.included start) .unbounded base
          (replayEvent env clock) with
      | error e =>
          rw [fencedOff] at hfold
          simp only [hfold]
          exact ⟨rfl, by simp⟩
      | ok out =>
          rw [fencedOff] at hfold
          simp only [hfold]
          refine ⟨rfl, ?_⟩
          rintro v ⟨⟩
          exact ⟨rfl, rfl, rfl, base, start, rfl, hfold⟩

/-! ## Commits -/

/-- The handle with its buffer, tail and token. -/
structure Volume.SameHold (v v' : Volume) : Prop where
  vol : v'.vol = v.vol
  token : v'.token = v.token
  tail : v'.tail = v.tail
  pending : v'.pending = v.pending

theorem Volume.SameHold.refl (v : Volume) : v.SameHold v := ⟨rfl, rfl, rfl, rfl⟩

theorem Volume.truncate_hold (env : Outside D S B) (now : Int) (bucket : Bucket B) (path : String)
    (size : Nat) (v : Volume) :
    let v' := (v.truncate env now bucket path size).2
    v'.vol = v.vol ∧ v'.token = v.token ∧ v'.tail = v.tail := by
  dsimp only
  rw [Volume.truncate]
  split <;> exact ⟨rfl, rfl, rfl⟩

/-- The batch that a commit appends. -/
def Volume.batch (v : Volume) (events : List (NewEvent D)) : AppendReq D :=
  { stream := v.vol, expected := expected v.tail, fenceToken := some v.token, events := events }

/-- The bucket after the uploads of a commit. -/
def Volume.uploaded (env : Outside D S B) (fault : Option Fault) (v : Volume) (r : Remote D S B) :
    Bucket B :=
  (putBlocks env fault 0 (uploads env r.bucket v.image [] v.pending) r.bucket).2

/-- A commit fails and leaves the store and the buffer, has nothing to do, or appends
its batch. -/
theorem Volume.commit_cases [Payload D] (env : Outside D S B) (now : Int)
    (stamps : Nat → Nat → Stamp) (fault : Option Fault) (v : Volume) (r : Remote D S B) :
    let out := v.commit env now stamps fault r
    (∃ e v', v.pending ≠ [] ∧ v.SameHold v' ∧
        out = (.error e, v', { r with bucket := v.uploaded env fault r })) ∨
      (v.pending = [] ∧ out = (.ok (), v, r)) ∨
      ∃ events info σ₁ image, v.pending ≠ [] ∧
        encodeDeltas env (v.upgraded env) = .ok events ∧
        Appended (v.batch events) (seqOf r.store) r.store info σ₁ ∧
        out = (.ok (), { v with image := image, tail := some info.lastVersion, pending := [] },
          { r with bucket := v.uploaded env fault r,
                   store := σ₁.put .seq (seqOf r.store + events.length) }) := by
  dsimp only
  rw [Volume.commit]
  split
  · next hnil => exact .inr (.inl ⟨hnil, rfl⟩)
  next hne =>
  rw [Volume.uploaded]
  cases putBlocks env fault 0 (uploads env r.bucket v.image [] v.pending) r.bucket with
  | mk res bucket =>
  cases res with
  | error e => exact .inl ⟨e, v, hne, .refl v, rfl⟩
  | ok u =>
      have hold : v.SameHold { v with image := restated now v.image (v.upgraded env) } :=
        ⟨rfl, rfl, rfl, rfl⟩
      dsimp only
      cases hevents : encodeDeltas env (v.upgraded env) with
      | error e => exact .inl ⟨e, _, hne, hold, rfl⟩
      | ok events =>
          dsimp only
          split
          · exact .inl ⟨_, _, hne, hold, rfl⟩
          rcases commitAppends_exec_cases (v.batch events) false stamps r.store with
            ⟨e, he⟩ | ⟨info, σ₁, happ, he⟩
          · have hexec : (Call.appendWithToken v.vol v.token (expected v.tail) events false
                stamps : Call D S).exec r.store = (.error e, r.store) := he
            simp only [hexec]
            exact .inl ⟨e, _, hne, hold, rfl⟩
          · have hexec : (Call.appendWithToken v.vol v.token (expected v.tail) events false
                stamps : Call D S).exec r.store =
                  (.ok (.infos [info]), σ₁.put .seq (seqOf r.store + events.length)) := he
            simp only [hexec]
            exact .inr (.inr ⟨events, info, σ₁, _, hne, rfl, happ, rfl⟩)

/-- A commit leaves the fences, the draws, and the stream and token of the handle. -/
theorem Volume.commit_frame [Payload D] (env : Outside D S B) (now : Int)
    (stamps : Nat → Nat → Stamp) (fault : Option Fault) (v : Volume) (r : Remote D S B) :
    let out := v.commit env now stamps fault r
    out.2.1.vol = v.vol ∧ out.2.1.token = v.token ∧ out.2.2.draws = r.draws ∧
      ∀ s, out.2.2.store.get (.fence s) = r.store.get (.fence s) := by
  dsimp only
  rcases v.commit_cases env now stamps fault r with ⟨e, v', -, hold, heq⟩ | ⟨-, heq⟩ |
    ⟨events, info, σ₁, image, -, -, happ, heq⟩
  · rw [heq]
    exact ⟨hold.vol, hold.token, rfl, fun _ => rfl⟩
  · rw [heq]
    exact ⟨rfl, rfl, rfl, fun _ => rfl⟩
  · rw [heq]
    refine ⟨rfl, rfl, rfl, fun s => ?_⟩
    exact (Store.get_put_of_ne _ _ (by simp)).trans (happ.frame _ (by simp) (by simp) (by simp))

/-! ## Checkpoints -/

/-- Sealing a segment puts at most one object, and leaves the store or publishes a
snapshot. -/
theorem install_cases [Payload D] (env : Outside D S B) (vol : String) (through : Nat)
    (segment : Segment) (nowMs : Int) (ulid : String) (fault : Option Fault) (r : Remote D S B) :
    let out := install env vol through segment nowMs ulid fault r
    out.2.draws = r.draws + 1 ∧
      (∀ path, path ≠ env.segmentPath vol r.draws → out.2.bucket path = r.bucket path) ∧
      (out.2.store = r.store ∨ ∃ state,
        out.2.store = published r.store vol (record vol through nowMs) state ulid) := by
  have hput : (putSegment env vol segment fault r).2.store = r.store ∧
      (putSegment env vol segment fault r).2.draws = r.draws + 1 ∧
      ∀ path, path ≠ env.segmentPath vol r.draws →
        (putSegment env vol segment fault r).2.bucket path = r.bucket path := by
    rw [putSegment]
    cases env.segment.encode segment with
    | error e => exact ⟨rfl, rfl, fun _ _ => rfl⟩
    | ok object =>
        have hupd : ∀ path, path ≠ env.segmentPath vol r.draws →
            Function.update r.bucket (env.segmentPath vol r.draws) (some object) path =
              r.bucket path :=
          fun path hpath => Function.update_of_ne hpath _ _
        dsimp only
        split
        · exact ⟨rfl, rfl, hupd⟩
        · split
          · exact ⟨rfl, rfl, fun _ _ => rfl⟩
          · exact ⟨rfl, rfl, hupd⟩
  dsimp only
  rw [install]
  cases hres : putSegment env vol segment fault r with
  | mk res r₁ =>
  rw [hres] at hput
  obtain ⟨hstore, hdraws, hbucket⟩ := hput
  dsimp only at hstore hdraws hbucket
  cases res with
  | error e => exact ⟨hdraws, hbucket, .inl hstore⟩
  | ok path =>
      dsimp only
      cases latestManifest env r₁.store vol with
      | error e => exact ⟨hdraws, hbucket, .inl hstore⟩
      | ok m =>
          dsimp only
          rw [publishManifest]
          cases env.manifest.encode { segments := m.segments ++ [path] } with
          | error e => exact ⟨hdraws, hbucket, .inl hstore⟩
          | ok state =>
              simp only [publishSnapshot_exec]
              split
              · next heq =>
                split at heq
                · cases heq
                  exact ⟨hdraws, hbucket, .inr ⟨state, by rw [hstore]⟩⟩
                · split at heq
                  · cases heq
                    exact ⟨hdraws, hbucket, .inl hstore⟩
                  · cases heq
              · next heq =>
                split at heq
                · cases heq
                · split at heq
                  · cases heq
                  · cases heq
                    exact ⟨hdraws, hbucket, .inr ⟨state, by rw [hstore]⟩⟩

/-- A checkpoint does what its commit does, and then leaves the store, or publishes a
snapshot through the tail that the handle knows. -/
theorem Volume.checkpoint_cases [Payload D] (env : Outside D S B) (now : Int)
    (stamps : Nat → Nat → Stamp) (clock : Nat → Int) (ulid : String) (fault : Option Fault)
    (v : Volume) (r : Remote D S B) :
    let mid := v.commit env now stamps fault r
    let out := v.checkpoint env now stamps clock ulid fault r
    out.2.1 = mid.2.1 ∧ mid.2.2.draws ≤ out.2.2.draws ∧
      (∀ path, path ≠ env.segmentPath mid.2.1.vol mid.2.2.draws →
        out.2.2.bucket path = mid.2.2.bucket path) ∧
      (out.2.2.store = mid.2.2.store ∨ ∃ through state, mid.1 = .ok () ∧
        mid.2.1.tail = some through ∧ out.2.2.store =
          published mid.2.2.store mid.2.1.vol (record mid.2.1.vol through now) state ulid) := by
  dsimp only
  rw [Volume.checkpoint]
  cases v.commit env now stamps fault r with
  | mk res rest =>
  obtain ⟨v₁, r₁⟩ := rest
  cases res with
  | error e => exact ⟨rfl, le_rfl, fun _ _ => rfl, .inl rfl⟩
  | ok u =>
      dsimp only
      cases htail : v₁.tail with
      | none => exact ⟨rfl, le_rfl, fun _ _ => rfl, .inl rfl⟩
      | some through =>
          dsimp only
          cases loadBase env r₁ v₁.vol with
          | error e => exact ⟨rfl, le_rfl, fun _ _ => rfl, .inl rfl⟩
          | ok base =>
              obtain ⟨base, start⟩ := base
              dsimp only
              cases fold r₁.store v₁.vol (.included start) .unbounded { live := base }
                  (DeltaImage.replayEvent env clock) with
              | error e => exact ⟨rfl, le_rfl, fun _ _ => rfl, .inl rfl⟩
              | ok delta =>
                  obtain ⟨delta, last⟩ := delta
                  dsimp only
                  obtain ⟨hdraws, hbucket, hstore⟩ := install_cases env v₁.vol through
                    { entries := delta.entries } now ulid fault r₁
                  cases hres : install env v₁.vol through { entries := delta.entries } now ulid
                      fault r₁ with
                  | mk res r₂ =>
                  rw [hres] at hdraws hbucket hstore
                  dsimp only at hdraws hbucket hstore
                  have hout : r₂.store = r₁.store ∨ ∃ through' state,
                      (.ok u : Except Error Unit) = .ok () ∧
                      some through = some through' ∧ r₂.store =
                        published r₁.store v₁.vol (record v₁.vol through' now) state ulid := by
                    rcases hstore with hstore | ⟨state, hstore⟩
                    · exact .inl hstore
                    · exact .inr ⟨through, state, rfl, rfl, hstore⟩
                  have hle : r₁.draws ≤ r₂.draws := by omega
                  cases res with
                  | error e => exact ⟨rfl, hle, hbucket, hout⟩
                  | ok entry => exact ⟨rfl, hle, hbucket, hout⟩

/-- A checkpoint leaves the fences and the tails that its commit leaves. -/
theorem Volume.checkpoint_frame [Payload D] (env : Outside D S B) (now : Int)
    (stamps : Nat → Nat → Stamp) (clock : Nat → Int) (ulid : String) (fault : Option Fault)
    (v : Volume) (r : Remote D S B) :
    let mid := v.commit env now stamps fault r
    let out := v.checkpoint env now stamps clock ulid fault r
    (∀ s, out.2.2.store.get (.fence s) = r.store.get (.fence s)) ∧
      ∀ s, tailVersion out.2.2.store s = tailVersion mid.2.2.store s := by
  dsimp only
  obtain ⟨-, -, -, hfence⟩ := v.commit_frame env now stamps fault r
  rcases v.checkpoint_cases env now stamps clock ulid fault r with
    ⟨-, -, -, hstore | ⟨through, state, -, -, hstore⟩⟩
  · rw [hstore]
    exact ⟨hfence, fun _ => rfl⟩
  · rw [hstore]
    refine ⟨fun s => ?_, fun s => ?_⟩
    · rw [get_published_of_ne (by simp) (by simp) (by simp)]
      exact hfence s
    · exact tailVersion_congr (get_published_of_ne (by simp) (by simp) (by simp))

/-! ## The store under a handle -/

/-- What a handle can do to the store: append its batches, and publish snapshots of its
stream. -/
inductive Touched (v : Volume) : Db D S → Db D S → Prop where
  | same (σ : Db D S) : Touched v σ σ
  | append {σ σ₁ : Db D S} {events : List (NewEvent D)} {info : CommitInfo} (n : Nat)
      (happ : Appended (v.batch events) (seqOf σ) σ info σ₁) : Touched v σ (σ₁.put .seq n)
  | publish {σ σ' : Db D S} (record : CompactionRecord) (state : S) (ulid : String)
      (h : Touched v σ σ') : Touched v σ (published σ' v.vol record state ulid)

theorem Volume.commit_touched [Payload D] (env : Outside D S B) (now : Int)
    (stamps : Nat → Nat → Stamp) (fault : Option Fault) (v : Volume) (r : Remote D S B) :
    Touched v r.store (v.commit env now stamps fault r).2.2.store := by
  rcases v.commit_cases env now stamps fault r with ⟨e, v', -, -, heq⟩ | ⟨-, heq⟩ |
    ⟨events, info, σ₁, image, -, -, happ, heq⟩
  · rw [heq]
    exact .same _
  · rw [heq]
    exact .same _
  · rw [heq]
    exact .append _ happ

theorem Volume.checkpoint_touched [Payload D] (env : Outside D S B) (now : Int)
    (stamps : Nat → Nat → Stamp) (clock : Nat → Int) (ulid : String) (fault : Option Fault)
    (v : Volume) (r : Remote D S B) :
    Touched v r.store (v.checkpoint env now stamps clock ulid fault r).2.2.store := by
  have hmid := v.commit_touched env now stamps fault r
  obtain ⟨hvol, -⟩ := v.commit_frame env now stamps fault r
  rcases v.checkpoint_cases env now stamps clock ulid fault r with
    ⟨-, -, -, hstore | ⟨through, state, -, -, hstore⟩⟩
  · rw [hstore]
    exact hmid
  · rw [hstore, hvol]
    exact hmid.publish _ state ulid

namespace Touched

variable {v : Volume} {σ σ' : Db D S}

theorem fence (h : Touched v σ σ') (s : String) : σ'.get (.fence s) = σ.get (.fence s) := by
  induction h with
  | same => rfl
  | append n happ =>
      exact (Store.get_put_of_ne _ _ (by simp)).trans (happ.frame _ (by simp) (by simp) (by simp))
  | publish record state ulid _ ih =>
      exact (get_published_of_ne (by simp) (by simp) (by simp)).trans ih

theorem linear (h : Touched v σ σ') (hl : Linear σ v.vol) : Linear σ' v.vol := by
  induction h with
  | same => exact hl
  | append n happ =>
      refine (hl.append happ rfl rfl).congr fun k hk _ => Store.get_put_of_ne _ _ ?_
      rintro rfl
      exact hk
  | publish record state ulid _ ih =>
      refine ih.congr fun k hk hs => get_published_of_ne ?_ ?_ hs
      · rintro rfl
        exact hk
      · rintro rfl
        exact hk

/-- A handle that was fenced off leaves the tail. -/
theorem tail (h : Touched v σ σ') {current : String} (hcur : σ.get (.fence v.vol) = some current)
    (hne : current ≠ v.token) (s : String) : tailVersion σ' s = tailVersion σ s := by
  induction h with
  | same => rfl
  | append n happ => exact absurd (happ.fence v.token current rfl hcur) hne
  | publish record state ulid _ ih =>
      exact (tailVersion_congr (get_published_of_ne (by simp) (by simp) (by simp))).trans ih

end Touched

end

end Landslide.Fuse
