import Landslide.Fuse.Opening

/-!
# Times that come from the clock

A node that a delta makes has the time of the replay that applies the delta, until some
later delta sets its time or takes it away.  `Dated` is an image next to the version of
the delta at whose reading each of its nodes was made.  A replay at any clock shows the
nodes of such an image with those readings filled in (`replayed_get`), so two replays at
different clocks are equal exactly when none is left.
-/

namespace Landslide.Fuse

open Std TxnKv

/-! ## Dated images -/

/-- A node with the reading of the clock at a version as its time, or as it is. -/
def Node.dated (clock : Nat → Int) (reading : Option Nat) (node : Node) : Node :=
  reading.elim node fun v => node.mapAttrs fun attrs => { attrs with mtimeMs := clock v }

/-- An image, and for each path the version at whose reading its node was made, if the
time of the node is not from the data. -/
structure Dated where
  image : FsImage
  reading : String → Option Nat := fun _ => none

namespace FsImage

/-- The path at which a delta makes a new node. -/
def makes (image : FsImage) : Delta → Option String
  | .write path _ (.blocks _) => if (image.get path).isNone then some path else none
  | .write path _ (.inline _) =>
      match image.get path with
      | some (.file (.inline _) _) => none
      | _ => some path
  | .mkdir path => if (image.get path).isNone then some path else none
  | .symlink path _ => some path
  | _ => none

/-- The path whose time a delta sets. -/
def setsTime : Delta → Option String
  | .setAttr path _ _ _ (some _) => some path
  | _ => none

theorem makes_write {image : FsImage} {path q : String} {offset : Nat} {data : Data}
    (h : image.makes (.write path offset data) = some q) : q = path := by
  cases data with
  | blocks blocks =>
      rw [makes] at h
      split at h
      · exact (Option.some.inj h).symm
      · cases h
  | inline data =>
      rw [makes] at h
      split at h
      · cases h
      · exact (Option.some.inj h).symm

end FsImage

namespace Dated

def move (x : Dated) (m : String × String) : Dated where
  image := x.image.move m.1 m.2
  reading :=
    if (x.image.get m.1).isNone then x.reading else Function.update x.reading m.2 (x.reading m.1)

/-- What the delta of version `v` does. -/
def apply (v : Nat) (x : Dated) (d : Delta) : Dated :=
  match d with
  | .rename source dest => (x.image.moves source dest).foldl move x
  | d =>
      { image := x.image.apply 0 d
        reading := fun q =>
          if x.image.makes d = some q then some v
          else if FsImage.setsTime d = some q then none
          else x.reading q }

/-- The nodes at the readings of a clock. -/
def shown (clock : Nat → Int) (x : Dated) : String → Option Node :=
  fun q => (x.image.get q).map (Node.dated clock (x.reading q))

/-- The path `q` has a node made at the reading of version `v`. -/
def Shows (x : Dated) (q : String) (v : Nat) : Prop :=
  (x.image.get q).isSome = true ∧ x.reading q = some v

instance (x : Dated) (q : String) (v : Nat) : Decidable (x.Shows q v) :=
  inferInstanceAs (Decidable (_ ∧ _))

end Dated

theorem Node.dated_attrs (clock : Nat → Int) (reading : Option Nat) (node : Node) :
    (node.dated clock reading).attrs =
      reading.elim node.attrs fun v => { node.attrs with mtimeMs := clock v } := by
  cases reading with
  | none => rfl
  | some v => cases node <;> rfl

/-- A change of attributes that does not look at the time. -/
theorem Node.dated_mapAttrs (clock : Nat → Int) (reading : Option Nat) {f : NodeMeta → NodeMeta}
    (hf : ∀ attrs t, f { attrs with mtimeMs := t } = { f attrs with mtimeMs := t }) (node : Node) :
    (node.dated clock reading).mapAttrs f = (node.mapAttrs f).dated clock reading := by
  cases reading with
  | none => rfl
  | some v => cases node <;> exact congrArg _ (hf _ _)

/-- Two clocks date a node alike if they agree on its reading. -/
theorem Node.dated_eq_iff (clock clock' : Nat → Int) (reading : Option Nat) (node : Node) :
    node.dated clock reading = node.dated clock' reading ↔
      ∀ v, reading = some v → clock v = clock' v := by
  cases reading with
  | none => simp [dated]
  | some v =>
      constructor
      · rintro h _ ⟨⟩
        have hattrs := congrArg (fun node => node.attrs.mtimeMs) h
        simpa only [Node.dated_attrs, Option.elim_some] using hattrs
      · intro h
        rw [dated, dated, Option.elim_some, Option.elim_some, h v rfl]

namespace Dated

theorem shown_eq_none {clock : Nat → Int} {x : Dated} {q : String} :
    x.shown clock q = none ↔ x.image.get q = none :=
  Option.map_eq_none_iff

/-- Two clocks show the same nodes if they agree on the readings that are shown. -/
theorem shown_eq_iff (x : Dated) (clock clock' : Nat → Int) :
    x.shown clock = x.shown clock' ↔ ∀ q v, x.Shows q v → clock v = clock' v := by
  rw [funext_iff]
  refine forall_congr' fun q => ?_
  rw [shown, shown]
  cases hget : x.image.get q with
  | none => simp [Shows, hget]
  | some node =>
      rw [Option.map_some, Option.map_some, Option.some_inj, Node.dated_eq_iff]
      simp [Shows, hget]

/-! ### One delta -/

theorem shown_move {clock : Nat → Int} {image : FsImage} {x : Dated}
    (h : image.get = x.shown clock) (m : String × String) :
    (image.move m.1 m.2).get = (x.move m).shown clock := by
  obtain ⟨p, q⟩ := m
  have hp := congrFun h p
  cases hget : x.image.get p with
  | none =>
      rw [shown, hget] at hp
      have hmove : (x.move (p, q)) = x := by
        rw [move, FsImage.move_none hget]
        simp [hget]
      rw [FsImage.move_none hp, hmove, h]
  | some node =>
      rw [shown, hget, Option.map_some] at hp
      funext r
      rw [FsImage.get_move hp, shown, move]
      dsimp only
      rw [FsImage.get_move hget, hget, if_neg (by simp)]
      by_cases hq : r = q
      · subst hq
        rw [Function.update_self, Function.update_self, Function.update_self]
        rfl
      · rw [Function.update_of_ne hq, Function.update_of_ne hq, Function.update_of_ne hq]
        by_cases hr : r = p
        · subst hr
          rw [Function.update_self, Function.update_self]
          rfl
        · rw [Function.update_of_ne hr, Function.update_of_ne hr, h, shown]

theorem shown_moves {clock : Nat → Int} (ms : List (String × String)) : ∀ {image : FsImage}
    {x : Dated}, image.get = x.shown clock →
    (ms.foldl (fun image m => image.move m.1 m.2) image).get = (ms.foldl move x).shown clock := by
  induction ms with
  | nil => exact id
  | cons m ms ih => exact fun h => ih (shown_move h m)

/-- A delta that changes one path puts there what the clock makes of the dated node. -/
theorem shown_insert {clock : Nat → Int} {image : FsImage} {x y : Dated} {path : String}
    {node' : Node} (node : Node) (h : image.get = x.shown clock)
    (hget : y.image.get = Function.update x.image.get path (some node))
    (hread : ∀ q, q ≠ path → y.reading q = x.reading q)
    (hnode : node' = node.dated clock (y.reading path)) :
    Function.update image.get path (some node') = y.shown clock := by
  funext q
  rw [shown, hget]
  by_cases hq : q = path
  · subst hq
    rw [Function.update_self, Function.update_self, hnode]
    rfl
  · rw [Function.update_of_ne hq, Function.update_of_ne hq, hread q hq, h, shown]

/-- A delta that changes the attributes at one path, time apart, or sets the time. -/
theorem shown_mapAttrs {clock : Nat → Int} {image : FsImage} {x y : Dated} {path : String}
    {f : NodeMeta → NodeMeta} (h : image.get = x.shown clock)
    (hget : y.image.get = Function.update x.image.get path ((x.image.get path).map (.mapAttrs f)))
    (hread : ∀ q, q ≠ path → y.reading q = x.reading q)
    (hnode : ∀ node : Node, (node.dated clock (x.reading path)).mapAttrs f =
      (node.mapAttrs f).dated clock (y.reading path)) :
    Function.update image.get path ((image.get path).map (.mapAttrs f)) = y.shown clock := by
  funext q
  rw [shown, hget]
  by_cases hq : q = path
  · subst hq
    rw [Function.update_self, Function.update_self, h, shown, Option.map_map, Option.map_map]
    congr 1
    funext node
    exact hnode node
  · rw [Function.update_of_ne hq, Function.update_of_ne hq, hread q hq, h, shown]

/-- What a write leaves, next to what it leaves of the dated node. -/
theorem written_dated {clock : Nat → Int} {v : Nat} {image : FsImage} {x : Dated}
    (h : image.get = x.shown clock) (path : String) (offset : Nat) (data : Data) :
    image.written (clock v) path offset data = (x.image.written 0 path offset data).dated clock
      ((x.apply v (.write path offset data)).reading path) := by
  have hpath : image.nodes[path]? = x.shown clock path := congrFun h path
  have hsets : FsImage.setsTime (.write path offset data) = none := rfl
  simp only [apply, hsets, reduceCtorEq, if_false]
  rw [shown] at hpath
  cases data with
  | blocks blocks =>
      rw [FsImage.written, FsImage.written, hpath, FsImage.makes]
      show _ = Node.dated _ _ (.file _ (((x.image.get path).map Node.attrs).getD _))
      cases x.image.get path with
      | none =>
          rw [if_pos (by simp)]
          rfl
      | some node =>
          rw [Option.map_some, Option.map_some, Option.map_some, Option.getD_some,
            Option.getD_some, Node.dated_attrs, if_neg (by simp)]
          cases x.reading path with
          | none => rfl
          | some w => rfl
  | inline data =>
      have hnodes : x.image.nodes[path]? = x.image.get path := rfl
      rw [FsImage.written, FsImage.written, hpath, FsImage.makes, hnodes]
      cases x.image.get path with
      | none =>
          rw [if_pos rfl]
          rfl
      | some node =>
          rw [Option.map_some]
          cases node with
          | file content attrs =>
              cases content with
              | inline bytes =>
                  rw [if_neg (by simp)]
                  cases x.reading path with
                  | none => rfl
                  | some w => rfl
              | blocks refs size =>
                  rw [if_pos rfl]
                  cases x.reading path with
                  | none => rfl
                  | some w => rfl
          | dir attrs =>
              rw [if_pos rfl]
              cases x.reading path with
              | none => rfl
              | some w => rfl
          | symlink target attrs =>
              rw [if_pos rfl]
              cases x.reading path with
              | none => rfl
              | some w => rfl

/-- A directory that is made has the reading, and one that is there keeps its own. -/
theorem shown_mkdir {clock : Nat → Int} {image : FsImage} {x : Dated}
    (h : image.get = x.shown clock) (v : Nat) (path : String) :
    (image.apply (clock v) (.mkdir path)).get = (x.apply v (.mkdir path)).shown clock := by
  have hpath := congrFun h path
  have hread : ∀ q, (x.apply v (.mkdir path)).reading q =
      if x.image.makes (.mkdir path) = some q then some v else x.reading q :=
    fun q => by simp [apply, FsImage.setsTime]
  rw [FsImage.get_mkdir]
  cases hget : x.image.get path with
  | none =>
      have hmakes : x.image.makes (.mkdir path) = some path := by
        rw [FsImage.makes, hget]
        rfl
      rw [shown, hget] at hpath
      rw [hpath]
      refine shown_insert (.dir (.dir 0)) h ?_ (fun q hq => ?_) ?_
      · show (x.image.apply 0 (.mkdir path)).get = _
        rw [FsImage.get_mkdir, hget]
        rfl
      · rw [hread, hmakes, if_neg (by simpa using Ne.symm hq)]
      · rw [hread, hmakes, if_pos rfl]
        rfl
  | some node =>
      have hmakes : x.image.makes (.mkdir path) = none := by
        rw [FsImage.makes, hget]
        rfl
      rw [shown, hget, Option.map_some] at hpath
      rw [hpath]
      refine shown_insert node h ?_ (fun q _ => ?_) ?_
      · show (x.image.apply 0 (.mkdir path)).get = _
        rw [FsImage.get_mkdir, hget]
        rfl
      · rw [hread, hmakes, if_neg (by simp)]
      · rw [hread, hmakes, if_neg (by simp)]
        rfl

/-- A delta keeps an image as the dated image shows it. -/
theorem shown_apply {clock : Nat → Int} {image : FsImage} {x : Dated} (h : image.get = x.shown clock)
    (v : Nat) (d : Delta) : (image.apply (clock v) d).get = (x.apply v d).shown clock := by
  have hother : ∀ {path : String}, (∀ q, q ≠ path → x.image.makes d ≠ some q) →
      (∀ q, q ≠ path → FsImage.setsTime d ≠ some q) → ∀ q, q ≠ path →
        (if x.image.makes d = some q then some v
          else if FsImage.setsTime d = some q then none else x.reading q) = x.reading q :=
    fun hmakes hsets q hq => by rw [if_neg (hmakes q hq), if_neg (hsets q hq)]
  cases d with
  | write path offset data =>
      rw [FsImage.apply, FsImage.get_insert]
      refine shown_insert _ h ?_ (hother (fun q hq hmake => hq (FsImage.makes_write hmake))
        (by simp [FsImage.setsTime])) (written_dated h path offset data)
      exact FsImage.get_insert x.image.nodes path _
  | mkdir path => exact shown_mkdir h v path
  | remove path =>
      funext q
      have hmakes : x.image.makes (.remove path) = none := rfl
      have hsets : FsImage.setsTime (.remove path) = none := rfl
      simp only [shown, apply, hmakes, hsets, reduceCtorEq, if_false]
      rw [FsImage.apply, FsImage.apply, FsImage.get_remove, FsImage.get_remove, Subtree.erase,
        Subtree.erase, h]
      split
      · rfl
      · rfl
  | rename source dest =>
      have hmoves : image.moves source dest = x.image.moves source dest := by
        refine FsImage.movesOf_congr (fun q => ?_) (.rename source dest)
        rw [FsImage.shapes_eq_none, FsImage.shapes_eq_none, h, shown_eq_none]
      rw [FsImage.apply, FsImage.rename_eq_moves, hmoves]
      exact shown_moves _ h
  | symlink path target =>
      rw [FsImage.apply, FsImage.get_insert]
      refine shown_insert _ h (FsImage.get_insert x.image.nodes path _)
        (hother (fun q hq hmake => hq ?_) (by simp [FsImage.setsTime])) ?_
      · cases hmake
        rfl
      · show _ = Node.dated clock (if x.image.makes (.symlink path target) = some path then _ else _) _
        rw [FsImage.makes, if_pos rfl]
        rfl
  | setAttr path mode uid gid mtimeMs =>
      rw [FsImage.apply, FsImage.get_modify]
      refine shown_mapAttrs h (FsImage.get_modify x.image path _)
        (hother (by simp [FsImage.makes]) fun q hq hset => hq ?_) fun node => ?_
      · cases mtimeMs with
        | none => cases hset
        | some t =>
            cases hset
            rfl
      · show _ = Node.dated clock (if FsImage.setsTime (.setAttr path mode uid gid mtimeMs) =
          some path then none else x.reading path) _
        cases mtimeMs with
        | none =>
            rw [if_neg (by simp [FsImage.setsTime])]
            exact Node.dated_mapAttrs clock _ (fun _ _ => rfl) node
        | some t =>
            rw [FsImage.setsTime, if_pos rfl]
            cases x.reading path with
            | none => rfl
            | some w =>
                cases node <;> rfl
  | setXattr path name value =>
      rw [FsImage.apply, FsImage.get_modify]
      refine shown_mapAttrs h (FsImage.get_modify x.image path _)
        (hother (by simp [FsImage.makes]) (by simp [FsImage.setsTime])) fun node => ?_
      refine Node.dated_mapAttrs clock _ (fun attrs t => ?_) node
      cases value with
      | none => rfl
      | some b => rfl

end Dated

section

variable {D S B : Type}

/-! ## Replays -/

/-- One event of a replay, with no clock. -/
def Dated.replayEvent (env : Outside D S B) (x : Dated) (e : Event D) : Dated :=
  match env.delta.decode e.data with
  | .ok d => x.apply e.version d
  | .error _ => x

/-- A replay with the readings of the clock left open. -/
def dated (env : Outside D S B) (base : FsImage) (events : List (Event D)) : Dated :=
  events.foldl (Dated.replayEvent env) { image := base }

/-- A replay shows the dated image at the readings of its clock. -/
theorem replayed_get (env : Outside D S B) (clock : Nat → Int) (events : List (Event D))
    (base : FsImage) :
    (events.foldl (replayEvent env clock) base).get = (dated env base events).shown clock := by
  have hfold : ∀ (events : List (Event D)) (image : FsImage) (x : Dated),
      image.get = x.shown clock →
        (events.foldl (replayEvent env clock) image).get =
          (events.foldl (Dated.replayEvent env) x).shown clock := by
    intro events
    induction events with
    | nil => exact fun _ _ h => h
    | cons e events ih =>
        intro image x h
        refine ih _ _ ?_
        rw [replayEvent, Dated.replayEvent]
        cases env.delta.decode e.data with
        | error err => exact h
        | ok d => exact Dated.shown_apply h e.version d
  refine hfold events base _ (funext fun q => ?_)
  rw [Dated.shown]
  cases base.get q with
  | none => rfl
  | some node => rfl

/-- Two replays of the same events are equal if their clocks agree on what is shown of
them. -/
theorem replays_eq_iff (env : Outside D S B) (clock clock' : Nat → Int) (events : List (Event D))
    (base : FsImage) :
    events.foldl (replayEvent env clock) base = events.foldl (replayEvent env clock') base ↔
      ∀ q v, (dated env base events).Shows q v → clock v = clock' v := by
  rw [← Dated.shown_eq_iff, ← replayed_get, ← replayed_get]
  exact ⟨fun h => by rw [h], FsImage.ext_get⟩

/-- What a mount replays: an image and the events to apply to it. -/
def mountSource (env : Outside D S B) (vol : String) (r : Remote D S B) :
    Except Error (FsImage × List (Event D)) :=
  match loadBase env r vol with
  | .error e => .error e
  | .ok (base, start) =>
      (readHistory r.store vol (.included start) .unbounded).map fun events => (base, events)

/-- The fence of a mount is not part of what is replayed. -/
theorem mountSource_fencedOff (env : Outside D S B) (vol : String) (r : Remote D S B) :
    mountSource env vol (fencedOff env vol r) = mountSource env vol r := by
  have hbase : loadBase env (fencedOff env vol r) vol = loadBase env r vol := by
    rw [loadBase, loadBase, latestSnapshot_eval, latestSnapshot_eval,
      snapshotAt_congr (aside_fencedOff env vol r).snaps]
    rfl
  rw [mountSource, mountSource, hbase]
  cases loadBase env r vol with
  | error e => rfl
  | ok base =>
      dsimp only
      rw [readHistory_congr fun k hk => get_fencedOff ?_]
      rintro rfl
      exact hk

/-- A mount takes the fence and replays its source. -/
theorem mount_source [Payload D] (env : Outside D S B) (vol : String) (clock : Nat → Int)
    (r : Remote D S B) : (mount env vol clock r).2 = fencedOff env vol r ∧
      (mount env vol clock r).1.map (·.image) =
        (mountSource env vol r).map fun source => source.2.foldl (replayEvent env clock) source.1 := by
  obtain ⟨infos, hfence⟩ := fence_exec vol (some (env.ulid r.draws)) r.store
  refine ⟨(mount_cases env vol clock r).1, ?_⟩
  rw [← mountSource_fencedOff, mountSource, fencedOff]
  simp only [mount, hfence, fold]
  cases loadBase env { r with store := fenced r.store vol (some (env.ulid r.draws)),
                              draws := r.draws + 1 } vol with
  | error e => rfl
  | ok base =>
      obtain ⟨base, start⟩ := base
      dsimp only
      cases readHistory (fenced r.store vol (some (env.ulid r.draws))) vol (.included start)
          .unbounded with
      | error e => rfl
      | ok events => rfl

/-! ## Two replays -/

/-- No node that a source replays into has the time of the replay. -/
def Settled (env : Outside D S B) (source : Except Error (FsImage × List (Event D))) : Prop :=
  ∀ base events, source = .ok (base, events) → ∀ q v, ¬ (dated env base events).Shows q v

/-- Replays of a settled source are equal at all clocks, and no others are. -/
theorem settled_iff (env : Outside D S B) (source : Except Error (FsImage × List (Event D))) :
    Settled env source ↔ ∀ base events, source = .ok (base, events) → ∀ clock clock' : Nat → Int,
      events.foldl (replayEvent env clock) base = events.foldl (replayEvent env clock') base := by
  refine forall_congr' fun base => forall_congr' fun events => imp_congr_right fun _ => ?_
  constructor
  · intro h clock clock'
    exact (replays_eq_iff env clock clock' events base).mpr fun q v hshows => absurd hshows (h q v)
  · intro h q v hshows
    have hone := (replays_eq_iff env (fun _ => 0) (fun _ => 1) events base).mp (h _ _) q v hshows
    cases hone

/-- A mount and the one after it build the same image, whatever their clocks. -/
def MountsAgree [Payload D] (env : Outside D S B) (vol : String) (r : Remote D S B) : Prop :=
  ∀ (clock clock' : Nat → Int) v v' r₁ r₂, mount env vol clock r = (.ok v, r₁) →
    mount env vol clock' r₁ = (.ok v', r₂) → v.image = v'.image

/-- Two replicas that open build the same image, whatever their clocks. -/
def OpensAgree (env : Outside D S B) (vol : String) (r : Remote D S B) : Prop :=
  ∀ (clock clock' : Nat → Int) replica replica', Replica.open env vol clock r = .ok replica →
    Replica.open env vol clock' r = .ok replica' → replica.image = replica'.image

/-- A mount and a replica that opens build the same image, whatever their clocks. -/
def MountOpenAgree [Payload D] (env : Outside D S B) (vol : String) (r : Remote D S B) : Prop :=
  ∀ (clock clock' : Nat → Int) v r₁ replica, mount env vol clock r = (.ok v, r₁) →
    Replica.open env vol clock' r = .ok replica → v.image = replica.image

/-- The image of a mount that succeeds. -/
theorem mount_image [Payload D] {env : Outside D S B} {vol : String} {clock : Nat → Int}
    {r r₁ : Remote D S B} {v : Volume} (h : mount env vol clock r = (.ok v, r₁)) :
    r₁ = fencedOff env vol r ∧ ∃ base events, mountSource env vol r = .ok (base, events) ∧
      v.image = events.foldl (replayEvent env clock) base := by
  obtain ⟨hr, himage⟩ := mount_source env vol clock r
  rw [h] at hr himage
  refine ⟨hr, ?_⟩
  cases hsource : mountSource env vol r with
  | error e =>
      rw [hsource] at himage
      cases himage
  | ok source =>
      rw [hsource] at himage
      exact ⟨_, _, rfl, Except.ok.inj himage⟩

theorem mount_of_source [Payload D] {env : Outside D S B} {vol : String} {r : Remote D S B}
    {base : FsImage} {events : List (Event D)} (h : mountSource env vol r = .ok (base, events))
    (clock : Nat → Int) : ∃ v, mount env vol clock r = (.ok v, fencedOff env vol r) ∧
      v.image = events.foldl (replayEvent env clock) base := by
  obtain ⟨hr, himage⟩ := mount_source env vol clock r
  rw [h] at himage
  cases hout : mount env vol clock r with
  | mk res r₁ =>
  rw [hout] at hr himage
  cases hr
  cases res with
  | error e => cases himage
  | ok v => exact ⟨v, rfl, Except.ok.inj himage⟩

theorem open_image {env : Outside D S B} {vol : String} {clock : Nat → Int} {r : Remote D S B}
    {replica : Replica} (h : Replica.open env vol clock r = .ok replica) :
    ∃ base events, openSource env vol r = .ok (base, events) ∧
      replica.image = events.foldl (replayEvent env clock) base := by
  have himage := open_source env vol clock r
  rw [h] at himage
  cases hsource : openSource env vol r with
  | error e =>
      rw [hsource] at himage
      cases himage
  | ok source =>
      rw [hsource] at himage
      exact ⟨_, _, rfl, Except.ok.inj himage⟩

/-- Two mounts agree at all clocks exactly if no node shows the time of the mount, and two
replicas if none shows the time of the opening.  A mount agrees with a replica, where both
replay the same deltas, in the latter case. -/
theorem replays_agree_iff [Payload D] (env : Outside D S B) (vol : String)
    (henv : env.Lawful vol) (deeds : List (Deed D S B))
    (hd : ∀ deed ∈ deeds, deed.Admitted env vol) :
    let r := (lived env vol deeds).remote
    (MountsAgree env vol r ↔ Settled env (mountSource env vol r)) ∧
      (OpensAgree env vol r ↔ Settled env (openSource env vol r)) ∧
      (Bootable env vol r.store → (MountOpenAgree env vol r ↔ Settled env (openSource env vol r))) := by
  have h := (Watched.lived henv deeds hd).tended
  dsimp only
  generalize (lived env vol deeds).remote = r at h ⊢
  rw [settled_iff, settled_iff]
  refine ⟨⟨fun hagree base events hsource clock clock' => ?_, ?_⟩,
    ⟨fun hagree base events hsource clock clock' => ?_, ?_⟩, fun hboot => ?_⟩
  · obtain ⟨v, hmount, himage⟩ := mount_of_source hsource clock
    obtain ⟨v', hmount', himage'⟩ :=
      mount_of_source ((mountSource_fencedOff env vol r).trans hsource) clock'
    rw [← himage, ← himage']
    exact hagree clock clock' v v' _ _ hmount hmount'
  · intro hsame clock clock' v v' r₁ r₂ hmount hmount'
    obtain ⟨rfl, base, events, hsource, himage⟩ := mount_image hmount
    obtain ⟨-, base', events', hsource', himage'⟩ := mount_image hmount'
    rw [mountSource_fencedOff, hsource] at hsource'
    cases hsource'
    rw [himage, himage']
    exact hsame base events hsource clock clock'
  · obtain ⟨replica, hopen, himage⟩ := open_of_source hsource clock
    obtain ⟨replica', hopen', himage'⟩ := open_of_source hsource clock'
    rw [← himage, ← himage']
    exact hagree clock clock' replica replica' hopen hopen'
  · intro hsame clock clock' replica replica' hopen hopen'
    obtain ⟨base, events, hsource, himage⟩ := open_image hopen
    obtain ⟨base', events', hsource', himage'⟩ := open_image hopen'
    rw [hsource] at hsource'
    cases hsource'
    rw [himage, himage']
    exact hsame base events hsource clock clock'
  · obtain ⟨start, hbase, hmerge⟩ := h.loadBase henv
    obtain ⟨v₀, events₀, -, hread, -, -, -⟩ := h.mount (fun _ => 0) hbase
    obtain ⟨base, events, hsource, hmixed⟩ := h.source_bootable hboot hbase hmerge hread
    have hmounts : mountSource env vol r = .ok (start, events₀) := by
      rw [mountSource, hbase]
      dsimp only
      rw [hread]
      rfl
    constructor
    · intro hagree base' events' hsource' clock clock'
      -- both replicas agree with one mount
      obtain ⟨v, hmount, -⟩ := mount_of_source hmounts clock
      obtain ⟨replica, hopen, himage⟩ := open_of_source hsource' clock
      obtain ⟨replica', hopen', himage'⟩ := open_of_source hsource' clock'
      rw [← himage, ← himage', ← hagree clock clock v _ replica hmount hopen]
      exact hagree clock clock' v _ replica' hmount hopen'
    · intro hsame clock clock' v r₁ replica hmount hopen
      obtain ⟨-, start', events', hsource', himage⟩ := mount_image hmount
      rw [hmounts] at hsource'
      cases hsource'
      obtain ⟨base', events', hsource', himage'⟩ := open_image hopen
      rw [hsource] at hsource'
      cases hsource'
      obtain ⟨readings, hreadings⟩ := hmixed clock
      rw [himage, himage', hreadings]
      exact hsame base events hsource readings clock'

end

/-- A directory is made and committed. -/
def directoryMade : List (Deed Delta Manifest (Segment ⊕ Bytes)) :=
  [.of (.mount fun _ => 1), .of (.mutate 1 (.mkdir "/a")), .of (.commit 1 stamps none)]

theorem directoryMade_admitted : ∀ deed ∈ directoryMade, deed.Admitted plain "v" := by
  simp [directoryMade, Deed.Admitted]

/-- Its time is left to the replay. -/
theorem unsettled_directoryMade :
    (∃ base events,
      mountSource plain "v" (lived plain "v" directoryMade).remote = .ok (base, events) ∧
        (dated plain base events).Shows "/a" 0) ∧
    ∃ base events,
      openSource plain "v" (lived plain "v" directoryMade).remote = .ok (base, events) ∧
        (dated plain base events).Shows "/a" 0 := by
  have hshows : ∀ source : Except Error (FsImage × List (Event Delta)),
      source.toOption.any (fun s => decide ((dated plain s.1 s.2).Shows "/a" 0)) = true →
        ∃ base events, source = .ok (base, events) ∧ (dated plain base events).Shows "/a" 0 := by
    intro source h
    cases source with
    | error e => cases h
    | ok s => exact ⟨s.1, s.2, rfl, of_decide_eq_true h⟩
  exact ⟨hshows _ (by decide +kernel), hshows _ (by decide +kernel)⟩

theorem replays_agree_iff_directoryMade :
    ¬ MountsAgree plain "v" (lived plain "v" directoryMade).remote ∧
      ¬ OpensAgree plain "v" (lived plain "v" directoryMade).remote ∧
      ¬ MountOpenAgree plain "v" (lived plain "v" directoryMade).remote := by
  obtain ⟨hmounts, hopens, hmixed⟩ :=
    replays_agree_iff plain "v" (plain_lawful "v") directoryMade directoryMade_admitted
  obtain ⟨⟨base, events, hsource, hshows⟩, base', events', hsource', hshows'⟩ :=
    unsettled_directoryMade
  have hboot : Bootable plain "v" (lived plain "v" directoryMade).remote.store := by
    refine .replayed (by decide +kernel) (by decide +kernel) fun v _ => ?_
    decide +kernel
  exact ⟨fun h => hmounts.mp h base events hsource "/a" 0 hshows,
    fun h => hopens.mp h base' events' hsource' "/a" 0 hshows',
    fun h => (hmixed hboot).mp h base' events' hsource' "/a" 0 hshows'⟩

/-- Replays of the directory at two times give it two times. -/
theorem replays_differ :
    (∀ deed ∈ directoryMade, deed.Admitted plain "v") ∧
    (∃ v v' r₁ r₂,
      mount plain "v" (fun _ => 4) (lived plain "v" directoryMade).remote = (.ok v, r₁) ∧
      mount plain "v" (fun _ => 5) r₁ = (.ok v', r₂) ∧ v.image ≠ v'.image) ∧
    (∃ replica replica',
      Replica.open plain "v" (fun _ => 4) (lived plain "v" directoryMade).remote = .ok replica ∧
      Replica.open plain "v" (fun _ => 5) (lived plain "v" directoryMade).remote = .ok replica' ∧
      replica.image ≠ replica'.image) := by
  obtain ⟨⟨base, events, hsource, hshows⟩, base', events', hsource', hshows'⟩ :=
    unsettled_directoryMade
  have hdiffer : ∀ {base events}, (dated plain base events).Shows "/a" 0 →
      events.foldl (replayEvent plain fun _ => 4) base ≠
        events.foldl (replayEvent plain fun _ => 5) base := by
    intro base events hshows heq
    have hfour := (replays_eq_iff plain (fun _ => 4) (fun _ => 5) events base).mp heq "/a" 0 hshows
    cases hfour
  refine ⟨directoryMade_admitted, ?_, ?_⟩
  · obtain ⟨v, hmount, himage⟩ := mount_of_source hsource fun _ => 4
    obtain ⟨v', hmount', himage'⟩ :=
      mount_of_source ((mountSource_fencedOff plain "v" _).trans hsource) fun _ => 5
    refine ⟨v, v', _, _, hmount, hmount', ?_⟩
    rw [himage, himage']
    exact hdiffer hshows
  · obtain ⟨replica, hopen, himage⟩ := open_of_source hsource' fun _ => 4
    obtain ⟨replica', hopen', himage'⟩ := open_of_source hsource' fun _ => 5
    refine ⟨replica, replica', hopen, hopen', ?_⟩
    rw [himage, himage']
    exact hdiffer hshows'

end Landslide.Fuse
