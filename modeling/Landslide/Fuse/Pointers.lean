import Landslide.Fuse.Commit
import Landslide.Fuse.Steps
import Landslide.Snapshots
import Landslide.Txn.Rely

/-!
# Data before pointers

Any number of processes mount volumes of one store and one bucket, change them, commit and
checkpoint, call by call in any order.  Calls fail, writes that fail may have landed, and
processes stop anywhere.  Others may fork, trim, purge and delete the streams at any time.

Whatever happens, every block that a committed event or a segment of a published manifest
names is in the bucket, and so is every segment of a published manifest
(`data_before_pointers`).  Nothing that was uploaded is ever taken away or overwritten by
something else (`Onward`), so what a process has seen uploaded it may point to later.
-/

namespace Landslide.Fuse

open Std TxnKv

/-! ## References to blocks -/

def Data.refs : Data → List BlockRef
  | .inline _ => []
  | .blocks refs => refs

def Content.refs : Content → List BlockRef
  | .inline _ => []
  | .blocks refs _ => refs

def Node.refs : Node → List BlockRef
  | .file content _ => content.refs
  | _ => []

def Delta.refs : Delta → List BlockRef
  | .write _ _ data => data.refs
  | _ => []

@[simp] theorem Data.refs_blocks (refs : List BlockRef) : (Data.blocks refs).refs = refs := rfl

@[simp] theorem Delta.refs_write (path : String) (offset : Nat) (data : Data) :
    (Delta.write path offset data).refs = data.refs := rfl

@[simp] theorem Node.refs_mapAttrs (f : NodeMeta → NodeMeta) (node : Node) :
    (node.mapAttrs f).refs = node.refs := by
  cases node <;> rfl

section

variable {K K' : BlockRef → Prop}

/-- All references of an image are in `K`. -/
def FsImage.RefsIn (K : BlockRef → Prop) (image : FsImage) : Prop :=
  ∀ p node, image.get p = some node → ∀ ref ∈ node.refs, K ref

/-- All references of the nodes that a segment enters are in `K`. -/
def RefsIn (K : BlockRef → Prop) (entries : ExtTreeMap String (Option Node) compare) : Prop :=
  ∀ (p : String) (node : Node), entries[p]? = some (some node) → ∀ ref ∈ node.refs, K ref

namespace FsImage

theorem RefsIn.mono {image : FsImage} (h : image.RefsIn K) (hK : ∀ ref, K ref → K' ref) :
    image.RefsIn K' :=
  fun p node hget ref href => hK ref (h p node hget ref href)

theorem RefsIn.empty (K : BlockRef → Prop) : ({} : FsImage).RefsIn K := by
  intro p node hget
  simp [FsImage.get] at hget

/-- An image whose nodes are all nodes of another one. -/
theorem RefsIn.of_nodes {a b : FsImage} (h : a.RefsIn K)
    (hnodes : ∀ p node, b.get p = some node → ∃ q, a.get q = some node) : b.RefsIn K := by
  intro p node hget
  obtain ⟨q, hq⟩ := hnodes p node hget
  exact h q node hq

theorem RefsIn.insert {image : FsImage} (h : image.RefsIn K) (path : String) {node : Node}
    (hnode : ∀ ref ∈ node.refs, K ref) :
    ({ nodes := image.nodes.insert path node } : FsImage).RefsIn K := by
  intro p node' hget
  rw [get_insert] at hget
  by_cases hp : p = path
  · rw [hp, Function.update_self] at hget
    exact Option.some.inj hget ▸ hnode
  · rw [Function.update_of_ne hp] at hget
    exact h p node' hget

theorem RefsIn.remove {image : FsImage} (h : image.RefsIn K) (path : String) :
    (image.remove path).RefsIn K := by
  refine h.of_nodes fun p node hget => ⟨p, ?_⟩
  rw [get_remove, Subtree.erase] at hget
  split at hget
  · cases hget
  · exact hget

theorem RefsIn.move {image : FsImage} (h : image.RefsIn K) (p q : String) :
    (image.move p q).RefsIn K := by
  cases hp : image.get p with
  | none => rwa [move_none hp]
  | some node =>
      refine h.of_nodes fun x node' hget => ?_
      rw [get_move hp] at hget
      by_cases hx : x = q
      · rw [hx, Function.update_self] at hget
        exact ⟨p, hp.trans hget⟩
      · rw [Function.update_of_ne hx] at hget
        by_cases hxp : x = p
        · rw [hxp, Function.update_self] at hget
          cases hget
        · rw [Function.update_of_ne hxp] at hget
          exact ⟨x, hget⟩

theorem RefsIn.moves {f : String → String} {paths : List String} {image : FsImage}
    (h : image.RefsIn K) : (paths.foldl (fun image p => image.move p (f p)) image).RefsIn K := by
  induction paths generalizing image with
  | nil => exact h
  | cons p paths ih => exact ih (h.move p (f p))

theorem RefsIn.modify {image : FsImage} (h : image.RefsIn K) (path : String)
    (f : NodeMeta → NodeMeta) :
    ({ nodes := image.nodes.modify path (.mapAttrs f) } : FsImage).RefsIn K := by
  intro p node hget
  rw [get_modify] at hget
  by_cases hp : p = path
  · rw [hp, Function.update_self] at hget
    obtain ⟨node', hnode', rfl⟩ := Option.map_eq_some_iff.mp hget
    rw [Node.refs_mapAttrs]
    exact h path node' hnode'
  · rw [Function.update_of_ne hp] at hget
    exact h p node hget

/-- A delta adds its own references only. -/
theorem RefsIn.apply {image : FsImage} (h : image.RefsIn K) (now : Int) {d : Delta}
    (hd : ∀ ref ∈ d.refs, K ref) : (image.apply now d).RefsIn K := by
  cases d with
  | write path offset data =>
      refine h.insert path ?_
      cases data with
      | blocks refs => exact hd
      | inline bytes =>
          rw [written]
          split <;> exact fun ref href => by cases href
  | mkdir path =>
      intro p node hget
      rw [get_mkdir] at hget
      by_cases hp : p = path
      · rw [hp, Function.update_self, Option.some_inj] at hget
        cases hold : image.get path with
        | none =>
            rw [hold] at hget
            exact hget ▸ fun ref href => by cases href
        | some old =>
            rw [hold] at hget
            exact hget ▸ h path old hold
      · rw [Function.update_of_ne hp] at hget
        exact h p node hget
  | remove path => exact h.remove path
  | rename source dest => exact (h.move source dest).moves
  | symlink path target => exact h.insert path fun ref href => by cases href
  | setAttr path mode uid gid mtimeMs => exact h.modify path _
  | setXattr path name value => exact h.modify path _

/-- Merging a segment adds the references of its entries. -/
theorem RefsIn.mergeSegment {image : FsImage} (h : image.RefsIn K) {segment : Segment}
    (hseg : Fuse.RefsIn K segment.entries) : (image.mergeSegment segment).RefsIn K := by
  have hentries : ∀ entry ∈ segment.entries.toList, ∀ node, entry.2 = some node →
      ∀ ref ∈ node.refs, K ref := by
    rintro ⟨p, o⟩ hmem node rfl
    exact hseg p node (ExtTreeMap.mem_toList_iff_getElem?_eq_some.mp hmem)
  rw [FsImage.mergeSegment]
  generalize segment.entries.toList = entries at hentries
  induction entries generalizing image with
  | nil => exact h
  | cons entry entries ih =>
      refine ih ?_ fun e he => hentries e (List.mem_cons_of_mem _ he)
      rw [mergeEntry]
      cases hentry : entry.2 with
      | none => exact h.remove entry.1
      | some node => exact h.insert entry.1 (hentries entry List.mem_cons_self node hentry)

end FsImage

theorem RefsIn.insert {entries : ExtTreeMap String (Option Node) compare} (h : RefsIn K entries)
    (path : String) {o : Option Node} (ho : ∀ node, o = some node → ∀ ref ∈ node.refs, K ref) :
    RefsIn K (entries.insert path o) := by
  intro p node hget
  rw [ExtTreeMap.getElem?_insert] at hget
  split at hget
  · exact ho node (Option.some.inj hget)
  · exact h p node hget

/-- The entries and the running image of a fold refer to what is in `K` only. -/
structure DeltaImage.RefsIn (K : BlockRef → Prop) (delta : DeltaImage) : Prop where
  entries : Fuse.RefsIn K delta.entries
  live : delta.live.RefsIn K

theorem RefsIn.enterMoved {live : FsImage} (hlive : live.RefsIn K) (source dest : String)
    {paths : List String} {entries : ExtTreeMap String (Option Node) compare}
    (h : RefsIn K entries) :
    RefsIn K (paths.foldl (DeltaImage.enterMoved live source dest) entries) := by
  induction paths generalizing entries with
  | nil => exact h
  | cons p paths ih =>
      refine ih ?_
      rw [DeltaImage.enterMoved]
      split
      · next node hnode =>
        exact (h.insert p (by rintro _ ⟨⟩)).insert _ fun node' heq =>
          Option.some.inj heq ▸ hlive p node hnode
      · exact h

theorem RefsIn.enterGone {paths : List String}
    {entries : ExtTreeMap String (Option Node) compare} (h : RefsIn K entries) :
    RefsIn K (paths.foldl (fun entries p => entries.insert p none) entries) := by
  induction paths generalizing entries with
  | nil => exact h
  | cons p paths ih => exact ih (h.insert p (by rintro _ ⟨⟩))

theorem DeltaImage.RefsIn.apply {delta : DeltaImage} (h : delta.RefsIn K) (now : Int) {d : Delta}
    (hd : ∀ ref ∈ d.refs, K ref) : (delta.apply now d).RefsIn K := by
  have hlive : (delta.live.apply now d).RefsIn K := h.live.apply now hd
  -- a delta about one path enters the node that it leaves there
  have hentered : ∀ path node, (delta.live.apply now d).get path = some node →
      Fuse.RefsIn K (delta.entries.insert path (some node)) := fun path node hnode =>
    h.entries.insert path fun node' heq => Option.some.inj heq ▸ hlive path node hnode
  cases d with
  | remove path => exact ⟨(h.entries.insert path (by rintro _ ⟨⟩)).enterGone, hlive⟩
  | rename source dest =>
      refine ⟨RefsIn.enterMoved h.live source dest ?_, hlive⟩
      split
      · next node hnode =>
        exact (h.entries.insert source (by rintro _ ⟨⟩)).insert dest fun node' heq =>
          Option.some.inj heq ▸ h.live source node hnode
      · exact h.entries.insert source (by rintro _ ⟨⟩)
  | write path | mkdir path | symlink path | setAttr path | setXattr path =>
      rw [DeltaImage.apply]
      split
      · next node hnode => exact ⟨hentered path node hnode, hlive⟩
      · exact ⟨h.entries, hlive⟩

end

/-! ## What the bucket holds -/

section

variable {D S B : Type}

def HasBlock (env : Outside D S B) (bucket : Bucket B) (b : Bytes) : Prop :=
  (bucket (env.blockPath (env.sha256 b))).isSome = true

/-- The bucket has the block of a reference. -/
def Uploaded (env : Outside D S B) (bucket : Bucket B) (ref : BlockRef) : Prop :=
  ∃ b, ref = blockRef env b ∧ HasBlock env bucket b

/-- The bucket has a segment at a path that was drawn, and all of its blocks. -/
def Sealed (env : Outside D S B) (r : Remote D S B) (path : String) : Prop :=
  ∃ vol i object segment, i < r.draws ∧ path = env.segmentPath vol i ∧
    r.bucket path = some object ∧ env.segment.decode object = .ok segment ∧
      RefsIn (Uploaded env r.bucket) segment.entries

/-- What the events and manifests of a store point to is in the bucket. -/
structure Grounded (env : Outside D S B) (r : Remote D S B) (σ : Db D S) : Prop where
  records : ∀ stream v e d, σ.get (.record stream v) = some e →
    env.delta.decode e.data = .ok d → ∀ ref ∈ d.refs, Uploaded env r.bucket ref
  manifests : ∀ stream n snap m, σ.get (.snap stream n) = some snap →
    env.manifest.decode snap.state = .ok m → ∀ path ∈ m.segments, Sealed env r path

/-- What holds of the store and the bucket all along. -/
structure Backing (env : Outside D S B) (r : Remote D S B) : Prop where
  addressed : Addressed env r.bucket
  grounded : Grounded env r r.store

/-- Later nothing that was drawn or uploaded is gone or something else. -/
structure Onward (env : Outside D S B) (r r' : Remote D S B) : Prop where
  draws : r.draws ≤ r'.draws
  segments : ∀ vol i, i < r.draws →
    r'.bucket (env.segmentPath vol i) = r.bucket (env.segmentPath vol i)
  blocks : ∀ b, HasBlock env r.bucket b → HasBlock env r'.bucket b

variable {env : Outside D S B} {r r' r'' : Remote D S B}

namespace Onward

theorem refl (r : Remote D S B) : Onward env r r := ⟨Nat.le_refl _, fun _ _ _ => rfl, fun _ h => h⟩

theorem trans (h : Onward env r r') (h' : Onward env r' r'') : Onward env r r'' where
  draws := h.draws.trans h'.draws
  segments vol i hi := (h'.segments vol i (hi.trans_le h.draws)).trans (h.segments vol i hi)
  blocks b hb := h'.blocks b (h.blocks b hb)

theorem uploaded (h : Onward env r r') {ref : BlockRef} (href : Uploaded env r.bucket ref) :
    Uploaded env r'.bucket ref := by
  obtain ⟨b, hb, hsome⟩ := href
  exact ⟨b, hb, h.blocks b hsome⟩

theorem sealed (h : Onward env r r') {path : String} (hpath : Sealed env r path) :
    Sealed env r' path := by
  obtain ⟨vol, i, object, segment, hi, rfl, hobj, hdec, hrefs⟩ := hpath
  exact ⟨vol, i, object, segment, hi.trans_le h.draws, rfl, (h.segments vol i hi).trans hobj, hdec,
    fun p node hget ref href => h.uploaded (hrefs p node hget ref href)⟩

theorem grounded (h : Onward env r r') {σ : Db D S} (hσ : Grounded env r σ) :
    Grounded env r' σ where
  records stream v e d hget hdec ref href := h.uploaded (hσ.records stream v e d hget hdec ref href)
  manifests stream n snap m hget hdec path hpath :=
    h.sealed (hσ.manifests stream n snap m hget hdec path hpath)

/-- A change of the store only, or of the draws. -/
theorem of_bucket (hbucket : r'.bucket = r.bucket) (hdraws : r.draws ≤ r'.draws) :
    Onward env r r' where
  draws := hdraws
  segments vol i _ := by rw [hbucket]
  blocks b hb := by rwa [hbucket]

end Onward

/-! ## Steps of the store -/

namespace Grounded

variable {σ σ' : Db D S}

/-- A store with fewer records and the same snapshots. -/
theorem of_less (h : Grounded env r σ)
    (hrec : ∀ stream v e, σ'.get (.record stream v) = some e → σ.get (.record stream v) = some e)
    (hsnap : ∀ stream n, σ'.get (.snap stream n) = σ.get (.snap stream n)) :
    Grounded env r σ' where
  records stream v e d hget := h.records stream v e d (hrec stream v e hget)
  manifests stream n snap m hget := h.manifests stream n snap m ((hsnap stream n).symm.trans hget)

/-- A batch whose deltas point to what is in the bucket. -/
theorem append (h : Grounded env r σ) {req : AppendReq D} {seq : Nat} {info : CommitInfo}
    (happ : Appended req seq σ info σ')
    (hevents : ∀ e ∈ req.events, ∀ d, env.delta.decode e.data = .ok d →
      ∀ ref ∈ d.refs, Uploaded env r.bucket ref) : Grounded env r σ' where
  records stream v e d hget hdec := by
    by_cases hin : stream = req.stream ∧ info.firstVersion ≤ v ∧ v ≤ info.lastVersion
    · obtain ⟨rfl, hlo, hhi⟩ := hin
      have hlast := happ.last
      have hlt : v - info.firstVersion < req.events.length := by omega
      obtain ⟨e', he', hcarries, -⟩ := happ.records _ _ (List.getElem?_eq_getElem hlt)
      rw [Nat.add_sub_cancel' hlo, hget, Option.some_inj] at he'
      refine hevents _ (List.getElem_mem hlt) d ?_
      rw [← hcarries.2.1, ← he']
      exact hdec
    · refine h.records stream v e d ?_ hdec
      rw [← hget]
      refine (happ.frame _ (by simp) (fun w hlo hhi heq => ?_) (by simp)).symm
      cases heq
      exact hin ⟨rfl, hlo, hhi⟩
  manifests stream n snap m hget hdec := by
    refine h.manifests stream n snap m ?_ hdec
    rw [← hget]
    exact (happ.frame _ (by simp) (by simp) (by simp)).symm

/-- A manifest whose segments are in the bucket. -/
theorem publish (h : Grounded env r σ) {stream : String} {entry : CompactionRecord} {state : S}
    {ulid : String} (hstate : ∀ m, env.manifest.decode state = .ok m →
      ∀ path ∈ m.segments, Sealed env r path) :
    Grounded env r (published σ stream entry state ulid) where
  records stream' v e d hget := by
    rw [get_published_of_ne (by simp) (by simp) (by simp)] at hget
    exact h.records stream' v e d hget
  manifests stream' n snap m hget hdec := by
    by_cases hnew : Key.snap stream' n = .snap stream (seqOf σ + 1)
    · cases hnew
      rw [get_published_self, Option.some_inj] at hget
      rw [← hget] at hdec
      exact hstate m hdec
    · rw [get_published_snap_of_ne _ _ _ hnew] at hget
      exact h.manifests stream' n snap m hget hdec

end Grounded

/-- What the code relies on for all volumes of a bucket: a ULID is drawn once. -/
structure Outside.Sound (env : Outside D S B) : Prop extends env.Hashing where
  lawful : ∀ vol, env.Lawful vol
  drawn : ∀ vol vol' i j, env.segmentPath vol i = env.segmentPath vol' j → i = j

/-- A call that leaves the store and the bucket. -/
theorem Backing.same (h : Backing env r) : Backing env r ∧ Onward env r r := ⟨h, .refl r⟩

/-- A token or a path was drawn, and not used. -/
theorem Backing.draw (h : Backing env r) :
    Backing env { r with draws := r.draws + 1 } ∧ Onward env r { r with draws := r.draws + 1 } := by
  have hon : Onward env r { r with draws := r.draws + 1 } := .of_bucket rfl (Nat.le_succ _)
  exact ⟨⟨h.addressed, hon.grounded h.grounded⟩, hon⟩

/-- A store that stands for what is in the bucket. -/
theorem Backing.store (h : Backing env r) {σ : Db D S} (hσ : Grounded env r σ) :
    Backing env { r with store := σ } ∧ Onward env r { r with store := σ } := by
  have hon : Onward env r { r with store := σ } := .of_bucket rfl (Nat.le_refl _)
  exact ⟨⟨h.addressed, hon.grounded hσ⟩, hon⟩

/-! ## Parts of reads -/

/-- A part of a read whose outcome does not matter. -/
theorem yields_skip {α β : Type} {I : Db D S → Prop} {Q : Except Error β → Prop}
    {p : KvM D S Error α} {f : α → KvM D S Error β} (herr : ∀ e, Q (.error e))
    (hf : ∀ a, (f a).Yields I Q) : (p >>= f).Yields I Q :=
  Prog.Yields.bind (Q := fun _ => True) (Prog.yields_of_forall fun _ => trivial)
    (fun e _ => herr e) fun a _ => hf a

/-- All events that are returned are in `P`. -/
def EventsIn (P : Event D → Prop) (res : Except Error (List (Event D))) : Prop :=
  ∀ events, res = .ok events → ∀ e ∈ events, P e

theorem EventsIn.error (P : Event D → Prop) (e : Error) : EventsIn P (.error e) :=
  fun _ heq => by cases heq

theorem EventsIn.nil (P : Event D → Prop) : EventsIn P (.ok []) := by
  intro events heq e he
  cases heq
  cases he

/-- Every event of a read is a record of a state that was read. -/
theorem readEvents_yields {I : Db D S → Prop} {P : Event D → Prop}
    (hP : ∀ σ stream v e, I σ → σ.get (.record stream v) = some e → P (.fromParts e))
    (stream : String) (lo : Nat) (hi : Option Nat) :
    (readEvents stream lo hi : KvM D S Error _).Yields I (EventsIn P) := by
  rw [readEvents]
  refine yields_skip (EventsIn.error P) fun trim => yields_skip (EventsIn.error P) fun deleted =>
    yields_skip (EventsIn.error P) fun ceiling => yields_skip (EventsIn.error P) fun windows => ?_
  dsimp only
  split
  · exact EventsIn.nil P
  · intro σ hσ events heq e he
    cases heq
    obtain ⟨envelope, henv, rfl⟩ := List.mem_map.mp he
    obtain ⟨⟨k, value⟩, hrow, hof⟩ := List.mem_filterMap.mp (List.mem_filter.mp henv).1
    have hget := (Store.mem_scan.mp hrow).2
    cases k with
    | record s v =>
        cases hof
        exact hP σ s v _ hσ hget
    | _ => cases hof

theorem resolveHistory_yields {I : Db D S → Prop} {P : Event D → Prop}
    (hP : ∀ σ stream v e, I σ → σ.get (.record stream v) = some e → P (.fromParts e)) :
    ∀ (depth : Nat) (stream : String) (visited : List String) (lo : Nat) (hi : Option Nat),
      (resolveHistory depth stream visited lo hi : KvM D S Error _).Yields I (EventsIn P) := by
  intro depth
  induction depth with
  | zero => exact fun stream visited lo hi => EventsIn.error P _
  | succ depth ih =>
      intro stream visited lo hi
      rw [resolveHistory]
      split
      · exact EventsIn.nil P
      · split
        · exact EventsIn.error P _
        · refine yields_skip (EventsIn.error P) fun f => ?_
          refine Prog.Yields.bind (Q := EventsIn P) ?_ (fun e _ => EventsIn.error P e)
            fun inherited hinherited => ?_
          · cases f with
            | none => exact EventsIn.nil P
            | some f =>
                dsimp only
                split
                · exact ih _ _ _ _
                · exact EventsIn.nil P
          · refine Prog.Yields.bind (readEvents_yields hP stream lo hi)
              (fun e _ => EventsIn.error P e) fun own hown => ?_
            intro events heq e he
            cases heq
            rcases List.mem_append.mp he with he | he
            · exact hinherited _ rfl e he
            · exact hown _ rfl e he

variable [Payload D]

variable (env) in
/-- What the processes rely on, and what they owe each other. -/
def sharing : Sharing (Io D S B) Io.Reply (Remote D S B) where
  does := Does env
  Inv := Backing env
  Later := Onward env
  refl := Onward.refl
  trans := Onward.trans

theorem Backing.fence (h : Backing env r) (vol : String) :
    Backing env (exec env (.fence vol) r).2 ∧ Onward env r (exec env (.fence vol) r).2 := by
  obtain ⟨infos, hexec⟩ := fence_exec (D := D) (S := S) vol (some (env.ulid r.draws)) r.store
  have hσ : Grounded env r (fenced r.store vol (some (env.ulid r.draws))) := by
    refine h.grounded.of_less (fun stream v e hget => ?_) fun stream n => ?_
    · rwa [get_fenced_of_ne _ _ _ (by simp)] at hget
    · exact get_fenced_of_ne _ _ _ (by simp)
  obtain ⟨hstore, hon⟩ := h.store hσ
  obtain ⟨hdraw, hon'⟩ := hstore.draw
  simp only [exec, hexec]
  exact ⟨hdraw, hon.trans hon'⟩

theorem Backing.append (h : Backing env r) (vol token : String) (expected : ExpectedVersion)
    {events : List (NewEvent D)} (stamps : Nat → Nat → Stamp)
    (hevents : ∀ e ∈ events, ∀ d, env.delta.decode e.data = .ok d →
      ∀ ref ∈ d.refs, Uploaded env r.bucket ref) :
    Backing env (exec env (.append vol token expected events stamps) r).2 ∧
      Onward env r (exec env (.append vol token expected events stamps) r).2 := by
  have hcases := commitAppends_exec_cases
    ({ stream := vol, expected := expected, fenceToken := some token, events := events } :
      AppendReq D) false stamps r.store
  change (∃ e, (Call.appendWithToken vol token expected events false stamps : Call D S).exec
    r.store = (.error e, r.store)) ∨ ∃ info σ₁, _ ∧
      (Call.appendWithToken vol token expected events false stamps : Call D S).exec r.store = _
    at hcases
  rcases hcases with ⟨e, hexec⟩ | ⟨info, σ₁, happ, hexec⟩
  · simp only [exec, hexec]
    exact h.same
  · simp only [exec, hexec]
    refine h.store ((h.grounded.append happ hevents).of_less (fun stream v e hget => ?_)
      fun stream n => ?_)
    · rwa [Store.get_put_of_ne _ _ (by simp)] at hget
    · exact Store.get_put_of_ne _ _ (by simp)

theorem Backing.publish (h : Backing env r) (vol : String) (entry : CompactionRecord)
    {state : S} (ulid : String) (hstate : ∀ m, env.manifest.decode state = .ok m →
      ∀ path ∈ m.segments, Sealed env r path) :
    Backing env (exec env (.publish vol entry state ulid) r).2 ∧
      Onward env r (exec env (.publish vol entry state ulid) r).2 := by
  simp only [exec, publishSnapshot_exec]
  exact h.store (h.grounded.publish hstate)

/-- An upload of a block under its hash. -/
theorem Backing.put (h : Backing env r) (henv : env.Sound) (b : Bytes) :
    Backing env (exec env (.put (env.blockPath (env.sha256 b)) (env.object b)) r).2 ∧
      Onward env r (exec env (.put (env.blockPath (env.sha256 b)) (env.object b)) r).2 := by
  have hon : Onward env r
      (exec env (.put (env.blockPath (env.sha256 b)) (env.object b)) r).2 := by
    refine ⟨Nat.le_refl _, fun vol i _ => ?_, fun b' hb' => ?_⟩
    · exact Function.update_of_ne ((henv.lawful vol).apart i _) _ _
    · show (Function.update r.bucket _ _ _).isSome = true
      by_cases heq : env.blockPath (env.sha256 b') = env.blockPath (env.sha256 b)
      · rw [heq, Function.update_self]
        rfl
      · rwa [Function.update_of_ne heq]
  exact ⟨⟨h.addressed.put henv.toHashing b, hon.grounded h.grounded⟩, hon⟩

/-- An upload of a segment under a path of its own. -/
theorem Backing.upload (h : Backing env r) (henv : env.Sound) (vol : String) (object : B) :
    Backing env (exec env (.upload vol object) r).2 ∧
      Onward env r (exec env (.upload vol object) r).2 := by
  have hblock : ∀ b, (exec env (.upload vol object) r).2.bucket (env.blockPath (env.sha256 b)) =
      r.bucket (env.blockPath (env.sha256 b)) := fun b =>
    Function.update_of_ne ((henv.lawful vol).apart _ _).symm _ _
  have hon : Onward env r (exec env (.upload vol object) r).2 := by
    refine ⟨Nat.le_succ _, fun vol' i hi => ?_, fun b hb => ?_⟩
    · refine Function.update_of_ne (fun heq => ?_) _ _
      exact absurd (henv.drawn vol' vol i r.draws heq) hi.ne
    · rwa [HasBlock, hblock]
  refine ⟨⟨fun b object' hget => ?_, hon.grounded h.grounded⟩, hon⟩
  rw [hblock] at hget
  exact h.addressed b object' hget

/-! ## Along a script -/

theorem amid_lift {α : Type} (res : Except Error α) :
    (.lift res : IoM D S B α).Amid (sharing env) (fun a _ => res = .ok a) r := by
  cases res with
  | ok a => rfl
  | error e => trivial

/-- Reads see one state after another, and each is a ground of what is in the bucket by the
end. -/
theorem amid_reads {α : Type} {p : KvM D S Error α} {Q : α → Remote D S B → Prop}
    (h : ∀ r', Onward env r r' →
      p.Yields (Grounded env r') fun res => ∀ a, res = .ok a → Q a r') :
    (IoM.reads p : IoM D S B α).Amid (sharing env) Q r := by
  induction p generalizing r with
  | pure a => exact h r (.refl r) a rfl
  | throw e => trivial
  | get k next ih =>
      rw [IoM.reads]
      intro s hinv hlater reply s' hdoes
      cases hdoes with
      | ok =>
          refine ⟨hinv.same, ih _ fun r' hon => ?_⟩
          exact h r' (hlater.trans hon) _ (hon.grounded hinv.grounded)
      | get => exact ⟨hinv.same, trivial⟩
  | scan range next ih =>
      rw [IoM.reads]
      intro s hinv hlater reply s' hdoes
      cases hdoes with
      | ok =>
          refine ⟨hinv.same, ih _ fun r' hon => ?_⟩
          exact h r' (hlater.trans hon) _ (hon.grounded hinv.grounded)
      | scan => exact ⟨hinv.same, trivial⟩
  | put k v next ih => exact ih h
  | delete k next ih => exact ih h
  | unmark k next ih => exact ih h

theorem amid_fetch (path : String) :
    (IoM.fetch path : IoM D S B B).Amid (sharing env) (fun object r => r.bucket path = some object)
      r := by
  intro s hinv hlater reply s' hdoes
  cases hdoes with
  | ok =>
      refine ⟨hinv.same, ?_⟩
      show (Script.lift (objectAt s.bucket path) : IoM D S B B).Amid _ _ _
      rw [objectAt]
      cases hobj : s.bucket path with
      | none => trivial
      | some object => exact hobj
  | fetch => exact ⟨hinv.same, trivial⟩

/-- An event that the store may hold. -/
def EventOk (env : Outside D S B) (r : Remote D S B) (e : Event D) : Prop :=
  ∀ d, env.delta.decode e.data = .ok d → ∀ ref ∈ d.refs, Uploaded env r.bucket ref

theorem amid_latestSnapshot (vol : String) :
    (IoM.reads (latestSnapshot vol) : IoM D S B _).Amid (sharing env)
      (fun o r => ∀ snap, o = some snap → ∀ m, env.manifest.decode snap.state = .ok m →
        ∀ path ∈ m.segments, Sealed env r path) r := by
  refine amid_reads fun r' _ σ hσ o heq snap hsnap m hdec => ?_
  cases heq
  obtain ⟨⟨k, value⟩, hrow, hof⟩ := List.mem_filterMap.mp (List.mem_of_getLast? hsnap)
  have hget := (Store.mem_scan.mp hrow).2
  cases k with
  | snap stream n =>
      cases hof
      exact hσ.manifests stream n _ m hget hdec
  | _ => cases hof

theorem amid_mergeSegments (henv : env.Sound) : ∀ (segments : List String) (image : FsImage)
    (r : Remote D S B), Backing env r → image.RefsIn (Uploaded env r.bucket) →
    (∀ path ∈ segments, Sealed env r path) →
    (IoM.mergeSegments env image segments : IoM D S B FsImage).Amid (sharing env)
      (fun image r => image.RefsIn (Uploaded env r.bucket)) r
  | [], image, r, _, himage, _ => himage
  | path :: segments, image, r, hinv, himage, hsegs => by
      rw [IoM.mergeSegments]
      refine (amid_fetch (env.path path)).bind hinv fun object r' hinv' hon hobj => ?_
      refine (amid_lift (env.segment.decode object)).bind hinv' fun
        segment r'' hinv'' hon' hdec => ?_
      have hall : ∀ p ∈ path :: segments, Sealed env r'' p := fun p hp =>
        hon'.sealed (hon.sealed (hsegs p hp))
      refine amid_mergeSegments henv segments _ r'' hinv'' ?_ fun p hp =>
        hall p (List.mem_cons_of_mem _ hp)
      refine (himage.mono fun ref href => hon'.uploaded (hon.uploaded href)).mergeSegment ?_
      -- the object that was fetched is the segment that the path was drawn for
      obtain ⟨vol, i, object', segment', hi, hpath, hobj', hdec', hrefs⟩ :=
        hon.sealed (hsegs path List.mem_cons_self)
      rw [hpath, (henv.lawful vol).stable, ← hpath, hobj', Option.some_inj] at hobj
      rw [hobj, hdec, Except.ok.injEq] at hdec'
      exact hdec' ▸ fun p node hget ref href => hon'.uploaded (hrefs p node hget ref href)

theorem amid_loadBase (henv : env.Sound) (hinv : Backing env r) (vol : String) :
    (IoM.loadBase env vol : IoM D S B (FsImage × Nat)).Amid (sharing env)
      (fun out r => out.1.RefsIn (Uploaded env r.bucket)) r := by
  rw [IoM.loadBase]
  refine (amid_latestSnapshot vol).bind hinv fun o r' hinv' _ ho => ?_
  cases o with
  | none => exact FsImage.RefsIn.empty _
  | some snap =>
      refine (amid_lift (env.manifest.decode snap.state)).bind hinv' fun m r'' hinv'' hon hdec => ?_
      refine (amid_mergeSegments henv m.segments {} r'' hinv'' (.empty _) fun path hpath =>
        hon.sealed (ho snap rfl m hdec path hpath)).bind hinv'' fun image r₃ _ _ himage => ?_
      exact himage

theorem amid_latestManifest (hinv : Backing env r) (vol : String) :
    (IoM.latestManifest env vol : IoM D S B Manifest).Amid (sharing env)
      (fun m r => ∀ path ∈ m.segments, Sealed env r path) r := by
  rw [IoM.latestManifest]
  refine (amid_latestSnapshot vol).bind hinv fun o r' hinv' _ ho => ?_
  cases o with
  | none => exact fun path hpath => by cases hpath
  | some snap =>
      show (Script.lift (env.manifest.decode snap.state) : IoM D S B Manifest).Amid _ _ _
      cases hdec : env.manifest.decode snap.state with
      | error e => trivial
      | ok m => exact ho snap rfl m hdec

/-- A fold keeps what its events keep. -/
theorem amid_fold {T : Type} (hinv : Backing env r) (P : Remote D S B → T → Prop)
    (hlater : ∀ r r' t, Onward env r r' → P r t → P r' t) (apply : T → Event D → T)
    (happly : ∀ r t e, P r t → EventOk env r e → P r (apply t e)) (depth : Nat) (vol : String)
    (start : Nat) (init : T) (hinit : P r init) :
    (IoM.fold depth vol start init apply : IoM D S B _).Amid (sharing env)
      (fun out r => P r out.1) r := by
  have hevents : (IoM.reads (resolveHistory depth vol [] start none) : IoM D S B _).Amid
      (sharing env) (fun events r => ∀ e ∈ events, EventOk env r e) r :=
    amid_reads fun r' _ => resolveHistory_yields
      (fun σ stream v e hσ hget d => hσ.records stream v e d hget) depth vol [] start none
  rw [IoM.fold]
  refine hevents.bind hinv fun events r' hinv' hon hok => ?_
  have hP : P r' init := hlater r r' init hon hinit
  show P r' (events.foldl apply init)
  clear hinit
  induction events generalizing init with
  | nil => exact hP
  | cons e events ih =>
      exact ih _ (fun e' he' => hok e' (List.mem_cons_of_mem _ he'))
        (happly r' init e hP (hok e List.mem_cons_self))

/-! ## Calls that write -/

theorem Does.fence_keeps (h : Backing env r) {vol : String} {reply : Except Error String}
    {r' : Remote D S B} (hdoes : Does env (.fence vol) r reply r') :
    Backing env r' ∧ Onward env r r' := by
  cases hdoes with
  | ok => exact h.fence vol
  | fence _ _ e landed =>
      cases landed with
      | true => exact h.fence vol
      | false => exact h.draw

theorem Does.append_keeps (h : Backing env r) {vol token : String} {expected : ExpectedVersion}
    {events : List (NewEvent D)} {stamps : Nat → Nat → Stamp} {reply : Except Error CommitInfo}
    {r' : Remote D S B} (hevents : ∀ e ∈ events, ∀ d, env.delta.decode e.data = .ok d →
      ∀ ref ∈ d.refs, Uploaded env r.bucket ref)
    (hdoes : Does env (.append vol token expected events stamps) r reply r') :
    Backing env r' ∧ Onward env r r' := by
  cases hdoes with
  | ok => exact h.append vol token expected stamps hevents
  | append _ _ _ _ _ _ e landed =>
      cases landed with
      | true => exact h.append vol token expected stamps hevents
      | false => exact h.same

theorem Does.publish_keeps (h : Backing env r) {vol : String} {entry : CompactionRecord}
    {state : S} {ulid : String} {reply : Except Error Unit} {r' : Remote D S B}
    (hstate : ∀ m, env.manifest.decode state = .ok m → ∀ path ∈ m.segments, Sealed env r path)
    (hdoes : Does env (.publish vol entry state ulid) r reply r') :
    Backing env r' ∧ Onward env r r' := by
  cases hdoes with
  | ok => exact h.publish vol entry ulid hstate
  | publish _ _ _ _ _ e landed =>
      cases landed with
      | true => exact h.publish vol entry ulid hstate
      | false => exact h.same

theorem Does.put_keeps (h : Backing env r) (henv : env.Sound) {b : Bytes}
    {reply : Except Error Unit} {r' : Remote D S B}
    (hdoes : Does env (.put (env.blockPath (env.sha256 b)) (env.object b)) r reply r') :
    Backing env r' ∧ Onward env r r' := by
  cases hdoes with
  | ok => exact h.put henv b
  | put _ _ _ e landed =>
      cases landed with
      | true => exact h.put henv b
      | false => exact h.same

theorem Does.upload_keeps (h : Backing env r) (henv : env.Sound) {vol : String} {object : B}
    {reply : Except Error String} {r' : Remote D S B}
    (hdoes : Does env (.upload vol object) r reply r') :
    Backing env r' ∧ Onward env r r' := by
  cases hdoes with
  | ok => exact h.upload henv vol object
  | upload _ _ _ e landed =>
      cases landed with
      | true => exact h.upload henv vol object
      | false => exact h.draw

theorem amid_fence (vol : String) :
    (IoM.fence vol : IoM D S B String).Amid (sharing env) (fun _ _ => True) r := by
  intro s hinv _ reply s' hdoes
  refine ⟨hdoes.fence_keeps hinv, ?_⟩
  cases reply <;> trivial

theorem amid_append (vol token : String) (expected : ExpectedVersion)
    (events : List (NewEvent D)) (stamps : Nat → Nat → Stamp)
    (hevents : ∀ e ∈ events, ∀ d, env.delta.decode e.data = .ok d →
      ∀ ref ∈ d.refs, Uploaded env r.bucket ref) :
    (IoM.append vol token expected events stamps : IoM D S B CommitInfo).Amid (sharing env)
      (fun _ _ => True) r := by
  intro s hinv hlater reply s' hdoes
  refine ⟨hdoes.append_keeps hinv fun e he d hdec ref href => ?_, ?_⟩
  · exact hlater.uploaded (hevents e he d hdec ref href)
  · cases reply <;> trivial

theorem amid_publish (vol : String) (entry : CompactionRecord) {state : S} (ulid : String)
    (hstate : ∀ m, env.manifest.decode state = .ok m → ∀ path ∈ m.segments, Sealed env r path) :
    (IoM.publish vol entry state ulid : IoM D S B Unit).Amid (sharing env) (fun _ _ => True) r := by
  intro s hinv hlater reply s' hdoes
  refine ⟨hdoes.publish_keeps hinv fun m hdec path hpath => ?_, ?_⟩
  · exact hlater.sealed (hstate m hdec path hpath)
  · cases reply <;> trivial

/-- An upload that succeeds seals the path that it returns. -/
theorem amid_upload (henv : env.Sound) (vol : String) {object : B} {segment : Segment}
    (hdec : env.segment.decode object = .ok segment)
    (hrefs : RefsIn (Uploaded env r.bucket) segment.entries) :
    (IoM.upload vol object : IoM D S B String).Amid (sharing env)
      (fun path r => Sealed env r path) r := by
  intro s hinv hlater reply s' hdoes
  obtain ⟨hinv', hon⟩ := hdoes.upload_keeps hinv henv
  refine ⟨⟨hinv', hon⟩, ?_⟩
  cases hdoes with
  | ok =>
      refine ⟨vol, s.draws, object, segment, Nat.lt_succ_self _, rfl, Function.update_self .., hdec,
        fun p node hget ref href => ?_⟩
      exact hon.uploaded (hlater.uploaded (hrefs p node hget ref href))
  | upload => trivial

/-! ## Blocks -/

/-- What is not reported missing is there. -/
theorem amid_missing : ∀ (bs : List Bytes) (r : Remote D S B), Backing env r →
    (IoM.missing env bs : IoM D S B (List Bytes)).Amid (sharing env)
      (fun lost r => ∀ b ∈ bs, b ∈ lost ∨ HasBlock env r.bucket b) r
  | [], r, _ => fun b hb => by cases hb
  | b :: bs, r, hinv => by
      rw [IoM.missing]
      refine (amid_fetch _).attempt.bind hinv fun found r' hinv' _ hfound => ?_
      refine (amid_missing bs r' hinv').bind hinv' fun rest r'' _ hon hrest => ?_
      cases found with
      | error e =>
          intro b' hb'
          rcases List.mem_cons.mp hb' with rfl | hb'
          · exact .inl List.mem_cons_self
          · exact (hrest b' hb').imp (List.mem_cons_of_mem _) id
      | ok object =>
          intro b' hb'
          rcases List.mem_cons.mp hb' with rfl | hb'
          · refine .inr (hon.blocks b' ?_)
            rw [HasBlock, hfound object rfl]
            rfl
          · exact hrest b' hb'

theorem amid_putBlocks (henv : env.Sound) : ∀ (bs : List Bytes) (r : Remote D S B),
    Backing env r → (IoM.putBlocks env bs : IoM D S B Unit).Amid (sharing env)
      (fun _ r => ∀ b ∈ bs, HasBlock env r.bucket b) r
  | [], r, _ => fun b hb => by cases hb
  | b :: bs, r, hinv => by
      have hput : (IoM.put (env.blockPath (env.sha256 b)) (env.object b) : IoM D S B Unit).Amid
          (sharing env) (fun _ r => HasBlock env r.bucket b) r := by
        intro s hs _ reply s' hdoes
        refine ⟨hdoes.put_keeps hs henv, ?_⟩
        cases hdoes with
        | ok =>
            show (Function.update s.bucket _ _ _).isSome = true
            rw [Function.update_self]
            rfl
        | put => trivial
      rw [IoM.putBlocks]
      refine hput.bind hinv fun _ r' hinv' _ hb => ?_
      refine ((amid_putBlocks henv bs r' hinv').frame (P := fun r => HasBlock env r.bucket b)
        (fun r r' hb (hon : Onward env r r') => hon.blocks b hb) hb).mono fun _ r h b' hb' => ?_
      rcases List.mem_cons.mp hb' with rfl | hb'
      · exact h.2
      · exact h.1 b' hb'

/-! ## What a commit writes -/

omit [Payload D] in
/-- A commit keeps references, or makes them of the chunks that it stores. -/
theorem upgrade_refs {K : BlockRef → Prop} {image : FsImage} {deltas : List Delta}
    {chunked : List String} (hdeltas : ∀ d ∈ deltas, ∀ ref ∈ d.refs, K ref)
    (hstore : ∀ b ∈ toStore image chunked deltas, K (blockRef env b)) :
    ∀ d ∈ upgrade env image chunked deltas, ∀ ref ∈ d.refs, K ref := by
  induction deltas generalizing chunked with
  | nil => exact fun d hd => by cases hd
  | cons d deltas ih =>
      rw [List.forall_mem_cons] at hdeltas
      have keep : (∀ b ∈ toStore image chunked deltas, K (blockRef env b)) →
          ∀ d' ∈ d :: upgrade env image chunked deltas, ∀ ref ∈ d'.refs, K ref := fun hrest =>
        List.forall_mem_cons.mpr ⟨hdeltas.1, ih hdeltas.2 hrest⟩
      cases d with
      | mkdir | remove | rename | symlink | setAttr | setXattr =>
          simp only [toStore] at hstore
          simp only [upgrade]
          exact keep hstore
      | write path offset data =>
          simp only [toStore] at hstore
          simp only [upgrade]
          split at hstore
          · next hin =>
            rw [if_pos hin]
            exact ih hdeltas.2 hstore
          · next hout =>
            rw [if_neg hout]
            cases hlarge : large image path with
            | none =>
                rw [hlarge] at hstore
                exact keep hstore
            | some content =>
                simp only [hlarge, List.forall_mem_append] at hstore
                dsimp only
                refine List.forall_mem_cons.mpr ⟨fun ref href => ?_, ih hdeltas.2 hstore.2⟩
                rw [Delta.refs_write, Data.refs_blocks] at href
                obtain ⟨b, hb, rfl⟩ := List.mem_map.mp href
                exact hstore.1 b hb

theorem FsImage.RefsIn.restated {K : BlockRef → Prop} {image : FsImage} (h : image.RefsIn K)
    (now : Int) {deltas : List Delta} (hd : ∀ d ∈ deltas, ∀ ref ∈ d.refs, K ref) :
    (Fuse.restated now image deltas).RefsIn K := by
  have hd' : ∀ d ∈ deltas.filter isBlocks, ∀ ref ∈ d.refs, K ref := fun d hmem =>
    hd d (List.mem_filter.mp hmem).1
  rw [Fuse.restated]
  clear hd
  generalize deltas.filter isBlocks = blocks at hd'
  induction blocks generalizing image with
  | nil => exact h
  | cons d deltas ih =>
      exact ih (h.apply now (hd' d List.mem_cons_self)) fun d' hmem =>
        hd' d' (List.mem_cons_of_mem _ hmem)

omit [Payload D] in
/-- The events of a commit carry its deltas. -/
theorem encodeDeltas_data : ∀ {deltas : List Delta} {events : List (NewEvent D)},
    encodeDeltas env deltas = .ok events →
    ∀ e ∈ events, ∃ d ∈ deltas, env.delta.encode d = .ok e.data
  | [], events, h, e, he => by
      cases h
      cases he
  | d :: deltas, events, h, e, he => by
      rw [encodeDeltas] at h
      split at h
      · cases h
      · next data hdata =>
        split at h
        · cases h
        · next rest hrest =>
          cases h
          rcases List.mem_cons.mp he with rfl | he
          · exact ⟨d, List.mem_cons_self, hdata⟩
          · obtain ⟨d', hd', henc⟩ := encodeDeltas_data hrest e he
            exact ⟨d', List.mem_cons_of_mem _ hd', henc⟩

/-! ## Volumes -/

/-- The files of a handle and the writes that it buffers are in the bucket. -/
structure Volume.Backed (env : Outside D S B) (v : Volume) (r : Remote D S B) : Prop where
  image : v.image.RefsIn (Uploaded env r.bucket)
  pending : ∀ d ∈ v.pending, ∀ ref ∈ d.refs, Uploaded env r.bucket ref

omit [Payload D] in
theorem Volume.Backed.later {v : Volume} (h : v.Backed env r) (hon : Onward env r r') :
    v.Backed env r' where
  image := h.image.mono fun _ => hon.uploaded
  pending d hd ref href := hon.uploaded (h.pending d hd ref href)

omit [Payload D] in
theorem Volume.Backed.mutate {v : Volume} (h : v.Backed env r) (now : Int) {d : Delta}
    (hd : ∀ ref ∈ d.refs, Uploaded env r.bucket ref) : (v.mutate now d).Backed env r where
  image := h.image.apply now hd
  pending d' hd' := by
    rcases List.mem_append.mp hd' with hd' | hd'
    · exact h.pending d' hd'
    · rw [List.mem_singleton.mp hd']
      exact hd

omit [Payload D] in
theorem Volume.Backed.truncate {v : Volume} (h : v.Backed env r) (now : Int) (bucket : Bucket B)
    (path : String) (size : Nat) : (v.truncate env now bucket path size).2.Backed env r := by
  rw [Volume.truncate]
  split
  · exact ⟨h.image, h.pending⟩
  · next content blocks hread =>
    have hcache : ({ v with blocks := blocks } : Volume).Backed env r := ⟨h.image, h.pending⟩
    refine (hcache.mutate now (d := .remove path) ?_).mutate now ?_ <;>
      exact fun ref href => by cases href

/-- A mount, whatever others do meanwhile and whatever fails. -/
theorem amid_mountScript (henv : env.Sound) (hinv : Backing env r) (vol : String)
    (clock : Nat → Int) (depth : Nat) :
    (mountScript env vol clock depth : IoM D S B Volume).Amid (sharing env)
      (fun v r => v.Backed env r) r := by
  rw [mountScript]
  refine (amid_fence vol).bind hinv fun token r' hinv' _ _ => ?_
  refine (amid_loadBase henv hinv' vol).bind hinv' fun base r'' hinv'' _ hbase => ?_
  have hfold := amid_fold hinv'' (fun r (image : FsImage) => image.RefsIn (Uploaded env r.bucket))
    (fun r r' image hon himage => himage.mono fun _ => hon.uploaded)
    (replayEvent env clock) (fun r image e himage he => ?_) depth vol base.2 base.1 hbase
  · refine hfold.bind hinv'' fun out r₃ _ _ hout => ?_
    exact ⟨hout, fun d hd => by cases hd⟩
  · rw [replayEvent]
    cases hdec : env.delta.decode e.data with
    | error err => exact himage
    | ok d => exact himage.apply _ (he d hdec)

/-- A commit appends no reference to a block before the block is there. -/
theorem amid_commitScript (henv : env.Sound) (hinv : Backing env r) {v : Volume}
    (hv : v.Backed env r) (now : Int) (stamps : Nat → Nat → Stamp) :
    (v.commitScript env now stamps : IoM D S B _).Amid (sharing env)
      (fun out r => out.2.Backed env r) r := by
  rw [Volume.commitScript]
  split
  · exact hv
  refine (amid_missing (toStore v.image [] v.pending) r hinv).bind hinv
    fun lost r₁ hinv₁ hon₁ hlost => ?_
  refine (amid_putBlocks henv lost r₁ hinv₁).attempt.bind hinv₁ fun out r₂ hinv₂ hon₂ hout => ?_
  have hv₂ : v.Backed env r₂ := (hv.later hon₁).later hon₂
  cases out with
  | error e => exact hv₂
  | ok u =>
      have hstored : ∀ b ∈ toStore v.image [] v.pending,
          Uploaded env r₂.bucket (blockRef env b) := by
        intro b hb
        refine ⟨b, rfl, (hlost b hb).elim (hout u rfl b) (hon₂.blocks b)⟩
      have hrefs : ∀ d ∈ v.upgraded env, ∀ ref ∈ d.refs, Uploaded env r₂.bucket ref :=
        upgrade_refs hv₂.pending hstored
      have hv₂' :
          ({ v with image := restated now v.image (v.upgraded env) } : Volume).Backed env r₂ :=
        ⟨hv₂.image.restated now hrefs, hv₂.pending⟩
      dsimp only
      cases hevents : encodeDeltas env (v.upgraded env) with
      | error e => exact hv₂'
      | ok events =>
          have happend : (IoM.append v.vol v.token (expected v.tail) events stamps :
              IoM D S B CommitInfo).Amid (sharing env) (fun _ _ => True) r₂ :=
            amid_append v.vol v.token _ events stamps fun e he d hdec ref href => by
              obtain ⟨d', hd', henc⟩ := encodeDeltas_data hevents e he
              obtain ⟨data, henc', hdec'⟩ := (henv.lawful v.vol).delta d'
              rw [henc, Except.ok.injEq] at henc'
              rw [henc', hdec', Except.ok.injEq] at hdec
              exact hrefs d' hd' ref (hdec ▸ href)
          refine happend.attempt.bind hinv₂ fun out r₃ _ hon₃ _ => ?_
          have hv₃ := hv₂'.later hon₃
          cases out with
          | error e => exact hv₃
          | ok info => exact ⟨hv₃.image, fun d hd => by cases hd⟩

/-- A checkpoint publishes no path before its segment is there. -/
theorem amid_install (henv : env.Sound) (hinv : Backing env r) (vol : String) (through : Nat)
    {segment : Segment} (hseg : RefsIn (Uploaded env r.bucket) segment.entries) (nowMs : Int)
    (ulid : String) :
    (IoM.install env vol through segment nowMs ulid : IoM D S B _).Amid (sharing env)
      (fun _ _ => True) r := by
  rw [IoM.install]
  refine (amid_lift (env.segment.encode segment)).bind hinv fun object r₁ hinv₁ hon₁ henc => ?_
  obtain ⟨object', henc', hdec⟩ := (henv.lawful vol).segment segment
  rw [henc, Except.ok.injEq] at henc'
  refine (amid_upload henv vol (henc' ▸ hdec) fun p node hget ref href =>
    hon₁.uploaded (hseg p node hget ref href)).bind hinv₁ fun path r₂ hinv₂ _ hpath => ?_
  refine (amid_latestManifest hinv₂ vol).bind hinv₂ fun manifest r₃ hinv₃ hon₃ hmanifest => ?_
  refine (amid_lift (env.manifest.encode { segments := manifest.segments ++ [path] })).bind hinv₃
    fun state r₄ hinv₄ hon₄ hstate => ?_
  refine (amid_publish vol _ ulid fun m hm p hp => ?_).bind hinv₄ fun _ _ _ _ _ => trivial
  obtain ⟨state', hstate', hdec'⟩ :=
    (henv.lawful vol).manifest { segments := manifest.segments ++ [path] }
  rw [hstate, Except.ok.injEq] at hstate'
  rw [hstate', hdec', Except.ok.injEq] at hm
  rw [← hm] at hp
  rcases List.mem_append.mp hp with hp | hp
  · exact hon₄.sealed (hmanifest p hp)
  · rw [List.mem_singleton.mp hp]
    exact hon₄.sealed (hon₃.sealed hpath)

theorem amid_sealScript (henv : env.Sound) (hinv : Backing env r) (now : Int) (clock : Nat → Int)
    (ulid : String) (depth : Nat) (v : Volume) :
    (v.sealScript env now clock ulid depth : IoM D S B _).Amid (sharing env)
      (fun _ _ => True) r := by
  rw [Volume.sealScript]
  split
  · trivial
  · next through htail =>
    refine (amid_loadBase henv hinv v.vol).bind hinv fun base r' hinv' _ hbase => ?_
    have hfold := amid_fold hinv'
      (fun r (delta : DeltaImage) => delta.RefsIn (Uploaded env r.bucket))
      (fun r r' delta hon hdelta => ⟨fun p node hget ref href =>
        hon.uploaded (hdelta.entries p node hget ref href), hdelta.live.mono fun _ => hon.uploaded⟩)
      (DeltaImage.replayEvent env clock) (fun r delta e hdelta he => ?_) depth v.vol base.2
      { live := base.1 } ⟨fun p node hget => by simp at hget, hbase⟩
    · refine hfold.bind hinv' fun out r'' hinv'' _ hout => ?_
      exact amid_install henv hinv'' v.vol through hout.entries now ulid
    · rw [DeltaImage.replayEvent]
      cases hdec : env.delta.decode e.data with
      | error err => exact hdelta
      | ok d => exact hdelta.apply _ (he d hdec)

theorem amid_checkpointScript (henv : env.Sound) (hinv : Backing env r) {v : Volume}
    (hv : v.Backed env r) (now : Int) (stamps : Nat → Nat → Stamp) (clock : Nat → Int)
    (ulid : String) (depth : Nat) :
    (v.checkpointScript env now stamps clock ulid depth : IoM D S B _).Amid (sharing env)
      (fun out r => out.2.Backed env r) r := by
  rw [Volume.checkpointScript]
  refine (amid_commitScript henv hinv hv now stamps).bind hinv fun out r' hinv' _ hout => ?_
  obtain ⟨res, v'⟩ := out
  cases res with
  | error e => exact hout
  | ok u =>
      refine (amid_sealScript henv hinv' now clock ulid depth v').attempt.bind hinv'
        fun entry r'' _ hon _ => ?_
      exact hout.later hon

/-! ## Pools -/

/-- A process starts with a mount. -/
def Mounting (env : Outside D S B) (p : IoM D S B Volume) : Prop :=
  ∃ vol clock depth, p = mountScript env vol clock depth

/-- What a process does next with its handle.  A buffered write may refer to what is in the
bucket, and the bucket may answer a truncation with anything. -/
inductive Going (env : Outside D S B) (v : Volume) (r : Remote D S B) : IoM D S B Volume → Prop where
  | mutate (now : Int) (d : Delta) : (∀ ref ∈ d.refs, Uploaded env r.bucket ref) →
      Going env v r (return v.mutate now d)
  | truncate (now : Int) (bucket : Bucket B) (path : String) (size : Nat) :
      Going env v r (return (v.truncate env now bucket path size).2)
  | commit (now : Int) (stamps : Nat → Nat → Stamp) :
      Going env v r (v.commitScript env now stamps >>= fun out => return out.2)
  | checkpoint (now : Int) (stamps : Nat → Nat → Stamp) (clock : Nat → Int) (ulid : String)
      (depth : Nat) :
      Going env v r (v.checkpointScript env now stamps clock ulid depth >>= fun out => return out.2)

/-- Others fence, fork, trim, purge and delete streams. -/
def Beside (r r' : Remote D S B) : Prop :=
  ∃ (call : Call D S) (infos : List CommitInfo) (σ : Db D S), ¬ call.Stamps ∧
    call.Effect r.store infos σ ∧ r' = { r with store := σ }

/-- The pools of processes over an empty store and an empty bucket. -/
def Running (env : Outside D S B) : Pool (Io D S B) Io.Reply Error Volume (Remote D S B) → Prop :=
  Pool.Reached (Does env) (Mounting env) (Going env) Beside {}

omit [Payload D] in
/-- Calls that append and publish nothing leave what the store points to. -/
theorem Grounded.effect {σ σ' : Db D S} (h : Grounded env r σ) {call : Call D S}
    {infos : List CommitInfo} (hstamps : ¬ call.Stamps) (heffect : call.Effect σ infos σ') :
    Grounded env r σ' := by
  have less : (∀ k : Key, (∀ v, k ≠ .fence v) → (∀ v, k ≠ .fork v) → (∀ v, k ≠ .tail v) →
      (∀ v w, k ≠ .forks v w) → (∀ v w, k ≠ .rollback v w) → (∀ v, k ≠ .trim v) →
      (∀ v, k ≠ .deleted v) → σ'.get k = σ.get k) → Grounded env r σ' := fun hframe =>
    h.of_less (fun stream v e hget => by rwa [hframe _ (by simp) (by simp) (by simp) (by simp)
      (by simp) (by simp) (by simp)] at hget) fun stream n => hframe _ (by simp) (by simp)
        (by simp) (by simp) (by simp) (by simp) (by simp)
  cases call with
  | append | appendWithToken | appendAt | commit | publishSnapshot | compact =>
      exact absurd trivial hstamps
  | fence stream token =>
      cases heffect
      exact less fun k hk _ _ _ _ _ _ => get_fenced_of_ne _ _ _ (hk _)
  | fork parent atVersion child =>
      obtain ⟨parentTail, -, -, -, rfl⟩ := heffect
      exact less fun k _ hfork htail hforks _ _ _ =>
        get_forked_of_ne (hfork _) (htail _) (hforks _ _)
  | trim stream fromVersion txn =>
      cases heffect
      exact less fun k _ _ _ _ hk _ _ => Store.get_put_of_ne _ _ (hk _ _)
  | trimBelow stream floor =>
      cases heffect
      exact less fun k _ _ _ _ _ hk _ => Store.get_put_of_ne _ _ (hk _)
  | deleteStream stream =>
      cases heffect.2
      exact less fun k _ _ _ _ _ _ hk => Store.get_put_of_ne _ _ (hk _)
  | purgeBelow stream floor =>
      obtain ⟨versions, rfl⟩ := heffect
      refine h.of_less (fun s v e hget => ?_) fun s n => get_purged_of_ne _ _ (by simp)
      rw [get_purged] at hget
      split at hget
      · cases hget
      · exact hget

theorem Running.sound (henv : env.Sound)
    {w : Pool (Io D S B) Io.Reply Error Volume (Remote D S B)} (h : Running env w) :
    w.Sound (sharing env) (fun v r => v.Backed env r) := by
  refine Pool.Reached.inv (fun v r r' hv _ hon => hv.later hon) ?_ ?_ ?_ ?_ h
  · rintro p r ⟨vol, clock, depth, rfl⟩ hinv
    exact amid_mountScript henv hinv vol clock depth
  · rintro v r p hgoing hinv hv
    cases hgoing with
    | mutate now d hd => exact hv.mutate now hd
    | truncate now bucket path size => exact hv.truncate now bucket path size
    | commit now stamps =>
        exact (amid_commitScript henv hinv hv now stamps).bind hinv fun out r' _ _ hout => hout
    | checkpoint now stamps clock ulid depth =>
        exact (amid_checkpointScript henv hinv hv now stamps clock ulid depth).bind hinv
          fun out r' _ _ hout => hout
  · rintro r r' ⟨call, infos, σ, hstamps, heffect, rfl⟩ hinv
    exact Backing.store hinv (Grounded.effect (Backing.grounded hinv) hstamps heffect)
  · have haddressed : Addressed env ({} : Remote D S B).bucket := fun b object hget => by cases hget
    exact ⟨haddressed, fun stream v e d hget => by simp at hget,
      fun stream n snap m hget => by simp at hget⟩

end

/-! ## A concrete pool -/

end Landslide.Fuse
