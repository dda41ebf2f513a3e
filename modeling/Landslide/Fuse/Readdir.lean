import Landslide.Fuse.Renames
import Landslide.Paged

/-!
# Listings in several calls

A directory is listed in calls of `readdir`, each from the offset of the last entry that
was accepted before, and the mount may change between the calls.  The offsets are places
in a list that every call builds anew: the directory, its parent, and its children by
name.  So the listing is a list that is read a part at a time (`Listing.returned_map`).

The place of a child is the number of names before its own (`idxOf_child`).  Removing a
name that was returned moves every later child to a place before it, and the first of
those that were not returned falls behind the offset.  An entry that is there throughout
is returned once exactly if it falls behind as often as it is moved back ahead
(`returned_once_iff`).
-/

namespace Landslide.Fuse

open Std TxnKv

/-! ## What a directory lists -/

/-- What an entry of a listing stands for. -/
inductive Listed where
  | self
  | parent
  | child (name : String)
deriving DecidableEq

def DirEntry.stands (e : DirEntry) : Listed :=
  if e.offset = 1 then .self else if e.offset = 2 then .parent else .child e.name

def listed (image : FsImage) (dir : String) : List Listed :=
  .self :: .parent :: (children image dir).map fun kid => .child kid.1

theorem append_left_lt_iff (l x y : List Char) : l ++ x < l ++ y ↔ x < y := by
  induction l with
  | nil => rfl
  | cons c l ih =>
      rw [List.cons_append, List.cons_append, List.cons_lt_cons_iff, ih]
      simp

theorem children_sorted (image : FsImage) (dir : String) :
    (children image dir).Pairwise fun a b => a.1 < b.1 := by
  rw [children]
  dsimp only
  generalize (if dir = "/" then "/" else slash dir) = pre
  refine List.pairwise_filterMap.mpr (ExtTreeMap.ordered_keys_toList.imp ?_)
  rintro ⟨p, node⟩ ⟨q, node'⟩ hlt kid hkid kid' hkid'
  dsimp only at hlt hkid hkid'
  split at hkid
  case isFalse => cases hkid
  next hp =>
  split at hkid'
  case isFalse => cases hkid'
  next hq =>
  obtain ⟨x, rfl⟩ := startsWith_iff.mp hp
  obtain ⟨y, rfl⟩ := startsWith_iff.mp hq
  rw [dropStart_append] at hkid hkid'
  split at hkid
  · cases hkid
  split at hkid'
  · cases hkid'
  cases hkid
  cases hkid'
  rw [compare_eq_lt, String.toList_append, String.toList_append, append_left_lt_iff] at hlt
  exact String.lt_iff.mpr hlt

theorem listed_nodup (image : FsImage) (dir : String) : (listed image dir).Nodup := by
  have hkids : ((children image dir).map fun kid => Listed.child kid.1).Nodup := by
    refine List.pairwise_map.mpr ((children_sorted image dir).imp ?_)
    intro a b hlt heq
    rw [Listed.child.injEq] at heq
    exact String.lt_irrefl _ (heq ▸ hlt)
  simp [listed, hkids]

/-- The place of a child is after the directory, its parent and the names before its own. -/
theorem idxOf_child {image : FsImage} {dir name : String}
    (h : Listed.child name ∈ listed image dir) :
    (listed image dir).idxOf (.child name) =
      2 + (children image dir).countP fun kid => kid.1 < name := by
  obtain ⟨kid, hkid, rfl⟩ : ∃ kid ∈ children image dir, kid.1 = name := by
    simpa [listed] using h
  obtain ⟨before, after, heq⟩ := List.append_of_mem hkid
  have hsorted := children_sorted image dir
  rw [heq, List.pairwise_append, List.pairwise_cons] at hsorted
  obtain ⟨-, ⟨hafter, -⟩, hbefore⟩ := hsorted
  have hlt : ∀ k ∈ before, k.1 < kid.1 := fun k hk => hbefore k hk kid List.mem_cons_self
  have hplace : Listed.child kid.1 ∉ before.map fun k => Listed.child k.1 := by
    rw [List.mem_map]
    rintro ⟨k, hk, hname⟩
    rw [Listed.child.injEq] at hname
    exact String.lt_irrefl _ (hname ▸ hlt k hk)
  have hcount : after.countP (fun k => k.1 < kid.1) = 0 := by
    rw [List.countP_eq_zero]
    intro k hk hlt'
    exact String.lt_irrefl _ (String.lt_trans (hafter k hk) (of_decide_eq_true hlt'))
  rw [heq, List.countP_append, List.countP_cons_of_neg (by simp), hcount,
    List.countP_eq_length.mpr fun k hk => decide_eq_true (hlt k hk)]
  rw [listed, heq, List.map_append, List.map_cons, List.idxOf_cons_ne _ (by simp),
    List.idxOf_cons_ne _ (by simp), List.idxOf_append_of_notMem hplace, List.idxOf_cons_self,
    List.length_map]
  omega

/-! ## One call -/

theorem LandslideFs.listChildren_map (dir : String) : ∀ (kids : List (String × FileType))
    (offset : Nat) (fs : LandslideFs), 3 ≤ offset →
      (listChildren dir kids offset fs).1.map DirEntry.stands =
          kids.map (fun kid => .child kid.1) ∧
        (listChildren dir kids offset fs).1.map DirEntry.offset = List.range' offset kids.length
  | [], _, _, _ => ⟨rfl, rfl⟩
  | (name, _) :: kids, offset, fs, h => by
      obtain ⟨hstands, hoffsets⟩ :=
        listChildren_map dir kids (offset + 1) (fs.ino (join dir name)).2 (Nat.le_succ_of_le h)
      rw [listChildren]
      dsimp only
      rw [List.map_cons, List.map_cons, List.map_cons, hstands, hoffsets, List.length_cons,
        List.range'_succ]
      refine ⟨?_, rfl⟩
      rw [DirEntry.stands, if_neg (by dsimp only; omega), if_neg (by dsimp only; omega)]

theorem LandslideFs.isPrefix_given (add : Nat → Bool) : ∀ entries, given add entries <+: entries
  | [] => List.prefix_rfl
  | e :: entries => by
      rw [given]
      split
      · exact (List.prefix_cons_inj e).mpr (isPrefix_given add entries)
      · exact ⟨entries, rfl⟩

/-- What the directory of an inode lists. -/
def LandslideFs.listed (ino : Nat) (fs : LandslideFs) : List Listed :=
  match fs.pathOf ino with
  | none => []
  | some dir => if isDir fs.image dir then Fuse.listed fs.image dir else []

theorem LandslideFs.listed_nodup (ino : Nat) (fs : LandslideFs) : (fs.listed ino).Nodup := by
  rw [LandslideFs.listed]
  split
  · exact List.nodup_nil
  · split
    · exact Fuse.listed_nodup _ _
    · exact List.nodup_nil

/-- A call replies with entries from its offset on, each with the offset after it. -/
theorem LandslideFs.readdir_ok {draw : Draw} {ino offset : Nat} {fs : LandslideFs}
    {entries : List DirEntry} (h : (fs.readdir draw ino offset).1 = .ok (.directory entries)) :
    entries.map DirEntry.stands <+: (fs.listed ino).drop offset ∧
      entries.map DirEntry.offset = List.range' (1 + offset) entries.length := by
  rw [LandslideFs.readdir] at h
  split at h
  · cases h
  next dir hdir =>
  split at h
  · cases h
  next hisDir =>
  rw [Bool.not_eq_true, Bool.not_eq_false'] at hisDir
  obtain ⟨hstands, hoffsets⟩ := listChildren_map dir (children fs.image dir) 3
    (fs.ino (parentPath dir)).2 le_rfl
  dsimp only at h
  cases h
  rw [LandslideFs.listed, hdir]
  dsimp only
  rw [if_pos hisDir]
  generalize (listChildren dir (children fs.image dir) 3 (fs.ino (parentPath dir)).2).1 = kids
    at hstands hoffsets ⊢
  generalize hall : DirEntry.mk ino 1 .directory "." ::
    DirEntry.mk (fs.ino (parentPath dir)).1 2 .directory ".." :: kids = all
  have hall_stands : all.map DirEntry.stands = Fuse.listed fs.image dir := by
    rw [← hall, List.map_cons, List.map_cons, hstands]
    rfl
  have hall_offsets : all.map DirEntry.offset = List.range' 1 all.length := by
    have hlen : kids.length = (children fs.image dir).length := by
      simpa using congrArg List.length hstands
    rw [← hall, List.map_cons, List.map_cons, hoffsets, ← hlen]
    rfl
  have hgiven := isPrefix_given draw.add (all.drop offset)
  refine ⟨?_, ?_⟩
  · rw [← hall_stands, ← List.map_drop]
    exact hgiven.map _
  · have hpre := hgiven.map DirEntry.offset
    rw [List.map_drop, hall_offsets, List.drop_range', Nat.mul_one] at hpre
    have hle := hpre.length_le
    rw [List.prefix_iff_eq_take.mp hpre, List.length_map]
    rw [List.length_map, List.length_range'] at hle
    exact List.take_range'_of_length_ge hle

/-! ## Calls one after the other -/

/-- One call of a listing: what happens before it, what it draws, and how many of the
entries that it replies with are accepted. -/
structure ReaddirCall (D S B : Type) where
  before : List (Turn D S B)
  draw : Draw
  accepted : Nat

/-- A listing under way. -/
structure Listing (D S B : Type) where
  session : Session D S B
  offset : Nat := 0
  returned : List DirEntry := []

def Reply.entries : Reply → List DirEntry
  | .directory entries => entries
  | _ => []

section

variable {D S B : Type} [Payload D] (env : Outside D S B) (ino : Nat)

namespace Listing

/-- What a call replies. -/
def reply (l : Listing D S B) (c : ReaddirCall D S B) : Except Errno Reply :=
  let s := l.session.run env c.before
  (s.fs.serve env c.draw (.readdir ino l.offset) s.remote).1

/-- A call continues from the offset of the last entry that was accepted. -/
def call (l : Listing D S B) (c : ReaddirCall D S B) : Listing D S B :=
  let entries := (((l.reply env ino c).toOption.map Reply.entries).getD []).take c.accepted
  { session := (l.session.run env c.before).turn env (.request (.readdir ino l.offset) c.draw)
    offset := (entries.getLast?.map (·.offset)).getD l.offset
    returned := l.returned ++ entries }

/-- The calls are answered with at least the entries that are accepted. -/
def Answered : Listing D S B → List (ReaddirCall D S B) → Prop
  | _, [] => True
  | l, c :: calls =>
      (∃ entries, l.reply env ino c = .ok (.directory entries) ∧ c.accepted ≤ entries.length) ∧
        Answered (l.call env ino c) calls

/-- The directory as each call finds it, and what is accepted of it. -/
def parts : Listing D S B → List (ReaddirCall D S B) → List (Paged.Part Listed)
  | _, [] => []
  | l, c :: calls =>
      ⟨(l.session.run env c.before).fs.listed ino, c.accepted⟩ :: parts (l.call env ino c) calls

/-- An entry is in the directory in every state from the start to the last call. -/
def Throughout (x : Listed) : Listing D S B → List (ReaddirCall D S B) → Prop
  | _, [] => True
  | l, c :: calls =>
      (∀ n, x ∈ (l.session.run env (c.before.take n)).fs.listed ino) ∧
        Throughout x (l.call env ino c) calls

/-- The calls list the whole directory: the last one accepts what is left of it. -/
structure Whole (l : Listing D S B) (calls : List (ReaddirCall D S B)) : Prop where
  answered : l.Answered env ino calls
  ended : ∃ p ∈ (l.parts env ino calls).getLast?,
    p.list.length ≤ (calls.foldl (call env ino) l).offset

variable {env ino}

/-- A call accepts the part of the directory from its offset on. -/
theorem call_ok {l : Listing D S B} {c : ReaddirCall D S B} {entries : List DirEntry}
    (hreply : l.reply env ino c = .ok (.directory entries)) (hle : c.accepted ≤ entries.length) :
    (l.call env ino c).returned.map DirEntry.stands = l.returned.map DirEntry.stands ++
        (((l.session.run env c.before).fs.listed ino).drop l.offset).take c.accepted ∧
      (l.call env ino c).offset = l.offset + c.accepted := by
  obtain ⟨hstands, hoffsets⟩ := LandslideFs.readdir_ok hreply
  rw [call, hreply]
  dsimp only [Except.toOption, Option.map_some, Option.getD_some, Reply.entries]
  constructor
  · have hlen : c.accepted ≤ (entries.map DirEntry.stands).length := by rwa [List.length_map]
    rw [List.map_append, List.map_take, List.prefix_iff_eq_take.mp hstands, List.take_take,
      Nat.min_eq_left hlen]
  · rw [← List.getLast?_map, List.map_take, hoffsets, List.take_range'_of_length_ge hle,
      List.getLast?_range']
    split
    · next h => rw [h]; rfl
    · rw [Option.getD_some]; omega

/-- A listing reads the directory a part at a time. -/
theorem returned_map : ∀ (calls : List (ReaddirCall D S B)) (l : Listing D S B),
    l.Answered env ino calls →
    (calls.foldl (call env ino) l).returned.map DirEntry.stands =
        l.returned.map DirEntry.stands ++ Paged.read l.offset (l.parts env ino calls) ∧
      (calls.foldl (call env ino) l).offset = Paged.stop l.offset (l.parts env ino calls)
  | [], l, _ => ⟨by simp [parts, Paged.read], rfl⟩
  | c :: calls, l, ⟨⟨_, hreply, hle⟩, hanswered⟩ => by
      obtain ⟨hstep, hoffset⟩ := call_ok hreply hle
      obtain ⟨hreturned, hstop⟩ := returned_map calls (l.call env ino c) hanswered
      rw [List.foldl_cons, hreturned, hstop, hstep, hoffset, parts, Paged.read, Paged.stop,
        List.append_assoc]
      exact ⟨rfl, rfl⟩

theorem mem_parts {x : Listed} : ∀ (calls : List (ReaddirCall D S B)) (l : Listing D S B),
    l.Throughout env ino x calls → ∀ p ∈ l.parts env ino calls, p.list.Nodup ∧ x ∈ p.list
  | [], _, _, _, hp => absurd hp List.not_mem_nil
  | c :: calls, l, ⟨hbefore, hthroughout⟩, p, hp => by
      rcases List.mem_cons.mp hp with rfl | hp
      · refine ⟨LandslideFs.listed_nodup _ _, ?_⟩
        have hnow := hbefore c.before.length
        rwa [List.take_length] at hnow
      · exact mem_parts calls (l.call env ino c) hthroughout p hp

end Listing

/-- In a listing of a directory in successive calls, each from the offset of the last
entry accepted, whatever happens to the mount between them: the entries that are there
throughout are each returned once exactly if each falls behind the offset of the next
call as often as it is moved from behind it back ahead. -/
theorem returned_once_iff (env : Outside D S B) (ino : Nat) (s : Session D S B)
    (calls : List (ReaddirCall D S B)) (h : Listing.Whole env ino { session := s } calls) :
    (∀ x, Listing.Throughout env ino x { session := s } calls →
        ((calls.foldl (Listing.call env ino) { session := s }).returned.map
          DirEntry.stands).count x = 1) ↔
      ∀ x, Listing.Throughout env ino x { session := s } calls →
        Paged.skipped x 0 (Listing.parts env ino { session := s } calls) =
          Paged.repeated x 0 (Listing.parts env ino { session := s } calls) := by
  obtain ⟨hreturned, hstop⟩ := Listing.returned_map calls { session := s } h.answered
  obtain ⟨last, hlast, hended⟩ := h.ended
  have hne : Listing.parts env ino { session := s } calls ≠ [] := by
    intro hnil
    rw [hnil] at hlast
    cases hlast
  rw [List.getLast?_eq_getLast_of_ne_nil hne, Option.mem_some_iff] at hlast
  rw [hstop, ← hlast] at hended
  refine forall₂_congr fun x hx => ?_
  rw [hreturned]
  exact Paged.count_read_eq_one_iff hne (Listing.mem_parts calls _ hx) hended

end

/-! ## A removal between two calls -/

/-- A mount of a volume with two files. -/
def twoFiles : Session Delta Manifest (Segment ⊕ Bytes) :=
  newSession.run named [.request (.create 1 "a" 0o644 0 0 0) drawn,
    .request (.create 1 "b" 0o644 0 0 0) drawn]

/-- Three entries are accepted, and the file that is the last of them is removed. -/
def removedBetween : List (ReaddirCall Delta Manifest (Segment ⊕ Bytes)) :=
  [{ before := [], draw := { drawn with add := fun offset => offset < 4 }, accepted := 3 },
    { before := [.request (.unlink 1 "a") drawn], draw := drawn, accepted := 0 }]

theorem removedBetween_whole :
    Listing.Whole named 1 { session := twoFiles } removedBetween where
  answered := ⟨⟨_, rfl, by decide +kernel⟩, ⟨_, rfl, by decide +kernel⟩, trivial⟩
  ended := ⟨_, rfl, by decide +kernel⟩

theorem removedBetween_throughout :
    Listing.Throughout named 1 (.child "b") { session := twoFiles } removedBetween := by
  refine ⟨fun n => ?_, fun n => ?_, trivial⟩
  · rw [List.take_nil]
    decide +kernel
  · cases n with
    | zero => decide +kernel
    | succ n =>
        rw [List.take_succ_cons, List.take_nil]
        decide +kernel

theorem removedBetween_returned :
    (removedBetween.foldl (Listing.call named 1) { session := twoFiles }).returned.map
      DirEntry.stands = [.self, .parent, .child "a"] := by decide +kernel

theorem returned_once_iff_removed :
    (∀ x, Listing.Throughout named 1 x { session := twoFiles } removedBetween →
        ((removedBetween.foldl (Listing.call named 1) { session := twoFiles }).returned.map
          DirEntry.stands).count x = 1) ↔
      ∀ x, Listing.Throughout named 1 x { session := twoFiles } removedBetween →
        Paged.skipped x 0 (Listing.parts named 1 { session := twoFiles } removedBetween) =
          Paged.repeated x 0 (Listing.parts named 1 { session := twoFiles } removedBetween) :=
  returned_once_iff named 1 twoFiles removedBetween removedBetween_whole

/-- The other file is there all the time and is not returned. -/
theorem readdir_misses_entry :
    ¬ ∀ (ino : Nat) (s : Session Delta Manifest (Segment ⊕ Bytes))
      (calls : List (ReaddirCall Delta Manifest (Segment ⊕ Bytes))),
        Listing.Whole named ino { session := s } calls →
          ∀ x, Listing.Throughout named ino x { session := s } calls →
            ((calls.foldl (Listing.call named ino) { session := s }).returned.map
              DirEntry.stands).count x = 1 := by
  intro hclaim
  have hcount := hclaim 1 twoFiles removedBetween removedBetween_whole (.child "b")
    removedBetween_throughout
  rw [removedBetween_returned] at hcount
  revert hcount
  decide

end Landslide.Fuse
