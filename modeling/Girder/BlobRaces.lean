import Girder.Blob

/-!
# BlobRaces — blob calls interleaved

The calls of `Blob` cut at the manifest lock, with no I/O errors.  `put_blob` holds the write lock
from its first step to its last, `delete_blob` only while it changes the set, `get_blob` only while
it checks it, `sweep_blob_orphans` holds the read lock throughout.  The file removal of a delete and
the file read of a get need no lock and may come at any time.

`put_blob` does not write a file that exists, so a removal that is still pending can take the file
away from under it; and a get that has passed its check can lose its file to a delete or to the
sweep.  `blobs_agree_with_files`: as long as no file is removed that is listed, awaited by a get or
relied on by a put, no get reports corruption and every listed blob has its file.
-/

namespace Girder

open Lib

/-- Inside `put_blob`, under the write lock. -/
inductive PutPhase
  | entered (bytes : Bytes)
  /-- The file does not exist. -/
  | absent (bytes : Bytes)
  /-- The file was there, or has been written. -/
  | ready (bytes : Bytes)

/-- The store and the calls under way. -/
structure BlobRaces where
  store : BlobStore := {}
  /-- The put that holds the write lock. -/
  putting : Option PutPhase := none
  /-- Deletes that have unlisted their hash and still have to remove its file. -/
  removing : List String := []
  /-- Gets that have found their hash listed and still have to read its file. -/
  reading : List String := []
  /-- The sweep that holds the read lock, with the files it has not looked at. -/
  sweeping : Option (List String) := none
  /-- What gets were answered, latest first. -/
  answers : List (Except GirderError (Option Bytes)) := []

inductive BlobMove
  | putLock (bytes : Bytes)
  | putCheck
  | putWrite
  | putList
  | deleteUnlist (hash : String)
  | deleteFile (hash : String)
  | getCheck (hash : String)
  | getRead (hash : String)
  | sweepLock
  | sweepNext

/-- Remove a blob file. -/
def BlobStore.removeFile (s : BlobStore) (hash : String) : BlobStore :=
  { s with files := s.files.erase hash }

/-- Change the set and store the manifest. -/
def BlobStore.list (s : BlobStore) (blobs : StrSet) : BlobStore :=
  { s with blobs := blobs, stored := blobs }

namespace BlobRaces

/-- Nobody holds the manifest lock. -/
def unlocked (s : BlobRaces) : Bool := s.putting.isNone && s.sweeping.isNone

section Step

variable [Digest]

def step (s : BlobRaces) : BlobMove → Option BlobRaces
  | .putLock bytes => if s.unlocked then some { s with putting := some (.entered bytes) } else none
  | .putCheck =>
      match s.putting with
      | some (.entered bytes) =>
          some { s with
            putting := some (if s.store.files.contains (Digest.sha256Hex bytes) then .ready bytes
              else .absent bytes) }
      | _ => none
  | .putWrite =>
      match s.putting with
      | some (.absent bytes) =>
          some { s with
            store := { s.store with
              files := s.store.files.insert (Digest.sha256Hex bytes) bytes }
            putting := some (.ready bytes) }
      | _ => none
  | .putList =>
      match s.putting with
      | some (.ready bytes) =>
          some { s with
            store :=
              if s.store.blobs.contains (Digest.sha256Hex bytes) then s.store
              else s.store.list (s.store.blobs.insert (Digest.sha256Hex bytes))
            putting := none }
      | _ => none
  | .deleteUnlist hash =>
      if s.unlocked then
        if s.store.blobs.contains hash then
          some { s with
            store := s.store.list (s.store.blobs.erase hash)
            removing := hash :: s.removing }
        else some s
      else none
  | .deleteFile hash =>
      if hash ∈ s.removing then
        some { s with
          store := s.store.removeFile hash
          removing := s.removing.erase hash }
      else none
  | .getCheck hash =>
      if s.putting.isNone then
        if validHash hash && s.store.blobs.contains hash then
          some { s with reading := hash :: s.reading }
        else some { s with answers := .ok none :: s.answers }
      else none
  | .getRead hash =>
      if hash ∈ s.reading then
        some { s with
          reading := s.reading.erase hash
          answers := s.store.readBlobFile hash :: s.answers }
      else none
  | .sweepLock =>
      if s.unlocked then some { s with sweeping := some (s.store.files.keys.filter validHash) }
      else none
  | .sweepNext =>
      match s.sweeping with
      | some [] => some { s with sweeping := none }
      | some (hash :: rest) =>
          some { s with
            store := if s.store.blobs.contains hash then s.store else s.store.removeFile hash
            sweeping := some rest }
      | none => none

end Step

section Invariants

variable [Digest]

/-- Every listed blob has its file, with the content its hash names. -/
def FilesListed (s : BlobRaces) : Prop :=
  ∀ hash, s.store.blobs.contains hash = true →
    ∃ bytes, s.store.files[hash]? = some bytes ∧ Digest.sha256Hex bytes = hash

omit [Digest] in
/-- No get was answered with corruption. -/
def NoCorrupt (s : BlobRaces) : Prop :=
  ∀ a ∈ s.answers, ∀ what detail, a ≠ .error (.corrupt what detail)

/-- Nothing needs the file: no get is about to read it, no put relies on it. -/
def unneeded (s : BlobRaces) (hash : String) : Bool :=
  decide (hash ∉ s.reading) &&
    (match s.putting with
    | some (.ready bytes) => decide (Digest.sha256Hex bytes ≠ hash)
    | _ => true)

/-- A file is removed only when it is not listed and nothing needs it. -/
def removesUnneeded (s : BlobRaces) : BlobMove → Bool
  | .deleteFile hash => !s.store.blobs.contains hash && s.unneeded hash
  | .sweepNext =>
      match s.sweeping with
      | some (hash :: _) => s.store.blobs.contains hash || s.unneeded hash
      | _ => true
  | _ => true

end Invariants

/-! ## The invariant -/

section Invariant

variable [Digest]

/-- Somebody counts on the file of a hash. -/
def Needs (s : BlobRaces) (hash : String) : Prop :=
  s.store.blobs.contains hash = true ∨ hash ∈ s.reading ∨
    ∃ bytes, s.putting = some (.ready bytes) ∧ Digest.sha256Hex bytes = hash

structure Ok (s : BlobRaces) : Prop where
  content {hash : String} {bytes : Bytes} :
    s.store.files[hash]? = some bytes → Digest.sha256Hex bytes = hash
  needed {hash : String} : s.Needs hash → s.store.files.contains hash = true
  answers : s.NoCorrupt

theorem not_needs_of_unneeded {s : BlobRaces} {hash : String}
    (hlisted : s.store.blobs.contains hash = false) (h : s.unneeded hash = true) :
    ¬ s.Needs hash := by
  rw [unneeded, Bool.and_eq_true] at h
  rintro (hin | hin | ⟨bytes, hput, hsha⟩)
  · rw [hlisted] at hin
    cases hin
  · exact of_decide_eq_true h.1 hin
  · have hne := h.2
    simp only [hput, decide_eq_true_eq] at hne
    exact hne hsha

namespace Ok

variable {s s' : BlobRaces}

/-- A step that changes no file and asks for no more of them. -/
theorem of_needs (h : s.Ok) (hfiles : s'.store.files = s.store.files)
    (hneeds : ∀ hash, s'.Needs hash → s.Needs hash) (hanswers : s'.answers = s.answers) :
    s'.Ok where
  content hget := h.content (hfiles ▸ hget)
  needed hneed := by
    rw [hfiles]
    exact h.needed (hneeds _ hneed)
  answers := by
    rw [NoCorrupt, hanswers]
    exact h.answers

/-- A file nobody counts on may go. -/
theorem removeFile (h : s.Ok) {hash : String} (hneeds : ¬ s.Needs hash)
    (hstore : s'.store = s.store.removeFile hash) (hput : s'.putting = s.putting)
    (hread : s'.reading = s.reading) (hanswers : s'.answers = s.answers) : s'.Ok := by
  have hsame : ∀ other, s'.Needs other ↔ s.Needs other := by
    intro other
    rw [Needs, Needs, hstore, hput, hread]
    rfl
  refine ⟨fun {other bytes} hget => ?_, fun {other} hneed => ?_, ?_⟩
  · rw [hstore, BlobStore.removeFile, Std.ExtTreeMap.getElem?_erase] at hget
    split at hget
    · cases hget
    · exact h.content hget
  · have hne : hash ≠ other := fun heq => hneeds (heq ▸ (hsame other).1 hneed)
    rw [hstore, BlobStore.removeFile, Std.ExtTreeMap.contains_erase]
    simp [hne, h.needed ((hsame other).1 hneed)]
  · rw [NoCorrupt, hanswers]
    exact h.answers

/-- A file that is there reads as what it should be. -/
theorem read (h : s.Ok) {hash : String} (hfile : s.store.files.contains hash = true)
    (what detail : String) : s.store.readBlobFile hash ≠ .error (.corrupt what detail) := by
  rw [Std.ExtTreeMap.contains_eq_isSome_getElem?] at hfile
  obtain ⟨bytes, hget⟩ := Option.isSome_iff_exists.1 hfile
  simp [BlobStore.readBlobFile, hget, h.content hget]

/-- The put finds the file or not. -/
theorem putCheck (h : s.Ok) (hstep : s.step .putCheck = some s') : s'.Ok := by
  simp only [BlobRaces.step] at hstep
  split at hstep
  · rename_i bytes hput
    obtain rfl := Option.some.inj hstep
    refine ⟨h.content, fun {hash} hneed => ?_, h.answers⟩
    rcases hneed with hin | hin | ⟨b, hready, hsha⟩
    · exact h.needed (.inl hin)
    · exact h.needed (.inr (.inl hin))
    · -- The put found the file.
      split at hready
      · rename_i hfile
        cases hready
        exact hsha ▸ hfile
      · cases hready
  · cases hstep

/-- The file it writes is the one its hash names. -/
theorem putWrite (h : s.Ok) (hstep : s.step .putWrite = some s') : s'.Ok := by
  simp only [BlobRaces.step] at hstep
  split at hstep
  · rename_i bytes hput
    obtain rfl := Option.some.inj hstep
    refine ⟨fun {hash c} hget => ?_, fun {hash} hneed => ?_, h.answers⟩
    · rw [Std.ExtTreeMap.getElem?_insert] at hget
      split at hget
      · rename_i heq
        cases hget
        exact Std.LawfulEqCmp.eq_of_compare heq
      · exact h.content hget
    · rw [Std.ExtTreeMap.contains_insert]
      rcases hneed with hin | hin | ⟨b, hready, hsha⟩
      · simp [h.needed (.inl hin)]
      · simp [h.needed (.inr (.inl hin))]
      · cases hready
        simp [hsha]
  · cases hstep

/-- What it lists is a file it has found or written. -/
theorem putList (h : s.Ok) (hstep : s.step .putList = some s') : s'.Ok := by
  simp only [BlobRaces.step] at hstep
  split at hstep
  · rename_i bytes hput
    obtain rfl := Option.some.inj hstep
    refine h.of_needs (by split <;> rfl) (fun hash hneed => ?_) rfl
    rcases hneed with hin | hin | ⟨b, hready, -⟩
    · split at hin
      · exact .inl hin
      · rw [BlobStore.list, Std.ExtTreeSet.contains_insert, Bool.or_eq_true] at hin
        rcases hin with heq | hin
        · exact .inr (.inr ⟨bytes, hput, by simpa using heq⟩)
        · exact .inl hin
    · exact .inr (.inl hin)
    · cases hready
  · cases hstep

/-- A delete gives up a listing. -/
theorem deleteUnlist (h : s.Ok) {hash : String}
    (hstep : s.step (.deleteUnlist hash) = some s') : s'.Ok := by
  simp only [BlobRaces.step] at hstep
  split at hstep
  · split at hstep
    · obtain rfl := Option.some.inj hstep
      refine h.of_needs rfl (fun other hneed => ?_) rfl
      rcases hneed with hin | hin
      · rw [BlobStore.list, Std.ExtTreeSet.contains_erase, Bool.and_eq_true] at hin
        exact .inl hin.2
      · exact .inr hin
    · obtain rfl := Option.some.inj hstep
      exact h
  · cases hstep

/-- A get relies on what is listed. -/
theorem getCheck (h : s.Ok) {hash : String}
    (hstep : s.step (.getCheck hash) = some s') : s'.Ok := by
  simp only [BlobRaces.step] at hstep
  split at hstep
  · split at hstep
    · rename_i hlisted
      obtain rfl := Option.some.inj hstep
      refine ⟨h.content, fun {other} hneed => ?_, h.answers⟩
      rcases hneed with hin | hin | hput
      · exact h.needed (.inl hin)
      · rcases List.mem_cons.1 hin with rfl | hin
        · exact h.needed (.inl (Bool.and_eq_true _ _ ▸ hlisted).2)
        · exact h.needed (.inr (.inl hin))
      · exact h.needed (.inr (.inr hput))
    · obtain rfl := Option.some.inj hstep
      refine ⟨h.content, h.needed, fun a ha what detail => ?_⟩
      rcases List.mem_cons.1 ha with rfl | ha
      · simp
      · exact h.answers a ha what detail
  · cases hstep

/-- It finds the file it relied on. -/
theorem getRead (h : s.Ok) {hash : String} (hstep : s.step (.getRead hash) = some s') : s'.Ok := by
  obtain ⟨hin, hs⟩ := Option.ite_none_right_eq_some.1 hstep
  obtain rfl := Option.some.inj hs
  refine ⟨h.content, fun {other} hneed => ?_, fun a ha what detail => ?_⟩
  · rcases hneed with hlisted | hread | hput
    · exact h.needed (.inl hlisted)
    · exact h.needed (.inr (.inl (List.mem_of_mem_erase hread)))
    · exact h.needed (.inr (.inr hput))
  · rcases List.mem_cons.1 ha with rfl | ha
    · exact h.read (h.needed (.inr (.inl hin))) what detail
    · exact h.answers a ha what detail

/-- The sweep removes what is not listed. -/
theorem sweepNext (h : s.Ok) (hclean : s.removesUnneeded .sweepNext = true)
    (hstep : s.step .sweepNext = some s') : s'.Ok := by
  simp only [BlobRaces.step] at hstep
  split at hstep
  · obtain rfl := Option.some.inj hstep
    exact h.of_needs rfl (fun _ hneed => hneed) rfl
  · rename_i hash rest hsweep
    obtain rfl := Option.some.inj hstep
    simp only [removesUnneeded, hsweep] at hclean
    cases hlisted : s.store.blobs.contains hash with
    | true =>
        simp only [if_true]
        exact h.of_needs rfl (fun _ hneed => hneed) rfl
    | false =>
        simp only [Bool.false_eq_true, if_false]
        rw [hlisted, Bool.false_or] at hclean
        exact h.removeFile (not_needs_of_unneeded hlisted hclean) rfl rfl rfl rfl
  · cases hstep

theorem step (h : s.Ok) {a : BlobMove} (hclean : s.removesUnneeded a = true)
    (hstep : s.step a = some s') : s'.Ok := by
  cases a with
  | putLock bytes =>
      obtain ⟨-, hs⟩ := Option.ite_none_right_eq_some.1 hstep
      obtain rfl := Option.some.inj hs
      refine h.of_needs rfl (fun hash hneed => ?_) rfl
      rcases hneed with hin | hin | ⟨b, hput, -⟩
      · exact .inl hin
      · exact .inr (.inl hin)
      · cases hput
  | putCheck => exact h.putCheck hstep
  | putWrite => exact h.putWrite hstep
  | putList => exact h.putList hstep
  | deleteUnlist hash => exact h.deleteUnlist hstep
  | deleteFile hash =>
      obtain ⟨-, hs⟩ := Option.ite_none_right_eq_some.1 hstep
      obtain rfl := Option.some.inj hs
      rw [removesUnneeded, Bool.and_eq_true, Bool.not_eq_true'] at hclean
      exact h.removeFile (not_needs_of_unneeded hclean.1 hclean.2) rfl rfl rfl rfl
  | getCheck hash => exact h.getCheck hstep
  | getRead hash => exact h.getRead hstep
  | sweepLock =>
      obtain ⟨-, hs⟩ := Option.ite_none_right_eq_some.1 hstep
      obtain rfl := Option.some.inj hs
      exact h.of_needs rfl (fun _ hneed => hneed) rfl
  | sweepNext => exact h.sweepNext hclean hstep

end Ok

/-- What the invariant gives. -/
theorem Ok.filesListed {s : BlobRaces} (h : s.Ok) : s.FilesListed := by
  intro hash hlisted
  have hfile := h.needed (.inl hlisted)
  rw [Std.ExtTreeMap.contains_eq_isSome_getElem?] at hfile
  obtain ⟨bytes, hget⟩ := Option.isSome_iff_exists.1 hfile
  exact ⟨bytes, hget, h.content hget⟩

/-- Every interleaving of puts, deletes, gets and sweeps that removes no file while it is listed,
awaited by a get or relied on by a put: no get reports corruption, and every listed blob has its file
with the content its hash names. -/
theorem blobs_agree_with_files {store : BlobStore}
    (hfiles : ∀ hash bytes, store.files[hash]? = some bytes → Digest.sha256Hex bytes = hash)
    (hlisted : ∀ hash, store.blobs.contains hash = true → store.files.contains hash = true)
    {moves : List BlobMove}
    (hclean : EachStep step (fun s a => s.removesUnneeded a = true) { store := store } moves) :
    Throughout step (fun s => s.NoCorrupt ∧ s.FilesListed) { store := store } moves := by
  have hstart : Ok { store := store } := by
    refine ⟨hfiles _ _, fun {hash} hneed => ?_, fun a ha => by cases ha⟩
    rcases hneed with hin | hin | ⟨bytes, hput, -⟩
    · exact hlisted hash hin
    · cases hin
    · cases hput
  have hall : Throughout step Ok { store := store } moves :=
    throughout_of_step (fun h hC hs => h.step hC hs) hstart hclean
  exact hall.mono (fun _ h => ⟨h.answers, h.filesListed⟩)

end Invariant

/-! ## Calls that run alone -/

section Alone

variable [Digest]

theorem run_putBlob (store : BlobStore) (bytes : Bytes) :
    ∃ moves, runFrom step { store := store } moves =
      some { store := (store.putBlob bytes {}).2 } := by
  by_cases hfile : Digest.sha256Hex bytes ∈ store.files
  · refine ⟨[.putLock bytes, .putCheck, .putList], ?_⟩
    by_cases hlisted : Digest.sha256Hex bytes ∈ store.blobs <;>
      simp [runFrom, step, unlocked, BlobStore.putBlob, BlobStore.writeBlobFile,
        BlobStore.storeManifest, BlobStore.list, hfile, hlisted]
  · refine ⟨[.putLock bytes, .putCheck, .putWrite, .putList], ?_⟩
    by_cases hlisted : Digest.sha256Hex bytes ∈ store.blobs <;>
      simp [runFrom, step, unlocked, BlobStore.putBlob, BlobStore.writeBlobFile,
        BlobStore.storeManifest, BlobStore.list, hfile, hlisted]

theorem run_deleteBlob (store : BlobStore) (hash : String) :
    ∃ moves, runFrom step { store := store } moves =
      some { store := (store.deleteBlob hash {}).2 } := by
  by_cases hlisted : hash ∈ store.blobs
  · refine ⟨[.deleteUnlist hash, .deleteFile hash], ?_⟩
    simp [runFrom, step, unlocked, BlobStore.deleteBlob, BlobStore.storeManifest, BlobStore.list,
      BlobStore.removeFile, hlisted]
  · refine ⟨[.deleteUnlist hash], ?_⟩
    simp [runFrom, step, unlocked, BlobStore.deleteBlob, hlisted]

theorem run_getBlob (store : BlobStore) (hash : String) :
    ∃ moves, runFrom step { store := store } moves =
      some { store := store, answers := [store.getBlob hash] } := by
  by_cases hlisted : validHash hash = true ∧ hash ∈ store.blobs
  · refine ⟨[.getCheck hash, .getRead hash], ?_⟩
    simp [runFrom, step, BlobStore.getBlob, hlisted]
  · refine ⟨[.getCheck hash], ?_⟩
    simp [runFrom, step, BlobStore.getBlob, hlisted]

end Alone

end BlobRaces

section Sample

/-- The hash on the two contents its tests pin. -/
local instance instBlobRacesDigest : Digest where
  sha256Hex bytes :=
    if bytes = [97, 98, 99] then "ba7816bf8f01cfea414140de5dae2223b00361a396177a9cb410ff61f20015ad"
    else "e3b0c44298fc1c149afbf4c8996fb92427ae41e4649b934ca495991b7852b855"

/-- The hash of `abc`. -/
def abcHash : String := "ba7816bf8f01cfea414140de5dae2223b00361a396177a9cb410ff61f20015ad"

def putAbc : List BlobMove := [.putLock [97, 98, 99], .putCheck, .putWrite, .putList]

/-- The content is put again between the two halves of its delete, then read. -/
def reputBlob : List BlobMove :=
  putAbc ++ [.deleteUnlist abcHash, .putLock [97, 98, 99], .putCheck, .putList,
    .deleteFile abcHash, .getCheck abcHash, .getRead abcHash]

theorem reputBlob_runs : (runFrom BlobRaces.step {} reputBlob).isSome = true := by decide

/-- The blob is listed, its file is gone with no delete under way, and the get reports corruption. -/
theorem reputBlob_corrupt :
    ∃ s, runFrom BlobRaces.step {} reputBlob = some s ∧ s.removing = [] ∧
      s.store.blobs.contains abcHash = true ∧ s.store.files[abcHash]? = none ∧
        s.answers = [.error (.corrupt "blob"
          ("manifest lists " ++ abcHash ++ " but the file is missing"))] :=
  ⟨_, (Option.some_get reputBlob_runs).symm, by rfl, by decide, by decide, by rfl⟩

/-- A delete that is finished before the content is put again. -/
def deletedThenPut : List BlobMove :=
  putAbc ++ [.getCheck abcHash, .getRead abcHash, .deleteUnlist abcHash, .sweepLock, .sweepNext,
    .sweepNext, .deleteFile abcHash] ++ putAbc

theorem deletedThenPut_agrees :
    Throughout BlobRaces.step (fun s => s.NoCorrupt ∧ s.FilesListed) {} deletedThenPut :=
  BlobRaces.blobs_agree_with_files (fun hash bytes h => by simp at h)
    (fun hash h => by simp at h) (by decide)

end Sample

end Girder
