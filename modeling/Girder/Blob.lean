import Girder.Engine
import Girder.Lib.Runs

/-!
# Blob — content-addressed blobs and what their acks promise

A blob is a file named by the hash of its content; whether it exists is decided by the `blobs` set of
the manifest.  `put_blob` and `delete_blob` change that set in memory, then store the manifest.  A
failing store leaves the change in memory, and both calls skip the store when the set did not change:
a retry is acknowledged although the manifest on disk still says the opposite.

`acks_durable_iff`: along a run of calls with any pattern of failures, every acknowledged call is on
disk exactly when no call finds its hash listed in memory alone, or unlisted in memory alone.
-/

namespace Girder

open Lib

/-- The content hash. -/
class Digest where
  sha256Hex : Bytes → String

/-- A well-formed blob id: exactly 64 lowercase hex digits. -/
def validHash (hash : String) : Bool :=
  decide (hash.utf8ByteSize = 64) &&
    hash.toList.all (fun c => ('0' ≤ c && c ≤ '9') || ('a' ≤ c && c ≤ 'f'))

/-- The blobs of a store. -/
structure BlobStore where
  /-- `manifest.blobs` in memory. -/
  blobs : StrSet := ∅
  /-- The same set in the manifest on disk. -/
  stored : StrSet := ∅
  /-- The blob files by name. -/
  files : OrdMap String Bytes := ∅

/-- How the file operations of a call end. -/
structure BlobIo where
  write : Bool := true
  store : Bool := true

namespace BlobStore

/-- Write a blob file; one that exists is left alone. -/
def writeBlobFile (s : BlobStore) (hash : String) (bytes : Bytes) (ok : Bool) :
    Except GirderError BlobStore :=
  if s.files.contains hash then .ok s
  else if ok then .ok { s with files := s.files.insert hash bytes }
  else .error (.io "write_blob_file")

/-- The manifest is replaced by a rename, so a failing store leaves the old one. -/
def storeManifest (s : BlobStore) (ok : Bool) : Except GirderError BlobStore :=
  if ok then .ok { s with stored := s.blobs } else .error (.io "store_manifest")

section Calls

variable [Digest]

def putBlob (s : BlobStore) (bytes : Bytes) (io : BlobIo) : Except GirderError String × BlobStore :=
  let hash := Digest.sha256Hex bytes
  match s.writeBlobFile hash bytes io.write with
  | .error e => (.error e, s)
  | .ok s =>
      if s.blobs.contains hash then (.ok hash, s)
      else
        let s := { s with blobs := s.blobs.insert hash }
        match s.storeManifest io.store with
        | .error e => (.error e, s)
        | .ok s => (.ok hash, s)

omit [Digest] in
def deleteBlob (s : BlobStore) (hash : String) (io : BlobIo) :
    Except GirderError Bool × BlobStore :=
  if s.blobs.contains hash then
    let s := { s with blobs := s.blobs.erase hash }
    match s.storeManifest io.store with
    | .error e => (.error e, s)
    | .ok s => (.ok true, { s with files := s.files.erase hash })
  else (.ok false, s)

/-- Read a blob file and verify it. -/
def readBlobFile (s : BlobStore) (hash : String) : Except GirderError (Option Bytes) :=
  match s.files[hash]? with
  | none => .error (.corrupt "blob" ("manifest lists " ++ hash ++ " but the file is missing"))
  | some bytes =>
      if Digest.sha256Hex bytes = hash then .ok (some bytes)
      else .error (.corrupt "blob" ("content does not match its hash " ++ hash))

def getBlob (s : BlobStore) (hash : String) : Except GirderError (Option Bytes) :=
  if validHash hash && s.blobs.contains hash then s.readBlobFile hash else .ok none

end Calls

/-- A crash and a reopen: the manifest is loaded from disk. -/
def reopen (s : BlobStore) : BlobStore := { s with blobs := s.stored }

end BlobStore

/-! ## Runs of calls -/

inductive BlobCall
  | put (bytes : Bytes) (io : BlobIo)
  | delete (hash : String) (io : BlobIo)

inductive BlobAnswer
  | put (result : Except GirderError String)
  | deleted (hash : String) (result : Except GirderError Bool)

/-- The store and what the last call was answered. -/
structure BlobRun where
  store : BlobStore := {}
  answer : Option BlobAnswer := none

namespace BlobRun

section Runs

variable [Digest]

def step (s : BlobRun) : BlobCall → Option BlobRun
  | .put bytes io =>
      let (result, store) := s.store.putBlob bytes io
      some { store := store, answer := some (.put result) }
  | .delete hash io =>
      let (result, store) := s.store.deleteBlob hash io
      some { store := store, answer := some (.deleted hash result) }

omit [Digest] in
/-- A crash right now would agree with what was just acknowledged. -/
def AckDurable (s : BlobRun) : Prop :=
  match s.answer with
  | some (.put (.ok hash)) => s.store.reopen.blobs.contains hash = true
  | some (.deleted hash (.ok _)) => s.store.reopen.blobs.contains hash = false
  | _ => True

/-- A put whose file is in place finds its hash listed in memory only if it is listed on disk; a
delete finds it unlisted in memory only if it is unlisted on disk. -/
def Agrees (s : BlobRun) : BlobCall → Prop
  | .put bytes io =>
      (s.store.files.contains (Digest.sha256Hex bytes) || io.write) = true →
        s.store.blobs.contains (Digest.sha256Hex bytes) = true →
          s.store.stored.contains (Digest.sha256Hex bytes) = true
  | .delete hash _ =>
      s.store.blobs.contains hash = false → s.store.stored.contains hash = false

/-- What a put does. -/
theorem putBlob_durable_iff (s : BlobStore) (bytes : Bytes) (io : BlobIo) :
    AckDurable { store := (s.putBlob bytes io).2, answer := some (.put (s.putBlob bytes io).1) } ↔
      Agrees { store := s } (.put bytes io) := by
  simp only [Agrees]
  cases hfile : s.files.contains (Digest.sha256Hex bytes) with
  | true =>
      cases hlisted : s.blobs.contains (Digest.sha256Hex bytes) with
      | true => simp [BlobStore.putBlob, BlobStore.writeBlobFile, AckDurable, BlobStore.reopen,
          hfile, hlisted]
      | false =>
          -- The set changes, so the manifest is stored or the call fails.
          cases hstore : io.store <;>
            simp [BlobStore.putBlob, BlobStore.writeBlobFile, BlobStore.storeManifest, AckDurable,
              BlobStore.reopen, hfile, hlisted, hstore]
  | false =>
      cases hwrite : io.write with
      | false => simp [BlobStore.putBlob, BlobStore.writeBlobFile, AckDurable, hfile, hwrite]
      | true =>
          cases hlisted : s.blobs.contains (Digest.sha256Hex bytes) with
          | true => simp [BlobStore.putBlob, BlobStore.writeBlobFile, AckDurable, BlobStore.reopen,
              hfile, hwrite, hlisted]
          | false =>
              cases hstore : io.store <;>
                simp [BlobStore.putBlob, BlobStore.writeBlobFile, BlobStore.storeManifest,
                  AckDurable, BlobStore.reopen, hfile, hwrite, hlisted, hstore]

/-- What a delete does. -/
theorem deleteBlob_durable_iff (s : BlobStore) (hash : String) (io : BlobIo) :
    AckDurable { store := (s.deleteBlob hash io).2
                 answer := some (.deleted hash (s.deleteBlob hash io).1) } ↔
      Agrees { store := s } (.delete hash io) := by
  simp only [Agrees]
  cases hlisted : s.blobs.contains hash with
  | true =>
      cases hstore : io.store <;>
        simp [BlobStore.deleteBlob, BlobStore.storeManifest, AckDurable, BlobStore.reopen, hlisted,
          hstore]
  | false => simp [BlobStore.deleteBlob, AckDurable, BlobStore.reopen, hlisted]

/-- One call. -/
theorem ackDurable_step_iff {s s' : BlobRun} {call : BlobCall} (hstep : s.step call = some s') :
    s'.AckDurable ↔ s.Agrees call := by
  cases call with
  | put bytes io =>
      obtain rfl := Option.some.inj hstep
      exact putBlob_durable_iff s.store bytes io
  | delete hash io =>
      obtain rfl := Option.some.inj hstep
      exact deleteBlob_durable_iff s.store hash io

/-- Along a run of calls, whichever stores fail, every acknowledged put is listed on disk and every
acknowledged delete is not, exactly when no call finds a change of its hash in memory alone. -/
theorem acks_durable_iff (store : BlobStore) (calls : List BlobCall) :
    Throughout step AckDurable { store := store } calls ↔
      EachStep step Agrees { store := store } calls := by
  refine throughout_iff_eachStep (fun _ => True) ?_ ?_ trivial trivial
  · exact fun _ _ hagrees hstep => ⟨trivial, (ackDurable_step_iff hstep).2 hagrees⟩
  · exact fun _ _ hstep hdurable => (ackDurable_step_iff hstep).1 hdurable

end Runs

end BlobRun

section Sample

/-- The hash on the two contents its tests pin. -/
local instance instBlobDigest : Digest where
  sha256Hex bytes :=
    if bytes = [97, 98, 99] then "ba7816bf8f01cfea414140de5dae2223b00361a396177a9cb410ff61f20015ad"
    else "e3b0c44298fc1c149afbf4c8996fb92427ae41e4649b934ca495991b7852b855"

/-- A put whose store fails, and the retry. -/
def retriedPut : List BlobCall :=
  [.put [97, 98, 99] { store := false }, .put [97, 98, 99] {}]

/-- The retry is acknowledged and the manifest on disk does not list the blob. -/
theorem retriedPut_not_durable :
    ¬ Throughout BlobRun.step BlobRun.AckDurable {} retriedPut := by
  intro h
  have hlast : ((runFrom BlobRun.step {} retriedPut).getD {}).store.stored.contains
      (Digest.sha256Hex [97, 98, 99]) = true := h.last rfl
  exact absurd hlast (by decide)

end Sample

end Girder
