import Girder.Cache
import Girder.Format
import Girder.Lib.Shared

/-!
# Sections — loading a segment through the shared section cache

A segment is put together from decoded sections, each looked up in the cache first and read from the
file, decoded and put into the cache otherwise.  Any number of reads share the cache, maintenance
drops the sections of the segments it retires, and files come and go.  The programs here act on the
shelf they all share one step at a time; an entry is named by the number of its file, which no
second file ever gets.
-/

namespace Girder

open Lib

/-! ## Sections and their footprints -/

/-- A decoded section. -/
inductive Section (ν : Type)
  | dir (d : SegDir)
  | keys (k : KeysSection)
  | timestamps (t : List Int64)
  | blocks (b : List (BlockMeta ν))
  | payloadIndex (p : PayloadIndex)
  | label (l : LabelColumn)
  | numeric (n : NumericColumn ν)
  | textIndex (t : TextIndex)
  | tokens (t : TokenIndex)
  | v1Whole (cols : SegmentColumns ν)

section Bytes

variable {ν : Type}

def KeysSection.bytes (k : KeysSection) : Nat := k.blob.utf8ByteSize + k.offsets.length * 8 + 32

def PayloadIndex.bytes (p : PayloadIndex) : Nat := p.rel.length * 8 + 32

def TextIndex.bytes (t : TextIndex) : Nat :=
  let comp := match t.compressed with
    | some c => c.length + 24
    | none => 0
  t.present.length + t.rel.length * 8 + 32 + comp

def TokenIndex.bytes (t : TokenIndex) : Nat :=
  let postings := match t.postings with
    | .eager lists => (lists.map (fun p => p.length * 4 + 24)).sum
    | .lazy blob spans => blob.length + spans.length * 12 + 48
  64 + (t.tokens.map (fun w => w.utf8ByteSize + 24)).sum + postings

def labelBytes : LabelColumn → Nat
  | .dict dict _ codes => codes.length * 2 + (dict.map (fun w => w.utf8ByteSize + 24)).sum
  | .plain values =>
      (values.map (fun v => match v with
        | some w => w.utf8ByteSize + 24
        | none => 8)).sum

def numericBytes (n : NumericColumn ν) : Nat := n.present.length + n.values.length * 8 + 32

def blockBytes (blocks : List (BlockMeta ν)) : Nat :=
  64 + (blocks.map (fun b =>
    96 + b.firstKey.utf8ByteSize + b.lastKey.utf8ByteSize + b.numerics.size * 40 +
      b.labelBitsets.size * 40)).sum

def SegDir.bytes (d : SegDir) : Nat :=
  64 + (d.entries.map (fun e => e.1.2.utf8ByteSize + 48)).sum

/-- The footprint of a whole v1 segment; texts and tokens are not in it. -/
def SegmentColumns.heapBytes (cols : SegmentColumns ν) : Nat :=
  let payloads := match cols.payloads with
    | .file pi => pi.bytes
    | .mem v => (v.map (fun p => p.length + 24)).sum
  cols.keys.bytes + cols.timestamps.length * 8 +
    (cols.labels.toList.map (fun kv => labelBytes kv.2)).sum +
    (cols.numerics.toList.map (fun kv => numericBytes kv.2)).sum + payloads + 256

/-- The footprint an entry is accounted with. -/
def Section.bytes : Section ν → Nat
  | .dir d => d.bytes
  | .keys k => k.bytes
  | .timestamps t => t.length * 8 + 32
  | .blocks b => blockBytes b
  | .payloadIndex p => p.bytes
  | .label l => labelBytes l
  | .numeric n => numericBytes n
  | .textIndex t => t.bytes
  | .tokens t => t.bytes
  | .v1Whole cols => cols.heapBytes

end Bytes

/-- A kind of section: its name in the cache, and which sections are of the kind. -/
structure Slot (ν α : Type) where
  id : SectionId
  wrap : α → Section ν
  view : Section ν → Option α
  view_iff {s : Section ν} {a : α} : view s = some a ↔ s = wrap a

namespace Slot

section Kinds

variable (ν : Type)

def dir : Slot ν SegDir where
  id := .dir
  wrap := .dir
  view := fun
    | .dir d => some d
    | _ => none
  view_iff {s} := by cases s <;> simp

def keys : Slot ν KeysSection where
  id := .keys
  wrap := .keys
  view := fun
    | .keys k => some k
    | _ => none
  view_iff {s} := by cases s <;> simp

def timestamps : Slot ν (List Int64) where
  id := .timestamps
  wrap := .timestamps
  view := fun
    | .timestamps t => some t
    | _ => none
  view_iff {s} := by cases s <;> simp

def blocks : Slot ν (List (BlockMeta ν)) where
  id := .blocks
  wrap := .blocks
  view := fun
    | .blocks b => some b
    | _ => none
  view_iff {s} := by cases s <;> simp

def payloadIndex : Slot ν PayloadIndex where
  id := .payloadIndex
  wrap := .payloadIndex
  view := fun
    | .payloadIndex p => some p
    | _ => none
  view_iff {s} := by cases s <;> simp

def label (name : String) : Slot ν LabelColumn where
  id := .label name
  wrap := .label
  view := fun
    | .label l => some l
    | _ => none
  view_iff {s} := by cases s <;> simp

def numeric (name : String) : Slot ν (NumericColumn ν) where
  id := .numeric name
  wrap := .numeric
  view := fun
    | .numeric n => some n
    | _ => none
  view_iff {s} := by cases s <;> simp

def textIndex : Slot ν TextIndex where
  id := .textIndex
  wrap := .textIndex
  view := fun
    | .textIndex t => some t
    | _ => none
  view_iff {s} := by cases s <;> simp

def tokens : Slot ν TokenIndex where
  id := .tokens
  wrap := .tokens
  view := fun
    | .tokens t => some t
    | _ => none
  view_iff {s} := by cases s <;> simp

def v1Whole : Slot ν (SegmentColumns ν) where
  id := .v1Whole
  wrap := .v1Whole
  view := fun
    | .v1Whole cols => some cols
    | _ => none
  view_iff {s} := by cases s <;> simp

end Kinds

theorem wrap_inj {ν α : Type} (slot : Slot ν α) {a b : α} (h : slot.wrap a = slot.wrap b) :
    a = b := by
  have ha : slot.view (slot.wrap a) = some a := slot.view_iff.2 rfl
  have hb : slot.view (slot.wrap a) = some b := slot.view_iff.2 h
  exact Option.some.inj (ha.symm.trans hb)

end Slot

/-! ## The shelf -/

/-- What reads share: the section cache, which files there are, and the counters. -/
structure Shelf (ν : Type) where
  cache : SegmentCache (Section ν)
  /-- Does the file of this number open? -/
  present : Nat → Bool
  cacheHits : Nat := 0
  cacheMisses : Nat := 0

/-- A read, which may fail. -/
abbrev Access (ν : Type) := ExceptT Fault (Prog (Shelf ν))

/-- A part of loading one segment; the flag says whether a section was read from disk. -/
abbrev Load (ν : Type) := StateT Bool (Access ν)

/-- The error of a file that is gone. -/
def vanished : Fault := .err (.io "NotFound")

section Programs

variable {ν α : Type}

def Access.ofRes (r : Res α) : Access ν α := ExceptT.mk (pure r)

/-- One `SegmentCache::get`, under the cache's lock. -/
def cacheGet (slot : Slot ν α) (id : Nat) : Prog (Shelf ν) (Option α) :=
  .act (fun s => { s with cache := (s.cache.get id slot.id).1 })
    (fun s => .done ((s.cache.get id slot.id).2.bind slot.view))

/-- One `SegmentCache::put`, which evicts. -/
def cachePut (slot : Slot ν α) (id : Nat) (a : α) : Prog (Shelf ν) Unit :=
  Prog.modify (fun s =>
    { s with cache := s.cache.put id slot.id (slot.wrap a) (slot.wrap a).bytes })

variable (ν) in
def noteCacheHit : Prog (Shelf ν) Unit :=
  Prog.modify (fun s => { s with cacheHits := s.cacheHits + 1 })

variable (ν) in
def noteCacheMiss : Prog (Shelf ν) Unit :=
  Prog.modify (fun s => { s with cacheMisses := s.cacheMisses + 1 })

/-- Open a segment's file.  The handle stays good when the file is removed. -/
def openSegmentFile (content : Nat → Bytes) (id : Nat) : Access ν Bytes :=
  ExceptT.mk (Prog.read (fun s =>
    if s.present id then Except.ok (content id) else Except.error vanished))

/-- A section every segment has: cached, or loaded and put into the cache. -/
def cachedSection (slot : Slot ν α) (id : Nat) (load : Res α) : Load ν α := do
  match ← cacheGet slot id with
  | some a => pure a
  | none =>
      set true
      let a ← (Access.ofRes load : Access ν α)
      cachePut slot id a
      pure a

/-- A section a segment may lack.  That it lacks it is seen in the directory each time. -/
def cachedOptional (slot : Slot ν α) (id : Nat) (load : Res (Option α)) : Load ν (Option α) := do
  match ← cacheGet slot id with
  | some a => pure (some a)
  | none =>
      match ← (Access.ofRes load : Access ν (Option α)) with
      | none => pure none
      | some a =>
          set true
          cachePut slot id a
          pure (some a)

section Named

variable [Crc32]

def sectionKeys (id : Nat) (dir : SegDir) (file : Bytes) : Load ν KeysSection :=
  cachedSection (.keys ν) id (loadKeys file dir)

def sectionTimestamps (id : Nat) (dir : SegDir) (file : Bytes) : Load ν (List Int64) :=
  cachedSection (.timestamps ν) id (loadTimestamps file dir)

def sectionBlocks [Rmp (List (BlockMeta ν))] (id : Nat) (dir : SegDir) (file : Bytes) :
    Load ν (List (BlockMeta ν)) :=
  cachedSection (.blocks ν) id (loadBlocks file dir)

omit [Crc32] in
def sectionPayloadIndex (id : Nat) (dir : SegDir) (file : Bytes) : Load ν PayloadIndex :=
  cachedSection (.payloadIndex ν) id (loadPayloadIndex file dir)

omit [Crc32] in
def sectionTextIndex (id : Nat) (dir : SegDir) (file : Bytes) : Load ν (Option TextIndex) :=
  cachedOptional (.textIndex ν) id (loadTextIndex file dir)

def sectionTokens (id : Nat) (dir : SegDir) (file : Bytes) : Load ν (Option TokenIndex) :=
  cachedOptional (.tokens ν) id (loadTokens file dir)

def sectionLabel (id : Nat) (dir : SegDir) (file : Bytes) (name : String) : Load ν LabelColumn :=
  cachedSection (.label ν name) id (loadLabel file dir name)

def sectionNumeric [FloatBits ν] (id : Nat) (dir : SegDir) (file : Bytes) (name : String) :
    Load ν (NumericColumn ν) :=
  cachedSection (.numeric ν name) id (loadNumeric file dir name)

end Named

/-- A segment's directory, or the whole of a legacy one. -/
inductive DirOrWhole (ν : Type)
  | dir (d : SegDir)
  | whole (cols : SegmentColumns ν)

/-- A segment's keys, for shadow reads. -/
inductive SegKeys (ν : Type)
  | slim (keys : KeysSection)
  | whole (cols : SegmentColumns ν)

variable [Crc32] [Unicode] [Numeral ν] [FloatBits ν] [Rmp SectionDir] [Rmp (List (BlockMeta ν))]
  [Rmp (List (Record ν))]

/-- The directory, cached or parsed; a legacy file is decoded whole. -/
def segmentDir (id : Nat) (file : Bytes) : Load ν (DirOrWhole ν) := do
  match ← cacheGet (.dir ν) id with
  | some d => pure (.dir d)
  | none =>
      set true
      let version ← (Access.ofRes (readHeader file) : Access ν Nat)
      if version = versionV1 then
        let cols ← (Access.ofRes (SegmentColumns.fromRecords <$> decodeV1Records file) :
          Access ν (SegmentColumns ν))
        cachePut (.v1Whole ν) id cols
        pure (.whole cols)
      else if version = versionV2 then
        let d ← (Access.ofRes (readFooter file) : Access ν SegDir)
        cachePut (.dir ν) id d
        pure (.dir d)
      else
        throw (corrupt ("unsupported version " ++ toString version))

/-- The columns put together from their sections. -/
def assembleSections (id : Nat) (dir : SegDir) (file : Bytes) (needTokens : Bool) :
    Load ν (SegmentColumns ν) := do
  let keys ← sectionKeys id dir file
  let timestamps ← sectionTimestamps id dir file
  let blocks ← sectionBlocks id dir file
  let payloadIndex ← sectionPayloadIndex id dir file
  let textIndex ← sectionTextIndex id dir file
  let tokens ← (if needTokens then sectionTokens id dir file else pure none : Load ν _)
  let labels ← (dir.namesOf kLabel).mapM (fun name => do
    let col ← sectionLabel id dir file name
    pure (name, col))
  let numerics ← (dir.namesOf kNumeric).mapM (fun name => do
    let col ← sectionNumeric id dir file name
    pure (name, col))
  pure
    { count := dir.count
      keys, timestamps, blocks, tokens
      labels := OrdMap.ofPairs labels
      numerics := OrdMap.ofPairs numerics
      payloads := .file payloadIndex
      texts := textIndex.map .file }

variable (content : Nat → Bytes)

/-- A segment's data, of a legacy file whole or from sections, the file opened unless the whole is
cached.  A load that read a section from disk is a miss, any other a hit.  `content` says what the
file of each number holds while it is there. -/
def throughCache (id : Nat) (whole : SegmentColumns ν → α) (sections : SegDir → Bytes → Load ν α) :
    Access ν α := do
  match ← cacheGet (.v1Whole ν) id with
  | some cols =>
      noteCacheHit ν
      pure (whole cols)
  | none =>
      let file ← openSegmentFile content id
      match ← (segmentDir id file).run false with
      | (.whole cols, _) =>
          noteCacheMiss ν
          pure (whole cols)
      | (.dir dir, disk) =>
          let (a, disk) ← (sections dir file).run disk
          if disk then noteCacheMiss ν else noteCacheHit ν
          pure a

/-- The columns of a segment, and the open file that its payloads are cut from. -/
def loadSegmentCached (id : Nat) (needTokens : Bool) :
    Access ν (SegmentColumns ν × Option Bytes) :=
  throughCache content id (fun cols => (cols, none)) (fun dir file => do
    let cols ← assembleSections id dir file needTokens
    pure (cols, some file))

/-- The key column of a segment. -/
def loadSegmentKeys (id : Nat) : Access ν (SegKeys ν) :=
  throughCache content id .whole (fun dir file => do
    let keys ← sectionKeys id dir file
    pure (SegKeys.slim keys))

end Programs

end Girder
