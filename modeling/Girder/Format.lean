import Girder.Columns

/-!
# Format — the segment file, written and read

A segment file is a header, a run of sections each preceded by the checksum of its body, and a footer
with the directory of the sections.  `encodeV2` writes one; `readAllRecords` decodes a whole file, and
`loadSegment` assembles columns section by section, reading only what the directory points at.
-/

namespace Girder

open Lib

/-! ## Libraries the format rests on -/

/-- MessagePack serialization of a type. -/
class Rmp (α : Type) where
  toVec : α → Bytes
  fromSlice : Bytes → Except String α

/-- CRC-32. -/
class Crc32 where
  hash : Bytes → UInt32

/-- One byte of the reflected CRC-32. -/
def crcByte (c : UInt32) (b : UInt8) : UInt32 :=
  (List.range 8).foldl
    (fun c _ => if c &&& 1 = 1 then (c >>> 1) ^^^ 0xEDB88320 else c >>> 1) (c ^^^ b.toUInt32)

@[reducible]
def ieeeCrc32 : Crc32 := ⟨fun bs => bs.foldl crcByte 0xFFFFFFFF ^^^ 0xFFFFFFFF⟩

/-! ## Constants -/

def magicWord : Nat := 0x67697264

def versionV1 : Nat := 1

def versionV2 : Nat := 2

def kKeys : UInt8 := 0
def kTs : UInt8 := 1
def kLabel : UInt8 := 2
def kNumeric : UInt8 := 3
def kPayload : UInt8 := 4
def kBlocks : UInt8 := 5
def kText : UInt8 := 6
def kTokens : UInt8 := 7

/-- Raw bytes from which a text is stored deflated. -/
def textCompressMin : Nat := 512

/-- The body under the old text name: too short for an old reader, never parsed by a new one. -/
def textPoison : Bytes := utf8 "!2"

def textV2Name : String := "z2"

def textV2Version : Nat := 2

/-! ## The directory -/

/-- Where a section is: `offset` is that of its checksum, `len` the length of its body. -/
structure SectionEntry where
  kind : UInt8
  name : String
  offset : UInt64
  len : UInt64
  crc : UInt32
  deriving DecidableEq

structure SectionDir where
  count : UInt64
  entries : List SectionEntry
  deriving DecidableEq

/-! ## Encoding -/

/-- A section to be written. -/
structure SectionBody where
  kind : UInt8
  name : String
  body : Bytes

/-- The file so far and its directory so far. -/
structure SegmentWriter where
  out : Bytes
  dir : List SectionEntry

/-- The entry of a section written at `offset`. -/
def sectionEntry [Crc32] (offset : Nat) (s : SectionBody) : SectionEntry where
  kind := s.kind
  name := s.name
  offset := UInt64.ofNat offset
  len := UInt64.ofNat s.body.length
  crc := Crc32.hash s.body

/-- A section in the file. -/
def sectionBytes [Crc32] (s : SectionBody) : Bytes := le32 (Crc32.hash s.body).toNat ++ s.body

def pushSection [Crc32] (w : SegmentWriter) (s : SectionBody) : SegmentWriter where
  out := w.out ++ sectionBytes s
  dir := w.dir ++ [sectionEntry w.out.length s]

def encodeStrings (items : List Bytes) : Bytes :=
  le32 items.length ++ ((offsets items).flatMap le64 ++ items.flatten)

/-- A dictionary value. -/
def encodeDictValue (v : String) : Bytes := le32 (utf8 v).length ++ utf8 v

section Sections

variable {ν : Type}

def encodeLabelColumn (records : List (Record ν)) (plan : LabelPlan) : Bytes :=
  match plan.mode with
  | .dict dict codes =>
      0 :: (le32 dict.length ++ (dict.flatMap encodeDictValue ++ codes.flatMap le16))
  | .plain =>
      1 :: (bitmap (records.map (fun r => r.labels[plan.name]?.isSome)) ++
        encodeStrings (records.filterMap (fun r => r.labels[plan.name]?.map utf8)))

def encodeTimestamps (records : List (Record ν)) : Bytes :=
  records.flatMap (fun r => leI64 r.timestamp)

def encodePayloads (records : List (Record ν)) : Bytes :=
  (offsets (records.map Record.payload)).flatMap le64 ++ (records.map Record.payload).flatten

section Texts

variable [Deflate]

/-- How a text is stored: deflated when it is long and that makes it shorter. -/
def storedText (t : String) : Bytes × Bool :=
  if textCompressMin ≤ (utf8 t).length then
    let comp := Deflate.deflate (utf8 t)
    if comp.length < (utf8 t).length then (comp, true) else (utf8 t, false)
  else
    (utf8 t, false)

/-- The stored bytes of a row's text and whether they are deflated. -/
def storedRow (r : Record ν) : Bytes × Bool :=
  match r.text with
  | some t => storedText t
  | none => ([], false)

def encodeTexts (records : List (Record ν)) : Bytes :=
  le32 textV2Version ++ ((bitmap (records.map (fun r => r.text.isSome)) ++
      (bitmap (records.map (fun r => (storedRow r).2)) ++
        (offsets (records.map (fun r => (storedRow r).1))).flatMap le64)) ++
    (records.map (fun r => (storedRow r).1)).flatten)

end Texts

variable [FloatBits ν]

/-- `f64::to_le_bytes` -/
def leF64 (v : ν) : Bytes := le64 (FloatBits.toBits v).toNat

def encodeNumericColumn (records : List (Record ν)) (name : String) : Bytes :=
  bitmap (records.map (fun r => r.numerics[name]?.isSome)) ++
    (records.filterMap (fun r => r.numerics[name]?)).flatMap leF64

variable [Unicode] [Numeral ν] [Deflate] [Rmp (List (BlockMeta ν))]

/-- The text sections, when some row has text. -/
def textSections (records : List (Record ν)) : Res (List SectionBody) :=
  if records.any (fun r => r.text.isSome) then do
    let tokens ← TokenIndex.encodeTokens (TokenIndex.build records)
    pure [⟨kText, "", textPoison⟩, ⟨kText, textV2Name, encodeTexts records⟩, ⟨kTokens, "", tokens⟩]
  else
    pure []

/-- The sections of a file, in the order they are written. -/
def sectionsOf (records : List (Record ν)) : Res (List SectionBody) := do
  let plans := planLabels records
  let texts ← textSections records
  pure ([⟨kKeys, "", encodeStrings (records.map (fun r => utf8 r.key))⟩,
      ⟨kTs, "", encodeTimestamps records⟩] ++
    (plans.map (fun p => ⟨kLabel, p.name, encodeLabelColumn records p⟩) ++
    ((numericNames records).toList.map (fun n => ⟨kNumeric, n, encodeNumericColumn records n⟩) ++
    ([⟨kPayload, "", encodePayloads records⟩] ++
    (texts ++ [⟨kBlocks, "", Rmp.toVec (buildBlocks records plans)⟩])))))

variable [Crc32] [Rmp SectionDir]

/-- The footer of a directory whose sections end at `footerOff`. -/
def footerBytes (dir : SectionDir) (footerOff : Nat) : Bytes :=
  let dirBody := Rmp.toVec dir
  dirBody ++ (le64 footerOff ++ (le32 (Crc32.hash dirBody).toNat ++ le32 magicWord))

def encodeV2 (records : List (Record ν)) : Res Bytes := do
  let sections ← sectionsOf records
  let w := sections.foldl pushSection ⟨le32 magicWord ++ le32 versionV2, []⟩
  pure (w.out ++ footerBytes ⟨UInt64.ofNat records.length, w.dir⟩ w.out.length)

end Sections

/-! ## Decoding columns -/

/-- The flags of a bitmap. -/
def presenceFlags (m : Bytes) (count : Nat) : Res (List Bool) :=
  (List.range count).mapM (fun i => Res.unwrap (bitAt m i))

def bitmapLen (count : Nat) : Nat := (count + 7) / 8

def decodeStrings (body : Bytes) : Res (String × List Nat) :=
  Reader.eval
    (do
      let count ← Cur.u32
      let offsets ← Reader.many Cur.u64 (count + 1)
      let blob ← Reader.rest
      Reader.check (offsets.getLast? = some blob.length) (corrupt "string blob length mismatch")
      let s ← liftM (Res.utf8 blob "non-utf8 string column")
      pure (s, offsets))
    body

/-- The values of the present rows, taken in order from a string column; `pi` counts them. -/
def plainValues (concat : String) (offsets : List Nat) :
    List Bool → Nat → Res (List (Option String) × Nat)
  | [], pi => pure ([], pi)
  | true :: flags, pi => do
      let a ← Res.index offsets pi
      let b ← Res.index offsets (pi + 1)
      let v ← Res.sliceStr concat a b
      let more ← plainValues concat offsets flags (pi + 1)
      pure (some v :: more.1, more.2)
  | false :: flags, pi => do
      let more ← plainValues concat offsets flags pi
      pure (none :: more.1, more.2)

def readDictValue : Cur String := do
  let len ← Cur.u32
  Cur.string len "non-utf8 dict value"

def readDictColumn (count : Nat) : Cur LabelColumn := do
  let n ← Cur.u32
  let dict ← Reader.many readDictValue n
  liftM (Res.capacity count 2)
  let codes ← Reader.many Cur.u16 count
  pure (.dict dict (codesOf dict) codes)

def readPlainColumn (count : Nat) : Cur LabelColumn := do
  let presence ← Cur.take (bitmapLen count)
  let strings ← Reader.rest
  let column ← liftM (decodeStrings strings)
  liftM (Res.capacity count 24)
  let flags ← liftM (presenceFlags presence count)
  let values ← liftM (plainValues column.1 column.2 flags 0)
  Reader.check (values.2 + 1 = column.2.length)
    (corrupt "plain label presence/value count mismatch")
  pure (.plain values.1)

def decodeLabelColumn (body : Bytes) (count : Nat) : Res LabelColumn :=
  match body with
  | [] => .error (corrupt "empty label section")
  | mode :: rest =>
      if mode = 0 then (readDictColumn count).eval rest
      else if mode = 1 then (readPlainColumn count).eval rest
      else .error (corrupt ("bad label mode " ++ toString mode))

def decodeTimestamps (body : Bytes) (count : Nat) : Res (List Int64) := do
  -- `count * 8` is a 64-bit product
  Res.check (count * 8 < 2 ^ 64) .panic
  Res.check (body.length = count * 8) (corrupt "timestamp column size mismatch")
  (Reader.many Cur.i64 count).eval body

/-- An offset table is zero-based, monotonic and ends at the length of what it cuts. -/
def checkTable (what : String) (rel : List Nat) (len : Nat) : Res Unit := do
  Res.check (rel.head? = some 0) (corrupt (what ++ " offsets not zero-based"))
  Res.check (∀ w ∈ rel.zip rel.tail, w.1 ≤ w.2) (corrupt (what ++ " offsets not monotonic"))
  Res.check (rel.getLast? = some len)
    (corrupt (what ++ " offset table inconsistent with section length"))

/-- `8 * (count + 1)` in 64 bits. -/
def tableLen (count : Nat) (overflow : Fault) : Res Nat :=
  if 8 * (count + 1) < 2 ^ 64 then .ok (8 * (count + 1)) else .error overflow

section Texts

/-- The header of a v1 text section. -/
def decodeTextHeader (header : Bytes) (count bodyAbs blobLen : Nat) : Res TextIndex := do
  let present ← presenceFlags header count
  let rel ← (Reader.many Cur.u64 (count + 1)).eval (header.drop (bitmapLen count))
  checkTable "text" rel blobLen
  let absBase ← Res.add64 bodyAbs (bitmapLen count + 8 * (count + 1))
  pure { absBase, present, rel, compressed := none }

/-- A whole v1 text body. -/
def decodeTextIndex (body : Bytes) (count bodyAbs : Nat) : Res TextIndex := do
  let table ← tableLen count (corrupt "text table overflow")
  Res.check (bitmapLen count + table ≤ body.length) (corrupt "text section shorter than header")
  decodeTextHeader (body.take (bitmapLen count + table)) count bodyAbs
    (body.length - bitmapLen count - table)

/-- The header of a v2 text section: two bitmaps and the offset table. -/
def decodeTextV2Header (header : Bytes) (count blobAbs blobLen : Nat) : Res TextIndex := do
  let table ← tableLen count .panic
  Res.check (header.length = bitmapLen count * 2 + table)
    (corrupt "text v2 header length mismatch")
  let present ← presenceFlags header count
  let compressed ← presenceFlags (header.drop (bitmapLen count)) count
  Res.check ((compressed.zip present).all (fun cp => !cp.1 || cp.2) = true)
    (corrupt "compressed bit on absent text row")
  let rel ← (Reader.many Cur.u64 (count + 1)).eval (header.drop (bitmapLen count * 2))
  checkTable "text" rel blobLen
  pure { absBase := blobAbs, present, rel, compressed := some compressed }

/-- A whole v2 text body. -/
def decodeTextV2 (body : Bytes) (count bodyAbs : Nat) : Res TextIndex :=
  Reader.eval
    (do
      let version ← Cur.u32
      Reader.check (version = textV2Version) (corrupt "unsupported K_TEXT z2 version")
      let table ← liftM (tableLen count .panic)
      let header ← Cur.take (bitmapLen count * 2 + table)
      let blob ← Reader.rest
      liftM (decodeTextV2Header header count (bodyAbs + 4 + (bitmapLen count * 2 + table))
        blob.length))
    body

end Texts

/-- A range of the file in memory. -/
def sliceBytes (bytes : Bytes) (start len : Nat) : Res Bytes := do
  Res.check (start + len < 2 ^ 64) (corrupt "offset overflow")
  Res.check (start + len ≤ bytes.length) (corrupt "section out of bounds")
  pure ((bytes.drop start).take len)

/-- The little-endian word of `len` bytes at `start`. -/
def wordAt (bytes : Bytes) (start len : Nat) : Nat := leNat ((bytes.drop start).take len)

section Decode

variable {ν : Type} [FloatBits ν]

/-- `f64::from_le_bytes` -/
def Cur.f64 : Cur ν := (fun n => FloatBits.ofBits (BitVec.ofNat 64 n)) <$> Cur.u64

def decodeNumericColumn (body : Bytes) (count : Nat) : Res (NumericColumn ν) :=
  Reader.eval
    (do
      let presence ← Cur.take (bitmapLen count)
      let present ← liftM (presenceFlags presence count)
      let values ← present.mapM (fun p => if p then Cur.f64 else pure FloatBits.nan)
      pure { present, values })
    body

/-! ## Decoding a whole file -/

/-- The sections decoded so far. -/
structure Decoding (ν : Type) where
  keys : Option KeysSection := none
  timestamps : Option (List Int64) := none
  labels : OrdMap String LabelColumn := ∅
  numerics : OrdMap String (NumericColumn ν) := ∅
  blocks : Option (List (BlockMeta ν)) := none
  payloads : Option PayloadIndex := none
  texts : Option TextIndex := none
  /-- A section under the old text name, and its offset. -/
  textV1Pending : Option (Bytes × Nat) := none
  tokens : Option TokenIndex := none

variable [Crc32] [Rmp SectionDir] [Rmp (List (BlockMeta ν))]

/-- Turn a deserialization error into a corruption. -/
def decodeRmp {α : Type} [Rmp α] (what : String) (bytes : Bytes) : Res α :=
  match Rmp.fromSlice bytes with
  | .ok a => .ok a
  | .error e => .error (corrupt (what ++ ": " ++ e))

omit [FloatBits ν] [Rmp SectionDir] [Rmp (List (BlockMeta ν))] in
/-- The body of a section, checked against both copies of its checksum. -/
def verifiedSlice (bytes : Bytes) (e : SectionEntry) : Res Bytes := do
  let crcBytes ← sliceBytes bytes e.offset.toNat 4
  let start ← Res.add64 e.offset.toNat 4
  let body ← sliceBytes bytes start e.len.toNat
  Res.check (leNat crcBytes = e.crc.toNat ∧ Crc32.hash body = e.crc)
    (corrupt ("section crc mismatch (kind " ++ toString e.kind ++ ")"))
  pure body

omit [Rmp SectionDir] [Crc32] in
/-- Decode one body by its kind.  The section under the old text name is kept aside: beside a v2
section it is the poison. -/
def decodeBody (count : Nat) (st : Decoding ν) (kind : UInt8) (name : String) (start : Nat)
    (body : Bytes) : Res (Decoding ν) :=
  if kind = kKeys then do
    let column ← decodeStrings body
    pure { st with keys := some ⟨column.1, column.2⟩ }
  else if kind = kTs then do
    let timestamps ← decodeTimestamps body count
    pure { st with timestamps := some timestamps }
  else if kind = kLabel then do
    let col ← decodeLabelColumn body count
    pure { st with labels := st.labels.insert name col }
  else if kind = kNumeric then do
    let col ← decodeNumericColumn body count
    pure { st with numerics := st.numerics.insert name col }
  else if kind = kPayload then do
    Res.capacity (count + 1) 8
    let rel ← (Reader.many Cur.u64 (count + 1)).eval body
    pure { st with payloads := some ⟨start + 4 + 8 * (count + 1), rel⟩ }
  else if kind = kBlocks then do
    let blocks ← decodeRmp "blocks" body
    pure { st with blocks := some blocks }
  else if kind = kText then
    if name = textV2Name then do
      let texts ← decodeTextV2 body count (start + 4)
      pure { st with texts := some texts }
    else
      pure { st with textV1Pending := some (body, start) }
  else if kind = kTokens then do
    let tokens ← TokenIndex.decodeTokens body count
    pure { st with tokens := some tokens }
  else
    pure st

omit [Rmp SectionDir] in
/-- One round of the loop over the directory. -/
def decodeSection (bytes : Bytes) (count : Nat) (st : Decoding ν) (e : SectionEntry) :
    Res (Decoding ν) := do
  let body ← verifiedSlice bytes e
  decodeBody count st e.kind e.name e.offset.toNat body

/-- A section that must be there. -/
def require {α : Type} (a : Option α) (detail : String) : Res α :=
  match a with
  | some a => .ok a
  | none => .error (corrupt detail)

/-- The directory of a file in memory. -/
def decodeFooter (bytes : Bytes) : Res SectionDir := do
  let len := bytes.length
  Res.check (24 ≤ len) (corrupt "v2 file too short")
  Res.check (wordAt bytes (len - 4) 4 = magicWord) (corrupt "bad trailing magic")
  let footerOff := wordAt bytes (len - 16) 8
  Res.check (footerOff ≤ len - 16) (corrupt "footer offset out of bounds")
  let dirBody := (bytes.drop footerOff).take (len - 16 - footerOff)
  Res.check ((Crc32.hash dirBody).toNat = wordAt bytes (len - 8) 4) (corrupt "footer crc mismatch")
  decodeRmp "footer" dirBody

/-- The text index: a v2 section, else a real v1 one. -/
def resolveTexts (texts : Option TextIndex) (pending : Option (Bytes × Nat)) (count : Nat) :
    Res (Option TextIndex) :=
  match texts, pending with
  | some t, _ => pure (some t)
  | none, some (body, start) => some <$> decodeTextIndex body count (start + 4)
  | none, none => pure none

def decodeV2Columns (bytes : Bytes) : Res (SegmentColumns ν) := do
  let dir ← decodeFooter bytes
  let count := dir.count.toNat
  let st ← dir.entries.foldlM (decodeSection bytes count) {}
  let texts ← resolveTexts st.texts st.textV1Pending count
  let keys ← require st.keys "missing key section"
  let timestamps ← require st.timestamps "missing timestamp section"
  let payloads ← require st.payloads "missing payload section"
  let blocks ← require st.blocks "missing block index"
  Res.check (keys.offsets.length = count + 1 ∧ timestamps.length = count)
    (corrupt "column count mismatch")
  pure
    { count, keys, timestamps, blocks,
      labels := st.labels
      numerics := st.numerics
      payloads := .file payloads
      texts := texts.map .file
      tokens := st.tokens }

/-- The version in a file's header. -/
def header (bytes : Bytes) : Res Nat := do
  Res.check (8 ≤ bytes.length) (corrupt "file too short")
  Res.check (wordAt bytes 0 4 = magicWord) (corrupt "bad magic")
  pure (wordAt bytes 4 4)

variable [Rmp (List (Record ν))] [Deflate]

def decodeV1Records (bytes : Bytes) : Res (List (Record ν)) := do
  Res.check (12 ≤ bytes.length) (corrupt "v1 file too short")
  Res.check ((Crc32.hash (bytes.drop 12)).toNat = wordAt bytes 8 4) (corrupt "v1 crc mismatch")
  decodeRmp "v1 decode" (bytes.drop 12)

omit [Crc32] [Rmp SectionDir] [Rmp (List (BlockMeta ν))] [Rmp (List (Record ν))] [FloatBits ν] in
/-- Row `i`'s text, cut out of the file in memory. -/
def fileTextAt (bytes : Bytes) (cols : SegmentColumns ν) (i : Nat) : Res (Option String) :=
  match cols.texts with
  | some (.file ti) => do
      let present ← Res.index ti.present i
      if present then do
        let start ← Res.index ti.rel i
        let offset ← Res.add64 ti.absBase start
        let stop ← Res.index ti.rel (i + 1)
        let len ← Res.sub64 stop start
        let stored ← sliceBytes bytes offset len
        some <$> ti.decodeRowText i stored
      else
        pure none
  | _ => pure none

/-- Row `i`, cut out of the file in memory. -/
def recordAt (bytes : Bytes) (cols : SegmentColumns ν) (pi : PayloadIndex) (i : Nat) :
    Res (Record ν) := do
  let start ← Res.index pi.rel i
  let offset ← Res.add64 pi.absBase start
  let stop ← Res.index pi.rel (i + 1)
  let len ← Res.sub64 stop start
  let payload ← sliceBytes bytes offset len
  let text ← fileTextAt bytes cols i
  cols.buildRecord i payload text

/-- The records of a whole file. -/
def readAllRecords (bytes : Bytes) : Res (List (Record ν)) := do
  let version ← header bytes
  if version = versionV1 then
    decodeV1Records bytes
  else if version = versionV2 then do
    let cols ← decodeV2Columns bytes
    match cols.payloads with
    | .file pi => (List.range cols.count).mapM (recordAt bytes cols pi)
    | .mem _ => throw (corrupt "v2 payloads not file-backed")
  else
    throw (corrupt ("unsupported version " ++ toString version))

end Decode

/-! ## Targeted section reads -/

structure DirEntry where
  offset : Nat
  len : Nat
  crc : UInt32

/-- The parsed directory: the entry of each kind and name, the last one inserted first. -/
structure SegDir where
  count : Nat
  entries : List ((UInt8 × String) × DirEntry)

namespace SegDir

/-- Insert into the map of entries. -/
def insertEntry (entries : List ((UInt8 × String) × DirEntry)) (e : SectionEntry) :
    List ((UInt8 × String) × DirEntry) :=
  ((e.kind, e.name), ⟨e.offset.toNat, e.len.toNat, e.crc⟩) ::
    entries.filter (fun old => decide (old.1 ≠ (e.kind, e.name)))

def get? (dir : SegDir) (kind : UInt8) (name : String) : Option DirEntry :=
  (dir.entries.find? (fun e => decide (e.1 = (kind, name)))).map Prod.snd

def entry (dir : SegDir) (kind : UInt8) (name : String) : Res DirEntry :=
  require (dir.get? kind name) ("missing section (kind " ++ toString kind ++ ")")

/-- The names under a kind. -/
def namesOf (dir : SegDir) (kind : UInt8) : List String :=
  (dir.entries.filter (fun e => decide (e.1.1 = kind))).map (fun e => e.1.2)

end SegDir

section Load

variable [Crc32]

/-- A section's body, read and checked. -/
def readVerifiedBody (file : Bytes) (e : DirEntry) (kind : UInt8) : Res Bytes := do
  Res.check (4 + e.len < 2 ^ 64) (corrupt "section length overflow")
  let buf ← readAt file e.offset (4 + e.len)
  Res.check (leNat (buf.take 4) = e.crc.toNat ∧ Crc32.hash (buf.drop 4) = e.crc)
    (corrupt ("section crc mismatch (kind " ++ toString kind ++ ")"))
  pure (buf.drop 4)

def readHeader (file : Bytes) : Res Nat := do
  let h ← readAt file 0 8
  Res.check (wordAt h 0 4 = magicWord) (corrupt "bad magic")
  pure (wordAt h 4 4)

def readFooter [Rmp SectionDir] (file : Bytes) : Res SegDir := do
  let len := file.length
  Res.check (24 ≤ len) (corrupt "v2 file too short")
  let tail ← readAt file (len - 16) 16
  let footerOff := wordAt tail 0 8
  Res.check (wordAt tail 12 4 = magicWord) (corrupt "bad trailing magic")
  Res.check (footerOff ≤ len - 16) (corrupt "footer offset out of bounds")
  let dirBody ← readAt file footerOff (len - 16 - footerOff)
  Res.check ((Crc32.hash dirBody).toNat = wordAt tail 8 4) (corrupt "footer crc mismatch")
  let dir : SectionDir ← decodeRmp "footer" dirBody
  pure { count := dir.count.toNat, entries := dir.entries.foldl SegDir.insertEntry [] }

def loadKeys (file : Bytes) (dir : SegDir) : Res KeysSection := do
  let e ← dir.entry kKeys ""
  let body ← readVerifiedBody file e kKeys
  let column ← decodeStrings body
  Res.check (column.2.length = dir.count + 1) (corrupt "key column count mismatch")
  pure ⟨column.1, column.2⟩

def loadTimestamps (file : Bytes) (dir : SegDir) : Res (List Int64) := do
  let e ← dir.entry kTs ""
  let body ← readVerifiedBody file e kTs
  decodeTimestamps body dir.count

def loadLabel (file : Bytes) (dir : SegDir) (name : String) : Res LabelColumn := do
  let e ← dir.entry kLabel name
  let body ← readVerifiedBody file e kLabel
  decodeLabelColumn body dir.count

omit [Crc32] in
/-- The text offset table; `none` when no row has text.  The v2 name is tried first. -/
def loadTextIndex (file : Bytes) (dir : SegDir) : Res (Option TextIndex) :=
  match dir.get? kText textV2Name with
  | some e => do
      let word ← readAt file (e.offset + 4) 4
      Res.check (leNat word = textV2Version) (corrupt "unsupported K_TEXT z2 version")
      let table ← tableLen dir.count (corrupt "text table overflow")
      let headerLen := bitmapLen dir.count * 2 + table
      Res.check (headerLen < 2 ^ 64) (corrupt "text v2 header overflow")
      Res.check (4 + headerLen ≤ e.len) (corrupt "text v2 section shorter than header")
      let header ← readAt file (e.offset + 8) headerLen
      some <$> decodeTextV2Header header dir.count (e.offset + 8 + headerLen)
        (e.len - 4 - headerLen)
  | none =>
      match dir.get? kText "" with
      | none => pure none
      | some e => do
          let table ← tableLen dir.count (corrupt "text table overflow")
          Res.check (bitmapLen dir.count + table ≤ e.len)
            (corrupt "text section shorter than header")
          let header ← readAt file (e.offset + 4) (bitmapLen dir.count + table)
          some <$> decodeTextHeader header dir.count (e.offset + 4)
            (e.len - (bitmapLen dir.count + table))

def loadTokens (file : Bytes) (dir : SegDir) : Res (Option TokenIndex) :=
  match dir.get? kTokens "" with
  | none => pure none
  | some e => do
      let body ← readVerifiedBody file e kTokens
      some <$> TokenIndex.decodeTokens body dir.count

omit [Crc32] in
/-- The payload offset table alone; the payloads are neither read nor checked. -/
def loadPayloadIndex (file : Bytes) (dir : SegDir) : Res PayloadIndex := do
  let e ← dir.entry kPayload ""
  let table ← tableLen dir.count (corrupt "payload table overflow")
  Res.check (table ≤ e.len) (corrupt "payload section shorter than offset table")
  let buf ← readAt file (e.offset + 4) table
  let rel ← (Reader.many Cur.u64 (dir.count + 1)).eval buf
  checkTable "payload" rel (e.len - table)
  pure ⟨e.offset + 4 + table, rel⟩

variable {ν : Type} [FloatBits ν] [Rmp (List (BlockMeta ν))]

omit [FloatBits ν] in
def loadBlocks (file : Bytes) (dir : SegDir) : Res (List (BlockMeta ν)) := do
  let e ← dir.entry kBlocks ""
  let body ← readVerifiedBody file e kBlocks
  decodeRmp "blocks" body

omit [Rmp (List (BlockMeta ν))] in
def loadNumeric (file : Bytes) (dir : SegDir) (name : String) : Res (NumericColumn ν) := do
  let e ← dir.entry kNumeric name
  let body ← readVerifiedBody file e kNumeric
  decodeNumericColumn body dir.count

/-- The columns of a v2 file, section by section; the tokens only when a query needs them. -/
def loadColumns [Rmp SectionDir] (file : Bytes) (needTokens : Bool) : Res (SegmentColumns ν) := do
  let dir ← readFooter file
  let keys ← loadKeys file dir
  let timestamps ← loadTimestamps file dir
  let blocks ← loadBlocks file dir
  let payloadIndex ← loadPayloadIndex file dir
  let textIndex ← loadTextIndex file dir
  let tokens ← if needTokens then loadTokens file dir else pure none
  let labels ← (dir.namesOf kLabel).mapM (fun name => do
    let col ← loadLabel file dir name
    pure (name, col))
  let numerics ← (dir.namesOf kNumeric).mapM (fun name => do
    let col ← loadNumeric file dir name
    pure (name, col))
  pure
    { count := dir.count
      keys, timestamps, blocks, tokens
      labels := OrdMap.ofPairs labels
      numerics := OrdMap.ofPairs numerics
      payloads := .file payloadIndex
      texts := textIndex.map .file }

variable [Rmp SectionDir] [Rmp (List (Record ν))] [Unicode] [Numeral ν]

/-- The columns of a segment file, of either version. -/
def loadSegment (file : Bytes) (needTokens : Bool) : Res (SegmentColumns ν) := do
  let version ← readHeader file
  if version = versionV1 then
    SegmentColumns.fromRecords <$> decodeV1Records file
  else if version = versionV2 then
    loadColumns file needTokens
  else
    throw (corrupt ("unsupported version " ++ toString version))

end Load

end Girder
