import Girder.Assembly
import Girder.Sections

/-!
# Shelves — what a load through the section cache answers

An entry of the cache holds what the file it is named by says (`SegmentCache.Coherent`): a put
stores what was just decoded from that file, and lookups, evictions and invalidations add nothing.
So a section found in the cache is the section a load from the file decodes, and a load that mixes
the two ends as one that found nothing, errors included.

`loads_through_cache` states it for any number of loads that share the cache.
-/

namespace Girder

open Lib

/-! ## Reads step by step -/

namespace Access

variable {ν α β : Type} {I : Shelf ν → Prop}

theorem sat_bind {p : Access ν β} {f : β → Access ν α} {Q : Res β → Prop} {T : Res α → Prop}
    (hp : p.run.Sat I Q) (herr : ∀ e, Q (.error e) → T (.error e))
    (hok : ∀ b, Q (.ok b) → (f b).run.Sat I T) : (p >>= f).run.Sat I T := by
  refine Prog.Sat.bind hp (fun out hout => ?_)
  cases out with
  | error e => exact herr e hout
  | ok b => exact hok b hout

/-- An action on the shelf, then the rest. -/
theorem sat_lift_bind {p : Prog (Shelf ν) β} {f : β → Access ν α} {Q : β → Prop}
    {T : Res α → Prop} (hp : p.Sat I Q) (hf : ∀ b, Q b → (f b).run.Sat I T) :
    ((liftM p : Access ν β) >>= f).run.Sat I T := by
  refine Prog.Sat.bind (Q := fun out => ∃ b, out = .ok b ∧ Q b) ?_ ?_
  · exact Prog.Sat.bind hp (fun b hb => ⟨b, rfl, hb⟩)
  · rintro _ ⟨b, rfl, hb⟩
    exact hf b hb

end Access

/-! ## What the cache holds -/

section Coherence

variable {ν α β : Type} [Crc32] [Unicode] [Numeral ν] [FloatBits ν] [Rmp SectionDir]
  [Rmp (List (BlockMeta ν))] [Rmp (List (Record ν))]

/-- A section of a v2 file, read from the file; `none` for one the file lacks. -/
def sectionAt (file : Bytes) (dir : SegDir) : SectionId → Res (Option (Section ν))
  | .dir => .ok (some (.dir dir))
  | .keys => (fun k => some (.keys k)) <$> loadKeys file dir
  | .timestamps => (fun t => some (.timestamps t)) <$> loadTimestamps file dir
  | .blocks => (fun b => some (.blocks b)) <$> loadBlocks file dir
  | .payloadIndex => (fun p => some (.payloadIndex p)) <$> loadPayloadIndex file dir
  | .label name => (fun l => some (.label l)) <$> loadLabel file dir name
  | .numeric name => (fun n => some (.numeric n)) <$> loadNumeric file dir name
  | .textIndex => (fun t => t.map .textIndex) <$> loadTextIndex file dir
  | .tokens => (fun t => t.map .tokens) <$> loadTokens file dir
  | .v1Whole => .ok none

/-- The section is what the file has under the name. -/
def Section.Shows (s : Section ν) (file : Bytes) (id : SectionId) : Prop :=
  (∃ dir, readHeader file = .ok versionV2 ∧ readFooter file = .ok dir ∧
    sectionAt file dir id = .ok (some s)) ∨
  (id = .v1Whole ∧ ∃ cols, s = .v1Whole cols ∧ readHeader file = .ok versionV1 ∧
    SegmentColumns.fromRecords <$> decodeV1Records file = .ok cols)

/-- Every entry holds a section of the file that its number names. -/
def SegmentCache.Coherent (content : Nat → Bytes) (c : SegmentCache (Section ν)) : Prop :=
  ∀ e ∈ c.inner, e.2.«section».Shows (content e.1.1) e.1.2

/-- The cache is coherent, and the files nobody removes are there. -/
structure Shelf.Good (content : Nat → Bytes) (kept : Nat → Prop) (s : Shelf ν) : Prop where
  coherent : s.cache.Coherent content
  present {id : Nat} : kept id → s.present id = true

variable {content : Nat → Bytes} {kept : Nat → Prop}

namespace SegmentCache

variable {c : SegmentCache (Section ν)}

theorem coherent_new (content : Nat → Bytes) (capacityBytes : Nat) :
    ({ capacityBytes := capacityBytes } : SegmentCache (Section ν)).Coherent content := by
  intro e he
  exact absurd he List.not_mem_nil

theorem Coherent.insert (h : c.Coherent content) {id : Nat} {sid : SectionId}
    {entry : CacheEntry (Section ν)} (hshows : entry.«section».Shows (content id) sid) :
    ∀ e ∈ CacheMap.insert c.inner (id, sid) entry, e.2.«section».Shows (content e.1.1) e.1.2 := by
  intro e he
  rcases List.mem_cons.1 he with rfl | hold
  · exact hshows
  · exact h e (List.mem_of_mem_filter hold)

/-- What a lookup finds is there. -/
theorem Coherent.lookup (h : c.Coherent content) {id : Nat} {sid : SectionId}
    {entry : CacheEntry (Section ν)} (hfind : CacheMap.lookup c.inner (id, sid) = some entry) :
    entry.«section».Shows (content id) sid := by
  obtain ⟨e, hfound, rfl⟩ := Option.map_eq_some_iff.1 hfind
  have hkey : e.1 = (id, sid) := by simpa using List.find?_some hfound
  have hshows := h e (List.mem_of_find?_eq_some hfound)
  rw [hkey] at hshows
  exact hshows

theorem Coherent.get (h : c.Coherent content) (id : Nat) (sid : SectionId) :
    (c.get id sid).1.Coherent content ∧
      ∀ s, (c.get id sid).2 = some s → s.Shows (content id) sid := by
  unfold SegmentCache.get
  cases hfind : CacheMap.lookup c.inner (id, sid) with
  | none => exact ⟨h, fun s hs => by cases hs⟩
  | some entry =>
      have hshows := h.lookup hfind
      refine ⟨h.insert hshows, fun s hs => ?_⟩
      cases hs
      exact hshows

theorem Coherent.put (h : c.Coherent content) {id : Nat} {sid : SectionId} {s : Section ν}
    (hs : s.Shows (content id) sid) (bytes : Nat) : (c.put id sid s bytes).Coherent content := by
  intro e he
  exact h.insert hs e ((CacheMap.evict_sublist _ _ _ _).subset he)

theorem Coherent.invalidate (h : c.Coherent content) (id : Nat) :
    (c.invalidate id).Coherent content :=
  fun e he => h e (List.mem_of_mem_filter he)

end SegmentCache

/-! ## Loads that answer what the file says -/

/-- Whatever others do to the shelf, the program ends in `r`. -/
def Load.Yields (content : Nat → Bytes) (kept : Nat → Prop) (p : Load ν α) (r : Res α) : Prop :=
  ∀ disk, Prog.Sat (Shelf.Good content kept) (fun out => out.map Prod.fst = r) (p disk).run

namespace Load

theorem yields_pure (a : α) : Load.Yields content kept (pure a : Load ν α) (.ok a) :=
  fun _ => rfl

theorem yields_bind {p : Load ν α} {x : Res α} {f : α → Load ν β} {y : α → Res β}
    (hp : p.Yields content kept x) (hf : ∀ a, x = .ok a → (f a).Yields content kept (y a)) :
    (p >>= f).Yields content kept (x >>= y) := by
  intro disk
  refine Prog.Sat.bind (hp disk) (fun out hout => ?_)
  cases out with
  | error fault =>
      subst hout
      exact rfl
  | ok ad =>
      subst hout
      exact hf ad.1 rfl ad.2

theorem yields_ofRes (r : Res α) :
    Load.Yields content kept (liftM (Access.ofRes r : Access ν α) : Load ν α) r := by
  intro disk
  cases r with
  | error fault => exact rfl
  | ok a => exact rfl

/-- An action on the cache, then the rest. -/
theorem yields_lift_bind {p : Prog (Shelf ν) β} {Q : β → Prop} {f : β → Load ν α} {r : Res α}
    (hp : p.Sat (Shelf.Good content kept) Q) (hf : ∀ b, Q b → (f b).Yields content kept r) :
    ((liftM p : Load ν β) >>= f).Yields content kept r := by
  intro disk
  refine Prog.Sat.bind (Q := fun out => ∃ b, out = .ok (b, disk) ∧ Q b) ?_ ?_
  · refine Prog.Sat.bind (Q := fun out => ∃ b, out = .ok b ∧ Q b) ?_ ?_
    · exact Prog.Sat.bind hp (fun b hb => ⟨b, rfl, hb⟩)
    · rintro _ ⟨b, rfl, hb⟩
      exact ⟨b, rfl, hb⟩
  · rintro _ ⟨b, rfl, hb⟩
    exact hf b hb disk

theorem yields_set_bind {f : PUnit → Load ν α} {r : Res α} {disk : Bool}
    (hf : (f ⟨⟩).Yields content kept r) : ((set disk : Load ν PUnit) >>= f).Yields content kept r :=
  fun _ => hf disk

end Load

theorem sat_cacheGet (slot : Slot ν α) (id : Nat) :
    (cacheGet slot id).Sat (Shelf.Good content kept)
      (fun found => ∀ a, found = some a → (slot.wrap a).Shows (content id) slot.id) := by
  intro s hs
  have hget := hs.coherent.get id slot.id
  refine ⟨⟨hget.1, hs.present⟩, fun a ha => ?_⟩
  obtain ⟨found, hfound, hview⟩ := Option.bind_eq_some_iff.1 ha
  rw [← slot.view_iff.1 hview]
  exact hget.2 found hfound

theorem sat_cachePut {slot : Slot ν α} {id : Nat} {a : α}
    (h : (slot.wrap a).Shows (content id) slot.id) :
    (cachePut slot id a).Sat (Shelf.Good content kept) (fun _ => True) :=
  Prog.sat_modify (fun _ hs => ⟨hs.coherent.put h _, hs.present⟩)

/-! ## A segment from its sections -/

section Directory

variable {id : Nat} {dir : SegDir}

/-- With its directory known, a file says one thing under each name. -/
theorem Section.Shows.sectionAt_eq {file : Bytes} {sid : SectionId} {s : Section ν}
    (h : s.Shows file sid) (hhead : readHeader file = .ok versionV2)
    (hfoot : readFooter file = .ok dir) : sectionAt file dir sid = .ok (some s) := by
  rcases h with ⟨dir', -, hfoot', hat⟩ | ⟨-, _, -, hv1, -⟩
  · cases Except.ok.inj (hfoot.symm.trans hfoot')
    exact hat
  · exact absurd (Except.ok.inj (hhead.symm.trans hv1)) (by decide)

theorem yields_cachedSection {slot : Slot ν α} {load : Res α}
    (hhead : readHeader (content id) = .ok versionV2) (hfoot : readFooter (content id) = .ok dir)
    (hat : sectionAt (content id) dir slot.id = (fun a => some (slot.wrap a)) <$> load) :
    (cachedSection slot id load).Yields content kept load := by
  refine Load.yields_lift_bind (sat_cacheGet slot id) (fun found hfound => ?_)
  cases found with
  | some a =>
      have hshown := (hfound a rfl).sectionAt_eq hhead hfoot
      rw [hat] at hshown
      cases load with
      | error fault => cases hshown
      | ok b =>
          have hwrap : slot.wrap b = slot.wrap a := Option.some.inj (Except.ok.inj hshown)
          cases slot.wrap_inj hwrap
          exact Load.yields_pure a
  | none =>
      refine Load.yields_set_bind ?_
      have hrest : ∀ a, load = .ok a →
          Load.Yields content kept (do (liftM (cachePut slot id a) : Load ν Unit); pure a)
            (.ok a) := by
        rintro a rfl
        exact Load.yields_lift_bind (sat_cachePut (Or.inl ⟨dir, hhead, hfoot, hat⟩))
          (fun _ _ => Load.yields_pure a)
      have h := Load.yields_bind (Load.yields_ofRes load) hrest
      rw [show (load >>= fun a => (Except.ok a : Res α)) = load by cases load <;> rfl] at h
      exact h

theorem yields_cachedOptional {slot : Slot ν α} {load : Res (Option α)}
    (hhead : readHeader (content id) = .ok versionV2) (hfoot : readFooter (content id) = .ok dir)
    (hat : sectionAt (content id) dir slot.id = (fun a => a.map slot.wrap) <$> load) :
    (cachedOptional slot id load).Yields content kept load := by
  refine Load.yields_lift_bind (sat_cacheGet slot id) (fun found hfound => ?_)
  cases found with
  | some a =>
      have hshown := (hfound a rfl).sectionAt_eq hhead hfoot
      rw [hat] at hshown
      cases load with
      | error fault => cases hshown
      | ok b =>
          obtain ⟨c, rfl, hwrap⟩ := Option.map_eq_some_iff.1 (Except.ok.inj hshown)
          cases slot.wrap_inj hwrap
          exact Load.yields_pure (some a)
  | none =>
      cases load with
      | error fault => exact fun _ => rfl
      | ok b =>
          cases b with
          | none => exact fun _ => rfl
          | some a =>
              have hput : (cachePut slot id a).Sat (Shelf.Good content kept) (fun _ => True) :=
                sat_cachePut (Or.inl ⟨dir, hhead, hfoot, hat⟩)
              have hrest := Load.yields_lift_bind hput (fun _ _ => Load.yields_pure (some a))
              exact fun _ => hrest true

/-- Sections under several names. -/
theorem yields_mapM {names : List String} {p : String → Load ν α} {r : String → Res α}
    (h : ∀ name ∈ names, (p name).Yields content kept (r name)) :
    (names.mapM p).Yields content kept (names.mapM r) := by
  induction names with
  | nil => exact Load.yields_pure []
  | cons name names ih =>
      rw [List.mapM_cons, List.mapM_cons]
      refine Load.yields_bind (h name List.mem_cons_self) (fun a _ => ?_)
      refine Load.yields_bind (ih fun n hn => h n (List.mem_cons_of_mem name hn)) (fun as _ => ?_)
      exact Load.yields_pure (a :: as)

/-- The columns of a v2 file, given its directory. -/
def columnsAt (file : Bytes) (dir : SegDir) (needTokens : Bool) : Res (SegmentColumns ν) := do
  let keys ← loadKeys file dir
  let timestamps ← loadTimestamps file dir
  let blocks ← loadBlocks file dir
  let payloadIndex ← loadPayloadIndex file dir
  let textIndex ← loadTextIndex file dir
  let tokens ← (if needTokens then loadTokens file dir else pure none : Res _)
  let labels ← (dir.namesOf kLabel).mapM (fun name => do
    let col ← loadLabel file dir name
    pure (name, col))
  let numerics ← (dir.namesOf kNumeric).mapM (fun name => do
    let col ← loadNumeric file dir name
    pure (name, col))
  pure
    { count := dir.count
      keys, timestamps, blocks, tokens
      labels := OrdMap.ofPairs labels
      numerics := OrdMap.ofPairs numerics
      payloads := .file payloadIndex
      texts := textIndex.map .file }

omit [Unicode] [Numeral ν] [Rmp (List (Record ν))] in
theorem loadColumns_eq (file : Bytes) (needTokens : Bool) :
    (loadColumns file needTokens : Res (SegmentColumns ν)) =
      readFooter file >>= fun dir => columnsAt file dir needTokens := by
  cases needTokens <;> rfl

theorem yields_assembleSections (hhead : readHeader (content id) = .ok versionV2)
    (hfoot : readFooter (content id) = .ok dir) (needTokens : Bool) :
    (assembleSections id dir (content id) needTokens : Load ν _).Yields content kept
      (columnsAt (content id) dir needTokens) := by
  refine Load.yields_bind (yields_cachedSection hhead hfoot rfl) (fun keys _ => ?_)
  refine Load.yields_bind (yields_cachedSection hhead hfoot rfl) (fun timestamps _ => ?_)
  refine Load.yields_bind (yields_cachedSection hhead hfoot rfl) (fun blocks _ => ?_)
  refine Load.yields_bind (yields_cachedSection hhead hfoot rfl) (fun payloadIndex _ => ?_)
  refine Load.yields_bind (yields_cachedOptional hhead hfoot rfl) (fun textIndex _ => ?_)
  have htokens : Load.Yields content kept
      (if needTokens then sectionTokens id dir (content id) else pure none : Load ν _)
      (if needTokens then loadTokens (content id) dir else pure none) := by
    cases needTokens with
    | false => exact Load.yields_pure none
    | true => exact yields_cachedOptional hhead hfoot rfl
  refine Load.yields_bind htokens (fun tokens _ => ?_)
  refine Load.yields_bind (yields_mapM fun name _ => Load.yields_bind
    (yields_cachedSection hhead hfoot rfl) (fun col _ => Load.yields_pure (name, col)))
    (fun labels _ => ?_)
  refine Load.yields_bind (yields_mapM fun name _ => Load.yields_bind
    (yields_cachedSection hhead hfoot rfl) (fun col _ => Load.yields_pure (name, col)))
    (fun numerics _ => ?_)
  exact Load.yields_pure _

/-- The directory of a file, or the whole of a legacy one, with nothing cached. -/
def dirAt (file : Bytes) : Res (DirOrWhole ν) := do
  let version ← readHeader file
  if version = versionV1 then
    DirOrWhole.whole <$> SegmentColumns.fromRecords <$> decodeV1Records file
  else if version = versionV2 then
    DirOrWhole.dir <$> readFooter file
  else
    throw (corrupt ("unsupported version " ++ toString version))

omit [Rmp (List (BlockMeta ν))] in
theorem dirAt_of_v2 {file : Bytes} (hhead : readHeader file = .ok versionV2) :
    (dirAt file : Res (DirOrWhole ν)) = DirOrWhole.dir <$> readFooter file := by
  rw [dirAt, hhead]
  rfl

omit [Rmp (List (BlockMeta ν))] in
theorem dirAt_of_v1 {file : Bytes} (hhead : readHeader file = .ok versionV1) :
    (dirAt file : Res (DirOrWhole ν)) =
      DirOrWhole.whole <$> SegmentColumns.fromRecords <$> decodeV1Records file := by
  rw [dirAt, hhead]
  rfl

omit [Rmp (List (BlockMeta ν))] in
/-- Only a v2 file has a directory. -/
theorem dirAt_eq_dir {file : Bytes} (h : (dirAt file : Res (DirOrWhole ν)) = .ok (.dir dir)) :
    readHeader file = .ok versionV2 ∧ readFooter file = .ok dir := by
  unfold dirAt at h
  cases hhead : readHeader file with
  | error fault =>
      rw [hhead] at h
      cases h
  | ok version =>
      rw [hhead, Res.ok_bind] at h
      split at h
      · cases hrows : decodeV1Records (ν := ν) file with
        | error fault =>
            rw [hrows] at h
            cases h
        | ok rows =>
            rw [hrows] at h
            cases h
      · split at h
        · rename_i hv2
          cases hfoot : readFooter file with
          | error fault =>
              rw [hfoot] at h
              cases h
          | ok d =>
              rw [hfoot] at h
              cases h
              exact ⟨congrArg Except.ok hv2, rfl⟩
        · cases h

theorem yields_segmentDir (id : Nat) :
    (segmentDir id (content id) : Load ν _).Yields content kept (dirAt (content id)) := by
  refine Load.yields_lift_bind (sat_cacheGet (.dir ν) id) (fun found hfound => ?_)
  cases found with
  | some d =>
      rcases hfound d rfl with ⟨dir, hhead, hfoot, hat⟩ | ⟨hid, -⟩
      · cases Except.ok.inj hat
        rw [dirAt_of_v2 hhead, hfoot]
        exact Load.yields_pure _
      · cases hid
  | none =>
      refine Load.yields_set_bind ?_
      refine Load.yields_bind (Load.yields_ofRes _) (fun version hversion => ?_)
      split
      · -- A v1 file is decoded and cached whole.
        rename_i hv1
        subst hv1
        cases hcols : (SegmentColumns.fromRecords <$> decodeV1Records (content id) :
          Res (SegmentColumns ν)) with
        | error fault => exact fun _ => rfl
        | ok cols =>
            have hput : (cachePut (.v1Whole ν) id cols).Sat (Shelf.Good content kept) _ :=
              sat_cachePut (Or.inr ⟨rfl, cols, rfl, hversion, hcols⟩)
            exact Load.yields_lift_bind hput (fun _ _ => Load.yields_pure _)
      · split
        · -- Of a v2 file the directory is cached.
          rename_i hv2
          subst hv2
          cases hfoot : readFooter (content id) with
          | error fault => exact fun _ => rfl
          | ok dir =>
              have hput : (cachePut (.dir ν) id dir).Sat (Shelf.Good content kept) _ :=
                sat_cachePut (Or.inl ⟨dir, hversion, hfoot, rfl⟩)
              exact Load.yields_lift_bind hput (fun _ _ => Load.yields_pure _)
        · exact fun _ => rfl

/-- A segment's data with nothing cached. -/
def fromFile (file : Bytes) (whole : SegmentColumns ν → α) (sections : SegDir → Res α) : Res α := do
  match ← dirAt file with
  | .whole cols => pure (whole cols)
  | .dir dir => sections dir

/-- A segment's columns, and the file when they need it. -/
def loadedFrom (file : Bytes) (needTokens : Bool) : Res (SegmentColumns ν × Option Bytes) :=
  fromFile file (fun cols => (cols, none)) (fun dir => do
    let cols ← columnsAt file dir needTokens
    pure (cols, some file))

/-- A segment's keys. -/
def keysFrom (file : Bytes) : Res (SegKeys ν) :=
  fromFile file .whole (fun dir => do
    let keys ← loadKeys file dir
    pure (SegKeys.slim keys))

theorem fst_loadedFrom (file : Bytes) (needTokens : Bool) :
    Prod.fst <$> (loadedFrom file needTokens : Res (SegmentColumns ν × _)) =
      loadSegment file needTokens := by
  unfold loadedFrom fromFile dirAt loadSegment
  cases readHeader file with
  | error fault => rfl
  | ok version =>
      simp only [Res.ok_bind]
      split
      · cases decodeV1Records (ν := ν) file <;> rfl
      · split
        · rw [loadColumns_eq]
          cases readFooter file with
          | error fault => rfl
          | ok dir =>
              change Prod.fst <$> (columnsAt file dir needTokens >>= fun cols =>
                (pure (cols, some file) : Res (SegmentColumns ν × _))) =
                  columnsAt file dir needTokens
              cases columnsAt (ν := ν) file dir needTokens <;> rfl
        · rfl

omit [Rmp (List (BlockMeta ν))] in
theorem fromFile_of_whole {file : Bytes} {cols : SegmentColumns ν}
    (h : dirAt file = .ok (.whole cols)) (whole : SegmentColumns ν → α)
    (sections : SegDir → Res α) : fromFile file whole sections = .ok (whole cols) := by
  rw [fromFile, h]
  rfl

omit [Rmp (List (BlockMeta ν))] in
theorem fromFile_of_dir {file : Bytes} (h : (dirAt file : Res (DirOrWhole ν)) = .ok (.dir dir))
    (whole : SegmentColumns ν → α) (sections : SegDir → Res α) :
    fromFile file whole sections = sections dir := by
  rw [fromFile, h]
  rfl

end Directory

/-! ## Loads among other reads -/

theorem sat_note {effect : Shelf ν → Shelf ν} (hcache : ∀ s, (effect s).cache = s.cache)
    (hpresent : ∀ s, (effect s).present = s.present) :
    (Prog.modify effect).Sat (Shelf.Good content kept) (fun _ => True) :=
  Prog.sat_modify fun s hs =>
    ⟨(hcache s).symm ▸ hs.coherent, fun hid => (congrFun (hpresent s) _).trans (hs.present hid)⟩

theorem sat_openSegmentFile (id : Nat) :
    (openSegmentFile content id : Access ν Bytes).run.Sat (Shelf.Good content kept)
      (fun out => (out = .error vanished ∧ ¬ kept id) ∨ out = .ok (content id)) := by
  refine Prog.sat_read (fun s hs => ?_)
  by_cases hpresent : s.present id = true
  · exact Or.inr (if_pos hpresent)
  · exact Or.inl ⟨if_neg hpresent, fun hkept => hpresent (hs.present hkept)⟩

/-- Data of a segment comes out as with nothing cached, or the file is gone. -/
theorem sat_throughCache {id : Nat} {whole : SegmentColumns ν → α}
    {sections : SegDir → Bytes → Load ν α} {cold : SegDir → Res α}
    (hsections : ∀ dir, readHeader (content id) = .ok versionV2 →
      readFooter (content id) = .ok dir →
        (sections dir (content id)).Yields content kept (cold dir)) :
    (throughCache content id whole sections).run.Sat (Shelf.Good content kept)
      (fun out => (out = .error vanished ∧ ¬ kept id) ∨
        out = fromFile (content id) whole cold) := by
  refine Access.sat_lift_bind (sat_cacheGet (.v1Whole ν) id) (fun found hfound => ?_)
  cases found with
  | some cols =>
      -- A v1 segment is cached whole.
      rcases hfound cols rfl with ⟨dir, -, -, hat⟩ | ⟨-, _, hcols, hhead, hdecode⟩
      · cases hat
      · cases hcols
        have hdir : (dirAt (content id) : Res (DirOrWhole ν)) = .ok (.whole cols) := by
          rw [dirAt_of_v1 hhead, hdecode]
          rfl
        exact Access.sat_lift_bind (sat_note (fun _ => rfl) (fun _ => rfl))
          (fun _ _ => Prog.sat_pure (Or.inr (fromFile_of_whole hdir whole cold).symm))
  | none =>
      refine Access.sat_bind (sat_openSegmentFile id) (fun e he => ?_) (fun file hfile => ?_)
      · rcases he with ⟨he, hkept⟩ | he
        · exact Or.inl ⟨by cases he; rfl, hkept⟩
        · cases he
      rcases hfile with ⟨hfile, -⟩ | hfile
      · cases hfile
      cases Except.ok.inj hfile
      refine Access.sat_bind (yields_segmentDir id false) (fun e he => Or.inr ?_) (fun d hd => ?_)
      · rw [fromFile, ← he]
        rfl
      obtain ⟨found, disk⟩ := d
      cases found with
      | whole cols =>
          exact Access.sat_lift_bind (sat_note (fun _ => rfl) (fun _ => rfl))
            (fun _ _ => Prog.sat_pure (Or.inr (fromFile_of_whole hd.symm whole cold).symm))
      | dir dir =>
          have hdir : (dirAt (content id) : Res (DirOrWhole ν)) = .ok (.dir dir) := hd.symm
          obtain ⟨hhead, hfoot⟩ := dirAt_eq_dir hdir
          rw [fromFile_of_dir hdir]
          -- The sections come from the cache or the file; only the counters tell which.
          refine Access.sat_bind (hsections dir hhead hfoot disk) (fun e he => Or.inr he)
            (fun ad had => ?_)
          obtain ⟨a, disk⟩ := ad
          cases disk with
          | false =>
              exact Access.sat_lift_bind (sat_note (fun _ => rfl) (fun _ => rfl))
                (fun _ _ => Prog.sat_pure (Or.inr had))
          | true =>
              exact Access.sat_lift_bind (sat_note (fun _ => rfl) (fun _ => rfl))
                (fun _ _ => Prog.sat_pure (Or.inr had))

theorem sat_loadSegmentCached (id : Nat) (needTokens : Bool) :
    (loadSegmentCached content id needTokens : Access ν _).run.Sat (Shelf.Good content kept)
      (fun out => (out = .error vanished ∧ ¬ kept id) ∨
        out = loadedFrom (content id) needTokens) :=
  sat_throughCache fun _ hhead hfoot =>
    Load.yields_bind (yields_assembleSections hhead hfoot needTokens)
      (fun cols _ => Load.yields_pure (cols, some (content id)))

theorem sat_loadSegmentKeys (id : Nat) :
    (loadSegmentKeys content id : Access ν _).run.Sat (Shelf.Good content kept)
      (fun out => (out = .error vanished ∧ ¬ kept id) ∨ out = keysFrom (content id)) :=
  sat_throughCache fun _ hhead hfoot =>
    Load.yields_bind (yields_cachedSection hhead hfoot rfl)
      (fun keys _ => Load.yields_pure (SegKeys.slim keys))

/-! ## Many loads -/

/-- What maintenance does to the shelf beside the loads: files appear and disappear, never one that
is kept, and a retired segment's sections are dropped. -/
inductive Shelf.Changes (kept : Nat → Prop) : Shelf ν → Shelf ν → Prop
  | files {s : Shelf ν} (present : Nat → Bool) (h : ∀ id, kept id → present id = true) :
      Changes kept s { s with present := present }
  | invalidate {s : Shelf ν} (id : Nat) :
      Changes kept s { s with cache := s.cache.invalidate id }

theorem Shelf.Good.change {s s' : Shelf ν} (h : s.Good content kept)
    (hs : Shelf.Changes kept s s') : s'.Good content kept := by
  cases hs with
  | files present hkept => exact ⟨h.coherent, fun hid => hkept _ hid⟩
  | invalidate id => exact ⟨h.coherent.invalidate id, h.present⟩

/-- An empty cache over some files. -/
def Shelf.empty (capacityBytes : Nat) (present : Nat → Bool) : Shelf ν where
  cache := { capacityBytes := capacityBytes }
  present := present

theorem Shelf.good_empty {present : Nat → Bool} (capacityBytes : Nat)
    (h : ∀ id, kept id → present id = true) :
    (Shelf.empty capacityBytes present : Shelf ν).Good content kept :=
  ⟨SegmentCache.coherent_new content capacityBytes, fun hid => h _ hid⟩

/-- A load of a segment's columns, or of its keys only. -/
inductive LoadCall
  | columns (id : Nat) (needTokens : Bool)
  | keys (id : Nat)

def LoadCall.id : LoadCall → Nat
  | .columns id _ => id
  | .keys id => id

/-- What a load returns. -/
inductive Loaded (ν : Type)
  | columns (cols : SegmentColumns ν) (file : Option Bytes)
  | keys (keys : SegKeys ν)

/-- The load as a program. -/
def LoadCall.program (content : Nat → Bytes) : LoadCall → Prog (Shelf ν) (Res (Loaded ν))
  | .columns id needTokens =>
      ((fun loaded => Loaded.columns loaded.1 loaded.2) <$>
        loadSegmentCached content id needTokens : Access ν _).run
  | .keys id => (Loaded.keys <$> loadSegmentKeys content id : Access ν _).run

/-- The load of the file, with nothing cached. -/
def LoadCall.fromDisk (file : Bytes) : LoadCall → Res (Loaded ν)
  | .columns _ needTokens =>
      (fun loaded => Loaded.columns loaded.1 loaded.2) <$> loadedFrom file needTokens
  | .keys _ => Loaded.keys <$> keysFrom file

theorem sat_map {β γ : Type} {p : Access ν β} {r : Res β} {gone : Prop}
    (h : p.run.Sat (Shelf.Good content kept)
      (fun out => (out = .error vanished ∧ gone) ∨ out = r)) (f : β → γ) :
    (f <$> p).run.Sat (Shelf.Good content kept)
      (fun out => (out = .error vanished ∧ gone) ∨ out = f <$> r) := by
  refine Access.sat_bind h (fun e he => ?_) (fun a ha => ?_)
  · rcases he with ⟨he, hgone⟩ | rfl
    · exact Or.inl ⟨by cases he; rfl, hgone⟩
    · exact Or.inr rfl
  · rcases ha with ⟨ha, -⟩ | rfl
    · cases ha
    · exact Prog.sat_pure (Or.inr rfl)

theorem LoadCall.sat_program (call : LoadCall) :
    (call.program content : Prog (Shelf ν) _).Sat (Shelf.Good content kept)
      (fun out => (out = .error vanished ∧ ¬ kept call.id) ∨
        out = (call.fromDisk (content call.id) : Res (Loaded ν))) := by
  cases call with
  | columns id needTokens => exact sat_map (sat_loadSegmentCached id needTokens) _
  | keys id => exact sat_map (sat_loadSegmentKeys id) _

/-- Alone on an empty cache with its file there, a load is the load from the file. -/
theorem LoadCall.run_empty (call : LoadCall) (capacityBytes : Nat) :
    ((call.program content).run (Shelf.empty capacityBytes (fun _ => true))).2 =
      (call.fromDisk (content call.id) : Res (Loaded ν)) := by
  have hsat : (call.program content : Prog (Shelf ν) _).Sat
      (Shelf.Good content (fun _ => True)) _ := call.sat_program
  have halone := Prog.sat_run hsat (Shelf.good_empty capacityBytes (fun _ _ => rfl))
  exact halone.resolve_left (fun hgone => hgone.2 trivial)

/-- Any number of loads, of whole columns or of keys only, share a cache that evicts, while files
come and go and sections are dropped: a load that has ended, ended as it would alone on an empty
cache, whatever the file holds, or the file was gone; and the columns are those of the file. -/
theorem loads_through_cache (content : Nat → Bytes) (kept : Nat → Prop) (capacityBytes : Nat)
    {present : Nat → Bool} (hpresent : ∀ id, kept id → present id = true)
    {pool : Pool (Shelf ν) LoadCall (Res (Loaded ν))}
    (hsteps : Pool.Steps (Shelf.Changes kept) (LoadCall.program content)
      { store := Shelf.empty capacityBytes present } pool)
    {call : LoadCall} {out : Res (Loaded ν)} (hended : (call, .done out) ∈ pool.threads) :
    (out = .error vanished ∧ ¬ kept call.id) ∨
      (out = ((call.program content).run (Shelf.empty capacityBytes (fun _ => true))).2 ∧
        ∀ id needTokens, call = .columns id needTokens → ∃ loaded,
          Prod.fst <$> loaded = (loadSegment (content id) needTokens : Res (SegmentColumns ν)) ∧
            out = (fun l => .columns l.1 l.2) <$> loaded) := by
  have hok := Pool.sat_of_steps (Q := fun call out =>
      (out = .error vanished ∧ ¬ kept call.id) ∨ out = call.fromDisk (content call.id))
    ⟨Shelf.good_empty capacityBytes hpresent, fun hmem => absurd hmem List.not_mem_nil⟩
    (fun _ _ hgood hchange => hgood.change hchange) LoadCall.sat_program hsteps
  rcases hok.threads hended with hgone | rfl
  · exact Or.inl hgone
  · refine Or.inr ⟨(call.run_empty capacityBytes).symm, ?_⟩
    rintro id needTokens rfl
    exact ⟨_, fst_loadedFrom (content id) needTokens, rfl⟩

end Coherence

section Sample

local instance instShelvesCrc32 : Crc32 := instAssemblyCrc32

local instance instShelvesUnicode : Unicode := instAssemblyUnicode

local instance instShelvesDeflate : Deflate := instAssemblyDeflate

noncomputable local instance instShelvesRmpBlocks : Rmp (List (BlockMeta Binary64)) :=
  instAssemblyRmpBlocks

noncomputable local instance instShelvesRmpDir : Rmp SectionDir := instAssemblyRmpDir

local instance instShelvesRmpRecords : Rmp (List (Record Binary64)) := instAssemblyRmpRecords

/-- A load of the columns and one of the keys, begun together. -/
noncomputable def sampleLoads (file : Bytes) :
    Pool (Shelf Binary64) LoadCall (Res (Loaded Binary64)) where
  store := Shelf.empty 4096 (fun _ => true)
  threads :=
    [(.columns 0 true, LoadCall.program (fun _ => file) (.columns 0 true)),
      (.keys 0, LoadCall.program (fun _ => file) (.keys 0))]

/-- The two take turns at the cache eight times, then the second ends, then the first. -/
noncomputable def sampleTurns (file : Bytes) :
    Pool (Shelf Binary64) LoadCall (Res (Loaded Binary64)) :=
  (([0, 1, 0, 1, 0, 1, 0, 1].foldl Pool.turn (sampleLoads file)).finish 1).finish 0

theorem loads_through_cache_sampleRows :
    (sampleTurns (fileOf sampleRows)).threads =
      [(.columns 0 true, .done ((LoadCall.program (fun _ => fileOf sampleRows)
          (.columns 0 true)).run (Shelf.empty 4096 (fun _ => true))).2),
        (.keys 0, .done ((LoadCall.program (fun _ => fileOf sampleRows)
          (.keys 0)).run (Shelf.empty 4096 (fun _ => true))).2)] := by
  -- The file is kept abstract, so that no step of the loads is computed.
  generalize fileOf sampleRows = file
  have hstarted : Pool.Steps (Shelf.Changes (fun _ => True)) (LoadCall.program (fun _ => file))
      { store := Shelf.empty 4096 (fun _ => true) } (sampleLoads file) :=
    Relation.ReflTransGen.head (Pool.Step.start (LoadCall.columns 0 true))
      (Relation.ReflTransGen.single (Pool.Step.start (LoadCall.keys 0)))
  have hturned := hstarted.trans (Pool.steps_turns [0, 1, 0, 1, 0, 1, 0, 1] (sampleLoads file))
  have hsteps := (hturned.trans (Pool.steps_finish _ 1)).trans (Pool.steps_finish _ 0)
  have halone : ∀ {call out}, (call, Prog.done out) ∈ (sampleTurns file).threads →
      out = ((call.program (fun _ => file)).run (Shelf.empty 4096 (fun _ => true))).2 := by
    intro call out hended
    rcases loads_through_cache (fun _ => file) (fun _ => True) 4096 (fun _ _ => rfl) hsteps hended
      with ⟨-, hgone⟩ | ⟨hout, -⟩
    · exact absurd trivial hgone
    · exact hout
  obtain ⟨cols, keys, hends⟩ : ∃ cols keys, (sampleTurns file).threads =
      [(.columns 0 true, .done cols), (.keys 0, .done keys)] :=
    Pool.threads_finish_two (p := sampleLoads file) rfl [0, 1, 0, 1, 0, 1, 0, 1]
  have hcols := halone (hends ▸ List.mem_cons_self)
  have hkeys := halone (hends ▸ List.mem_cons_of_mem _ List.mem_cons_self)
  rw [hends, hcols, hkeys]

end Sample

end Girder
