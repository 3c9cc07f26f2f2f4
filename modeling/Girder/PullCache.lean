import Girder.Lib.Directory
import Girder.Moves
import Mathlib.Logic.Function.Basic

/-!
# Pull cache — readers that fetch remote segments into one directory

`open_remote_segment` looks for a copy of the object in the pull directory.  On a miss it fetches
the object, prunes the directory, writes a tmp file and renames it to the object's name.  Each
system call is one step here, so that any number of readers interleave at every one of them
(`PullCache.Step`): names are listed at one time and their lengths read at others, a file is evicted
while another reader fills it, a reader dies half way and leaves its tmp file.

The tmp file is named after the object.  Two pulls of one object therefore write to one file, and
what is at the object's name is the whole object as long as no two of them do so at once
(`pulled_whole`).
-/

namespace Girder

open Lib

/-- A name in the pull directory: the copy of an object, or the file that is written first. -/
inductive PullName
  | object (file : Nat)
  | tmp (file : Nat)
  deriving DecidableEq, Repr

/-- The object that the name belongs to. -/
def PullName.file : PullName → Nat
  | object file => file
  | tmp file => file

abbrev PullFile := DirFile PullName

abbrev PullDir := Directory PullName

/-- How far a call of `open_remote_segment` has come: each is named by what it has just done. -/
inductive Pull
  | idle
  | opening (file : Nat)
  | missed (file : Nat)
  | fetched (file : Nat) (bytes : Bytes)
  | listing (file : Nat) (bytes : Bytes) (names : List PullName) (entries : List PullFile)
  | pruning (file : Nat) (bytes : Bytes) (resident freed : Nat) (entries : List PullFile)
  | pruned (file : Nat) (bytes : Bytes)
  | filling (file : Nat) (bytes : Bytes) (inode offset : Nat)
  | written (file : Nat)
  | renamed (file : Nat)
  | ended (file : Nat) (out : Except GirderError PullFile)

namespace Pull

/-- The object, between a miss and the rename. -/
def fetching : Pull → Option Nat
  | missed file => some file
  | fetched file _ => some file
  | listing file _ _ _ => some file
  | pruning file _ _ _ _ => some file
  | pruned file _ => some file
  | filling file _ _ _ => some file
  | written file => some file
  | _ => none

/-- The object, between the tmp file's creation and the rename. -/
def writing : Pull → Option Nat
  | filling file _ _ _ => some file
  | written file => some file
  | _ => none

/-- No call is running. -/
def returned : Pull → Bool
  | idle => true
  | ended _ _ => true
  | _ => false

/-- The first `File::open`. -/
def opened (dir : PullDir) (file : Nat) : Pull :=
  match dir.find? (.object file) with
  | some f => .ended file (.ok f)
  | none => .missed file

/-- `store.get`. -/
def fetch (store : Option (Nat → Except GirderError (Option Bytes))) (file : Nat) : Pull :=
  match store with
  | none =>
      .ended file (.error (.corrupt "manifest"
        ("remote segment " ++ segFile file ++ " but no object store injected")))
  | some get =>
      match get file with
      | .error e => .ended file (.error e)
      | .ok none =>
          .ended file (.error (.corrupt "segment"
            ("remote object " ++ segFile file ++ " is missing")))
      | .ok (some bytes) => .fetched file bytes

/-- The last `File::open`. -/
def reopened (dir : PullDir) (file : Nat) : Pull :=
  match dir.find? (.object file) with
  | some f => .ended file (.ok f)
  | none => .ended file (.error (.io "NotFound"))

/-- The test of the prune loop, in 64 bits. -/
def HasRoom (budget resident freed incoming : Nat) : Prop :=
  min (resident - freed + incoming) (2 ^ 64 - 1) ≤ budget

instance (budget resident freed incoming : Nat) :
    Decidable (HasRoom budget resident freed incoming) :=
  inferInstanceAs (Decidable (_ ≤ _))

/-- The bytes at hand are the object, and the descriptor is on a file of that object. -/
def Ok (objects : Nat → Bytes) (d : PullDir) : Pull → Prop
  | fetched file bytes => bytes = objects file
  | listing file bytes _ _ => bytes = objects file
  | pruning file bytes _ _ _ => bytes = objects file
  | pruned file bytes => bytes = objects file
  | filling file bytes inode offset =>
      bytes = objects file ∧ offset ≤ bytes.length ∧ inode < d.nextInode ∧
        ∀ f ∈ d.files, f.inode = inode → f.name.file = file
  | _ => True

end Pull

/-- The pull directory and the calls of `k` readers. -/
structure PullCache (k : Nat) where
  dir : PullDir := {}
  pulls : Fin k → Pull := fun _ => .idle

namespace PullCache

variable {k : Nat}

/-- One reader goes on, and has changed the directory. -/
def put (s : PullCache k) (i : Fin k) (dir : PullDir) (p : Pull) : PullCache k :=
  { dir, pulls := Function.update s.pulls i p }

/-- One reader goes on. -/
def set (s : PullCache k) (i : Fin k) (p : Pull) : PullCache k := s.put i s.dir p

/-- `fs::rename(&tmp, &path)`. -/
def rename (s : PullCache k) (i : Fin k) (file : Nat) : PullCache k :=
  match s.dir.rename (.tmp file) (.object file) with
  | some dir => s.put i dir (.renamed file)
  | none => s.set i (.ended file (.error (.io "NotFound")))

/-- What the store answers is the object. -/
def Serves (objects : Nat → Bytes) (store : Option (Nat → Except GirderError (Option Bytes))) :
    Prop :=
  ∀ get, store = some get → ∀ file bytes, get file = .ok (some bytes) → bytes = objects file

/-- A system call of one reader, or what happens to all of them. -/
inductive Step (budget : Nat) (objects : Nat → Bytes) : PullCache k → PullCache k → Prop
  | call {s : PullCache k} (i : Fin k) (file : Nat) (h : (s.pulls i).returned = true) :
      Step budget objects s (s.set i (.opening file))
  | openFirst {s : PullCache k} (i : Fin k) {file : Nat} (h : s.pulls i = .opening file) :
      Step budget objects s (s.set i (Pull.opened s.dir file))
  | get {s : PullCache k} (i : Fin k) {file : Nat}
      (store : Option (Nat → Except GirderError (Option Bytes))) (h : s.pulls i = .missed file)
      (hserves : Serves objects store) :
      Step budget objects s (s.set i (Pull.fetch store file))
  | readDir {s : PullCache k} (i : Fin k) {file : Nat} {bytes : Bytes} (names : List PullName)
      (h : s.pulls i = .fetched file bytes)
      (hnames : names.Perm (s.dir.files.map DirFile.name)) :
      Step budget objects s
        (s.set i (.listing file bytes (names.filter (fun n => decide (n ≠ .object file))) []))
  | metadata {s : PullCache k} (i : Fin k) {file : Nat} {bytes : Bytes} {name : PullName}
      {names : List PullName} {entries : List PullFile}
      (h : s.pulls i = .listing file bytes (name :: names) entries) :
      Step budget objects s
        (s.set i (.listing file bytes names (entries ++ (s.dir.find? name).toList)))
  | sort {s : PullCache k} (i : Fin k) {file : Nat} {bytes : Bytes} {entries : List PullFile}
      (h : s.pulls i = .listing file bytes [] entries) :
      Step budget objects s
        (s.set i (.pruning file bytes (entries.map DirFile.len).sum 0
          (sortAsc DirFile.mtime entries)))
  | evict {s : PullCache k} (i : Fin k) {file : Nat} {bytes : Bytes} {resident freed : Nat}
      {entry : PullFile} {entries : List PullFile}
      (h : s.pulls i = .pruning file bytes resident freed (entry :: entries))
      (hroom : ¬ Pull.HasRoom budget resident freed bytes.length) :
      Step budget objects s
        (s.put i (s.dir.remove entry.name)
          (.pruning file bytes resident (freed + entry.len) entries))
  | fits {s : PullCache k} (i : Fin k) {file : Nat} {bytes : Bytes} {resident freed : Nat}
      {entries : List PullFile} (h : s.pulls i = .pruning file bytes resident freed entries)
      (hroom : entries = [] ∨ Pull.HasRoom budget resident freed bytes.length) :
      Step budget objects s (s.set i (.pruned file bytes))
  | create {s : PullCache k} (i : Fin k) {file : Nat} {bytes : Bytes} (now : Nat)
      (h : s.pulls i = .pruned file bytes) :
      Step budget objects s
        (s.put i (s.dir.create (.tmp file) now).1
          (.filling file bytes (s.dir.create (.tmp file) now).2 0))
  | write {s : PullCache k} (i : Fin k) {file : Nat} {bytes : Bytes} {inode offset : Nat}
      (now n : Nat) (h : s.pulls i = .filling file bytes inode offset) :
      Step budget objects s
        (s.put i (s.dir.writeAt inode offset ((bytes.drop offset).take n) now)
          (.filling file bytes inode (offset + ((bytes.drop offset).take n).length)))
  | close {s : PullCache k} (i : Fin k) {file : Nat} {bytes : Bytes} {inode offset : Nat}
      (h : s.pulls i = .filling file bytes inode offset) (hall : bytes.length ≤ offset) :
      Step budget objects s (s.set i (.written file))
  | rename {s : PullCache k} (i : Fin k) {file : Nat} (h : s.pulls i = .written file) :
      Step budget objects s (s.rename i file)
  | openLast {s : PullCache k} (i : Fin k) {file : Nat} (h : s.pulls i = .renamed file) :
      Step budget objects s (s.set i (Pull.reopened s.dir file))
  /-- A call of the file system fails. -/
  | fail {s : PullCache k} (i : Fin k) {file : Nat} (e : GirderError)
      (h : (s.pulls i).fetching = some file) :
      Step budget objects s (s.set i (.ended file (.error e)))
  /-- The process dies: the files stay. -/
  | crash {s : PullCache k} : Step budget objects s { s with pulls := fun _ => .idle }
  /-- `drop_segment_file` removes the copy of a segment that is gone. -/
  | drop {s : PullCache k} (file : Nat) :
      Step budget objects s { s with dir := s.dir.remove (.object file) }

/-! ## Descriptors stay on their object -/

/-- Inodes are never given to another object. -/
def Follows (d d' : PullDir) : Prop :=
  d.nextInode ≤ d'.nextInode ∧
    ∀ f' ∈ d'.files, f'.inode < d.nextInode →
      ∃ f ∈ d.files, f.inode = f'.inode ∧ f.name.file = f'.name.file

variable {objects : Nat → Bytes} {budget : Nat} {s s' : PullCache k}

@[simp]
theorem put_dir (s : PullCache k) (i : Fin k) (d : PullDir) (p : Pull) : (s.put i d p).dir = d :=
  rfl

@[simp]
theorem put_pulls_self (s : PullCache k) (i : Fin k) (d : PullDir) (p : Pull) :
    (s.put i d p).pulls i = p := by
  simp [put]

theorem put_pulls_of_ne (s : PullCache k) {i j : Fin k} (h : j ≠ i) (d : PullDir) (p : Pull) :
    (s.put i d p).pulls j = s.pulls j := by
  simp [put, h]

theorem follows_of_subset {d d' : PullDir} (hnext : d.nextInode ≤ d'.nextInode)
    (hsub : d'.files ⊆ d.files) : Follows d d' :=
  ⟨hnext, fun f' hf' _ => ⟨f', hsub hf', rfl, rfl⟩⟩

theorem follows_refl (d : PullDir) : Follows d d :=
  follows_of_subset (Nat.le_refl _) (List.Subset.refl _)

theorem follows_remove (d : PullDir) (name : PullName) : Follows d (d.remove name) :=
  follows_of_subset (Nat.le_refl _) (fun _ hf => (Directory.mem_remove.1 hf).1)

theorem follows_create {d : PullDir} (h : d.WF) (file now : Nat) :
    Follows d (d.create (.tmp file) now).1 := by
  refine ⟨Directory.nextInode_le_create _ _, fun f' hf' hlt => ?_⟩
  rcases Directory.mem_create h hf' with ⟨-, -, hold⟩ | ⟨hinode, hname, -⟩
  · exact ⟨f', hold, rfl, rfl⟩
  · rcases Directory.create_inode (d := d) (.tmp file) now with ⟨f, hf, hfname, hfinode⟩ | hnew
    · exact ⟨f, hf, hfinode.trans hinode.symm, by rw [hfname, hname]⟩
    · exact absurd (hinode.trans hnew) hlt.ne

theorem follows_writeAt (d : PullDir) (inode offset : Nat) (chunk : Bytes) (now : Nat) :
    Follows d (d.writeAt inode offset chunk now) := by
  refine ⟨Nat.le_refl _, fun f' hf' _ => ?_⟩
  rcases Directory.mem_writeAt hf' with ⟨-, hold⟩ | ⟨hinode, g, hg, hginode, hname, -⟩
  · exact ⟨f', hold, rfl, rfl⟩
  · exact ⟨g, hg, hginode.trans hinode.symm, by rw [hname]⟩

theorem follows_rename {d d' : PullDir} (h : d.WF) {file : Nat}
    (hr : d.rename (.tmp file) (.object file) = some d') : Follows d d' := by
  obtain ⟨moved, hmoved, hname, hnext, hmem⟩ := Directory.mem_rename h hr
  refine ⟨hnext.ge, fun f' hf' _ => ?_⟩
  rcases (hmem f').1 hf' with rfl | ⟨hold, -⟩
  · exact ⟨moved, hmoved, rfl, by rw [hname]; rfl⟩
  · exact ⟨f', hold, rfl, rfl⟩

/-- What a reader holds survives what the others do to the directory. -/
theorem ok_mono {d d' : PullDir} (hfollows : Follows d d') {p : Pull} (h : p.Ok objects d) :
    p.Ok objects d' := by
  cases p with
  | filling file bytes inode offset =>
      obtain ⟨hbytes, hoffset, hlt, hfile⟩ := h
      refine ⟨hbytes, hoffset, hlt.trans_le hfollows.1, fun f' hf' hinode => ?_⟩
      obtain ⟨f, hf, hfinode, hname⟩ := hfollows.2 f' hf' (hinode.trans_lt hlt)
      rw [← hname]
      exact hfile f hf (hfinode.trans hinode)
  | _ => exact h

/-- The directory is well formed, and every reader holds what it should. -/
structure WF (objects : Nat → Bytes) (s : PullCache k) : Prop where
  dir : s.dir.WF
  pulls : ∀ i, (s.pulls i).Ok objects s.dir

theorem wf_start (objects : Nat → Bytes) : ({} : PullCache k).WF objects where
  dir := ⟨List.nodup_nil, List.nodup_nil, fun _ hf => absurd hf List.not_mem_nil⟩
  pulls := fun _ => trivial

/-- One reader goes on, and the directory with it. -/
theorem WF.advance (h : s.WF objects) {i : Fin k} {d : PullDir} {p : Pull} (hd : d.WF)
    (hfollows : Follows s.dir d) (hp : p.Ok objects d) :
    (s.put i d p).WF objects := by
  refine ⟨hd, fun j => ?_⟩
  by_cases hij : j = i
  · subst hij
    rw [put_pulls_self]
    exact hp
  · rw [put_pulls_of_ne s hij]
    exact ok_mono hfollows (h.pulls j)

theorem WF.set (h : s.WF objects) {i : Fin k} {p : Pull} (hp : p.Ok objects s.dir) :
    (s.set i p).WF objects :=
  h.advance h.dir (follows_refl _) hp

theorem rename_cases (s : PullCache k) (i : Fin k) (file : Nat) :
    (∃ d, s.dir.rename (.tmp file) (.object file) = some d ∧
      s.rename i file = s.put i d (.renamed file)) ∨
    s.rename i file = s.set i (.ended file (.error (.io "NotFound"))) := by
  unfold PullCache.rename
  cases hr : s.dir.rename (.tmp file) (.object file) with
  | none => exact .inr rfl
  | some d => exact .inl ⟨d, rfl, rfl⟩

theorem ok_fetch {store : Option (Nat → Except GirderError (Option Bytes))}
    (hserves : Serves objects store) (d : PullDir) (file : Nat) :
    (Pull.fetch store file).Ok objects d := by
  cases store with
  | none => trivial
  | some get =>
      unfold Pull.fetch
      cases hget : get file with
      | error e => simp only [hget]; trivial
      | ok found =>
          cases found with
          | none => simp only [hget]; trivial
          | some bytes =>
              simp only [hget]
              exact hserves get rfl file bytes hget

theorem WF.step (h : s.WF objects) (hstep : Step budget objects s s') : s'.WF objects := by
  cases hstep with
  | call i file _ => exact h.set trivial
  | openFirst i hp =>
      refine h.set ?_
      unfold Pull.opened
      split <;> trivial
  | get i store hp hserves => exact h.set (ok_fetch hserves _ _)
  | readDir i names hp _ =>
      have hok := h.pulls i
      rw [hp] at hok
      exact h.set hok
  | metadata i hp =>
      have hok := h.pulls i
      rw [hp] at hok
      exact h.set hok
  | sort i hp =>
      have hok := h.pulls i
      rw [hp] at hok
      exact h.set hok
  | evict i hp _ =>
      have hok := h.pulls i
      rw [hp] at hok
      exact h.advance (h.dir.remove _) (follows_remove _ _) hok
  | fits i hp _ =>
      have hok := h.pulls i
      rw [hp] at hok
      exact h.set hok
  | @create i file bytes now hp =>
      have hok := h.pulls i
      rw [hp] at hok
      refine h.advance (h.dir.create _ _) (follows_create h.dir file now) ?_
      -- The created file has a new inode, or that of the tmp file it truncates.
      refine ⟨hok, Nat.zero_le _, Directory.create_inode_lt h.dir _ _, fun f hf hinode => ?_⟩
      rcases Directory.mem_create h.dir hf with ⟨hne, -⟩ | ⟨-, hname, -⟩
      · exact absurd hinode hne
      · rw [hname]
        rfl
  | @write i file bytes inode offset now n hp =>
      have hok := h.pulls i
      rw [hp] at hok
      have hfollows := follows_writeAt s.dir inode offset ((bytes.drop offset).take n) now
      -- What is written is the next part of the object.
      obtain ⟨hbytes, hoffset, hlt, hfile⟩ := ok_mono hfollows hok
      refine h.advance (h.dir.writeAt _ _ _ _) hfollows ⟨hbytes, ?_, hlt, hfile⟩
      simp only [List.length_take, List.length_drop]
      omega
  | close i hp _ => exact h.set trivial
  | rename i hp =>
      rcases rename_cases s i _ with ⟨d, hr, heq⟩ | heq
      · rw [heq]
        exact h.advance (h.dir.rename hr) (follows_rename h.dir hr) trivial
      · rw [heq]
        exact h.set trivial
  | openLast i hp =>
      refine h.set ?_
      unfold Pull.reopened
      split <;> trivial
  | fail i e hp => exact h.set trivial
  | crash => exact ⟨h.dir, fun _ => trivial⟩
  | drop file => exact ⟨h.dir.remove _, fun i => ok_mono (follows_remove _ _) (h.pulls i)⟩

/-! ## Files at an object's name -/

/-- No two readers write the object's tmp file at once. -/
def Apart (file : Nat) (s : PullCache k) : Prop :=
  ∀ i j, (s.pulls i).writing = some file → (s.pulls j).writing = some file → i = j

/-- What is known of the object's files from where one reader is. -/
def Tends (objects : Nat → Bytes) (file : Nat) (d : PullDir) : Pull → Prop
  | .filling file' bytes inode offset =>
      file' = file →
        (∀ f ∈ d.files, f.inode = inode → f.name = .tmp file ∧ f.bytes = bytes.take offset) ∧
        ∀ f ∈ d.files, f.name = .tmp file → f.inode = inode
  | .written file' => file' = file → ∀ f ∈ d.files, f.name = .tmp file → f.bytes = objects file
  | .ended file' out => file' = file → ∀ f, out = .ok f → f.bytes = objects file
  | _ => True

/-- What is at the object's name is the object, and the reader that writes is getting there. -/
structure Whole (objects : Nat → Bytes) (file : Nat) (s : PullCache k) : Prop where
  object : ∀ f ∈ s.dir.files, f.name = .object file → f.bytes = objects file
  pulls : ∀ i, Tends objects file s.dir (s.pulls i)

theorem whole_start (objects : Nat → Bytes) (file : Nat) :
    ({} : PullCache k).Whole objects file where
  object := fun _ hf => absurd hf List.not_mem_nil
  pulls := fun _ => trivial

/-- A reader that does not write the object's tmp file does not mind what happens to it. -/
theorem tends_of_not_writing {file : Nat} {d d' : PullDir} {p : Pull}
    (hp : p.writing ≠ some file) (h : Tends objects file d p) : Tends objects file d' p := by
  cases p with
  | filling file' bytes inode offset => exact fun heq => absurd (congrArg some heq) hp
  | written file' => exact fun heq => absurd (congrArg some heq) hp
  | ended file' out => exact h
  | _ => trivial

/-- The object's files are as they were, or gone. -/
theorem tends_mono {file : Nat} {d d' : PullDir} {p : Pull}
    (hsub : ∀ f ∈ d'.files, f.name.file = file → f ∈ d.files) (hok : p.Ok objects d')
    (h : Tends objects file d p) : Tends objects file d' p := by
  cases p with
  | filling file' bytes inode offset =>
      rintro rfl
      obtain ⟨hinode, htmp⟩ := h rfl
      refine ⟨fun f hf heq => hinode f (hsub f hf (hok.2.2.2 f hf heq)) heq, fun f hf hname => ?_⟩
      exact htmp f (hsub f hf (by rw [hname]; rfl)) hname
  | written file' =>
      rintro rfl f hf hname
      exact h rfl f (hsub f hf (by rw [hname]; rfl)) hname
  | ended file' out => exact h
  | _ => trivial

namespace Whole

variable {file : Nat} {i : Fin k} {d : PullDir} {p : Pull}

/-- One reader goes on and leaves the object's files alone. -/
theorem advance (h : s.Whole objects file)
    (hwf : (s.put i d p).WF objects)
    (hsub : ∀ f ∈ d.files, f.name.file = file → f ∈ s.dir.files) (hp : Tends objects file d p) :
    (s.put i d p).Whole objects file := by
  refine ⟨fun f hf hname => h.object f (hsub f hf (by rw [hname]; rfl)) hname, fun j => ?_⟩
  by_cases hij : j = i
  · subst hij
    rw [put_pulls_self]
    exact hp
  · have hok := hwf.pulls j
    rw [put_pulls_of_ne s hij] at hok ⊢
    exact tends_mono hsub hok (h.pulls j)

theorem set (h : s.Whole objects file) (hwf : (s.set i p).WF objects)
    (hp : Tends objects file s.dir p) : (s.set i p).Whole objects file :=
  h.advance hwf (fun _ hf _ => hf) hp

/-- One reader goes on and works on the object's files, which nobody else writes. -/
theorem advance_alone (h : s.Whole objects file)
    (halone : ∀ j, j ≠ i → (s.pulls j).writing ≠ some file)
    (hobject : ∀ f ∈ d.files, f.name = .object file → f.bytes = objects file)
    (hp : Tends objects file d p) :
    (s.put i d p).Whole objects file := by
  refine ⟨hobject, fun j => ?_⟩
  by_cases hij : j = i
  · subst hij
    rw [put_pulls_self]
    exact hp
  · rw [put_pulls_of_ne s hij]
    exact tends_of_not_writing (halone j hij) (h.pulls j)

/-- What a reader opens is the object. -/
theorem tends_found (h : s.Whole objects file) {file' : Nat} {f : PullFile}
    (hfind : s.dir.find? (.object file') = some f) :
    Tends objects file s.dir (.ended file' (.ok f)) := by
  rintro rfl g hg
  cases hg
  exact h.object f (Directory.mem_of_find? hfind) (Directory.name_of_find? hfind)

theorem tends_error (file : Nat) (d : PullDir) (file' : Nat) (e : GirderError) :
    Tends objects file d (.ended file' (.error e)) := by
  intro _ f hf
  cases hf

theorem tends_fetch (store : Option (Nat → Except GirderError (Option Bytes))) (d : PullDir)
    (file' : Nat) : Tends objects file d (Pull.fetch store file') := by
  cases store with
  | none => exact tends_error _ _ _ _
  | some get =>
      unfold Pull.fetch
      cases hget : get file' with
      | error e => simp only [hget]; exact tends_error _ _ _ _
      | ok found =>
          cases found with
          | none => simp only [hget]; exact tends_error _ _ _ _
          | some bytes => simp only [hget]; trivial

theorem create (h : s.Whole objects file) {file' now : Nat} {bytes : Bytes} (hwf : s.WF objects)
    (hwf' : (s.put i (s.dir.create (.tmp file') now).1
      (.filling file' bytes (s.dir.create (.tmp file') now).2 0)).WF objects)
    (hapart : Apart file (s.put i (s.dir.create (.tmp file') now).1
      (.filling file' bytes (s.dir.create (.tmp file') now).2 0))) :
    (s.put i (s.dir.create (.tmp file') now).1
      (.filling file' bytes (s.dir.create (.tmp file') now).2 0)).Whole objects file := by
  have hmem := fun f (hf : f ∈ (s.dir.create (.tmp file') now).1.files) =>
    Directory.mem_create hwf.dir hf
  by_cases hfile : file' = file
  · -- Nobody else has the object's tmp file open.
    subst hfile
    refine h.advance_alone (fun j hij hj => hij (hapart j i ?_ ?_)) (fun f hf hname => ?_) ?_
    · rw [put_pulls_of_ne s hij]
      exact hj
    · rw [put_pulls_self]
      rfl
    · rcases hmem f hf with ⟨-, -, hold⟩ | ⟨-, htmp, -⟩
      · exact h.object f hold hname
      · rw [hname] at htmp
        cases htmp
    · refine fun _ => ⟨fun f hf hinode => ?_, fun f hf hname => ?_⟩
      · rcases hmem f hf with ⟨hne, -⟩ | ⟨-, htmp, hempty⟩
        · exact absurd hinode hne
        · exact ⟨htmp, hempty⟩
      · rcases hmem f hf with ⟨-, hne, -⟩ | ⟨hinode, -, -⟩
        · exact absurd hname hne
        · exact hinode
  · refine h.advance hwf' (fun f hf hname => ?_) (fun heq => absurd heq hfile)
    rcases hmem f hf with ⟨-, -, hold⟩ | ⟨-, htmp, -⟩
    · exact hold
    · rw [htmp] at hname
      exact absurd hname hfile

theorem write (h : s.Whole objects file) {file' inode offset now n : Nat} {bytes : Bytes}
    (hp : s.pulls i = .filling file' bytes inode offset) (hwf : s.WF objects)
    (hwf' : (s.put i (s.dir.writeAt inode offset ((bytes.drop offset).take n) now)
      (.filling file' bytes inode (offset + ((bytes.drop offset).take n).length))).WF objects)
    (hapart : Apart file s) :
    (s.put i (s.dir.writeAt inode offset ((bytes.drop offset).take n) now)
      (.filling file' bytes inode (offset + ((bytes.drop offset).take n).length))).Whole
        objects file := by
  have hok := hwf.pulls i
  have htends := h.pulls i
  rw [hp] at hok htends
  obtain ⟨hbytes, hoffset, -, hfd⟩ := hok
  have hmem := fun f (hf : f ∈ (s.dir.writeAt inode offset ((bytes.drop offset).take n) now).files)
    => Directory.mem_writeAt hf
  by_cases hfile : file' = file
  · subst hfile
    obtain ⟨hinode, htmp⟩ := htends rfl
    have hi : (s.pulls i).writing = some file' := by rw [hp]; rfl
    refine h.advance_alone (fun j hij hj => hij (hapart j i hj hi)) (fun f hf hname => ?_) ?_
    · rcases hmem f hf with ⟨-, hold⟩ | ⟨-, g, hg, hginode, hgname, -⟩
      · exact h.object f hold hname
      · rw [(hinode g hg hginode).1, hname] at hgname
        cases hgname
    · refine fun _ => ⟨fun f hf heq => ?_, fun f hf hname => ?_⟩
      · rcases hmem f hf with ⟨hne, -⟩ | ⟨-, g, hg, hginode, hgname, hgbytes⟩
        · exact absurd heq hne
        · -- the descriptor stands where the content ends
          obtain ⟨hname, hcontent⟩ := hinode g hg hginode
          refine ⟨hgname.trans hname, ?_⟩
          have hlen : offset = (bytes.take offset).length := by
            rw [List.length_take]
            omega
          calc f.bytes
              = DirFile.overwrite (bytes.take offset) (bytes.take offset).length
                  ((bytes.drop offset).take n) := by rw [hgbytes, hcontent, ← hlen]
            _ = bytes.take offset ++ (bytes.drop offset).take n := DirFile.overwrite_append _ _
            _ = bytes.take (offset + ((bytes.drop offset).take n).length) := by
                rw [List.take_add, List.length_take (i := n), ← List.take_eq_take_min]
      · rcases hmem f hf with ⟨-, hold⟩ | ⟨heq, -⟩
        · exact htmp f hold hname
        · exact heq
  · refine h.advance hwf' (fun f hf hname => ?_) (fun heq => absurd heq hfile)
    rcases hmem f hf with ⟨-, hold⟩ | ⟨-, g, hg, hginode, hgname, -⟩
    · exact hold
    · rw [hgname, hfd g hg hginode] at hname
      exact absurd hname hfile

theorem close (h : s.Whole objects file) {file' inode offset : Nat} {bytes : Bytes}
    (hp : s.pulls i = .filling file' bytes inode offset) (hall : bytes.length ≤ offset)
    (hwf : s.WF objects) (hwf' : (s.set i (.written file')).WF objects) :
    (s.set i (.written file')).Whole objects file := by
  have hok := hwf.pulls i
  have htends := h.pulls i
  rw [hp] at hok htends
  refine h.set hwf' ?_
  rintro rfl f hf hname
  obtain ⟨hinode, htmp⟩ := htends rfl
  rw [(hinode f hf (htmp f hf hname)).2, List.take_of_length_le hall]
  exact hok.1

theorem rename (h : s.Whole objects file) {file' : Nat} {d : PullDir}
    (hp : s.pulls i = .written file') (hr : s.dir.rename (.tmp file') (.object file') = some d)
    (hwf : s.WF objects) (hwf' : (s.put i d (.renamed file')).WF objects)
    (hapart : Apart file s) : (s.put i d (.renamed file')).Whole objects file := by
  have htends := h.pulls i
  rw [hp] at htends
  obtain ⟨moved, hmoved, hname, -, hmem⟩ := Directory.mem_rename hwf.dir hr
  by_cases hfile : file' = file
  · subst hfile
    have hi : (s.pulls i).writing = some file' := by rw [hp]; rfl
    refine h.advance_alone (fun j hij hj => hij (hapart j i hj hi)) (fun f hf hobject => ?_)
      trivial
    rcases (hmem f).1 hf with rfl | ⟨hold, -, hne, -⟩
    · exact htends rfl moved hmoved hname
    · exact absurd hobject hne
  · refine h.advance hwf' (fun f hf hin => ?_) trivial
    rcases (hmem f).1 hf with rfl | ⟨hold, -⟩
    · exact absurd hin hfile
    · exact hold

theorem step (h : s.Whole objects file) (hwf : s.WF objects)
    (hstep : Step budget objects s s') (hapart : Apart file s) (hapart' : Apart file s') :
    s'.Whole objects file := by
  have hwf' := hwf.step hstep
  cases hstep with
  | call i file' _ => exact h.set hwf' trivial
  | @openFirst i file' _ =>
      refine h.set hwf' ?_
      unfold Pull.opened
      cases hfind : s.dir.find? (.object file') with
      | none => trivial
      | some f => exact h.tends_found hfind
  | get i store _ _ => exact h.set hwf' (tends_fetch _ _ _)
  | readDir i names _ _ => exact h.set hwf' trivial
  | metadata i _ => exact h.set hwf' trivial
  | sort i _ => exact h.set hwf' trivial
  | evict i _ _ => exact h.advance hwf' (fun f hf _ => (Directory.mem_remove.1 hf).1) trivial
  | fits i _ _ => exact h.set hwf' trivial
  | create i now _ => exact h.create hwf hwf' hapart'
  | write i now n hp => exact h.write hp hwf hwf' hapart
  | close i hp hall => exact h.close hp hall hwf hwf'
  | rename i hp =>
      -- The only call that puts a file in an object's place.
      rcases rename_cases s i _ with ⟨d, hr, heq⟩ | heq
      · rw [heq] at hwf' ⊢
        exact h.rename hp hr hwf hwf' hapart
      · rw [heq] at hwf' ⊢
        exact h.set hwf' (tends_error _ _ _ _)
  | @openLast i file' _ =>
      refine h.set hwf' ?_
      unfold Pull.reopened
      cases hfind : s.dir.find? (.object file') with
      | none => exact tends_error _ _ _ _
      | some f => exact h.tends_found hfind
  | fail i e _ => exact h.set hwf' (tends_error _ _ _ _)
  | crash => exact ⟨h.object, fun _ => trivial⟩
  | drop file' =>
      have hsub : ∀ f ∈ (s.dir.remove (.object file')).files, f ∈ s.dir.files :=
        fun f hf => (Directory.mem_remove.1 hf).1
      exact ⟨fun f hf => h.object f (hsub f hf),
        fun i => tends_mono (fun f hf _ => hsub f hf) (hwf'.pulls i) (h.pulls i)⟩

end Whole

/-- A run in which no two readers write the object's tmp file at once. -/
def ApartRun (budget : Nat) (objects : Nat → Bytes) (file : Nat) :
    PullCache k → PullCache k → Prop :=
  Relation.ReflTransGen (fun a b => Step budget objects a b ∧ Apart file b)

theorem ApartRun.steps {file : Nat} (h : ApartRun budget objects file s s') :
    Relation.ReflTransGen (Step budget objects) s s' :=
  Relation.ReflTransGen.mono (fun _ _ hstep => hstep.1) _ _ h

/-! ## Readers whose calls succeed -/

/-- The next system call of a reader: names come as the directory has them, and bytes are written one
at a time. -/
def go (budget : Nat) (objects : Nat → Bytes) (s : PullCache k) (i : Fin k) : PullCache k :=
  match s.pulls i with
  | .opening file => s.set i (Pull.opened s.dir file)
  | .missed file => s.set i (.fetched file (objects file))
  | .fetched file bytes =>
      s.set i (.listing file bytes
        ((s.dir.files.map DirFile.name).filter (fun n => decide (n ≠ .object file))) [])
  | .listing file bytes (name :: names) entries =>
      s.set i (.listing file bytes names (entries ++ (s.dir.find? name).toList))
  | .listing file bytes [] entries =>
      s.set i (.pruning file bytes (entries.map DirFile.len).sum 0 (sortAsc DirFile.mtime entries))
  | .pruning file bytes _ _ [] => s.set i (.pruned file bytes)
  | .pruning file bytes resident freed (entry :: entries) =>
      if Pull.HasRoom budget resident freed bytes.length then s.set i (.pruned file bytes)
      else
        s.put i (s.dir.remove entry.name) (.pruning file bytes resident (freed + entry.len) entries)
  | .pruned file bytes =>
      s.put i (s.dir.create (.tmp file) 0).1
        (.filling file bytes (s.dir.create (.tmp file) 0).2 0)
  | .filling file bytes inode offset =>
      if bytes.length ≤ offset then s.set i (.written file)
      else
        s.put i (s.dir.writeAt inode offset ((bytes.drop offset).take 1) 0)
          (.filling file bytes inode (offset + ((bytes.drop offset).take 1).length))
  | .written file => s.rename i file
  | .renamed file => s.set i (Pull.reopened s.dir file)
  | _ => s

/-- What happens next: a reader calls, a reader goes on, or all of them die. -/
inductive Act (k : Nat)
  | call (i : Fin k) (file : Nat)
  | go (i : Fin k)
  | crash

def act (budget : Nat) (objects : Nat → Bytes) (s : PullCache k) : Act k → PullCache k
  | .call i file => if (s.pulls i).returned = true then s.set i (.opening file) else s
  | .go i => s.go budget objects i
  | .crash => { s with pulls := fun _ => .idle }

theorem go_eq_or_step (s : PullCache k) (i : Fin k) :
    s.go budget objects i = s ∨ Step budget objects s (s.go budget objects i) := by
  cases hp : s.pulls i with
  | idle => exact .inl (by simp only [go, hp])
  | ended file out => exact .inl (by simp only [go, hp])
  | opening file =>
      simp only [go, hp]
      exact .inr (.openFirst i hp)
  | missed file =>
      simp only [go, hp]
      exact .inr (.get i (some fun f => .ok (some (objects f))) hp
        (fun get hget f bytes hbytes => by cases hget; cases hbytes; rfl))
  | fetched file bytes =>
      simp only [go, hp]
      exact .inr (.readDir i _ hp (List.Perm.refl _))
  | listing file bytes names entries =>
      cases names with
      | nil =>
          simp only [go, hp]
          exact .inr (.sort i hp)
      | cons name names =>
          simp only [go, hp]
          exact .inr (.metadata i hp)
  | pruning file bytes resident freed entries =>
      cases entries with
      | nil =>
          simp only [go, hp]
          exact .inr (.fits i hp (.inl rfl))
      | cons entry entries =>
          by_cases hroom : Pull.HasRoom budget resident freed bytes.length
          · simp only [go, hp, if_pos hroom]
            exact .inr (.fits i hp (.inr hroom))
          · simp only [go, hp, if_neg hroom]
            exact .inr (.evict i hp hroom)
  | pruned file bytes =>
      simp only [go, hp]
      exact .inr (.create i 0 hp)
  | filling file bytes inode offset =>
      by_cases hall : bytes.length ≤ offset
      · simp only [go, hp, if_pos hall]
        exact .inr (.close i hp hall)
      · simp only [go, hp, if_neg hall]
        exact .inr (.write i 0 1 hp)
  | written file =>
      simp only [go, hp]
      exact .inr (.rename i hp)
  | renamed file =>
      simp only [go, hp]
      exact .inr (.openLast i hp)

/-- An act is a step, if it does anything. -/
theorem act_eq_or_step (s : PullCache k) (a : Act k) :
    s.act budget objects a = s ∨ Step budget objects s (s.act budget objects a) := by
  cases a with
  | go i => exact s.go_eq_or_step i
  | crash => exact .inr .crash
  | call i file =>
      by_cases h : (s.pulls i).returned = true
      · simp only [act, if_pos h]
        exact .inr (.call i file h)
      · exact .inl (by simp only [act, if_neg h])

instance instDecidableApart (file : Nat) (s : PullCache k) : Decidable (Apart file s) :=
  inferInstanceAs (Decidable (∀ i j, (s.pulls i).writing = some file →
    (s.pulls j).writing = some file → i = j))

/-- The act, unless a second reader would write the object's tmp file. -/
def actApart (budget : Nat) (objects : Nat → Bytes) (file : Nat) (s : PullCache k) (a : Act k) :
    PullCache k :=
  if Apart file (s.act budget objects a) then s.act budget objects a else s

/-- The acts from the empty directory on. -/
def acts (budget : Nat) (objects : Nat → Bytes) (file : Nat) (l : List (Act k)) : PullCache k :=
  l.foldl (actApart budget objects file) {}

theorem apartRun_acts (file : Nat) (l : List (Act k)) :
    ApartRun budget objects file ({} : PullCache k) (acts budget objects file l) := by
  have hrun : ∀ (l : List (Act k)) {s : PullCache k}, ApartRun budget objects file {} s →
      ApartRun budget objects file {} (l.foldl (actApart budget objects file) s) := by
    intro l
    induction l with
    | nil => exact fun h => h
    | cons a l ih =>
        intro s h
        refine ih ?_
        unfold actApart
        split
        · rename_i hapart
          rcases act_eq_or_step s a with heq | hstep
          · rwa [heq]
          · exact h.tail ⟨hstep, hapart⟩
        · exact h
  exact hrun l .refl

/-- Three bytes in one object, two in each other. -/
def sampleObjects (file : Nat) : Bytes := if file = 7 then [1, 2, 3] else [4, 5]

/-- One reader pulls the first object.  Another, which has missed its own at the same time, evicts it
and dies half way; when it comes back it pulls its object. -/
def twoReaders : List (Act 2) :=
  [.call 0 7, .call 1 8, .go 0, .go 1, .go 1] ++ List.replicate 11 (.go 0) ++
    List.replicate 7 (.go 1) ++ [.crash, .call 1 8] ++ List.replicate 12 (.go 1)

/-! ## What a reader opens -/

/-- Any number of readers, evictions and crashes between their system calls: what is at an object's
name is the whole object, and so is what a reader opens, unless two readers once wrote the tmp file
of that object at the same time. -/
theorem pulled_whole {file : Nat} (hrun : ApartRun budget objects file ({} : PullCache k) s) :
    (∀ f ∈ s.dir.files, f.name = .object file → f.bytes = objects file) ∧
      ∀ i f, s.pulls i = .ended file (.ok f) → f.bytes = objects file := by
  have hinv : s.WF objects ∧ s.Whole objects file ∧ Apart file s := by
    induction hrun with
    | refl =>
        exact ⟨wf_start objects, whole_start objects file, fun i j hi _ => by cases hi⟩
    | tail _ hstep ih =>
        obtain ⟨hwf, hwhole, hapart⟩ := ih
        exact ⟨hwf.step hstep.1, hwhole.step hwf hstep.1 hapart hstep.2, hstep.2⟩
  obtain ⟨-, hwhole, -⟩ := hinv
  refine ⟨hwhole.object, fun i f hp => ?_⟩
  have htends := hwhole.pulls i
  rw [hp] at htends
  exact htends rfl f rfl

theorem pulled_whole_evicted :
    ((acts 4 sampleObjects 8 (twoReaders.take 16)).dir.files.map DirFile.name = [.object 7] ∧
      (acts 4 sampleObjects 8 (twoReaders.take 23)).dir.files.map DirFile.bytes = [[4]] ∧
      (acts 4 sampleObjects 8 twoReaders).dir.files.map DirFile.name = [.object 8]) ∧
    (∀ f ∈ (acts 4 sampleObjects 8 twoReaders).dir.files, f.name = .object 8 → f.bytes = [4, 5]) ∧
      ∀ i f, (acts 4 sampleObjects 8 twoReaders).pulls i = .ended 8 (.ok f) → f.bytes = [4, 5] :=
  ⟨by decide +kernel, pulled_whole (apartRun_acts 8 twoReaders)⟩

end PullCache
end Girder
