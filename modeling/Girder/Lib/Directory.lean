import Mathlib.Data.List.Nodup
import Mathlib.Data.List.Perm.Subperm
import Mathlib.Algebra.Order.BigOperators.Group.List
import Mathlib.Algebra.Order.Ring.Nat

/-!
# Directory — named files, their inodes, and descriptors that outlive a name

A directory gives names to inodes.  Creating a file that exists truncates it and keeps its inode, a
rename takes the place of what was at the target, and a write through a descriptor goes to the inode
it was opened on, wherever that is now (nowhere, if it was removed).

In a well-formed directory (`Directory.WF`) a name has one file and an inode has one name.
-/

namespace Girder
namespace Lib

/-- A file under its name. -/
structure DirFile (N : Type) where
  name : N
  inode : Nat
  mtime : Nat
  bytes : List UInt8
  deriving DecidableEq

namespace DirFile

variable {N : Type}

def len (f : DirFile N) : Nat := f.bytes.length

/-- The content after `chunk` went to `offset`; a hole reads as zeros. -/
def overwrite (old : List UInt8) (offset : Nat) (chunk : List UInt8) : List UInt8 :=
  old.take offset ++ List.replicate (offset - old.length) 0 ++ chunk ++
    old.drop (offset + chunk.length)

theorem length_overwrite (old : List UInt8) (offset : Nat) (chunk : List UInt8) :
    (overwrite old offset chunk).length = max old.length (offset + chunk.length) := by
  simp only [overwrite, List.length_append, List.length_take, List.length_replicate,
    List.length_drop]
  omega

/-- Writing on where the content ends. -/
theorem overwrite_append (old chunk : List UInt8) :
    overwrite old old.length chunk = old ++ chunk := by
  simp [overwrite]

end DirFile

structure Directory (N : Type) where
  files : List (DirFile N) := []
  /-- The inode of the next file. -/
  nextInode : Nat := 0

namespace Directory

variable {N : Type}

/-- All files together. -/
def total (d : Directory N) : Nat := (d.files.map DirFile.len).sum

def writeAt (d : Directory N) (inode offset : Nat) (chunk : List UInt8) (now : Nat) :
    Directory N :=
  { d with
    files := d.files.map (fun g =>
      if g.inode = inode then
        { g with mtime := now, bytes := DirFile.overwrite g.bytes offset chunk }
      else g) }

structure WF (d : Directory N) : Prop where
  names : (d.files.map DirFile.name).Nodup
  inodes : (d.files.map DirFile.inode).Nodup
  fresh : ∀ f ∈ d.files, f.inode < d.nextInode

variable {d : Directory N} {f g : DirFile N}

namespace WF

theorem nodup (h : d.WF) : d.files.Nodup := List.Nodup.of_map _ h.names

theorem eq_of_name (h : d.WF) (hf : f ∈ d.files) (hg : g ∈ d.files) (heq : f.name = g.name) :
    f = g :=
  List.inj_on_of_nodup_map h.names hf hg heq

theorem eq_of_inode (h : d.WF) (hf : f ∈ d.files) (hg : g ∈ d.files) (heq : f.inode = g.inode) :
    f = g :=
  List.inj_on_of_nodup_map h.inodes hf hg heq

end WF

/-- The files of a part of the directory take no more room than a list they are all in. -/
theorem sum_len_le_of_subset {l l' : List (DirFile N)} (hnodup : l.Nodup) (hsub : l ⊆ l') :
    (l.map DirFile.len).sum ≤ (l'.map DirFile.len).sum := by
  obtain ⟨l'', hperm, hsublist⟩ := List.subperm_of_subset hnodup hsub
  calc (l.map DirFile.len).sum
      = (l''.map DirFile.len).sum := (hperm.map DirFile.len).sum_eq.symm
    _ ≤ (l'.map DirFile.len).sum := (hsublist.map DirFile.len).sum_le_sum (by simp)

theorem mem_writeAt {inode offset now : Nat} {chunk : List UInt8}
    (hf : f ∈ (d.writeAt inode offset chunk now).files) :
    (f.inode ≠ inode ∧ f ∈ d.files) ∨
    (f.inode = inode ∧ ∃ g ∈ d.files, g.inode = inode ∧ f.name = g.name ∧
      f.bytes = DirFile.overwrite g.bytes offset chunk) := by
  simp only [writeAt, List.mem_map] at hf
  obtain ⟨g, hg, rfl⟩ := hf
  by_cases hinode : g.inode = inode
  · exact .inr (by simpa [hinode] using ⟨g, hg, hinode, rfl, rfl⟩)
  · exact .inl (by simpa [hinode] using hg)

theorem WF.writeAt (h : d.WF) (inode offset : Nat) (chunk : List UInt8) (now : Nat) :
    (d.writeAt inode offset chunk now).WF := by
  have hkeep : ∀ g : DirFile N,
      (if g.inode = inode then
        { g with mtime := now, bytes := DirFile.overwrite g.bytes offset chunk }
        else g).name = g.name ∧
      (if g.inode = inode then
        { g with mtime := now, bytes := DirFile.overwrite g.bytes offset chunk }
        else g).inode = g.inode := by
    intro g
    split <;> exact ⟨rfl, rfl⟩
  refine ⟨?_, ?_, ?_⟩
  · unfold Directory.writeAt
    rw [List.map_map]
    exact (List.map_congr_left (fun g _ => (hkeep g).1)).symm ▸ h.names
  · unfold Directory.writeAt
    rw [List.map_map]
    exact (List.map_congr_left (fun g _ => (hkeep g).2)).symm ▸ h.inodes
  · intro f hf
    obtain ⟨g, hg, rfl⟩ := List.mem_map.1 hf
    rw [(hkeep g).2]
    exact h.fresh g hg

variable [DecidableEq N]

def find? (d : Directory N) (name : N) : Option (DirFile N) :=
  d.files.find? (fun f => decide (f.name = name))

def remove (d : Directory N) (name : N) : Directory N :=
  { d with files := d.files.filter (fun f => decide (f.name ≠ name)) }

/-- An empty file under the name, and its inode. -/
def create (d : Directory N) (name : N) (now : Nat) : Directory N × Nat :=
  match d.find? name with
  | some f =>
      ({ d with
          files := d.files.map (fun g =>
            if g.name = name then { g with mtime := now, bytes := [] } else g) },
        f.inode)
  | none =>
      ({ files := d.files ++ [{ name, inode := d.nextInode, mtime := now, bytes := [] }],
         nextInode := d.nextInode + 1 },
        d.nextInode)

/-- `none` when there is no file to rename. -/
def rename (d : Directory N) (source target : N) : Option (Directory N) :=
  (d.find? source).map (fun f =>
    { d with
      files := { f with name := target } ::
        d.files.filter (fun g => decide (g.name ≠ source) && decide (g.name ≠ target)) })

variable {name source target : N}

theorem mem_of_find? (h : d.find? name = some f) : f ∈ d.files := List.mem_of_find?_eq_some h

theorem name_of_find? (h : d.find? name = some f) : f.name = name := by
  simpa using List.find?_some h

theorem ne_of_find?_none (h : d.find? name = none) : ∀ f ∈ d.files, f.name ≠ name := by
  intro f hf
  simpa using List.find?_eq_none.1 h f hf

theorem WF.find?_eq (h : d.WF) (hf : f ∈ d.files) : d.find? f.name = some f := by
  cases hfind : d.find? f.name with
  | none => exact absurd rfl (ne_of_find?_none hfind f hf)
  | some g => rw [h.eq_of_name (mem_of_find? hfind) hf (name_of_find? hfind)]

/-! ## What the operations do -/

@[simp]
theorem mem_remove : f ∈ (d.remove name).files ↔ f ∈ d.files ∧ f.name ≠ name := by
  simp [remove]

theorem WF.remove (h : d.WF) (name : N) : (d.remove name).WF where
  names := h.names.sublist (List.filter_sublist.map _)
  inodes := h.inodes.sublist (List.filter_sublist.map _)
  fresh := fun f hf => h.fresh f (mem_remove.1 hf).1

/-- A new file is empty; the others are as they were. -/
theorem mem_create (h : d.WF) {now : Nat} (hf : f ∈ (d.create name now).1.files) :
    (f.inode ≠ (d.create name now).2 ∧ f.name ≠ name ∧ f ∈ d.files) ∨
    (f.inode = (d.create name now).2 ∧ f.name = name ∧ f.bytes = []) := by
  unfold create at hf ⊢
  cases hfind : d.find? name with
  | none =>
      simp only [hfind, List.mem_append, List.mem_singleton] at hf ⊢
      rcases hf with hold | rfl
      · exact .inl ⟨(h.fresh f hold).ne, ne_of_find?_none hfind f hold, hold⟩
      · exact .inr ⟨rfl, rfl, rfl⟩
  | some old =>
      simp only [hfind, List.mem_map] at hf ⊢
      obtain ⟨g, hg, rfl⟩ := hf
      have hold := mem_of_find? hfind
      by_cases hname : g.name = name
      · obtain rfl := h.eq_of_name hg hold (hname.trans (name_of_find? hfind).symm)
        exact .inr (by simp [hname])
      · refine .inl ?_
        rw [if_neg hname]
        refine ⟨fun hinode => hname ?_, hname, hg⟩
        rw [h.eq_of_inode hg hold hinode]
        exact name_of_find? hfind

/-- The inode of a created file is that of the file it truncates, or a new one. -/
theorem create_inode (name : N) (now : Nat) :
    (∃ f ∈ d.files, f.name = name ∧ f.inode = (d.create name now).2) ∨
      (d.create name now).2 = d.nextInode := by
  unfold create
  cases hfind : d.find? name with
  | none => exact .inr rfl
  | some old => exact .inl ⟨old, mem_of_find? hfind, name_of_find? hfind, rfl⟩

theorem nextInode_le_create (name : N) (now : Nat) :
    d.nextInode ≤ (d.create name now).1.nextInode := by
  unfold create
  cases d.find? name with
  | none => exact Nat.le_succ _
  | some old => exact Nat.le_refl _

theorem create_inode_lt (h : d.WF) (name : N) (now : Nat) :
    (d.create name now).2 < (d.create name now).1.nextInode := by
  unfold create
  cases hfind : d.find? name with
  | none => exact Nat.lt_succ_self _
  | some old => exact h.fresh old (mem_of_find? hfind)

theorem WF.create (h : d.WF) (name : N) (now : Nat) : (d.create name now).1.WF := by
  unfold Directory.create
  cases hfind : d.find? name with
  | none =>
      -- A new file under a new inode.
      have hnew := ne_of_find?_none hfind
      refine ⟨?_, ?_, ?_⟩
      · simp only [List.map_append, List.map_cons, List.map_nil]
        refine List.nodup_append.2 ⟨h.names, List.nodup_singleton _, ?_⟩
        rintro _ hf _ hb rfl
        obtain ⟨f, hf, hname⟩ := List.mem_map.1 hf
        exact hnew f hf (hname.trans (List.mem_singleton.1 hb))
      · simp only [List.map_append, List.map_cons, List.map_nil]
        refine List.nodup_append.2 ⟨h.inodes, List.nodup_singleton _, ?_⟩
        rintro _ hf _ hb rfl
        obtain ⟨f, hf, hinode⟩ := List.mem_map.1 hf
        exact (h.fresh f hf).ne (hinode.trans (List.mem_singleton.1 hb))
      · intro f hf
        rcases List.mem_append.1 hf with hold | hnewFile
        · exact Nat.lt_succ_of_lt (h.fresh f hold)
        · rw [List.mem_singleton.1 hnewFile]
          exact Nat.lt_succ_self _
  | some old =>
      -- The old file is truncated under its inode.
      have hkeep : ∀ g : DirFile N,
          (if g.name = name then { g with mtime := now, bytes := [] } else g).name = g.name ∧
          (if g.name = name then { g with mtime := now, bytes := [] } else g).inode = g.inode := by
        intro g
        split <;> exact ⟨rfl, rfl⟩
      refine ⟨?_, ?_, ?_⟩
      · rw [List.map_map]
        exact (List.map_congr_left (fun g _ => (hkeep g).1)).symm ▸ h.names
      · rw [List.map_map]
        exact (List.map_congr_left (fun g _ => (hkeep g).2)).symm ▸ h.inodes
      · intro f hf
        obtain ⟨g, hg, rfl⟩ := List.mem_map.1 hf
        rw [(hkeep g).2]
        exact h.fresh g hg

/-- A rename takes the file as it is and the place of what was at the target. -/
theorem mem_rename {d' : Directory N} (h : d.WF) (hr : d.rename source target = some d') :
    ∃ moved ∈ d.files, moved.name = source ∧ d'.nextInode = d.nextInode ∧
      ∀ f, f ∈ d'.files ↔ f = { moved with name := target } ∨
        (f ∈ d.files ∧ f.name ≠ source ∧ f.name ≠ target ∧ f.inode ≠ moved.inode) := by
  obtain ⟨moved, hfind, rfl⟩ := Option.map_eq_some_iff.1 hr
  have hmoved := mem_of_find? hfind
  refine ⟨moved, hmoved, name_of_find? hfind, rfl, fun f => ?_⟩
  simp only [List.mem_cons, List.mem_filter, Bool.and_eq_true, decide_eq_true_eq]
  constructor
  · rintro (rfl | ⟨hf, hs, ht⟩)
    · exact .inl rfl
    · refine .inr ⟨hf, hs, ht, fun hinode => hs ?_⟩
      rw [h.eq_of_inode hf hmoved hinode]
      exact name_of_find? hfind
  · rintro (rfl | ⟨hf, hs, ht, -⟩)
    · exact .inl rfl
    · exact .inr ⟨hf, hs, ht⟩

theorem WF.rename {d' : Directory N} (h : d.WF) (hr : d.rename source target = some d') :
    d'.WF := by
  obtain ⟨moved, hmoved, hname, hnext, hmem⟩ := mem_rename h hr
  obtain ⟨f, hfind, rfl⟩ := Option.map_eq_some_iff.1 hr
  obtain rfl : f = moved :=
    h.eq_of_name (mem_of_find? hfind) hmoved ((name_of_find? hfind).trans hname.symm)
  refine ⟨?_, ?_, ?_⟩
  · refine List.nodup_cons.2 ⟨?_, h.names.sublist (List.filter_sublist.map _)⟩
    intro hin
    obtain ⟨g, hg, heq⟩ := List.mem_map.1 hin
    simp only [List.mem_filter, Bool.and_eq_true, decide_eq_true_eq] at hg
    exact hg.2.2 heq
  · refine List.nodup_cons.2 ⟨?_, h.inodes.sublist (List.filter_sublist.map _)⟩
    intro hin
    obtain ⟨g, hg, heq⟩ := List.mem_map.1 hin
    simp only [List.mem_filter, Bool.and_eq_true, decide_eq_true_eq] at hg
    refine hg.2.1 ?_
    rw [h.eq_of_inode hg.1 hmoved heq, hname]
  · intro g hg
    rcases (hmem g).1 hg with rfl | ⟨hold, -⟩
    · exact h.fresh f hmoved
    · exact h.fresh g hold

end Directory

end Lib
end Girder
