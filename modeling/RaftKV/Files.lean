import Mathlib.Data.Char
import Mathlib.Data.List.Sort
import RaftKV.GoData

/-!
# The files of a directory

A directory maps base names to contents.  Listing it gives the names that match a
pattern, in order.
-/

namespace RaftKV

/-- The base name of a file. -/
abbrev FileName := List Char

/-- The files of a directory. -/
abbrev Directory := GoMap FileName Bytes

def removeFiles (paths : List FileName) (files : Directory) : Directory :=
  paths.foldl (fun files path => files.erase path) files

theorem lookup_removeFiles {paths : List FileName} {path : FileName} (h : path ∉ paths)
    (files : Directory) : (removeFiles paths files).lookup path = files.lookup path := by
  induction paths generalizing files with
  | nil => rfl
  | cons first rest ih =>
      rw [List.mem_cons, not_or] at h
      change (removeFiles rest (files.erase first)).lookup path = _
      rw [ih h.2, AList.lookup_erase_ne h.1]

theorem mem_removeFiles {paths : List FileName} {path : FileName} {files : Directory}
    (h : path ∈ (removeFiles paths files).keys) : path ∈ files.keys ∧ path ∉ paths := by
  induction paths generalizing files with
  | nil => exact ⟨h, by simp⟩
  | cons first rest ih =>
      change path ∈ (removeFiles rest (files.erase first)).keys at h
      obtain ⟨hmem, hrest⟩ := ih h
      obtain ⟨hne, hmem⟩ := AList.mem_erase.mp hmem
      exact ⟨hmem, by simp [hne, hrest]⟩

/-- `os.Rename`. -/
def renameFile (old new : FileName) (files : Directory) : Directory :=
  match files.lookup old with
  | none => files
  | some content => (files.erase old).insert new content

/-- A file written under a temporary name and renamed. -/
def replaceFile (tmp name : FileName) (content : Bytes) (files : Directory) : Directory :=
  renameFile tmp name (files.insert tmp content)

theorem replaceFile_eq (tmp name : FileName) (content : Bytes) (files : Directory) :
    replaceFile tmp name content files =
      ((files.insert tmp content).erase tmp).insert name content := by
  unfold replaceFile renameFile
  rw [AList.lookup_insert]

theorem lookup_replaceFile_self (tmp name : FileName) (content : Bytes) (files : Directory) :
    (replaceFile tmp name content files).lookup name = some content := by
  rw [replaceFile_eq, AList.lookup_insert]

theorem lookup_replaceFile_of_ne {tmp name path : FileName} (htmp : path ≠ tmp)
    (hname : path ≠ name) (content : Bytes) (files : Directory) :
    (replaceFile tmp name content files).lookup path = files.lookup path := by
  rw [replaceFile_eq, AList.lookup_insert_ne hname, AList.lookup_erase_ne htmp,
    AList.lookup_insert_ne htmp]

/-- The names that match are, as a list in any order, the ones expected. -/
theorem filter_keys_perm {files : Directory} {p : FileName → Bool} {names : List FileName}
    (hnodup : names.Nodup) (hmem : ∀ path, path ∈ names ↔ path ∈ files.keys ∧ p path) :
    (files.keys.filter p).Perm names := by
  refine (List.perm_ext_iff_of_nodup (files.keys_nodup.filter _) hnodup).mpr fun path => ?_
  rw [List.mem_filter, hmem]

/-- A listing in order is the expected list in order. -/
theorem insertionSort_filter_keys {r : FileName → FileName → Prop} [DecidableRel r]
    [Std.Total r] [IsTrans FileName r] [Std.Antisymm r] {files : Directory} {p : FileName → Bool}
    {names : List FileName} (hsorted : names.Pairwise r) (hnodup : names.Nodup)
    (hmem : ∀ path, path ∈ names ↔ path ∈ files.keys ∧ p path) :
    (files.keys.filter p).insertionSort r = names := by
  refine List.Perm.eq_of_pairwise' (r := r) (List.pairwise_insertionSort _ _) hsorted ?_
  exact (List.perm_insertionSort _ _).trans (filter_keys_perm hnodup hmem)

end RaftKV
