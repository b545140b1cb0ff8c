import Mathlib.Data.Finset.Basic

/-! # `TouchedFiles` and the status-code table

`TouchedFiles` (`crates/vcs/src/vcs.rs`) is the snapshot both status parsers of `Git` return:
seven sets of paths. Both parsers classify a path by the same `match` on a status code, once for
the staged column and once for the unstaged one; `TouchedFiles.classify` is that `match`, with
the column as a parameter, and `bucket?` is the spec's table it reads.

Every parser step only adds paths, so the accumulated sets are described by unions: the
`classify_eq` lemma turns one step into a union with the files one status code contributes.

What one classified record adds is `Consistent` (a path is in a bucket set exactly when it is in a
column set, and every path of a column set or of `untracked` is in `all`), and unions keep the
invariant (`Consistent.union`); the parsers' loop invariants are built from these.
-/

namespace Moon.Vcs

/-- The seven path sets of `TouchedFiles`; `HashSet<String>` is modelled as a finite set. -/
structure TouchedFiles where
  added : Finset String
  all : Finset String
  deleted : Finset String
  modified : Finset String
  staged : Finset String
  unstaged : Finset String
  untracked : Finset String
  deriving DecidableEq

namespace TouchedFiles

/-- The empty snapshot, `TouchedFiles::default()`. -/
@[simps] def empty : TouchedFiles := ⟨∅, ∅, ∅, ∅, ∅, ∅, ∅⟩

/-- Fieldwise union. -/
@[simps] def union (a b : TouchedFiles) : TouchedFiles :=
  ⟨a.added ∪ b.added, a.all ∪ b.all, a.deleted ∪ b.deleted, a.modified ∪ b.modified,
    a.staged ∪ b.staged, a.unstaged ∪ b.unstaged, a.untracked ∪ b.untracked⟩

theorem union_assoc (a b c : TouchedFiles) : (a.union b).union c = a.union (b.union c) := by
  simp [union, Finset.union_assoc]

@[simp] theorem union_empty (a : TouchedFiles) : a.union empty = a := by
  simp [union, empty]

@[simp] theorem empty_union (a : TouchedFiles) : empty.union a = a := by
  simp [union, empty]

/-- The snapshot holding only `file` in `all`: what every classified line adds. -/
def onlyAll (file : String) : TouchedFiles := { empty with all := {file} }

/-- Add a file to `all` (`all.insert(file)`). -/
def insertAll (t : TouchedFiles) (file : String) : TouchedFiles :=
  { t with all := insert file t.all }

theorem insertAll_eq (t : TouchedFiles) (file : String) :
    t.insertAll file = t.union (onlyAll file) := by
  simp [insertAll, union, onlyAll, empty, Finset.union_comm _ {file}, Finset.insert_eq]

/-- The snapshot holding only `file` in `untracked`. -/
def onlyUntracked (file : String) : TouchedFiles := { empty with untracked := {file} }

/-- Add a file to `untracked` (`untracked.insert(file)`). -/
def insertUntracked (t : TouchedFiles) (file : String) : TouchedFiles :=
  { t with untracked := insert file t.untracked }

theorem insertUntracked_eq (t : TouchedFiles) (file : String) :
    t.insertUntracked file = t.union (onlyUntracked file) := by
  simp [insertUntracked, union, onlyUntracked, empty, Finset.union_comm _ {file}, Finset.insert_eq]

end TouchedFiles

/-- The sets a status code names in the spec's table. -/
inductive Bucket
  | added
  | deleted
  | modified
  deriving DecidableEq

/-- The spec's table: A and C mean added, D deleted, M and R modified; any other code names no
set. -/
def bucket? : Char → Option Bucket
  | 'A' | 'C' => some .added
  | 'D' => some .deleted
  | 'M' | 'R' => some .modified
  | _ => none

/-- Which column a status code was read from: the index (`X`) or the working tree (`Y`). -/
inductive Column
  | staged
  | unstaged
  deriving DecidableEq

namespace TouchedFiles

/-- The files one classified status code contributes: the path in its bucket and in its
column's set. -/
def bucketFiles (column : Column) (file : String) : Option Bucket → TouchedFiles
  | none => empty
  | some b =>
    { empty with
      added := if b = .added then {file} else ∅
      deleted := if b = .deleted then {file} else ∅
      modified := if b = .modified then {file} else ∅
      staged := if column = .staged then {file} else ∅
      unstaged := if column = .unstaged then {file} else ∅ }

@[simp] theorem bucketFiles_none (column : Column) (file : String) :
    bucketFiles column file none = empty := rfl

@[simp] theorem bucketFiles_untracked (column : Column) (file : String) (b : Option Bucket) :
    (bucketFiles column file b).untracked = ∅ := by
  cases b <;> rfl

@[simp] theorem bucketFiles_all (column : Column) (file : String) (b : Option Bucket) :
    (bucketFiles column file b).all = ∅ := by
  cases b <;> rfl

@[simp] theorem bucketFiles_staged_unstaged (file : String) (b : Option Bucket) :
    (bucketFiles .staged file b).unstaged = ∅ := by
  cases b <;> rfl

/-- One `match x { 'A' | 'C' => ..., 'D' => ..., 'M' | 'R' => ..., _ => {} }` block of the
parsers: insert the file into the code's bucket and into the column's set. -/
def classify (t : TouchedFiles) (column : Column) (code : Char) (file : String) : TouchedFiles :=
  match bucket? code with
  | none => t
  | some b =>
    let t := match b with
      | .added => { t with added := insert file t.added }
      | .deleted => { t with deleted := insert file t.deleted }
      | .modified => { t with modified := insert file t.modified }
    match column with
    | .staged => { t with staged := insert file t.staged }
    | .unstaged => { t with unstaged := insert file t.unstaged }

theorem classify_eq (t : TouchedFiles) (column : Column) (code : Char) (file : String) :
    t.classify column code file = t.union (bucketFiles column file (bucket? code)) := by
  unfold classify
  rcases bucket? code with _ | b
  · simp [bucketFiles]
  · cases b <;> cases column <;>
      simp [union, bucketFiles, empty, Finset.insert_eq, Finset.union_comm]

/-! ## The invariant of the parsers -/

/-- A path is in one of the bucket sets (`added`, `deleted`, `modified`) exactly when it is in one
of the column sets (`staged`, `unstaged`). -/
def Balanced (t : TouchedFiles) : Prop :=
  t.added ∪ t.deleted ∪ t.modified = t.staged ∪ t.unstaged

theorem Balanced.union {a b : TouchedFiles} (ha : a.Balanced) (hb : b.Balanced) :
    (a.union b).Balanced := by
  unfold Balanced at *
  simp only [union_added, union_deleted, union_modified, union_staged, union_unstaged]
  rw [Finset.union_union_union_comm a.added, Finset.union_union_union_comm (a.added ∪ a.deleted),
    ha, hb, Finset.union_union_union_comm]

/-- The snapshot invariant: balanced, and `staged`, `unstaged` and `untracked` within `all`. -/
structure Consistent (t : TouchedFiles) : Prop where
  balanced : t.Balanced
  staged_subset : t.staged ⊆ t.all
  unstaged_subset : t.unstaged ⊆ t.all
  untracked_subset : t.untracked ⊆ t.all

theorem consistent_empty : empty.Consistent :=
  ⟨rfl, subset_rfl, subset_rfl, subset_rfl⟩

theorem Consistent.union {a b : TouchedFiles} (ha : a.Consistent) (hb : b.Consistent) :
    (a.union b).Consistent :=
  ⟨ha.1.union hb.1, Finset.union_subset_union ha.2 hb.2, Finset.union_subset_union ha.3 hb.3,
    Finset.union_subset_union ha.4 hb.4⟩

/-- What the parsers add for one record before they add its path to `all`: balanced, with the
path the only possible member of `staged`, `unstaged` and `untracked`. -/
structure Classifies (t : TouchedFiles) (file : String) : Prop where
  balanced : t.Balanced
  staged_subset : t.staged ⊆ {file}
  unstaged_subset : t.unstaged ⊆ {file}
  untracked_subset : t.untracked ⊆ {file}

theorem Classifies.union {a b : TouchedFiles} {file : String} (ha : a.Classifies file)
    (hb : b.Classifies file) : (a.union b).Classifies file :=
  ⟨ha.1.union hb.1, Finset.union_subset ha.2 hb.2, Finset.union_subset ha.3 hb.3,
    Finset.union_subset ha.4 hb.4⟩

theorem classifies_empty (file : String) : empty.Classifies file :=
  ⟨rfl, Finset.empty_subset _, Finset.empty_subset _, Finset.empty_subset _⟩

theorem classifies_onlyUntracked (file : String) : (onlyUntracked file).Classifies file :=
  ⟨rfl, Finset.empty_subset _, Finset.empty_subset _, subset_rfl⟩

theorem classifies_bucketFiles (column : Column) (file : String) (b : Option Bucket) :
    (bucketFiles column file b).Classifies file := by
  rcases b with _ | b
  · exact classifies_empty file
  · have within (p : Prop) [Decidable p] : (if p then {file} else ∅ : Finset String) ⊆ {file} := by
      split <;> simp
    refine ⟨?_, within _, within _, Finset.empty_subset _⟩
    cases b <;> cases column <;> simp [Balanced, bucketFiles]

/-- A classified record, once its path is in `all`, is consistent. -/
theorem Classifies.union_onlyAll {t : TouchedFiles} {file : String} (h : t.Classifies file) :
    (t.union (onlyAll file)).Consistent := by
  have within {s : Finset String} (hs : s ⊆ {file}) : s ∪ ∅ ⊆ t.all ∪ {file} := by
    rw [Finset.union_empty]
    exact hs.trans Finset.subset_union_right
  exact ⟨h.1.union rfl, within h.2, within h.3, within h.4⟩

end TouchedFiles

end Moon.Vcs
