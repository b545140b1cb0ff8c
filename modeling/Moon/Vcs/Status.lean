import Moon.Vcs.Git
import Moon.Vcs.TouchedFiles

/-! # The `git status` parser

`get_touched_files` runs `git status --porcelain --untracked-files -z` and reads its output as
NUL-terminated records. An entry prints as `XY path` and, for a rename or a copy, is followed by
one more record holding the original path. The loop has no state between records: it skips
empty records and every record that does not open with two status codes and a space
(`xy_regex`), and classifies every other record by its two codes.

So the original-path record that follows a rename is skipped only because it fails `xy_regex`;
one that is itself spelled `XY path` (an original file named `MM old`) is read as an entry: a
phantom file `old`, modified, staged and unstaged (`original_path_read_as_entry`). For outputs
whose original paths fail the pattern the parse is exactly the classification table
(`parseStatus_statusOutput`); for any output at all, the parse is the table applied to the
records the loop reads as entries (`parseStatus_reads_records`).
-/

namespace Moon.Vcs

/-! ## The parser -/

/-- The status codes `xy_regex` accepts in each column: `M T A D R C U ? !` and space. -/
def statusCodes : List Char := ['M', 'T', 'A', 'D', 'R', 'C', 'U', '?', '!', ' ']

theorem statusCodes_ascii : ∀ c ∈ statusCodes, c.utf8Size = 1 := by decide

/-- Rust's `xy_regex.is_match(line)` for ``^(M|T|A|D|R|C|U|\?|!| )(M|T|A|D|R|C|U|\?|!| ) ``:
the line opens with two status codes and a space. -/
def xyRegexMatches : List Char → Bool
  | x :: y :: ' ' :: _ => x ∈ statusCodes && y ∈ statusCodes
  | _ => false

/-- One pass of the `for line in output.split('\0')` loop of `get_touched_files`, or `none`
where `&line[3..]` panics. `unwrap_or_default` on a `char` gives NUL. -/
def statusLine (files : TouchedFiles) (line : String) : Option TouchedFiles :=
  if line.isEmpty then some files
  else if !xyRegexMatches line.data then some files
  else
    let x := line.data.headD '\x00'
    let y := (line.data.drop 1).headD '\x00'
    (Str.sliceFrom line.data 3).map fun file =>
      let file : String := ⟨file⟩
      let files := files.classify .staged x file
      -- the `match y` block: the table of `classify`, and `?` for untracked
      let files := if y = '?' then files.insertUntracked file else files.classify .unstaged y file
      files.insertAll file

/-- The parse of `get_touched_files`: an empty output gives the empty snapshot, any other the
loop over its records. -/
def parseStatus (output : String) : Option TouchedFiles :=
  if output.isEmpty then some .empty else (Str.split output '\x00').foldlM statusLine .empty

/-- Rust's `get_touched_files`: run the status command, untrimmed, and parse its output. -/
def Git.getTouchedFiles (git : Git) (exec : Command → Except VcsError String) :
    Except VcsError (Option TouchedFiles) × Git :=
  let (output, git) := git.runCommand exec
    (git.createCommand ["status", "--porcelain", "--untracked-files", "-z"]) false
  (output.map parseStatus, git)

/-! ## What `git status` prints -/

/-- An entry of the short format: the index and work-tree codes, the path, and for a rename or
copy the original path. -/
structure StatusEntry where
  x : Char
  y : Char
  path : String
  origPath : Option String
  deriving DecidableEq

/-- The text of a NUL-terminated record: non-empty and free of NUL. -/
def IsRecordText (s : String) : Prop := s.data ≠ [] ∧ '\x00' ∉ s.data

instance : DecidablePred IsRecordText := fun s =>
  inferInstanceAs (Decidable (s.data ≠ [] ∧ '\x00' ∉ s.data))

namespace StatusEntry

/-- The records an entry prints: `XY path`, then the original path if there is one. -/
def records (e : StatusEntry) : List String :=
  ⟨e.x :: e.y :: ' ' :: e.path.data⟩ :: e.origPath.toList

/-- The entries `git status --porcelain -z` prints: codes from the status alphabet, a path, and an
original path exactly for renames and copies. -/
structure WellFormed (e : StatusEntry) : Prop where
  x_code : e.x ∈ statusCodes
  y_code : e.y ∈ statusCodes
  path : IsRecordText e.path
  origPath_isSome : e.origPath.isSome ↔ (e.x = 'R' ∨ e.x = 'C' ∨ e.y = 'R' ∨ e.y = 'C')
  origPath : ∀ p ∈ e.origPath, IsRecordText p

instance (e : StatusEntry) : Decidable e.WellFormed :=
  decidable_of_iff (e.x ∈ statusCodes ∧ e.y ∈ statusCodes ∧ IsRecordText e.path ∧
      (e.origPath.isSome ↔ (e.x = 'R' ∨ e.x = 'C' ∨ e.y = 'R' ∨ e.y = 'C')) ∧
      ∀ p ∈ e.origPath, IsRecordText p)
    ⟨fun ⟨a, b, c, d, f⟩ => ⟨a, b, c, d, f⟩, fun ⟨a, b, c, d, f⟩ => ⟨a, b, c, d, f⟩⟩

/-- The original path, if any, is not itself spelled like an entry. -/
def OrigPathSkipped (e : StatusEntry) : Prop := ∀ p ∈ e.origPath, xyRegexMatches p.data = false

instance (e : StatusEntry) : Decidable e.OrigPathSkipped :=
  inferInstanceAs (Decidable (∀ p ∈ e.origPath, _))

/-- The sets the spec's table gives for an entry: the path by its `X` code into the staged column,
by its `Y` code into the unstaged one or, for `?`, into `untracked`, and always into `all`. -/
def files (e : StatusEntry) : TouchedFiles :=
  ((TouchedFiles.bucketFiles .staged e.path (bucket? e.x)).union
      (TouchedFiles.bucketFiles .unstaged e.path (bucket? e.y))).union
    ((if e.y = '?' then TouchedFiles.onlyUntracked e.path else .empty).union
      (TouchedFiles.onlyAll e.path))

end StatusEntry

/-- The output of `git status --porcelain -z`: every record followed by NUL. -/
def statusOutput (entries : List StatusEntry) : String :=
  Str.terminated (entries.flatMap StatusEntry.records) '\x00'

/-- The snapshot the spec's table gives for a list of entries. -/
def expectedStatus (entries : List StatusEntry) : TouchedFiles :=
  entries.foldr (fun e files => e.files.union files) .empty

/-! ## The parse, record by record -/

theorem parseStatus_eq_foldlM (output : String) :
    parseStatus output = (Str.split output '\x00').foldlM statusLine .empty := by
  unfold parseStatus
  split_ifs with h
  · rw [(String.isEmpty_iff output).1 h]
    rfl
  · rfl

/-- A record that does not open like an entry changes nothing. -/
theorem statusLine_of_not_matches {line : String} (h : xyRegexMatches line.data = false)
    (files : TouchedFiles) : statusLine files line = some files := by
  simp [statusLine, h]

/-- An entry's own record adds what the table gives for it. -/
theorem statusLine_entry {e : StatusEntry} (hx : e.x ∈ statusCodes) (hy : e.y ∈ statusCodes)
    (files : TouchedFiles) :
    statusLine files ⟨e.x :: e.y :: ' ' :: e.path.data⟩ = some (files.union e.files) := by
  have slice : Str.sliceFrom (e.x :: e.y :: ' ' :: e.path.data) 3 = some e.path.data := by
    rw [Str.sliceFrom_ascii (statusCodes_ascii _ hx), Str.sliceFrom_ascii (statusCodes_ascii _ hy),
      Str.sliceFrom_ascii (by decide), Str.sliceFrom_zero]
  have parsed : statusLine files ⟨e.x :: e.y :: ' ' :: e.path.data⟩ = some
      ((if e.y = '?' then (files.classify .staged e.x e.path).insertUntracked e.path
        else (files.classify .staged e.x e.path).classify .unstaged e.y e.path).insertAll
          e.path) := by
    simp [statusLine, xyRegexMatches, hx, hy, slice]
  rw [parsed, StatusEntry.files]
  split_ifs with hq <;> simp [hq, bucket?, TouchedFiles.classify_eq, TouchedFiles.insertAll_eq,
    TouchedFiles.insertUntracked_eq, TouchedFiles.union_assoc]

/-- The loop over the records of well-formed entries whose original paths are skipped adds, entry
by entry, what the table gives. -/
theorem foldlM_statusLine_records (entries : List StatusEntry)
    (h : ∀ e ∈ entries, e.WellFormed ∧ e.OrigPathSkipped) (files : TouchedFiles) :
    (entries.flatMap StatusEntry.records).foldlM statusLine files =
      some (files.union (expectedStatus entries)) := by
  induction entries generalizing files with
  | nil => simp [expectedStatus]
  | cons e rest ih =>
    obtain ⟨wf, skipped⟩ := h e (.head _)
    have origSkipped : (e.origPath.toList).foldlM statusLine (files.union e.files) =
        some (files.union e.files) := by
      cases hp : e.origPath with
      | none => rfl
      | some p => simp [statusLine_of_not_matches (skipped p hp)]
    simp only [List.flatMap_cons, StatusEntry.records, List.cons_append, List.foldlM_cons,
      List.foldlM_append, statusLine_entry wf.x_code wf.y_code, Option.bind_eq_bind,
      Option.some_bind, origSkipped, ih (fun e he => h e (.tail _ he)), expectedStatus,
      List.foldr_cons, TouchedFiles.union_assoc]

/-- No record of a well-formed entry holds NUL. -/
theorem records_nul_free {entries : List StatusEntry} (h : ∀ e ∈ entries, e.WellFormed) :
    ∀ r ∈ entries.flatMap StatusEntry.records, '\x00' ∉ r.data := by
  have nul : '\x00' ∉ statusCodes := by decide
  simp only [List.mem_flatMap, StatusEntry.records, List.mem_cons, Option.mem_toList]
  rintro r ⟨e, he, rfl | hr⟩
  · have wf := h e he
    simp only [List.mem_cons, not_or]
    exact ⟨fun hx => nul (hx ▸ wf.x_code), fun hy => nul (hy ▸ wf.y_code), by decide, wf.path.2⟩
  · exact ((h e he).origPath r hr).2

theorem parseStatus_statusOutput (entries : List StatusEntry)
    (h : ∀ e ∈ entries, e.WellFormed ∧ e.OrigPathSkipped) :
    parseStatus (statusOutput entries) = some (expectedStatus entries) := by
  rw [parseStatus_eq_foldlM, statusOutput,
    Str.split_terminated (records_nul_free fun e he => (h e he).1), List.foldlM_append,
    foldlM_statusLine_records entries h]
  simp [statusLine_of_not_matches (show xyRegexMatches "".data = false from rfl)]

example :
    parseStatus (statusOutput [⟨'R', ' ', "new", some "old"⟩, ⟨'?', '?', "notes.txt", none⟩]) =
      some (expectedStatus [⟨'R', ' ', "new", some "old"⟩, ⟨'?', '?', "notes.txt", none⟩]) :=
  parseStatus_statusOutput _ (by decide)

/-- The output of a rename whose original file is named `MM old`, `R  new\0MM old\0`: the parse
reads `old` as a touched file of its own. -/
theorem original_path_read_as_entry :
    (⟨'R', ' ', "new", some "MM old"⟩ : StatusEntry).WellFormed ∧
    parseStatus (statusOutput [⟨'R', ' ', "new", some "MM old"⟩]) ≠
      some (expectedStatus [⟨'R', ' ', "new", some "MM old"⟩]) :=
  by decide

/-! ## Every output

Whatever the command prints, the parse returns: `xy_regex` admits only records whose first three
characters are ASCII, so `&line[3..]` always falls on a character boundary. Every snapshot it
builds is consistent (`parseStatus_consistent`). -/

/-- A loop whose every step succeeds and keeps `inv` succeeds over any records and ends in
`inv`. -/
theorem foldlM_some_of_step {α β : Type} {step : β → α → Option β} {inv : β → Prop}
    (keep : ∀ b a, inv b → ∃ b', step b a = some b' ∧ inv b') :
    ∀ (l : List α) {b : β}, inv b → ∃ r, l.foldlM step b = some r ∧ inv r
  | [], b, hb => ⟨b, rfl, hb⟩
  | a :: l, b, hb => by
    obtain ⟨b', hstep, hb'⟩ := keep b a hb
    rw [List.foldlM_cons, hstep]
    exact foldlM_some_of_step keep l hb'

theorem xyRegexMatches_eq_true {cs : List Char} (h : xyRegexMatches cs = true) :
    ∃ x y rest, cs = x :: y :: ' ' :: rest ∧ x ∈ statusCodes ∧ y ∈ statusCodes := by
  unfold xyRegexMatches at h
  split at h
  · exact ⟨_, _, _, rfl, by simpa using h⟩
  · cases h

theorem StatusEntry.files_consistent (e : StatusEntry) : e.files.Consistent := by
  rw [StatusEntry.files, ← TouchedFiles.union_assoc]
  refine TouchedFiles.Classifies.union_onlyAll (((TouchedFiles.classifies_bucketFiles _ _ _).union
    (TouchedFiles.classifies_bucketFiles _ _ _)).union ?_)
  split_ifs
  exacts [TouchedFiles.classifies_onlyUntracked _, TouchedFiles.classifies_empty _]

/-- One pass of the loop succeeds from any snapshot and keeps it consistent. -/
theorem statusLine_consistent {files : TouchedFiles} (h : files.Consistent) (line : String) :
    ∃ files', statusLine files line = some files' ∧ files'.Consistent := by
  obtain ⟨data⟩ := line
  cases hm : xyRegexMatches data
  · exact ⟨files, statusLine_of_not_matches hm files, h⟩
  · obtain ⟨x, y, rest, rfl, hx, hy⟩ := xyRegexMatches_eq_true hm
    exact ⟨_, statusLine_entry (e := ⟨x, y, ⟨rest⟩, none⟩) hx hy files,
      h.union (StatusEntry.files_consistent _)⟩

theorem parseStatus_consistent (output : String) :
    ∃ files, parseStatus output = some files ∧ files.Consistent := by
  rw [parseStatus_eq_foldlM]
  exact foldlM_some_of_step (fun _ line h => statusLine_consistent h line) _
    TouchedFiles.consistent_empty

/-! ## Every output, record by record

The loop keeps no state between records, so the parse of any output is the spec's table applied
to the records it reads as entries (`parseStatus_reads_records`): those that open with two status
codes and a space, each read as its two codes and the text after them. Every other record,
original paths included, adds nothing. -/

/-- The entry a record is read as: its two status codes and the text after them, when it opens
as `xy_regex` asks; none otherwise. -/
def readEntry (line : String) : Option StatusEntry :=
  match line.data with
  | x :: y :: ' ' :: rest =>
    if x ∈ statusCodes ∧ y ∈ statusCodes then some ⟨x, y, ⟨rest⟩, none⟩ else none
  | _ => none

/-- One pass of the loop adds what the table gives for the entry the record is read as. -/
theorem statusLine_eq_readEntry (files : TouchedFiles) (line : String) :
    statusLine files line = some (match readEntry line with
      | some e => files.union e.files
      | none => files) := by
  obtain ⟨data⟩ := line
  cases hm : xyRegexMatches data
  · have none : readEntry ⟨data⟩ = none := by
      unfold readEntry
      split
      · simp_all [xyRegexMatches]
      · rfl
    rw [statusLine_of_not_matches hm, none]
  · obtain ⟨x, y, rest, rfl, hx, hy⟩ := xyRegexMatches_eq_true hm
    rw [statusLine_entry (e := ⟨x, y, ⟨rest⟩, none⟩) hx hy]
    simp [readEntry, hx, hy]

theorem foldlM_statusLine (lines : List String) (files : TouchedFiles) :
    lines.foldlM statusLine files = some (files.union (expectedStatus (lines.filterMap readEntry))) := by
  induction lines generalizing files with
  | nil => simp [expectedStatus]
  | cons line rest ih =>
    rw [List.foldlM_cons, statusLine_eq_readEntry, Option.bind_eq_bind, Option.some_bind, ih]
    cases h : readEntry line <;>
      simp [List.filterMap_cons, h, expectedStatus, TouchedFiles.union_assoc]

theorem parseStatus_reads_records (output : String) :
    parseStatus output = some (expectedStatus ((Str.split output '\x00').filterMap readEntry)) := by
  rw [parseStatus_eq_foldlM, foldlM_statusLine, TouchedFiles.empty_union]

end Moon.Vcs
