import Moon.Vcs.Status

/-! # The `git diff --name-status` parser

`get_touched_files_between_revisions` runs `git diff --name-status -z <merge base> <revision>`,
whose NUL-terminated output puts the status on a record of its own: `X\0path\0`, `M100\0path\0`,
`R100\0source\0destination\0`. The loop keeps the last status token in `last_status` and
classifies every other record by it. A record is taken for a status token when it matches
`x_with_score_regex` or `x_regex`, wherever it stands, so an added file named `M` is read as a
status and never reaches the sets (`path_read_as_status`). For diffs whose paths match neither
regex the parse is exactly the classification table (`parseDiff_diffOutput`); for every output,
`all` is exactly the set of non-empty records that match neither regex (`parseDiff_all`). The
regexes' `\d` is the Unicode digit class, a parameter `isDigit` that holds the ASCII digits.
-/

namespace Moon.Vcs

/-! ## The parser -/

/-- Rust's `x_with_score_regex.is_match(line)` for `^(C|M|R)(\d{3})$`. -/
def xWithScoreRegexMatches (isDigit : Char → Bool) : List Char → Bool
  | [x, d₁, d₂, d₃] => x ∈ ['C', 'M', 'R'] && isDigit d₁ && isDigit d₂ && isDigit d₃
  | _ => false

/-- Rust's `x_regex.is_match(line)` for `^(A|D|M|T|U|X)$`. -/
def xRegexMatches : List Char → Bool
  | [x] => x ∈ ['A', 'D', 'M', 'T', 'U', 'X']
  | _ => false

/-- The state of the loop of `get_touched_files_between_revisions`: the sets built so far and
`last_status`. -/
structure DiffState where
  files : TouchedFiles
  lastStatus : String

/-- One pass of the `for line in output.split('\0')` loop, or `none` where `&line[0..1]`
panics. `unwrap_or_default` on a `char` gives NUL. -/
def diffLine (isDigit : Char → Bool) (state : DiffState) (line : String) : Option DiffState :=
  if line.isEmpty then some state
  else if xWithScoreRegexMatches isDigit line.data || xRegexMatches line.data then
    (Str.sliceTo line.data 1).map fun status => { state with lastStatus := ⟨status⟩ }
  else
    let x := state.lastStatus.data.headD '\x00'
    let file := line
    some { state with files := (state.files.classify .staged x file).insertAll file }

/-- The parse of `get_touched_files_between_revisions`: an empty output gives the empty
snapshot, any other the loop from `last_status = "A"`; `unstaged` and `untracked` are empty. -/
def parseDiff (isDigit : Char → Bool) (output : String) : Option TouchedFiles :=
  if output.isEmpty then some .empty
  else ((Str.split output '\x00').foldlM (diffLine isDigit) ⟨.empty, "A"⟩).map fun state =>
    { state.files with unstaged := ∅, untracked := ∅ }

/-- Rust's `get_touched_files_between_revisions`: diff the revision against its merge base with
`base_revision`, untrimmed, and parse the output. -/
def Git.getTouchedFilesBetweenRevisions (git : Git) (exec : Command → Except VcsError String)
    (isDigit : Char → Bool) (baseRevision revision : String) :
    Except VcsError (Option TouchedFiles) × Git :=
  let (base, git) := git.getMergeBase exec baseRevision revision
  let (output, git) := git.runCommand exec (git.createCommand
    ["--no-pager", "diff", "--name-status", "--no-color", "--relative", "-z", base, revision]) false
  (output.map (parseDiff isDigit), git)

/-- Rust's `get_touched_files_against_previous_revision`: the revision against its parent, with
the default branch read as `HEAD`. -/
def Git.getTouchedFilesAgainstPreviousRevision (git : Git)
    (exec : Command → Except VcsError String) (isDigit : Char → Bool) (revision : String) :
    Except VcsError (Option TouchedFiles) × Git :=
  let rev := if git.isDefaultBranch revision then "HEAD" else revision
  git.getTouchedFilesBetweenRevisions exec isDigit (rev ++ "~1") rev

/-! ## What `git diff --name-status -z` prints -/

/-- A three-digit similarity score. -/
def IsScore (score : List Char) : Prop := score.length = 3 ∧ ∀ d ∈ score, d.isDigit

instance : DecidablePred IsScore := fun score =>
  inferInstanceAs (Decidable (score.length = 3 ∧ ∀ d ∈ score, d.isDigit))

/-- A record of the name-status output: a status token and the paths it applies to. -/
inductive DiffRecord
  /-- `X\0path\0` -/
  | single (x : Char) (path : String)
  /-- `M000\0path\0` -/
  | scored (x : Char) (score : List Char) (path : String)
  /-- `C000\0source\0destination\0` or `R000\0...` -/
  | pair (x : Char) (score : List Char) (source destination : String)
  deriving DecidableEq

namespace DiffRecord

/-- The status letter. -/
def code : DiffRecord → Char
  | single x _ | scored x _ _ | pair x _ _ _ => x

/-- The status token as printed. -/
def token : DiffRecord → String
  | single x _ => ⟨[x]⟩
  | scored x score _ | pair x score _ _ => ⟨x :: score⟩

/-- The paths the status applies to. -/
def paths : DiffRecord → List String
  | single _ path | scored _ _ path => [path]
  | pair _ _ source destination => [source, destination]

/-- The records as printed: the token, then the paths. -/
def lines (r : DiffRecord) : List String := r.token :: r.paths

/-- The records git prints: `A D M T U X` alone, `M` with a score, `C` and `R` with a score and
two paths; every path non-empty and free of NUL. -/
def WellFormed : DiffRecord → Prop
  | single x path => x ∈ ['A', 'D', 'M', 'T', 'U', 'X'] ∧ IsRecordText path
  | scored x score path => x = 'M' ∧ IsScore score ∧ IsRecordText path
  | pair x score source destination =>
    (x = 'C' ∨ x = 'R') ∧ IsScore score ∧ IsRecordText source ∧ IsRecordText destination

instance : DecidablePred WellFormed
  | single x path => inferInstanceAs (Decidable (x ∈ _ ∧ IsRecordText path))
  | scored x score path => inferInstanceAs (Decidable (x = 'M' ∧ IsScore score ∧ IsRecordText path))
  | pair x score source destination => inferInstanceAs (Decidable
    ((x = 'C' ∨ x = 'R') ∧ IsScore score ∧ IsRecordText source ∧ IsRecordText destination))

/-- No path of the record matches either status regex. -/
def PathsPlain (isDigit : Char → Bool) (r : DiffRecord) : Prop :=
  ∀ p ∈ r.paths, xWithScoreRegexMatches isDigit p.data = false ∧ xRegexMatches p.data = false

instance (isDigit : Char → Bool) : DecidablePred (PathsPlain isDigit) := fun r =>
  inferInstanceAs (Decidable (∀ p ∈ r.paths, _))

/-- What the spec's table gives for one path under status `x`: its bucket and `staged`, and
`all`. -/
def pathFiles (x : Char) (path : String) : TouchedFiles :=
  (TouchedFiles.bucketFiles .staged path (bucket? x)).union (TouchedFiles.onlyAll path)

/-- What the table gives for a record: each of its paths by the record's own status. -/
def files (r : DiffRecord) : TouchedFiles :=
  r.paths.foldr (fun p files => (pathFiles r.code p).union files) .empty

end DiffRecord

/-- The output of `git diff --name-status -z`: every token and path followed by NUL. -/
def diffOutput (records : List DiffRecord) : String :=
  Str.terminated (records.flatMap DiffRecord.lines) '\x00'

/-- The snapshot the spec's table gives for a diff. -/
def expectedDiff (records : List DiffRecord) : TouchedFiles :=
  records.foldr (fun r files => r.files.union files) .empty

/-! ## The parse, record by record -/

section
variable {isDigit : Char → Bool}

theorem parseDiff_eq_foldlM (output : String) :
    parseDiff isDigit output = ((Str.split output '\x00').foldlM (diffLine isDigit)
      ⟨.empty, "A"⟩).map fun state => { state.files with unstaged := ∅, untracked := ∅ } := by
  unfold parseDiff
  split_ifs with h
  · rw [(String.isEmpty_iff output).1 h]
    rfl
  · rfl

/-- A status token of a well-formed record sets `last_status` to its letter. -/
theorem diffLine_token (digits : ∀ c, c.isDigit → isDigit c) {r : DiffRecord} (wf : r.WellFormed)
    (state : DiffState) :
    diffLine isDigit state r.token = some { state with lastStatus := ⟨[r.code]⟩ } := by
  cases r with
  | single x path =>
    have hx : x.utf8Size = 1 := by
      have ascii : ∀ c ∈ ['A', 'D', 'M', 'T', 'U', 'X'], c.utf8Size = 1 := by decide
      exact ascii x wf.1
    simp [diffLine, DiffRecord.token, DiffRecord.code, xWithScoreRegexMatches, xRegexMatches,
      Str.sliceTo_ascii hx, wf.1]
  | scored x score path =>
    obtain ⟨rfl, ⟨three, hd⟩, -⟩ := wf
    obtain ⟨d₁, d₂, d₃, rfl⟩ := List.length_eq_three.1 three
    simp [diffLine, DiffRecord.token, DiffRecord.code, xWithScoreRegexMatches,
      Str.sliceTo_ascii (c := 'M') (by decide), digits, hd]
  | pair x score source destination =>
    obtain ⟨hx, ⟨three, hd⟩, -⟩ := wf
    obtain ⟨d₁, d₂, d₃, rfl⟩ := List.length_eq_three.1 three
    rcases hx with rfl | rfl <;>
      simp [diffLine, DiffRecord.token, DiffRecord.code, xWithScoreRegexMatches,
        Str.sliceTo_ascii (c := 'C') (by decide), Str.sliceTo_ascii (c := 'R') (by decide), digits,
        hd]

theorem diffLine_empty (state : DiffState) : diffLine isDigit state "" = some state := rfl

/-- A path that matches neither regex is classified by `last_status`. -/
theorem diffLine_path {path : String} (ne : path.data ≠ [])
    (plain : xWithScoreRegexMatches isDigit path.data = false ∧ xRegexMatches path.data = false)
    (state : DiffState) :
    diffLine isDigit state path = some ⟨state.files.union
      (DiffRecord.pathFiles (state.lastStatus.data.headD '\x00') path), state.lastStatus⟩ := by
  simp [diffLine, Str.isEmpty_eq_false ne, plain, DiffRecord.pathFiles, TouchedFiles.classify_eq,
    TouchedFiles.insertAll_eq, TouchedFiles.union_assoc]

theorem DiffRecord.texts_of_wellFormed {r : DiffRecord} (wf : r.WellFormed) :
    ∀ p ∈ r.paths, IsRecordText p := by
  cases r <;> simp_all [DiffRecord.WellFormed, DiffRecord.paths]

/-- Paths read under status `x` add what the table gives for each. -/
theorem foldlM_diffLine_paths (x : Char) (paths : List String)
    (texts : ∀ p ∈ paths, IsRecordText p)
    (plain : ∀ p ∈ paths, xWithScoreRegexMatches isDigit p.data = false ∧
      xRegexMatches p.data = false) (files : TouchedFiles) :
    paths.foldlM (diffLine isDigit) ⟨files, ⟨[x]⟩⟩ =
      some ⟨files.union
          (paths.foldr (fun p files => (DiffRecord.pathFiles x p).union files) .empty),
        ⟨[x]⟩⟩ := by
  induction paths generalizing files with
  | nil => simp
  | cons p rest ih =>
    rw [List.foldlM_cons, diffLine_path (texts p (.head _)).1 (plain p (.head _))]
    simp only [List.headD_cons, Option.bind_eq_bind, Option.some_bind, List.foldr_cons,
      ← TouchedFiles.union_assoc]
    exact ih (fun p hp => texts p (.tail _ hp)) (fun p hp => plain p (.tail _ hp)) _

/-- A well-formed record with plain paths adds, from any state, what the table gives for it, and
leaves its status in `last_status`. -/
theorem foldlM_diffLine_lines (digits : ∀ c, c.isDigit → isDigit c) {r : DiffRecord}
    (wf : r.WellFormed) (plain : r.PathsPlain isDigit) (state : DiffState) :
    r.lines.foldlM (diffLine isDigit) state = some ⟨state.files.union r.files, ⟨[r.code]⟩⟩ := by
  rw [DiffRecord.lines, List.foldlM_cons, diffLine_token digits wf, Option.bind_eq_bind,
    Option.some_bind]
  exact foldlM_diffLine_paths r.code r.paths (DiffRecord.texts_of_wellFormed wf) plain state.files

theorem foldlM_diffLine_records (digits : ∀ c, c.isDigit → isDigit c) (records : List DiffRecord)
    (h : ∀ r ∈ records, r.WellFormed ∧ r.PathsPlain isDigit) (state : DiffState) :
    ∃ lastStatus, (records.flatMap DiffRecord.lines).foldlM (diffLine isDigit) state =
      some ⟨state.files.union (expectedDiff records), lastStatus⟩ := by
  induction records generalizing state with
  | nil => exact ⟨state.lastStatus, by simp [expectedDiff]⟩
  | cons r rest ih =>
    obtain ⟨wf, plain⟩ := h r (.head _)
    obtain ⟨lastStatus, fold⟩ :=
      ih (fun r hr => h r (.tail _ hr)) ⟨state.files.union r.files, ⟨[r.code]⟩⟩
    refine ⟨lastStatus, ?_⟩
    rw [List.flatMap_cons, List.foldlM_append, foldlM_diffLine_lines digits wf plain,
      Option.bind_eq_bind, Option.some_bind, fold]
    simp only [expectedDiff, List.foldr_cons, TouchedFiles.union_assoc]

/-- The table never puts a path into `unstaged` or `untracked`. -/
theorem expectedDiff_unstaged_untracked (records : List DiffRecord) :
    (expectedDiff records).unstaged = ∅ ∧ (expectedDiff records).untracked = ∅ := by
  have record : ∀ r : DiffRecord, r.files.unstaged = ∅ ∧ r.files.untracked = ∅ := fun r => by
    unfold DiffRecord.files
    induction r.paths <;> simp_all [DiffRecord.pathFiles, TouchedFiles.onlyAll]
  induction records with
  | nil => simp [expectedDiff]
  | cons r rest ih => simp_all [expectedDiff]

theorem DiffRecord.token_nul_free {r : DiffRecord} (wf : r.WellFormed) : '\x00' ∉ r.token.data := by
  have scoreFree : ∀ score, IsScore score → '\x00' ∉ score := fun _ hs h =>
    absurd (hs.2 _ h) (by decide)
  cases r with
  | single x path =>
    rw [DiffRecord.token, List.mem_singleton]
    rintro rfl
    exact absurd wf.1 (by decide)
  | scored x score path =>
    obtain ⟨rfl, hs, -⟩ := wf
    simpa [DiffRecord.token] using scoreFree score hs
  | pair x score source destination =>
    obtain ⟨hx, hs, -⟩ := wf
    rcases hx with rfl | rfl <;> simpa [DiffRecord.token] using scoreFree score hs

/-- No record of a well-formed diff holds NUL. -/
theorem lines_nul_free {records : List DiffRecord} (h : ∀ r ∈ records, r.WellFormed) :
    ∀ l ∈ records.flatMap DiffRecord.lines, '\x00' ∉ l.data := by
  simp only [List.mem_flatMap, DiffRecord.lines, List.mem_cons]
  rintro l ⟨r, hr, rfl | hl⟩
  · exact DiffRecord.token_nul_free (h r hr)
  · exact (DiffRecord.texts_of_wellFormed (h r hr) l hl).2

theorem parseDiff_diffOutput (digits : ∀ c, c.isDigit → isDigit c) (records : List DiffRecord)
    (h : ∀ r ∈ records, r.WellFormed ∧ r.PathsPlain isDigit) :
    parseDiff isDigit (diffOutput records) = some (expectedDiff records) := by
  obtain ⟨lastStatus, fold⟩ := foldlM_diffLine_records digits records h ⟨.empty, "A"⟩
  rw [parseDiff_eq_foldlM, diffOutput, Str.split_terminated (lines_nul_free fun r hr => (h r hr).1),
    List.foldlM_append, fold]
  simp only [TouchedFiles.empty_union, List.foldlM_cons, diffLine_empty, List.foldlM_nil,
    Option.bind_eq_bind, Option.some_bind, Option.map_some', Option.some.injEq]
  obtain ⟨unstaged, untracked⟩ := expectedDiff_unstaged_untracked records
  generalize expectedDiff records = t at unstaged untracked ⊢
  cases t
  simp_all

example : parseDiff Char.isDigit
      (diffOutput [.pair 'R' ['1', '0', '0'] "old.ts" "new.ts", .single 'D' "gone.ts"]) =
    some (expectedDiff [.pair 'R' ['1', '0', '0'] "old.ts" "new.ts", .single 'D' "gone.ts"]) :=
  parseDiff_diffOutput (fun _ h => h) _ (by decide)

/-- An added file named `M`, printed `A\0M\0`: its path record is read as a status token, and the
file is lost. -/
theorem path_read_as_status :
    (DiffRecord.single 'A' "M").WellFormed ∧
    parseDiff Char.isDigit (diffOutput [.single 'A' "M"]) ≠
      some (expectedDiff [.single 'A' "M"]) := by
  decide

/-! ## Every output

Whatever the command prints, the parse returns: both status regexes admit only records that open
with an ASCII letter, so `&line[0..1]` always falls on a character boundary. Every snapshot it
builds is consistent, with `unstaged` and `untracked` empty (`parseDiff_consistent`). -/

/-- A record either status regex admits opens with an ASCII character. -/
theorem head_ascii_of_statusRegexMatches {cs : List Char}
    (h : (xWithScoreRegexMatches isDigit cs || xRegexMatches cs) = true) :
    ∃ x rest, cs = x :: rest ∧ x.utf8Size = 1 := by
  rcases Bool.or_eq_true_iff.1 h with h | h
  · unfold xWithScoreRegexMatches at h
    split at h
    · simp only [Bool.and_eq_true, decide_eq_true_eq, List.mem_cons, List.mem_singleton,
        List.not_mem_nil, or_false] at h
      obtain ⟨⟨⟨hx, -⟩, -⟩, -⟩ := h
      exact ⟨_, _, rfl, by rcases hx with rfl | rfl | rfl <;> rfl⟩
    · cases h
  · unfold xRegexMatches at h
    split at h
    · simp only [decide_eq_true_eq, List.mem_cons, List.mem_singleton, List.not_mem_nil,
        or_false] at h
      exact ⟨_, _, rfl, by rcases h with rfl | rfl | rfl | rfl | rfl | rfl <;> rfl⟩
    · cases h

theorem DiffRecord.pathFiles_consistent (x : Char) (path : String) :
    (DiffRecord.pathFiles x path).Consistent :=
  (TouchedFiles.classifies_bucketFiles _ _ _).union_onlyAll

/-- One pass of the loop succeeds from any state and keeps its snapshot consistent, with
`unstaged` empty. -/
theorem diffLine_consistent {state : DiffState}
    (h : state.files.Consistent ∧ state.files.unstaged = ∅) (line : String) :
    ∃ state', diffLine isDigit state line = some state' ∧
      state'.files.Consistent ∧ state'.files.unstaged = ∅ := by
  obtain ⟨_ | ⟨c, cs⟩⟩ := line
  · exact ⟨state, rfl, h⟩
  cases hm : xWithScoreRegexMatches isDigit (c :: cs) || xRegexMatches (c :: cs)
  · refine ⟨_, diffLine_path (List.cons_ne_nil c cs) (Bool.or_eq_false_iff.1 hm) state,
      h.1.union (DiffRecord.pathFiles_consistent _ _), ?_⟩
    simp [h.2, DiffRecord.pathFiles, TouchedFiles.onlyAll]
  · obtain ⟨x, rest, hline, hx⟩ := head_ascii_of_statusRegexMatches hm
    obtain ⟨rfl, rfl⟩ := List.cons.inj hline
    exact ⟨{ state with lastStatus := ⟨[c]⟩ }, by simp [diffLine, hm, Str.sliceTo_ascii hx], h⟩

theorem parseDiff_consistent (output : String) :
    ∃ files, parseDiff isDigit output = some files ∧
      files.Consistent ∧ files.unstaged = ∅ ∧ files.untracked = ∅ := by
  obtain ⟨state, fold, consistent, unstaged⟩ :=
    foldlM_some_of_step (fun _ line h => @diffLine_consistent isDigit _ h line)
      (Str.split output '\x00') (b := ⟨.empty, "A"⟩) ⟨TouchedFiles.consistent_empty, rfl⟩
  have balanced : state.files.added ∪ state.files.deleted ∪ state.files.modified =
      state.files.staged ∪ ∅ := unstaged ▸ consistent.1
  refine ⟨_, by rw [parseDiff_eq_foldlM, fold]; rfl, ?_, rfl, rfl⟩
  exact ⟨balanced, consistent.2, Finset.empty_subset _, Finset.empty_subset _⟩

/-! ## The paths of every output

A record is read as a path exactly when it is non-empty and matches neither status regex, so
`all` is the set of those records for any output (`parseDiff_all`): a path spelled like a status
token, such as a file named `A` or `R100`, is read as one and never reported. -/

/-- Whether the loop reads a record as a path rather than skipping it or reading a status
token. -/
def readsAsPath (isDigit : Char → Bool) (line : String) : Bool :=
  !line.isEmpty && !(xWithScoreRegexMatches isDigit line.data || xRegexMatches line.data)

theorem diffLine_all (state : DiffState) (line : String) :
    ∃ state', diffLine isDigit state line = some state' ∧
      state'.files.all =
        if readsAsPath isDigit line then insert line state.files.all else state.files.all := by
  obtain ⟨_ | ⟨c, cs⟩⟩ := line
  · exact ⟨state, rfl, rfl⟩
  cases hm : xWithScoreRegexMatches isDigit (c :: cs) || xRegexMatches (c :: cs)
  · refine ⟨_, diffLine_path (List.cons_ne_nil c cs) (Bool.or_eq_false_iff.1 hm) state, ?_⟩
    simp [readsAsPath, hm, DiffRecord.pathFiles, TouchedFiles.onlyAll, Finset.insert_eq,
      Finset.union_comm]
  · obtain ⟨x, rest, hline, hx⟩ := head_ascii_of_statusRegexMatches hm
    obtain ⟨rfl, rfl⟩ := List.cons.inj hline
    exact ⟨{ state with lastStatus := ⟨[c]⟩ }, by simp [diffLine, hm, Str.sliceTo_ascii hx],
      by simp [readsAsPath, hm]⟩

theorem foldlM_diffLine_all :
    ∀ (lines : List String) (state : DiffState), ∃ r, lines.foldlM (diffLine isDigit) state = some r ∧
      r.files.all = state.files.all ∪ (lines.filter (readsAsPath isDigit)).toFinset
  | [], state => ⟨state, rfl, by simp⟩
  | line :: rest, state => by
    obtain ⟨state', step, all⟩ := diffLine_all state line
    obtain ⟨r, fold, all'⟩ := foldlM_diffLine_all rest state'
    refine ⟨r, by rw [List.foldlM_cons, step]; exact fold, ?_⟩
    rw [all', all, List.filter_cons]
    split_ifs <;> simp [Finset.insert_union]

theorem parseDiff_all (isDigit : Char → Bool) (output : String) :
    ∃ files, parseDiff isDigit output = some files ∧
      files.all = ((Str.split output '\x00').filter (readsAsPath isDigit)).toFinset := by
  obtain ⟨r, fold, all⟩ := @foldlM_diffLine_all isDigit (Str.split output '\x00') ⟨.empty, "A"⟩
  exact ⟨_, by rw [parseDiff_eq_foldlM, fold]; rfl, by simpa using all⟩

end

theorem touched_files_parses_consistent (isDigit : Char → Bool) (output : String) :
    (∃ files, parseStatus output = some files ∧ files.Consistent) ∧
    (∃ files, parseDiff isDigit output = some files ∧
      files.Consistent ∧ files.unstaged = ∅ ∧ files.untracked = ∅) :=
  ⟨parseStatus_consistent output, parseDiff_consistent output⟩

/-- What a query returns is the parse of the command's output, or the command's error. -/
theorem exists_of_map_eq_ok {α : Type} {f : String → α} {output : Except VcsError String}
    {r : α} (h : output.map f = .ok r) : ∃ text, r = f text := by
  cases output with
  | error e => cases h
  | ok text => exact ⟨text, (Except.ok.inj h).symm⟩

/-- Whatever the subprocesses print, both queries end in an error of the command or in a
consistent snapshot; they never panic. -/
theorem touched_files_queries_consistent (git : Git) (exec : Command → Except VcsError String)
    (isDigit : Char → Bool) (baseRevision revision : String) :
    (∀ r, (git.getTouchedFiles exec).1 = .ok r → ∃ files, r = some files ∧ files.Consistent) ∧
    (∀ r, (git.getTouchedFilesBetweenRevisions exec isDigit baseRevision revision).1 = .ok r →
      ∃ files, r = some files ∧ files.Consistent ∧ files.unstaged = ∅ ∧ files.untracked = ∅) := by
  constructor
  · intro r h
    obtain ⟨output, rfl⟩ := exists_of_map_eq_ok h
    exact parseStatus_consistent output
  · intro r h
    obtain ⟨output, rfl⟩ := exists_of_map_eq_ok h
    exact parseDiff_consistent output

/-- A git that prints a staged and an untracked file for `git status`, and one that prints an added
file for every command: both queries return a consistent snapshot. -/
theorem touched_files_snapshots_consistent :
    (Git.getTouchedFiles ⟨.empty, "master", none, "/repo"⟩
        (fun _ => .ok "M  src/a.ts\x00?? notes.txt\x00")).1 =
      .ok (parseStatus "M  src/a.ts\x00?? notes.txt\x00") ∧
    (∃ files, parseStatus "M  src/a.ts\x00?? notes.txt\x00" = some files ∧ files.Consistent) ∧
    (Git.getTouchedFilesBetweenRevisions ⟨.empty, "master", none, "/repo"⟩
        (fun _ => .ok "A\x00src/b.ts\x00") Char.isDigit "main" "HEAD").1 =
      .ok (parseDiff Char.isDigit "A\x00src/b.ts\x00") ∧
    ∃ files, parseDiff Char.isDigit "A\x00src/b.ts\x00" = some files ∧
      files.Consistent ∧ files.unstaged = ∅ ∧ files.untracked = ∅ :=
  have status : (Git.getTouchedFiles ⟨.empty, "master", none, "/repo"⟩
      (fun _ => .ok "M  src/a.ts\x00?? notes.txt\x00")).1 =
        .ok (parseStatus "M  src/a.ts\x00?? notes.txt\x00") := rfl
  have diff : (Git.getTouchedFilesBetweenRevisions ⟨.empty, "master", none, "/repo"⟩
      (fun _ => .ok "A\x00src/b.ts\x00") Char.isDigit "main" "HEAD").1 =
        .ok (parseDiff Char.isDigit "A\x00src/b.ts\x00") := rfl
  ⟨status, (touched_files_queries_consistent _ _ Char.isDigit "main" "HEAD").1 _ status,
    diff, (touched_files_queries_consistent _ _ Char.isDigit "main" "HEAD").2 _ diff⟩

end Moon.Vcs
