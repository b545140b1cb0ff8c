import Moon.Vcs.Status
import Moon.Vcs.Diff
import Moon.Vcs.Hashes

/-! # A session of queries on one `Git`, one after another

One caller makes its `Vcs` queries in turn, each awaited before the next. (Calls that overlap are
`Moon.Vcs.CommandCache`'s, where a cached value can be replaced: `later_calls_disagree`.) Every
query but `get_file_hashes` goes through `run_command`, which writes only on a miss, so no query
changes or drops a cached output, nor the default branch, the ignore rules or the working
directory (`Git.Extends`, `Query.apply_extends`).

So in such a session, whatever git prints from one query to the next (each query runs against its
own oracle), a command line answered once is answered the same by every later query, without
running git again (`session_answers_stable`).
-/

namespace Moon.Vcs

/-- `git'` keeps what `git` fixed: the default branch, the ignore rules, the working directory
and every cached output. -/
structure Git.Extends (git git' : Git) : Prop where
  defaultBranch : git'.defaultBranch = git.defaultBranch
  ignore : git'.ignore = git.ignore
  workingDir : git'.workingDir = git.workingDir
  cache : ∀ k v, git.cache.get? k = some v → git'.cache.get? k = some v

theorem Git.Extends.refl (git : Git) : git.Extends git := ⟨rfl, rfl, rfl, fun _ _ h => h⟩

theorem Git.Extends.trans {g₁ g₂ g₃ : Git} (h₁ : g₁.Extends g₂) (h₂ : g₂.Extends g₃) :
    g₁.Extends g₃ :=
  ⟨h₂.defaultBranch.trans h₁.defaultBranch, h₂.ignore.trans h₁.ignore,
    h₂.workingDir.trans h₁.workingDir, fun k v h => h₂.cache k v (h₁.cache k v h)⟩

/-! ## Each query -/

section Queries

variable (exec : Command → Except VcsError String)

/-- `run_command` inserts only a command line it did not find. -/
theorem runCommand_extends (git : Git) (command : Command) (trim : Bool) :
    git.Extends (git.runCommand exec command trim).2 := by
  simp only [Git.runCommand]
  cases cached : git.cache.get? command.getCommandLine with
  | some => exact .refl git
  | none =>
    cases exec command with
    | error => exact .refl git
    | ok stdout =>
      refine ⟨rfl, rfl, rfl, fun k v hv => ?_⟩
      have ne : k ≠ command.getCommandLine := fun same => by rw [same, cached] at hv; cases hv
      simp [ne, hv]

theorem getMergeBase_go_extends (base head : String) :
    ∀ (candidates : List String) (git : Git),
      git.Extends (Git.getMergeBase.go exec base head candidates git).2
  | [], git => .refl git
  | c :: rest, git => by
    have first := runCommand_extends exec git (git.createCommand ["merge-base", c, head]) true
    rcases ran : git.runCommand exec (git.createCommand ["merge-base", c, head]) true
      with ⟨_ | hash, git'⟩ <;> rw [ran] at first <;> simp only [Git.getMergeBase.go, ran]
    · exact first.trans (getMergeBase_go_extends base head rest git')
    · exact first

theorem getTouchedFilesBetweenRevisions_extends (isDigit : Char → Bool) (git : Git)
    (baseRevision revision : String) :
    git.Extends (git.getTouchedFilesBetweenRevisions exec isDigit baseRevision revision).2 := by
  have merge := getMergeBase_go_extends exec baseRevision revision
    [baseRevision, "origin/" ++ baseRevision, "upstream/" ++ baseRevision] git
  rcases hb : git.getMergeBase exec baseRevision revision with ⟨base, git₁⟩
  rw [show Git.getMergeBase.go exec baseRevision revision _ git = (base, git₁) from hb] at merge
  have diff := runCommand_extends exec git₁ (git₁.createCommand
    ["--no-pager", "diff", "--name-status", "--no-color", "--relative", "-z", base, revision]) false
  simp only [Git.getTouchedFilesBetweenRevisions, hb]
  exact merge.trans diff

end Queries

/-- A query of the `Vcs` interface on the backend. -/
inductive Query
  | localBranch
  | localBranchRevision
  | defaultBranchRevision
  | fileHashes (files : List String)
  | fileTreeHashes (dir : String)
  | touchedFiles
  | touchedFilesBetweenRevisions (baseRevision revision : String)
  | touchedFilesAgainstPreviousRevision (revision : String)

/-- The `Git` a query leaves, given what git prints while it runs. -/
def Query.apply (isDigit : Char → Bool) (exec : Command → Except VcsError String) (git : Git) :
    Query → Git
  | .localBranch => (git.getLocalBranch exec).2
  | .localBranchRevision => (git.getLocalBranchRevision exec).2
  | .defaultBranchRevision => (git.getDefaultBranchRevision exec).2
  | .fileHashes _ => git
  | .fileTreeHashes dir => (git.getFileTreeHashes exec dir).2
  | .touchedFiles => (git.getTouchedFiles exec).2
  | .touchedFilesBetweenRevisions baseRevision revision =>
    (git.getTouchedFilesBetweenRevisions exec isDigit baseRevision revision).2
  | .touchedFilesAgainstPreviousRevision revision =>
    (git.getTouchedFilesAgainstPreviousRevision exec isDigit revision).2

/-- A session: queries in turn, each while git prints what its own oracle says. -/
def session (isDigit : Char → Bool) (git : Git) :
    List (Query × (Command → Except VcsError String)) → Git
  | [] => git
  | (query, exec) :: rest => session isDigit (query.apply isDigit exec git) rest

theorem Query.apply_extends (isDigit : Char → Bool) (exec : Command → Except VcsError String)
    (git : Git) (query : Query) : git.Extends (query.apply isDigit exec git) := by
  cases query with
  | fileHashes => exact .refl git
  | fileTreeHashes dir =>
    have := runCommand_extends exec git (git.createCommand ["ls-tree", "HEAD", "-r", dir]) true
    rcases ran : git.runCommand exec (git.createCommand ["ls-tree", "HEAD", "-r", dir]) true
      with ⟨output, git'⟩
    rw [ran] at this
    simpa only [Query.apply, Git.getFileTreeHashes, ran] using this
  | touchedFiles =>
    have := runCommand_extends exec git
      (git.createCommand ["status", "--porcelain", "--untracked-files", "-z"]) false
    rcases ran : git.runCommand exec
      (git.createCommand ["status", "--porcelain", "--untracked-files", "-z"]) false
      with ⟨output, git'⟩
    rw [ran] at this
    simpa only [Query.apply, Git.getTouchedFiles, ran] using this
  | touchedFilesBetweenRevisions => exact getTouchedFilesBetweenRevisions_extends exec isDigit _ _ _
  | touchedFilesAgainstPreviousRevision =>
    exact getTouchedFilesBetweenRevisions_extends exec isDigit _ _ _
  | _ => exact runCommand_extends exec git _ true

theorem session_extends (isDigit : Char → Bool) :
    ∀ (git : Git) (steps : List (Query × (Command → Except VcsError String))),
      git.Extends (session isDigit git steps)
  | git, [] => .refl git
  | git, (query, exec) :: rest =>
    (query.apply_extends isDigit exec git).trans (session_extends isDigit _ rest)

theorem session_answers_stable (isDigit : Char → Bool) {git git₁ : Git}
    {exec : Command → Except VcsError String} {command : Command} {trim : Bool} {value : String}
    (first : git.runCommand exec command trim = (.ok value, git₁))
    (steps : List (Query × (Command → Except VcsError String)))
    (exec' : Command → Except VcsError String) (trim' : Bool) :
    git₁.Extends (session isDigit git₁ steps) ∧
      (session isDigit git₁ steps).runCommand exec' command trim' =
        (.ok value, session isDigit git₁ steps) :=
  have later := session_extends isDigit git₁ steps
  ⟨later, Git.runCommand_of_cached _ _ _ _
    (later.cache _ _ (Git.runCommand_caches git exec command trim first))⟩

theorem branch_fixed_across_session :
    (⟨.empty, "master", none, "/repo"⟩ : Git).runCommand (fun _ => .ok "main\n")
        ⟨"git", ["branch", "--show-current"], "/repo"⟩ true =
      (.ok "main",
        ⟨BTreeMap.empty.insert "git branch --show-current" "main", "master", none, "/repo"⟩) ∧
    (⟨BTreeMap.empty.insert "git branch --show-current" "main", "master", none, "/repo"⟩ :
        Git).Extends (session Char.isDigit
          ⟨BTreeMap.empty.insert "git branch --show-current" "main", "master", none, "/repo"⟩
          [(.touchedFiles, fun _ => .ok "A  new.txt\x00"), (.localBranch, fun _ => .ok "feature\n")]) ∧
    (session Char.isDigit
        ⟨BTreeMap.empty.insert "git branch --show-current" "main", "master", none, "/repo"⟩
        [(.touchedFiles, fun _ => .ok "A  new.txt\x00"),
          (.localBranch, fun _ => .ok "feature\n")]).runCommand (fun _ => .ok "feature\n")
        ⟨"git", ["branch", "--show-current"], "/repo"⟩ true =
      (.ok "main", session Char.isDigit
        ⟨BTreeMap.empty.insert "git branch --show-current" "main", "master", none, "/repo"⟩
        [(.touchedFiles, fun _ => .ok "A  new.txt\x00"), (.localBranch, fun _ => .ok "feature\n")]) :=
  have first : (⟨.empty, "master", none, "/repo"⟩ : Git).runCommand (fun _ => .ok "main\n")
      ⟨"git", ["branch", "--show-current"], "/repo"⟩ true =
        (.ok "main",
          ⟨BTreeMap.empty.insert "git branch --show-current" "main", "master", none, "/repo"⟩) := rfl
  ⟨first, session_answers_stable Char.isDigit first _ _ true⟩

end Moon.Vcs
