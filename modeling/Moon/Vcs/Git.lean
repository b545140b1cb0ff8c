import Moon.Support.BTreeMap
import Moon.Support.Str

/-! # The `Git` backend

The state and the command layer of `crates/vcs/src/git.rs`. A `Git` value holds the default
branch, the compiled root `.gitignore` (if the file exists), the working directory and the
response cache. Subprocesses are an oracle `exec`, from the command to its standard output or
its error, so every statement below holds for whatever `git` answers. `runCommand` is
`run_command` for one caller at a time; `Moon.Vcs.CommandCache` interleaves its steps.

Only successful runs are cached. `get_merge_base` returns the first of up to three candidates
that succeeds; asked again, it retries the ones that failed and answers the one that succeeded
from the cache, so it returns the same base and leaves the `Git` as it was
(`getMergeBase_twice`).
-/

namespace Moon.Vcs

/-- Modelled from the spec: the `VcsError` of `crates/vcs/src/errors.rs`, which distinguishes a
`.gitignore` that fails to load from a command that fails to run, each naming what failed. -/
inductive VcsError
  | ignore (path : String)
  | command (commandLine : String)
  deriving DecidableEq

/-- A process to run (`moon_utils::process::Command`): program, arguments, working directory. -/
structure Command where
  bin : String
  args : List String
  cwd : String
  deriving DecidableEq

/-- Modelled from the spec: `Command::get_command_line`, the program and its arguments joined by
spaces; `run_command` caches by it. -/
def Command.getCommandLine (command : Command) : String :=
  " ".intercalate (command.bin :: command.args)

/-- A compiled `.gitignore` (`ignore::gitignore::Gitignore`), as the answer of
`matched(path, false).is_ignore()`. -/
structure Gitignore where
  isIgnore : String → Bool

/-- The `Git` backend: its response cache (command line ↦ output), default branch, compiled
ignore rules and working directory. -/
structure Git where
  cache : BTreeMap
  defaultBranch : String
  ignore : Option Gitignore
  workingDir : String

namespace Git

/-- Rust's `Git::new`, given what loading `<working_dir>/.gitignore` gives: `none` when the file
does not exist, else the compiled rules or the load error. -/
def new (defaultBranch workingDir : String) (ignoreFile : Option (Except VcsError Gitignore)) :
    Except VcsError Git :=
  match ignoreFile with
  | none => .ok ⟨.empty, defaultBranch, none, workingDir⟩
  | some (.error e) => .error e
  | some (.ok ignore) => .ok ⟨.empty, defaultBranch, some ignore, workingDir⟩

/-- Rust's `is_file_ignored`: ask the ignore rules, when there are any. -/
def isFileIgnored (git : Git) (file : String) : Bool :=
  match git.ignore with
  | some ignore => ignore.isIgnore file
  | none => false

/-- Rust's `create_command`: `git` with the arguments, run in the working directory. -/
def createCommand (git : Git) (args : List String) : Command :=
  ⟨"git", args, git.workingDir⟩

/-- Modelled from the spec: `output_to_string` and `output_to_trimmed_string` (in `moon_utils`),
the captured standard output as it is or trimmed of surrounding whitespace. -/
def outputValue (trim : Bool) (stdout : String) : String :=
  if trim then Str.trim stdout else stdout

/-- Rust's `run_command` for one caller: a cached value is returned as it is; otherwise the
command runs, and its output is stored under the command line and returned. -/
def runCommand (git : Git) (exec : Command → Except VcsError String) (command : Command)
    (trim : Bool) : Except VcsError String × Git :=
  let cacheKey := command.getCommandLine
  match git.cache.get? cacheKey with
  | some value => (.ok value, git)
  | none =>
    match exec command with
    | .error e => (.error e, git)
    | .ok stdout =>
      let value := outputValue trim stdout
      (.ok value, { git with cache := git.cache.insert cacheKey value })

/-- Rust's `get_merge_base`: the output of the first of `base`, `origin/<base>` and
`upstream/<base>` for which `git merge-base <candidate> <head>` succeeds, else `base` itself. -/
def getMergeBase (git : Git) (exec : Command → Except VcsError String) (base head : String) :
    String × Git :=
  go [base, "origin/" ++ base, "upstream/" ++ base] git
where
  /-- The loop over the remaining candidates. -/
  go : List String → Git → String × Git
    | [], git => (base, git)
    | candidate :: rest, git =>
      match git.runCommand exec (git.createCommand ["merge-base", candidate, head]) true with
      | (.ok hash, git) => (hash, git)
      | (.error _, git) => go rest git

/-- Rust's `is_default_branch`: the default branch itself, or, for a namespaced default branch
such as `origin/master`, the name after a `/`. -/
def isDefaultBranch (git : Git) (branch : String) : Bool :=
  git.defaultBranch == branch ||
    (git.defaultBranch.data.contains '/' && ("/" ++ branch).data.isSuffixOf git.defaultBranch.data)

/-- Rust's `get_local_branch`. -/
def getLocalBranch (git : Git) (exec : Command → Except VcsError String) :
    Except VcsError String × Git :=
  git.runCommand exec (git.createCommand ["branch", "--show-current"]) true

/-- Rust's `get_local_branch_revision`. -/
def getLocalBranchRevision (git : Git) (exec : Command → Except VcsError String) :
    Except VcsError String × Git :=
  git.runCommand exec (git.createCommand ["rev-parse", "HEAD"]) true

/-- Rust's `get_default_branch_revision`. -/
def getDefaultBranchRevision (git : Git) (exec : Command → Except VcsError String) :
    Except VcsError String × Git :=
  git.runCommand exec (git.createCommand ["rev-parse", git.defaultBranch]) true

/-! ## The cache -/

variable (git : Git) (exec : Command → Except VcsError String) (command : Command) (trim : Bool)

/-- A command line already in the cache is answered from it, without running anything. -/
theorem runCommand_of_cached {value : String}
    (cached : git.cache.get? command.getCommandLine = some value) :
    git.runCommand exec command trim = (.ok value, git) := by
  simp [runCommand, cached]

/-- After a successful run the command line is cached with the value returned. -/
theorem runCommand_caches {value : String} {git' : Git}
    (first : git.runCommand exec command trim = (.ok value, git')) :
    git'.cache.get? command.getCommandLine = some value := by
  cases cached : git.cache.get? command.getCommandLine with
  | some v =>
    rw [runCommand_of_cached git exec command trim cached] at first
    cases first
    exact cached
  | none =>
    simp only [runCommand, cached] at first
    cases ran : exec command with
    | error e => simp [ran] at first
    | ok stdout =>
      simp only [ran, Prod.mk.injEq, Except.ok.injEq] at first
      obtain ⟨rfl, rfl⟩ := first
      simp

/-- A command depends on its `Git` only through the working directory. -/
theorem createCommand_of_workingDir {git git' : Git} (h : git'.workingDir = git.workingDir)
    (args : List String) : git'.createCommand args = git.createCommand args := by
  rw [createCommand, createCommand, h]

section Frame

variable (exec : Command → Except VcsError String)

theorem runCommand_workingDir (git : Git) (command : Command) (trim : Bool) :
    (git.runCommand exec command trim).2.workingDir = git.workingDir := by
  simp only [runCommand]
  cases git.cache.get? command.getCommandLine with
  | some => rfl
  | none => cases exec command <;> rfl

theorem runCommand_get?_of_ne (git : Git) (command : Command) (trim : Bool) {key : String}
    (ne : key ≠ command.getCommandLine) :
    (git.runCommand exec command trim).2.cache.get? key = git.cache.get? key := by
  simp only [runCommand]
  cases git.cache.get? command.getCommandLine with
  | some => rfl
  | none => cases exec command <;> simp [ne]

/-- A run that fails found nothing cached, changed nothing, and is what the command gives. -/
theorem runCommand_of_error {git git' : Git} {command : Command} {trim : Bool} {e : VcsError}
    (h : git.runCommand exec command trim = (.error e, git')) :
    git.cache.get? command.getCommandLine = none ∧ exec command = .error e ∧ git = git' := by
  simp only [runCommand] at h
  cases cached : git.cache.get? command.getCommandLine with
  | some => simp [cached] at h
  | none =>
    cases ran : exec command with
    | error e' => simp_all
    | ok stdout => simp [cached, ran] at h

end Frame

/-! ## The merge base -/

section MergeBase

variable (exec : Command → Except VcsError String) (base head : String)

/-- The command line `get_merge_base` runs for a candidate. -/
theorem mergeBase_commandLine (git : Git) (candidate : String) :
    (git.createCommand ["merge-base", candidate, head]).getCommandLine =
      " ".intercalate ["git", "merge-base", candidate, head] := rfl

theorem mergeBase_commandLine_length (candidate : String) :
    (" ".intercalate ["git", "merge-base", candidate, head]).length =
      candidate.length + head.length + 16 := by
  rw [← String.length_data, Str.intercalate_data]
  simp [List.intercalate, List.intersperse]
  omega

/-- The three candidates have different lengths, so their command lines differ. -/
theorem mergeBase_commandLines_nodup :
    ([base, "origin/" ++ base, "upstream/" ++ base].map fun c =>
      " ".intercalate ["git", "merge-base", c, head]).Nodup := by
  have ne : ∀ c d : String, c.length ≠ d.length →
      " ".intercalate ["git", "merge-base", c, head] ≠
        " ".intercalate ["git", "merge-base", d, head] :=
    fun c d hl h => hl (by simpa [mergeBase_commandLine_length] using congrArg String.length h)
  simp only [List.map_cons, List.map_nil, List.nodup_cons, List.mem_cons, List.mem_singleton,
    List.not_mem_nil, not_or, or_false, List.nodup_nil, and_true]
  refine ⟨⟨ne _ _ ?_, ne _ _ ?_⟩, ne _ _ ?_, not_false⟩ <;> simp <;> decide

/-- The candidates' loop leaves the working directory, and the cache at every command line it
does not run. -/
theorem getMergeBase_go_frame : ∀ (candidates : List String) (git : Git) (key : String),
    (∀ c ∈ candidates, key ≠ " ".intercalate ["git", "merge-base", c, head]) →
    (getMergeBase.go exec base head candidates git).2.workingDir = git.workingDir ∧
      (getMergeBase.go exec base head candidates git).2.cache.get? key = git.cache.get? key
  | [], _, _, _ => ⟨rfl, rfl⟩
  | c :: rest, git, key, ne => by
    have here := runCommand_get?_of_ne exec git (git.createCommand ["merge-base", c, head]) true
      (ne c (.head _))
    have dir := runCommand_workingDir exec git (git.createCommand ["merge-base", c, head]) true
    rcases ran : git.runCommand exec (git.createCommand ["merge-base", c, head]) true
      with ⟨_ | hash, git'⟩
    · obtain ⟨later, laterCache⟩ :=
        getMergeBase_go_frame rest git' key fun d hd => ne d (.tail _ hd)
      rw [ran] at here dir
      simp only [getMergeBase.go, ran]
      exact ⟨later.trans dir, laterCache.trans here⟩
    · rw [ran] at here dir
      simp only [getMergeBase.go, ran]
      exact ⟨dir, here⟩

/-- Asked again, the candidates' loop gives the same answer and changes nothing: a failed
candidate is run again and fails again, the one that succeeded is answered from the cache. -/
theorem getMergeBase_go_twice : ∀ (candidates : List String) (git : Git),
    (candidates.map fun c => " ".intercalate ["git", "merge-base", c, head]).Nodup →
    getMergeBase.go exec base head candidates (getMergeBase.go exec base head candidates git).2 =
      getMergeBase.go exec base head candidates git
  | [], _, _ => rfl
  | c :: rest, git, distinct => by
    rw [List.map_cons, List.nodup_cons, List.mem_map] at distinct
    rcases ran : git.runCommand exec (git.createCommand ["merge-base", c, head]) true
      with ⟨e | hash, git'⟩
    · -- the first candidate failed: the second time it finds nothing cached and fails again
      obtain ⟨uncached, failed, rfl⟩ := runCommand_of_error exec ran
      obtain ⟨dir, cache⟩ := getMergeBase_go_frame exec base head rest git
        (" ".intercalate ["git", "merge-base", c, head])
        fun d hd same => distinct.1 ⟨d, hd, same.symm⟩
      have again : (getMergeBase.go exec base head rest git).2.runCommand exec
          ((getMergeBase.go exec base head rest git).2.createCommand ["merge-base", c, head]) true =
          (.error e, (getMergeBase.go exec base head rest git).2) := by
        rw [createCommand_of_workingDir dir, runCommand]
        simp only [mergeBase_commandLine] at uncached ⊢
        simp only [cache, uncached, failed]
      simp only [getMergeBase.go, ran, again]
      exact getMergeBase_go_twice rest git distinct.2
    · -- the first candidate succeeded: the second time it is answered from the cache
      have dir : git'.workingDir = git.workingDir := by
        simpa [ran] using
          runCommand_workingDir exec git (git.createCommand ["merge-base", c, head]) true
      simp only [getMergeBase.go, ran, createCommand_of_workingDir dir,
        runCommand_of_cached _ exec _ true (runCommand_caches git exec _ true ran)]

theorem getMergeBase_twice (git : Git) :
    (git.getMergeBase exec base head).2.getMergeBase exec base head =
      git.getMergeBase exec base head :=
  getMergeBase_go_twice exec base head _ git (mergeBase_commandLines_nodup base head)

end MergeBase

end Git

end Moon.Vcs
