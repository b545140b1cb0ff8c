import Moon.Support.BTreeMap
import Moon.Support.Str

/-! # `TargetHasher`

The accumulator of `crates/hasher/src/hasher.rs`. One hasher is built per task run with
`TargetHasher::new`, filled by the `hash_*` operations in any order, and turned into a digest by
`to_hash`.

The records the hasher reads (`Task`, `Project`, `PackageJson`, `TsConfigJson`) belong to other
crates; each is modelled with the fields the hasher reads. `to_hash` is modelled up to the digest
function: `toHashState` replays its `update` calls on a `Sha256` that records the bytes it is
fed, so every statement about what `to_hash` hashes is a statement about `toHashInput`.
-/

namespace Moon.Hasher

open Moon.Str (asBytes)

/-- Modelled from the spec: `path::standardize_separators` (in `moon_utils`), which rewrites every
`\` of a path to `/` so that a path hashes the same on Windows and Unix. -/
def standardizeSeparators (path : String) : String :=
  ⟨path.data.map fun c => if c = '\\' then '/' else c⟩

/-- Rust's `slice::sort` on strings. Strings that compare equal are identical, so every sorting
algorithm, stable or not, yields this list. -/
def sort (list : List String) : List String :=
  list.insertionSort (· ≤ ·)

/-! ## The records the hasher reads -/

/-- The task record (`moon_project::Task`): the fields `hash_task` reads, and the task's
environment. -/
structure Task where
  command : String
  args : List String
  deps : List String
  env : BTreeMap
  target : String

/-- The owning project (`moon_project::Project`), as the hasher sees it: the list
`get_dependencies` returns. -/
structure Project where
  dependencies : List String

/-- The manifest record (`moon_config::package::PackageJson`): the three dependency maps. -/
structure PackageJson where
  dependencies : Option BTreeMap
  devDependencies : Option BTreeMap
  peerDependencies : Option BTreeMap

/-- The compiler options (`moon_config::tsconfig::CompilerOptions`) that alter emitted code.
Each is held by its `{:?}` text, the only form in which it reaches the hasher. -/
structure CompilerOptions where
  module : Option String
  moduleResolution : Option String
  target : Option String

/-- The TypeScript config record (`moon_config::tsconfig::TsConfigJson`). -/
structure TsConfigJson where
  compilerOptions : Option CompilerOptions

/-! ## The accumulator -/

/-- The accumulator `TargetHasher`, field for field. -/
structure TargetHasher where
  command : String
  args : List String
  deps : List String
  envVars : BTreeMap
  inputHashes : BTreeMap
  nodeVersion : String
  packageDependencies : BTreeMap
  packageDevDependencies : BTreeMap
  packagePeerDependencies : BTreeMap
  projectDeps : List String
  target : String
  tsconfigCompilerOptions : BTreeMap
  version : String
  deriving DecidableEq

namespace TargetHasher

/-- Construction, `TargetHasher::new`: the `Default` value with the given Node.js version and
hasher version `"1"`. -/
def new (nodeVersion : String) : TargetHasher where
  command := ""
  args := []
  deps := []
  envVars := .empty
  inputHashes := .empty
  nodeVersion := nodeVersion
  packageDependencies := .empty
  packageDevDependencies := .empty
  packagePeerDependencies := .empty
  projectDeps := []
  target := ""
  tsconfigCompilerOptions := .empty
  version := "1"

/-- Rust's `hash_args`: append the passthrough arguments and sort, unless there are none. -/
def hashArgs (s : TargetHasher) (passthroughArgs : List String) : TargetHasher :=
  if passthroughArgs.isEmpty then s else { s with args := sort (s.args ++ passthroughArgs) }

/-- Rust's `hash_inputs`: insert every input under its standardized path, in the input map's key
order. -/
def hashInputs (s : TargetHasher) (inputs : BTreeMap) : TargetHasher :=
  let standardized := inputs.entries.map fun (file, hash) => (standardizeSeparators file, hash)
  { s with inputHashes := s.inputHashes.extend standardized }

/-- One `if let Some(deps) = ... { map.extend(deps.clone()) }` block of `hash_package_json`. -/
def mergeDependencies (map : BTreeMap) : Option BTreeMap → BTreeMap
  | some deps => map.extend deps.entries
  | none => map

/-- Rust's `hash_package_json`: merge each dependency map the manifest has into its accumulator. -/
def hashPackageJson (s : TargetHasher) (package : PackageJson) : TargetHasher :=
  { s with
    packageDependencies := mergeDependencies s.packageDependencies package.dependencies
    packageDevDependencies := mergeDependencies s.packageDevDependencies package.devDependencies
    packagePeerDependencies :=
      mergeDependencies s.packagePeerDependencies package.peerDependencies }

/-- Rust's `hash_project`: overwrite `project_deps` with the project's (sorted) dependencies. -/
def hashProject (s : TargetHasher) (project : Project) : TargetHasher :=
  { s with projectDeps := project.dependencies }

/-- Rust's `hash_task`: overwrite command, args, deps and target from the task; sort args and
deps. -/
def hashTask (s : TargetHasher) (task : Task) : TargetHasher :=
  { s with command := task.command, args := sort task.args, deps := sort task.deps,
           target := task.target }

/-- One `if let Some(option) = ... { options.insert(name, format!("{:?}", option)) }` block of
`hash_tsconfig_json`. -/
def insertOption (options : BTreeMap) (name : String) : Option String → BTreeMap
  | some value => options.insert name value
  | none => options

/-- Rust's `hash_tsconfig_json`: record `module`, `module_resolution` and `target` when present. -/
def hashTsconfigJson (s : TargetHasher) (tsconfig : TsConfigJson) : TargetHasher :=
  match tsconfig.compilerOptions with
  | none => s
  | some compilerOptions =>
    let options := insertOption s.tsconfigCompilerOptions "module" compilerOptions.module
    let options := insertOption options "module_resolution" compilerOptions.moduleResolution
    { s with tsconfigCompilerOptions := insertOption options "target" compilerOptions.target }

end TargetHasher

/-- One accumulation call the scheduler can make on a hasher. -/
inductive HasherCall
  | args (passthroughArgs : List String)
  | inputs (inputs : BTreeMap)
  | packageJson (package : PackageJson)
  | project (project : Project)
  | task (task : Task)
  | tsconfigJson (tsconfig : TsConfigJson)

/-- Perform an accumulation call. -/
def HasherCall.apply : HasherCall → TargetHasher → TargetHasher
  | args extra, s => s.hashArgs extra
  | inputs files, s => s.hashInputs files
  | packageJson manifest, s => s.hashPackageJson manifest
  | project owner, s => s.hashProject owner
  | task definition, s => s.hashTask definition
  | tsconfigJson config, s => s.hashTsconfigJson config

/-- A hasher a task run can build: `TargetHasher::new`, then any sequence of accumulation
calls. -/
def Reachable (s : TargetHasher) : Prop :=
  ∃ nodeVersion calls, s = (calls : List HasherCall).foldl (fun s c => c.apply s)
    (TargetHasher.new nodeVersion)

/-! ## `to_hash` -/

/-- The `sha2::Sha256` state, as the bytes fed to it so far. The streaming state is not modelled:
`toHash` applies a digest function to the whole input, `Moon.Fips180.sha256` where one is
needed. -/
structure Sha256 where
  fed : List UInt8

/-- A fresh hasher, `Sha256::new`. -/
def Sha256.new : Sha256 := ⟨[]⟩

/-- Feeding bytes, `Sha256::update`. -/
def Sha256.update (sha : Sha256) (bytes : List UInt8) : Sha256 := ⟨sha.fed ++ bytes⟩

/-- The `hash_btree` closure: every key, then its value, in ascending key order. -/
def hashBtree (tree : BTreeMap) (hasher : Sha256) : Sha256 :=
  tree.entries.foldl (fun h (k, v) => (h.update (asBytes k)).update (asBytes v)) hasher

/-- The `hash_vec` closure: every element, in order. -/
def hashVec (list : List String) (hasher : Sha256) : Sha256 :=
  list.foldl (fun h v => h.update (asBytes v)) hasher

namespace TargetHasher

/-- The `update` calls of `to_hash`, in its fixed order. -/
def toHashState (s : TargetHasher) : Sha256 :=
  Sha256.new.update (asBytes s.version) |>.update (asBytes s.nodeVersion)
    |>.update (asBytes s.command)
    |> hashVec s.args |> hashVec s.deps |> hashBtree s.envVars |> hashBtree s.inputHashes
    |> hashVec s.projectDeps |> hashBtree s.packageDependencies
    |> hashBtree s.packageDevDependencies |> hashBtree s.packagePeerDependencies
    |> hashBtree s.tsconfigCompilerOptions

/-- The byte sequence `to_hash` feeds to SHA-256. -/
def toHashInput (s : TargetHasher) : List UInt8 := s.toHashState.fed

/-- One byte as two lowercase hexadecimal digits (`{:x}` on a digest byte). -/
def hexByte (b : UInt8) : String :=
  let digit (n : Nat) : Char := if n < 10 then Char.ofNat (48 + n) else Char.ofNat (87 + n)
  ⟨[digit (b.toNat / 16), digit (b.toNat % 16)]⟩

/-- Rust's `to_hash`: the digest of `toHashInput` by the SHA-256 function `sha256` of the `sha2`
crate, formatted as lowercase hexadecimal. -/
def toHash (sha256 : List UInt8 → List UInt8) (s : TargetHasher) : String :=
  String.join ((sha256 s.toHashInput).map hexByte)

end TargetHasher

end Moon.Hasher
