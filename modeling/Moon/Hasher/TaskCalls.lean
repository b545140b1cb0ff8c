import Moon.Hasher.Serialization
import Moon.Hasher.Digest

/-! # The task calls: `hash_task`, `hash_args` and the environment

`hash_task` and `hash_args` both sort the argument vector, so two runs agree in `args` exactly
when their argument vectors are permutations of each other (`args_eq_iff_perm`). `hash_task`
overwrites `args`, so the calls do not commute: the two orders feed the same bytes exactly when
every passthrough argument is empty (`hashInput_orders_agree_iff`). In every hasher a run can
build, `args` and `deps` are sorted (`reachable_vectors_sorted`).

`hash_task`'s doc comment says it hashes the task's `env` vars, but no call writes `env_vars`,
so it stays empty along every run (`envVars_of_reachable`). No call writes `version` or
`node_version`, and the compiler options hold at most the three names `hash_tsconfig_json`
inserts (`run_keeps_fixed_fields`).
-/

namespace Moon.Hasher

open Moon.Str (asBytes)

/-! ## Sorting -/

theorem perm_sort (l : List String) : (sort l).Perm l :=
  List.perm_insertionSort _ l

theorem sorted_sort (l : List String) : (sort l).Sorted (· ≤ ·) :=
  List.sorted_insertionSort _ l

/-- A sorted list is the sort of each of its permutations. -/
theorem sort_eq_of_perm_of_sorted {l s : List String} (perm : s.Perm l)
    (sorted : s.Sorted (· ≤ ·)) : sort l = s :=
  List.eq_of_perm_of_sorted ((perm_sort l).trans perm.symm) (sorted_sort l) sorted

/-- Sorting identifies exactly the permutations. -/
theorem sort_eq_sort_iff {l₁ l₂ : List String} : sort l₁ = sort l₂ ↔ l₁.Perm l₂ :=
  ⟨fun h => (perm_sort l₁).symm.trans (h ▸ perm_sort l₂),
    fun h => sort_eq_of_perm_of_sorted ((perm_sort l₁).trans h) (sorted_sort l₁) |>.symm⟩

namespace TargetHasher

variable (s : TargetHasher) (task : Task) (passthroughArgs : List String)

/-! ## The two task calls -/

@[simp] theorem hashTask_args : (s.hashTask task).args = sort task.args := rfl

@[simp] theorem hashTask_envVars : (s.hashTask task).envVars = s.envVars := rfl

/-- `hash_args` changes `args` only. -/
theorem hashArgs_eq :
    s.hashArgs passthroughArgs = { s with args := (s.hashArgs passthroughArgs).args } := by
  unfold hashArgs
  split <;> rfl

/-- After `hash_task`, `hash_args` leaves the sort of task and passthrough arguments together. -/
theorem hashArgs_hashTask_args :
    ((s.hashTask task).hashArgs passthroughArgs).args = sort (task.args ++ passthroughArgs) := by
  unfold hashArgs
  split
  · simp_all
  · exact sort_eq_sort_iff.2 ((perm_sort task.args).append_right passthroughArgs)

/-- `hash_task` overwrites whatever `hash_args` merged before it. -/
theorem hashTask_hashArgs : (s.hashArgs passthroughArgs).hashTask task = s.hashTask task := by
  rw [hashArgs_eq]
  rfl

theorem args_eq_iff_perm (nodeVersion : String) (t₁ t₂ : Task) (p₁ p₂ : List String) :
    (((TargetHasher.new nodeVersion).hashTask t₁).hashArgs p₁).args =
        (((TargetHasher.new nodeVersion).hashTask t₂).hashArgs p₂).args ↔
      (t₁.args ++ p₁).Perm (t₂.args ++ p₂) := by
  rw [hashArgs_hashTask_args, hashArgs_hashTask_args, sort_eq_sort_iff]

theorem reordered_args_same_hasher :
    ["-o", "a", "b"] ++ ([] : List String) ≠ ["-o", "b", "a"] ++ [] ∧
    ((TargetHasher.new "16.0.0").hashTask ⟨"tsc", ["-o", "a", "b"], [], .empty, "app:build"⟩).hashArgs
        [] =
      ((TargetHasher.new "16.0.0").hashTask
        ⟨"tsc", ["-o", "b", "a"], [], .empty, "app:build"⟩).hashArgs [] := by
  decide

/-! ## The order of the two calls -/

/-- Two hashers that differ in `args` only feed the same bytes exactly when their argument
vectors do. -/
theorem toHashInput_with_args_eq_iff (args : List String) :
    ({ s with args := args } : TargetHasher).toHashInput = s.toHashInput ↔
      args.flatMap asBytes = s.args.flatMap asBytes := by
  simp only [toHashInput_eq, updateGroups, List.flatten_cons, List.flatMap_append,
    List.append_assoc, List.append_cancel_left_eq, List.append_cancel_right_eq]

/-- Empty strings sort first. -/
theorem sort_append_empties (args : List String) {empties : List String}
    (empty : ∀ a ∈ empties, a = "") : sort (args ++ empties) = empties ++ sort args := by
  refine sort_eq_of_perm_of_sorted (((perm_sort args).append_left empties).trans
    List.perm_append_comm) (List.pairwise_append.2 ⟨?_, sorted_sort args, ?_⟩)
  · exact List.pairwise_of_forall_mem_list fun a ha b hb => by rw [empty a ha, empty b hb]
  · intro a ha b _
    rw [empty a ha]
    exact String.le_iff_toList_le.2 List.nil_le

theorem length_flatMap_asBytes_sort (l : List String) :
    ((sort l).flatMap asBytes).length = (l.flatMap asBytes).length :=
  ((perm_sort l).flatMap_right asBytes).length_eq

theorem hashInput_orders_agree_iff :
    ((s.hashTask task).hashArgs passthroughArgs).toHashInput =
        ((s.hashArgs passthroughArgs).hashTask task).toHashInput ↔
      ∀ a ∈ passthroughArgs, a = "" := by
  rw [hashTask_hashArgs, hashArgs_eq, toHashInput_with_args_eq_iff, hashArgs_hashTask_args,
    hashTask_args]
  constructor
  · intro same a ha
    have lengths := congrArg List.length same
    rw [length_flatMap_asBytes_sort, List.flatMap_append, List.length_append,
      length_flatMap_asBytes_sort, add_right_eq_self, List.length_eq_zero,
      List.flatMap_eq_nil_iff] at lengths
    exact Str.asBytes_injective (lengths a ha)
  · intro empty
    rw [sort_append_empties task.args empty, List.flatMap_append,
      List.flatMap_eq_nil_iff.2 fun a ha => by rw [empty a ha]; rfl, List.nil_append]

set_option maxRecDepth 20000 in
theorem passthrough_args_change_digest :
    Reachable (TargetHasher.new "16.0.0") ∧
    (((TargetHasher.new "16.0.0").hashTask ⟨"tsc", ["--build"], [], .empty, "app:build"⟩).hashArgs
        ["--watch"]).toHash Fips180.sha256 ≠
      (((TargetHasher.new "16.0.0").hashArgs ["--watch"]).hashTask
        ⟨"tsc", ["--build"], [], .empty, "app:build"⟩).toHash Fips180.sha256 :=
  ⟨⟨"16.0.0", [], rfl⟩, by decide⟩

end TargetHasher

/-! ## The environment -/

/-- No accumulation call writes `env_vars`. -/
@[simp] theorem HasherCall.apply_envVars (c : HasherCall) (s : TargetHasher) :
    (c.apply s).envVars = s.envVars := by
  cases c with
  | args passthroughArgs => rw [HasherCall.apply, TargetHasher.hashArgs_eq]
  | tsconfigJson config =>
    simp only [HasherCall.apply, TargetHasher.hashTsconfigJson]
    split <;> rfl
  | _ => rfl

/-- `env_vars` is empty along every run. -/
theorem envVars_of_reachable {s : TargetHasher} (h : Reachable s) : s.envVars = .empty := by
  obtain ⟨nodeVersion, calls, rfl⟩ := h
  suffices keep : ∀ s : TargetHasher,
      (calls.foldl (fun s c => c.apply s) s).envVars = s.envVars from keep _
  induction calls with
  | nil => exact fun _ => rfl
  | cons c rest ih => exact fun s => (ih (c.apply s)).trans (HasherCall.apply_envVars c s)

/-- Every accumulation call keeps `args` and `deps` sorted: `hash_task` and `hash_args` sort what
they write (`hash_args` writes nothing when there are no passthrough arguments), and the other
calls leave both. -/
theorem HasherCall.apply_sorted (c : HasherCall) {s : TargetHasher}
    (h : s.args.Sorted (· ≤ ·) ∧ s.deps.Sorted (· ≤ ·)) :
    (c.apply s).args.Sorted (· ≤ ·) ∧ (c.apply s).deps.Sorted (· ≤ ·) := by
  cases c with
  | args passthroughArgs =>
    simp only [HasherCall.apply, TargetHasher.hashArgs]
    split
    · exact h
    · exact ⟨sorted_sort _, h.2⟩
  | task definition => exact ⟨sorted_sort _, sorted_sort _⟩
  | tsconfigJson config =>
    simp only [HasherCall.apply, TargetHasher.hashTsconfigJson]
    split <;> exact h
  | _ => exact h

theorem reachable_vectors_sorted {s : TargetHasher} (reach : Reachable s) :
    s.args.Sorted (· ≤ ·) ∧ s.deps.Sorted (· ≤ ·) := by
  obtain ⟨nodeVersion, calls, rfl⟩ := reach
  suffices keep : ∀ s : TargetHasher, s.args.Sorted (· ≤ ·) ∧ s.deps.Sorted (· ≤ ·) →
      (calls.foldl (fun s c => c.apply s) s).args.Sorted (· ≤ ·) ∧
        (calls.foldl (fun s c => c.apply s) s).deps.Sorted (· ≤ ·) from
    keep _ ⟨List.sorted_nil, List.sorted_nil⟩
  induction calls with
  | nil => exact fun _ h => h
  | cons c rest ih => exact fun s h => ih _ (c.apply_sorted h)

theorem passthrough_after_task_sorted :
    Reachable (((TargetHasher.new "16.0.0").hashTask
      ⟨"tsc", ["--build", "app"], ["lib:build", "core:build"], .empty, "app:build"⟩).hashArgs
        ["--verbose"]) ∧
    ((((TargetHasher.new "16.0.0").hashTask
      ⟨"tsc", ["--build", "app"], ["lib:build", "core:build"], .empty, "app:build"⟩).hashArgs
        ["--verbose"]).args.Sorted (· ≤ ·) ∧
      (((TargetHasher.new "16.0.0").hashTask
        ⟨"tsc", ["--build", "app"], ["lib:build", "core:build"], .empty, "app:build"⟩).hashArgs
          ["--verbose"]).deps.Sorted (· ≤ ·)) :=
  have reach : Reachable (((TargetHasher.new "16.0.0").hashTask
      ⟨"tsc", ["--build", "app"], ["lib:build", "core:build"], .empty, "app:build"⟩).hashArgs
        ["--verbose"]) :=
    ⟨"16.0.0", [.task ⟨"tsc", ["--build", "app"], ["lib:build", "core:build"], .empty, "app:build"⟩,
      .args ["--verbose"]], rfl⟩
  ⟨reach, reachable_vectors_sorted reach⟩

theorem task_env_never_hashed {s : TargetHasher} (hs : Reachable s) {t₁ t₂ : Task}
    (only : { t₁ with env := t₂.env } = t₂) :
    s.hashTask t₁ = s.hashTask t₂ ∧ (s.hashTask t₁).envVars = .empty := by
  refine ⟨?_, (TargetHasher.hashTask_envVars s t₁).trans (envVars_of_reachable hs)⟩
  rw [← only]
  rfl

theorem node_env_ignored :
    Reachable (TargetHasher.new "16.0.0") ∧
    { (⟨"node", ["build.js"], [], BTreeMap.ofList [("NODE_ENV", "production")], "app:build"⟩ :
        Task) with env := .empty } = ⟨"node", ["build.js"], [], .empty, "app:build"⟩ ∧
    (TargetHasher.new "16.0.0").hashTask
        ⟨"node", ["build.js"], [], BTreeMap.ofList [("NODE_ENV", "production")], "app:build"⟩ =
      (TargetHasher.new "16.0.0").hashTask ⟨"node", ["build.js"], [], .empty, "app:build"⟩ ∧
    ((TargetHasher.new "16.0.0").hashTask
        ⟨"node", ["build.js"], [], BTreeMap.ofList [("NODE_ENV", "production")],
          "app:build"⟩).envVars = .empty :=
  have reachable : Reachable (TargetHasher.new "16.0.0") := ⟨"16.0.0", [], rfl⟩
  ⟨reachable, rfl, task_env_never_hashed reachable rfl⟩

/-! ## What every run keeps

No call writes `version` or `node_version`, and `hash_tsconfig_json` inserts only three option
names, so along every run from `new` the digest begins with the bytes of `"1"` and the Node.js
version given to `new`, and the compiler options it covers are at most `module`,
`module_resolution` and `target` (`run_keeps_fixed_fields`). -/

/-- The option names `hash_tsconfig_json` records. -/
def tsconfigOptionNames : List String := ["module", "module_resolution", "target"]

/-- Every name in the map is one `hash_tsconfig_json` records. -/
def NamedOptions (options : BTreeMap) : Prop :=
  ∀ name value, options.get? name = some value → name ∈ tsconfigOptionNames

theorem insertOption_named {options : BTreeMap} (h : NamedOptions options) {name : String}
    (mem : name ∈ tsconfigOptionNames) (value : Option String) :
    NamedOptions (TargetHasher.insertOption options name value) := by
  cases value with
  | none => exact h
  | some v =>
    intro k w hk
    rw [TargetHasher.insertOption, BTreeMap.get?_insert] at hk
    split_ifs at hk with same
    · exact same ▸ mem
    · exact h k w hk

theorem HasherCall.apply_fixed (c : HasherCall) {s : TargetHasher}
    (named : NamedOptions s.tsconfigCompilerOptions) :
    (c.apply s).version = s.version ∧ (c.apply s).nodeVersion = s.nodeVersion ∧
      NamedOptions (c.apply s).tsconfigCompilerOptions := by
  cases c with
  | args passthroughArgs =>
    simp only [HasherCall.apply, TargetHasher.hashArgs]
    split <;> exact ⟨rfl, rfl, named⟩
  | tsconfigJson config =>
    simp only [HasherCall.apply, TargetHasher.hashTsconfigJson]
    split
    · exact ⟨rfl, rfl, named⟩
    · exact ⟨rfl, rfl, insertOption_named (insertOption_named (insertOption_named named
        (by decide) _) (by decide) _) (by decide) _⟩
  | _ => exact ⟨rfl, rfl, named⟩

theorem run_keeps_fixed_fields (nodeVersion : String) (calls : List HasherCall) :
    (calls.foldl (fun s c => c.apply s) (TargetHasher.new nodeVersion)).version = "1" ∧
      (calls.foldl (fun s c => c.apply s) (TargetHasher.new nodeVersion)).nodeVersion =
        nodeVersion ∧
      NamedOptions (calls.foldl (fun s c => c.apply s)
        (TargetHasher.new nodeVersion)).tsconfigCompilerOptions := by
  suffices keep : ∀ s : TargetHasher, NamedOptions s.tsconfigCompilerOptions →
      (calls.foldl (fun s c => c.apply s) s).version = s.version ∧
        (calls.foldl (fun s c => c.apply s) s).nodeVersion = s.nodeVersion ∧
        NamedOptions (calls.foldl (fun s c => c.apply s) s).tsconfigCompilerOptions from
    keep _ fun _ _ h => by
      rw [TargetHasher.new, BTreeMap.get?_empty] at h
      cases h
  induction calls with
  | nil => exact fun _ named => ⟨rfl, rfl, named⟩
  | cons c rest ih =>
    intro s named
    obtain ⟨version, node, named'⟩ := c.apply_fixed named
    obtain ⟨version', node', named''⟩ := ih _ named'
    exact ⟨version'.trans version, node'.trans node, named''⟩

end Moon.Hasher
