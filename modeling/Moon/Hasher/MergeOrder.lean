import Moon.Hasher.TargetHasher

/-! # Merges into the hasher's maps commute

`hash_package_json`, `hash_inputs` and `hash_tsconfig_json` do nothing but insert pairs into the
hasher's five maps. A call is therefore described once by the pairs it inserts into each map
(`MergeCall.writes`, related to the code by `MergeCall.apply_eq`), and a sequence of calls by the
concatenation of those pairs (`applyAll_eq`). As long as no key of a map is given two values,
`BTreeMap.extend_congr` makes the result independent of the order and repetition of the calls
(`applyAll_eq_of_same_calls`). The same argument, applied to one `hash_inputs` call, shows that two
input maps whose keys standardize injectively to the same map give the same hasher
(`hashInputs_eq_of_standardized_eq`).
-/

namespace Moon.Hasher

/-- The five maps of the hasher that the merging operations write. -/
inductive MapField
  | packageDependencies
  | packageDevDependencies
  | packagePeerDependencies
  | inputHashes
  | tsconfigCompilerOptions

namespace TargetHasher

/-- The map a field holds. -/
def mapField (s : TargetHasher) : MapField → BTreeMap
  | .packageDependencies => s.packageDependencies
  | .packageDevDependencies => s.packageDevDependencies
  | .packagePeerDependencies => s.packagePeerDependencies
  | .inputHashes => s.inputHashes
  | .tsconfigCompilerOptions => s.tsconfigCompilerOptions

/-- The hasher with its five maps replaced. -/
def withMaps (s : TargetHasher) (maps : MapField → BTreeMap) : TargetHasher :=
  { s with
    packageDependencies := maps .packageDependencies
    packageDevDependencies := maps .packageDevDependencies
    packagePeerDependencies := maps .packagePeerDependencies
    inputHashes := maps .inputHashes
    tsconfigCompilerOptions := maps .tsconfigCompilerOptions }

@[simp] theorem mapField_withMaps (s : TargetHasher) (maps : MapField → BTreeMap) (f : MapField) :
    (s.withMaps maps).mapField f = maps f := by
  cases f <;> rfl

@[simp] theorem withMaps_withMaps (s : TargetHasher) (maps maps' : MapField → BTreeMap) :
    (s.withMaps maps).withMaps maps' = s.withMaps maps' := rfl

@[simp] theorem withMaps_mapField (s : TargetHasher) : s.withMaps s.mapField = s := rfl

theorem mergeDependencies_eq (map : BTreeMap) (deps : Option BTreeMap) :
    mergeDependencies map deps = map.extend (deps.elim [] BTreeMap.entries) := by
  cases deps <;> rfl

theorem insertOption_eq (options : BTreeMap) (name : String) (value : Option String) :
    insertOption options name value = options.extend (value.elim [] fun v => [(name, v)]) := by
  cases value <;> rfl

end TargetHasher

/-- A call of one of the three merging operations. -/
inductive MergeCall
  | packageJson (package : PackageJson)
  | inputs (inputs : BTreeMap)
  | tsconfigJson (tsconfig : TsConfigJson)

namespace MergeCall

/-- Perform the call. -/
def apply : MergeCall → TargetHasher → TargetHasher
  | packageJson package, s => s.hashPackageJson package
  | inputs files, s => s.hashInputs files
  | tsconfigJson tsconfig, s => s.hashTsconfigJson tsconfig

/-- The pairs the call inserts into each map, in insertion order. -/
def writes : MergeCall → MapField → List (String × String)
  | packageJson package, .packageDependencies => package.dependencies.elim [] BTreeMap.entries
  | packageJson package, .packageDevDependencies =>
    package.devDependencies.elim [] BTreeMap.entries
  | packageJson package, .packagePeerDependencies =>
    package.peerDependencies.elim [] BTreeMap.entries
  | inputs files, .inputHashes =>
    files.entries.map fun (file, hash) => (standardizeSeparators file, hash)
  | tsconfigJson tsconfig, .tsconfigCompilerOptions =>
    match tsconfig.compilerOptions with
    | some options =>
      options.module.elim [] (fun v => [("module", v)]) ++
        options.moduleResolution.elim [] (fun v => [("module_resolution", v)]) ++
        options.target.elim [] (fun v => [("target", v)])
    | none => []
  | _, _ => []

/-- Each merging call extends every map by the pairs it writes there, and changes nothing else. -/
theorem apply_eq (c : MergeCall) (s : TargetHasher) :
    c.apply s = s.withMaps fun f => (s.mapField f).extend (c.writes f) := by
  cases c with
  | packageJson package => simp only [apply, TargetHasher.hashPackageJson,
      TargetHasher.mergeDependencies_eq]; rfl
  | inputs files => rfl
  | tsconfigJson tsconfig =>
    obtain ⟨_ | options⟩ := tsconfig
    · rfl
    · simp only [apply, TargetHasher.hashTsconfigJson, TargetHasher.insertOption_eq,
        ← BTreeMap.extend_append]; rfl

end MergeCall

/-- Perform a sequence of merging calls, in order. -/
def applyAll (s : TargetHasher) (calls : List MergeCall) : TargetHasher :=
  calls.foldl (fun s c => c.apply s) s

/-- A sequence of merging calls extends every map by the pairs all its calls write there. -/
theorem applyAll_eq (s : TargetHasher) (calls : List MergeCall) :
    applyAll s calls = s.withMaps fun f => (s.mapField f).extend (calls.flatMap (·.writes f)) := by
  induction calls generalizing s with
  | nil => exact (TargetHasher.withMaps_mapField s).symm
  | cons c rest ih =>
    simp only [applyAll, List.foldl_cons] at ih ⊢
    rw [ih, MergeCall.apply_eq]
    simp [BTreeMap.extend_append]

theorem applyAll_eq_of_same_calls (s : TargetHasher) (calls₁ calls₂ : List MergeCall)
    (same : ∀ c, c ∈ calls₁ ↔ c ∈ calls₂)
    (consistent : ∀ f, BTreeMap.Consistent (calls₁.flatMap (·.writes f))) :
    applyAll s calls₁ = applyAll s calls₂ ∧
      (applyAll s calls₁).toHashInput = (applyAll s calls₂).toHashInput := by
  have : applyAll s calls₁ = applyAll s calls₂ := by
    rw [applyAll_eq, applyAll_eq]
    congr 1
    funext f
    exact BTreeMap.extend_congr (consistent f) fun p => by simp only [List.mem_flatMap, same]
  exact ⟨this, congrArg _ this⟩

theorem merges_in_any_order_example :
    (∀ c : MergeCall, c ∈ [.packageJson ⟨some (.ofList [("react", "18.0.0")]), none, none⟩,
        .inputs (.ofList [("src\\index.ts", "3f2a")]),
        .tsconfigJson ⟨some ⟨some "Es2022", none, none⟩⟩] ↔
      c ∈ [.tsconfigJson ⟨some ⟨some "Es2022", none, none⟩⟩,
        .packageJson ⟨some (.ofList [("react", "18.0.0")]), none, none⟩,
        .inputs (.ofList [("src\\index.ts", "3f2a")]),
        .packageJson ⟨some (.ofList [("react", "18.0.0")]), none, none⟩]) ∧
    applyAll (.new "16.0.0")
        [.packageJson ⟨some (.ofList [("react", "18.0.0")]), none, none⟩,
          .inputs (.ofList [("src\\index.ts", "3f2a")]),
          .tsconfigJson ⟨some ⟨some "Es2022", none, none⟩⟩] =
      applyAll (.new "16.0.0")
        [.tsconfigJson ⟨some ⟨some "Es2022", none, none⟩⟩,
          .packageJson ⟨some (.ofList [("react", "18.0.0")]), none, none⟩,
          .inputs (.ofList [("src\\index.ts", "3f2a")]),
          .packageJson ⟨some (.ofList [("react", "18.0.0")]), none, none⟩] := by
  have same : ∀ c, c ∈ [MergeCall.packageJson ⟨some (.ofList [("react", "18.0.0")]), none, none⟩,
        .inputs (.ofList [("src\\index.ts", "3f2a")]),
        .tsconfigJson ⟨some ⟨some "Es2022", none, none⟩⟩] ↔
      c ∈ [.tsconfigJson ⟨some ⟨some "Es2022", none, none⟩⟩,
        .packageJson ⟨some (.ofList [("react", "18.0.0")]), none, none⟩,
        .inputs (.ofList [("src\\index.ts", "3f2a")]),
        .packageJson ⟨some (.ofList [("react", "18.0.0")]), none, none⟩] := by
    intro c; simp only [List.mem_cons, List.mem_singleton, List.not_mem_nil, or_false]; tauto
  exact ⟨same, (applyAll_eq_of_same_calls _ _ _ same fun f => by cases f <;> decide).1⟩

/-! ## Standardized input maps -/

/-- Separator standardization identifies no two keys of the map. -/
def StandardizesInjectively (inputs : BTreeMap) : Prop :=
  ∀ k₁ v₁ k₂ v₂, (k₁, v₁) ∈ inputs.entries → (k₂, v₂) ∈ inputs.entries →
    standardizeSeparators k₁ = standardizeSeparators k₂ → k₁ = k₂

instance : DecidablePred StandardizesInjectively := fun inputs =>
  decidable_of_iff (∀ p ∈ inputs.entries, ∀ q ∈ inputs.entries,
      standardizeSeparators p.1 = standardizeSeparators q.1 → p.1 = q.1)
    ⟨fun h _ _ _ _ h₁ h₂ e => h _ h₁ _ h₂ e, fun h ⟨a, b⟩ hp ⟨c, d⟩ hq e => h a b c d hp hq e⟩

/-- The input map with every key standardized. -/
def standardized (inputs : BTreeMap) : BTreeMap :=
  BTreeMap.ofList ((MergeCall.inputs inputs).writes .inputHashes)

theorem consistent_of_standardizesInjectively {inputs : BTreeMap}
    (h : StandardizesInjectively inputs) :
    BTreeMap.Consistent ((MergeCall.inputs inputs).writes .inputHashes) := by
  intro k v v' hv hv'
  simp only [MergeCall.writes, List.mem_map, Prod.mk.injEq, Prod.exists] at hv hv'
  obtain ⟨k₁, _, m₁, rfl, rfl⟩ := hv
  obtain ⟨k₂, _, m₂, same, rfl⟩ := hv'
  cases h _ _ _ _ m₂ m₁ same
  exact Option.some.inj ((BTreeMap.mem_entries.1 m₁).symm.trans (BTreeMap.mem_entries.1 m₂))

theorem hashInputs_eq_of_standardized_eq (s : TargetHasher) (inputs₁ inputs₂ : BTreeMap)
    (h₁ : StandardizesInjectively inputs₁) (h₂ : StandardizesInjectively inputs₂)
    (same : standardized inputs₁ = standardized inputs₂) :
    s.hashInputs inputs₁ = s.hashInputs inputs₂ ∧
      (s.hashInputs inputs₁).toHashInput = (s.hashInputs inputs₂).toHashInput := by
  have : s.hashInputs inputs₁ = s.hashInputs inputs₂ := by
    rw [← MergeCall.apply, ← MergeCall.apply, MergeCall.apply_eq, MergeCall.apply_eq]
    congr 1
    funext f
    cases f
    case inputHashes =>
      exact BTreeMap.extend_congr (consistent_of_standardizesInjectively h₁)
        (BTreeMap.mem_iff_of_ofList_eq (consistent_of_standardizesInjectively h₁)
          (consistent_of_standardizesInjectively h₂) same)
    all_goals rfl
  exact ⟨this, congrArg _ this⟩

theorem mixed_separators_hash_alike :
    StandardizesInjectively (.ofList [("src\\a.ts", "1d"), ("src\\b.ts", "7c")]) ∧
    StandardizesInjectively (.ofList [("src/a.ts", "1d"), ("src\\b.ts", "7c")]) ∧
    standardized (.ofList [("src\\a.ts", "1d"), ("src\\b.ts", "7c")]) =
      standardized (.ofList [("src/a.ts", "1d"), ("src\\b.ts", "7c")]) ∧
    (TargetHasher.new "16.0.0").hashInputs (.ofList [("src\\a.ts", "1d"), ("src\\b.ts", "7c")]) =
      (TargetHasher.new "16.0.0").hashInputs (.ofList [("src/a.ts", "1d"), ("src\\b.ts", "7c")]) :=
  ⟨by decide, by decide, by decide,
    (hashInputs_eq_of_standardized_eq _ _ _ (by decide) (by decide) (by decide)).1⟩

end Moon.Hasher
