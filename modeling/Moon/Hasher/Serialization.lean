import Moon.Hasher.TargetHasher
import Moon.Support.Utf8

/-! # What `to_hash` feeds to SHA-256

`to_hash` feeds the UTF-8 bytes of the hasher's strings one after another, in a fixed field
order, with no length prefix and no separator (`toHashInput_eq`). The stream therefore records
the strings' concatenation and nothing of where one string ends: two task runs whose arguments
are `["ab"]` and `["a", "b"]` feed the same bytes (`args_split_collides`).

What the stream does determine is the hashed content once the framing is fixed. The `shape` of
a hasher is the length of every string it hashes, group by group; among hashers of one shape,
two that differ in any field `to_hash` reads feed different bytes
(`toHashInput_ne_of_same_shape`). The proof reads the stream back: UTF-8 is injective
(`Str.asBytes_injective`), a concatenation with known piece lengths splits one way
(`eq_of_flatten_eq`), and a map is recovered from its flattened entries.
-/

namespace Moon.Hasher

open Moon.Str (asBytes)

/-! ## The stream, string by string -/

/-- A map as `hash_btree` walks it: every key followed by its value, keys ascending. -/
def btreeStrings (map : BTreeMap) : List String :=
  map.entries.flatMap fun (k, v) => [k, v]

namespace TargetHasher

/-- The strings `to_hash` feeds, grouped by field in its fixed order. -/
def updateGroups (s : TargetHasher) : List (List String) :=
  [[s.version], [s.nodeVersion], [s.command], s.args, s.deps, btreeStrings s.envVars,
    btreeStrings s.inputHashes, s.projectDeps, btreeStrings s.packageDependencies,
    btreeStrings s.packageDevDependencies, btreeStrings s.packagePeerDependencies,
    btreeStrings s.tsconfigCompilerOptions]

/-- The framing of the stream: the length of every hashed string, group by group. -/
def shape (s : TargetHasher) : List (List Nat) :=
  s.updateGroups.map (List.map String.length)

/-- Two hashers agree on every field `to_hash` reads, that is on every field but `target`. -/
def SameHashedFields (s t : TargetHasher) : Prop :=
  { s with target := t.target } = t

end TargetHasher

/-- A fold of `update`s feeds the bytes of each step in turn. -/
theorem fed_foldl {α : Type} (step : Sha256 → α → Sha256) (bytes : α → List UInt8)
    (hstep : ∀ h a, (step h a).fed = h.fed ++ bytes a) (l : List α) (hasher : Sha256) :
    (l.foldl step hasher).fed = hasher.fed ++ l.flatMap bytes := by
  induction l generalizing hasher with
  | nil => simp
  | cons a rest ih => simp [ih, hstep]

@[simp] theorem hashVec_fed (list : List String) (hasher : Sha256) :
    (hashVec list hasher).fed = hasher.fed ++ list.flatMap asBytes :=
  fed_foldl _ _ (fun _ _ => rfl) list hasher

@[simp] theorem hashBtree_fed (tree : BTreeMap) (hasher : Sha256) :
    (hashBtree tree hasher).fed = hasher.fed ++ (btreeStrings tree).flatMap asBytes := by
  rw [hashBtree, fed_foldl _ (fun (k, v) => asBytes k ++ asBytes v) (fun _ _ => by
    simp [Sha256.update]), btreeStrings, List.flatMap_assoc]
  simp

/-- The bytes `to_hash` feeds are the UTF-8 bytes of its strings, one after another. -/
theorem toHashInput_eq (s : TargetHasher) :
    s.toHashInput = s.updateGroups.flatten.flatMap asBytes := by
  simp [TargetHasher.toHashInput, TargetHasher.toHashState, TargetHasher.updateGroups,
    Sha256.new, Sha256.update]

/-! ## Collisions -/

theorem args_split_collides :
    Reachable ((TargetHasher.new "16.0.0").hashTask ⟨"tsc", ["ab"], [], .empty, "app:build"⟩) ∧
    Reachable ((TargetHasher.new "16.0.0").hashTask ⟨"tsc", ["a", "b"], [], .empty, "app:build"⟩) ∧
    ¬ TargetHasher.SameHashedFields
      ((TargetHasher.new "16.0.0").hashTask ⟨"tsc", ["ab"], [], .empty, "app:build"⟩)
      ((TargetHasher.new "16.0.0").hashTask ⟨"tsc", ["a", "b"], [], .empty, "app:build"⟩) ∧
    ((TargetHasher.new "16.0.0").hashTask ⟨"tsc", ["ab"], [], .empty, "app:build"⟩).toHashInput =
      ((TargetHasher.new "16.0.0").hashTask
        ⟨"tsc", ["a", "b"], [], .empty, "app:build"⟩).toHashInput :=
  ⟨⟨"16.0.0", [.task _], rfl⟩, ⟨"16.0.0", [.task _], rfl⟩,
    by unfold TargetHasher.SameHashedFields; decide, by decide⟩

/-! ## Reading the stream back -/

/-- Lists of known lengths are recovered from their concatenation. -/
theorem eq_of_flatten_eq {α : Type} :
    ∀ {xs ys : List (List α)}, xs.map List.length = ys.map List.length →
      xs.flatten = ys.flatten → xs = ys
  | [], [], _, _ => rfl
  | [], _ :: _, hl, _ | _ :: _, [], hl, _ => by simp at hl
  | x :: xs, y :: ys, hl, h => by
    simp only [List.map_cons, List.cons.injEq] at hl
    obtain ⟨rfl, rest⟩ := List.append_inj h hl.1
    rw [eq_of_flatten_eq hl.2 rest]

theorem btreeStrings_injective {m n : BTreeMap} (h : btreeStrings m = btreeStrings n) : m = n := by
  refine BTreeMap.ext_entries (go h)
  where
    go : ∀ {l₁ l₂ : List (String × String)}, l₁.flatMap (fun (k, v) => [k, v]) =
        l₂.flatMap (fun (k, v) => [k, v]) → l₁ = l₂
      | [], [], _ => rfl
      | [], _ :: _, h | _ :: _, [], h => by simp at h
      | (a, b) :: l₁, (c, d) :: l₂, h => by
        simp only [List.flatMap_cons, List.cons_append, List.nil_append, List.cons.injEq] at h
        obtain ⟨rfl, rfl, rest⟩ := h
        rw [go rest]

/-- Hashers with the same strings in every group agree on every hashed field. -/
theorem sameHashedFields_of_updateGroups_eq {s t : TargetHasher}
    (h : s.updateGroups = t.updateGroups) : s.SameHashedFields t := by
  simp only [TargetHasher.updateGroups, List.cons.injEq, and_true] at h
  obtain ⟨hv, hn, hc, ha, hd, he, hi, hp, hpd, hdd, hpp, hts⟩ := h
  cases s; cases t
  simp only [TargetHasher.SameHashedFields, TargetHasher.mk.injEq]
  exact ⟨hc, ha, hd, btreeStrings_injective he, btreeStrings_injective hi, hn,
    btreeStrings_injective hpd, btreeStrings_injective hdd, btreeStrings_injective hpp, hp, trivial,
    btreeStrings_injective hts, hv⟩

theorem toHashInput_ne_of_same_shape {s t : TargetHasher} (same : s.shape = t.shape)
    (differ : ¬ s.SameHashedFields t) : s.toHashInput ≠ t.toHashInput := by
  intro h
  apply differ
  have groupLengths : s.updateGroups.map List.length = t.updateGroups.map List.length := by
    simpa [TargetHasher.shape, Function.comp_def] using congrArg (List.map List.length) same
  have pieceLengths : (s.updateGroups.flatten.map String.data).map List.length =
      (t.updateGroups.flatten.map String.data).map List.length := by
    have flat := congrArg List.flatten same
    simp only [TargetHasher.shape, ← List.map_flatten] at flat
    simpa only [List.map_map] using flat
  have chars : (s.updateGroups.flatten.map String.data).flatten =
      (t.updateGroups.flatten.map String.data).flatten := by
    apply Str.flatMap_utf8EncodeChar_injective
    rwa [← Str.flatMap_asBytes, ← Str.flatMap_asBytes, ← toHashInput_eq, ← toHashInput_eq]
  have pieces :=
    List.map_injective_iff.2 (fun _ _ => String.ext) (eq_of_flatten_eq pieceLengths chars)
  exact sameHashedFields_of_updateGroups_eq (eq_of_flatten_eq groupLengths pieces)

theorem reordered_args_hash_apart :
    ((TargetHasher.new "16.0.0").hashTask ⟨"tsc", ["ab"], [], .empty, "app:build"⟩).shape =
      ((TargetHasher.new "16.0.0").hashTask ⟨"tsc", ["ba"], [], .empty, "app:build"⟩).shape ∧
    ¬ TargetHasher.SameHashedFields
      ((TargetHasher.new "16.0.0").hashTask ⟨"tsc", ["ab"], [], .empty, "app:build"⟩)
      ((TargetHasher.new "16.0.0").hashTask ⟨"tsc", ["ba"], [], .empty, "app:build"⟩) ∧
    ((TargetHasher.new "16.0.0").hashTask ⟨"tsc", ["ab"], [], .empty, "app:build"⟩).toHashInput ≠
      ((TargetHasher.new "16.0.0").hashTask ⟨"tsc", ["ba"], [], .empty, "app:build"⟩).toHashInput :=
  have same :
      ((TargetHasher.new "16.0.0").hashTask ⟨"tsc", ["ab"], [], .empty, "app:build"⟩).shape =
      ((TargetHasher.new "16.0.0").hashTask ⟨"tsc", ["ba"], [], .empty, "app:build"⟩).shape := by
    decide
  have differ : ¬ TargetHasher.SameHashedFields
      ((TargetHasher.new "16.0.0").hashTask ⟨"tsc", ["ab"], [], .empty, "app:build"⟩)
      ((TargetHasher.new "16.0.0").hashTask ⟨"tsc", ["ba"], [], .empty, "app:build"⟩) := by
    unfold TargetHasher.SameHashedFields; decide
  ⟨same, differ, toHashInput_ne_of_same_shape same differ⟩

end Moon.Hasher
