import Moon.Support.Str

/-! # Pattern sets and the walk

`GlobSet::new` compiles a pattern list as it is, for testing paths; `walk` partitions it with
`split_patterns` (`!p` a negation `p`, `/p` a positive `p`, any other positive as it is) and
returns the files under the base directory that a positive glob matches and no negation does.
Matching is `wax`'s, a parameter `Wax`; a result that needs more assumes only `LiteralLaw`.

Without a leading `!` or `/` the two select the same paths (`globSet_matches_iff_split`); a
leading `/` parts them (`rooted_pattern_sets_disagree`), and `!/a.ts` excludes nothing `/a.ts`
includes (`walk_keeps_path_of_rooted_negation`); otherwise a negation excludes all its positive
form includes (`walk_negation_excludes`). A walk returns exactly the selected entries
(`mem_walk_iff_selected`), and both fail at the first pattern `wax` rejects
(`globs_fail_at_first_error`).
-/

namespace Moon.GlobEngine

/-- A compiled glob (`wax::Glob`), as the pattern it was compiled from. -/
structure Glob where
  pattern : String
  deriving DecidableEq

/-- Modelled from the spec: the error of compiling a pattern, naming the pattern. -/
structure GlobError where
  pattern : String
  deriving DecidableEq

/-- What moon uses of `wax`: which patterns compile (`Glob::new`), and which paths, relative to
the directory walked, a compiled glob matches (`is_match`, the walk's selection, and
`Negation::target`). -/
structure Wax where
  compiles : String → Bool
  isMatch : Glob → String → Bool

/-- Rust's `create_glob`. -/
def createGlob (wax : Wax) (pattern : String) : Except GlobError Glob :=
  if wax.compiles pattern then .ok ⟨pattern⟩ else .error ⟨pattern⟩

/-- Rust's `GlobSet`: the alternation (`wax::any`) of its globs. -/
structure GlobSet where
  globs : List Glob

/-- Rust's `GlobSet::new`: every pattern compiled as it is; the first failure aborts. -/
def GlobSet.new (wax : Wax) (patterns : List String) : Except GlobError GlobSet :=
  (patterns.mapM (createGlob wax)).map GlobSet.mk

/-- Rust's `GlobSet::matches`: some glob of the alternation matches. -/
def GlobSet.matches (wax : Wax) (set : GlobSet) (path : String) : Bool :=
  set.globs.any fun glob => wax.isMatch glob path

/-- One pass of the loop of `split_patterns`: a `!` pattern compiled without its `!` into the
negations, a `/` pattern compiled without its `/` into the expressions, any other compiled as it
is into the expressions. -/
def splitPattern (wax : Wax) (split : List Glob × List Glob) (pattern : String) :
    Except GlobError (List Glob × List Glob) :=
  match pattern.data with
  | '!' :: rest => (createGlob wax ⟨rest⟩).map fun glob => (split.1, split.2 ++ [glob])
  | '/' :: rest => (createGlob wax ⟨rest⟩).map fun glob => (split.1 ++ [glob], split.2)
  | _ => (createGlob wax pattern).map fun glob => (split.1 ++ [glob], split.2)

/-- Rust's `split_patterns`: the positive globs and the negations. -/
def splitPatterns (wax : Wax) (patterns : List String) :
    Except GlobError (List Glob × List Glob) :=
  patterns.foldlM (splitPattern wax) ([], [])

/-- A base directory as a walk sees it: its path, and the paths of the entries under it,
relative to it, in the order the walk visits them. Entries the walk fails on are not listed. -/
structure Directory where
  path : String
  entries : List String

/-- The walk of one glob over a directory (`walk_with_behavior` with `LinkBehavior::ReadFile`):
the entries it matches, in walk order. -/
def walkGlob (wax : Wax) (dir : Directory) (glob : Glob) : List String :=
  dir.entries.filter (wax.isMatch glob)

/-- The path of an entry (`e.into_path()`): the base directory joined with the relative path. -/
def Directory.join (dir : Directory) (entry : String) : String := dir.path ++ "/" ++ entry

/-- Rust's `walk`: for each positive glob in turn, the entries it matches that no negation
matches. -/
def walk (wax : Wax) (dir : Directory) (patterns : List String) :
    Except GlobError (List String) :=
  (splitPatterns wax patterns).map fun (globs, negations) =>
    globs.flatMap fun glob =>
      ((walkGlob wax dir glob).filter fun entry =>
        !negations.any fun negation => wax.isMatch negation entry).map dir.join

/-! ## `Except` in the model -/

section ExceptLemmas

variable {ε α β : Type} (f : α → β) (a : α) (e : ε)

@[simp] theorem Except.map_ok : (Except.ok a : Except ε α).map f = .ok (f a) := rfl

@[simp] theorem Except.map_error : (Except.error e : Except ε α).map f = .error e := rfl

@[simp] theorem Except.ok_bind (g : α → Except ε β) : (Except.ok a >>= g) = g a := rfl

@[simp] theorem Except.error_bind (g : α → Except ε β) : (Except.error e >>= g) = .error e := rfl

@[simp] theorem Except.pure_eq_ok : (pure a : Except ε α) = .ok a := rfl

end ExceptLemmas

/-! ## The three kinds of pattern -/

/-- A pattern that `split_patterns` compiles as it is: it starts with neither `!` nor `/`. -/
def Unprefixed (pattern : String) : Prop :=
  pattern.data.head? ≠ some '!' ∧ pattern.data.head? ≠ some '/'

instance : DecidablePred Unprefixed := fun pattern =>
  inferInstanceAs (Decidable (pattern.data.head? ≠ some '!' ∧ pattern.data.head? ≠ some '/'))

section Split

variable (wax : Wax) (split : List Glob × List Glob) (pattern : String)

theorem splitPattern_negation :
    splitPattern wax split ("!" ++ pattern) =
      (createGlob wax pattern).map fun glob => (split.1, split.2 ++ [glob]) := rfl

theorem splitPattern_rooted :
    splitPattern wax split ("/" ++ pattern) =
      (createGlob wax pattern).map fun glob => (split.1 ++ [glob], split.2) := rfl

theorem splitPattern_unprefixed {pattern : String} (h : Unprefixed pattern) :
    splitPattern wax split pattern =
      (createGlob wax pattern).map fun glob => (split.1 ++ [glob], split.2) := by
  unfold splitPattern
  split <;> simp_all [Unprefixed]

/-- Over patterns that all start with neither `!` nor `/`, the loop of `split_patterns` appends
the globs `GlobSet::new` compiles to the expressions and leaves the negations alone. -/
theorem foldlM_splitPattern_unprefixed {patterns : List String} (h : ∀ p ∈ patterns, Unprefixed p)
    (globs negations : List Glob) :
    patterns.foldlM (splitPattern wax) (globs, negations) =
      (patterns.mapM (createGlob wax)).map fun more => (globs ++ more, negations) := by
  induction patterns generalizing globs with
  | nil => rw [List.mapM_nil]; simp
  | cons p ps ih =>
    rw [List.foldlM_cons, splitPattern_unprefixed wax _ (h p (.head _)), List.mapM_cons]
    cases createGlob wax p with
    | error e => rfl
    | ok glob =>
      refine (ih (fun q hq => h q (.tail _ hq)) _).trans ?_
      cases ps.mapM (createGlob wax) <;> simp

theorem splitPatterns_unprefixed {patterns : List String} (h : ∀ p ∈ patterns, Unprefixed p) :
    splitPatterns wax patterns = (patterns.mapM (createGlob wax)).map fun globs => (globs, []) := by
  simp only [splitPatterns, foldlM_splitPattern_unprefixed wax h, List.nil_append]

end Split

/-! ## What the results assume of `wax` -/

/-- A file name every glob syntax reads literally: an ASCII letter or digit, then letters,
digits, `.`, `-` and `_`. -/
def IsLiteralName (name : String) : Prop :=
  name.data.head?.any Char.isAlphanum ∧ ∀ c ∈ name.data, c.isAlphanum ∨ c ∈ ['.', '-', '_']

instance : DecidablePred IsLiteralName := fun name =>
  inferInstanceAs (Decidable (name.data.head?.any Char.isAlphanum ∧
    ∀ c ∈ name.data, c.isAlphanum ∨ c ∈ ['.', '-', '_']))

/-- What the results below assume of `wax`: a literal file name and the same name rooted at `/`
both compile, and each matches exactly the path it spells. `wax` compiles such a pattern to the
anchored regular expression of its text, so a rooted glob matches no relative path. -/
structure LiteralLaw (wax : Wax) : Prop where
  compiles : ∀ name, IsLiteralName name → wax.compiles name ∧ wax.compiles ("/" ++ name)
  isMatch : ∀ name path, IsLiteralName name → (wax.isMatch ⟨name⟩ path ↔ path = name)
  isMatch_rooted : ∀ name path, IsLiteralName name →
    (wax.isMatch ⟨"/" ++ name⟩ path ↔ path = "/" ++ name)

/-- The matcher of literal text: every pattern compiles and matches exactly the path it spells. -/
def literalWax : Wax := ⟨fun _ => true, fun glob path => decide (glob.pattern = path)⟩

theorem literalWax_literalLaw : LiteralLaw literalWax where
  compiles _ _ := ⟨rfl, rfl⟩
  isMatch _ _ _ := by simpa [literalWax] using eq_comm
  isMatch_rooted _ _ _ := by simpa [literalWax] using eq_comm

theorem IsLiteralName.unprefixed {name : String} (literal : IsLiteralName name) :
    Unprefixed name :=
  ⟨fun h => absurd literal.1 (by rw [h]; decide), fun h => absurd literal.1 (by rw [h]; decide)⟩

theorem IsLiteralName.ne_rooted {name : String} (_ : IsLiteralName name) : name ≠ "/" ++ name :=
  fun h => by simpa using congrArg (·.data.length) h

namespace LiteralLaw

variable {wax : Wax} (law : LiteralLaw wax) {name : String} (literal : IsLiteralName name)
include law literal

theorem createGlob_eq : createGlob wax name = .ok ⟨name⟩ := by
  simp [createGlob, (law.compiles name literal).1]

theorem createGlob_rooted_eq : createGlob wax ("/" ++ name) = .ok ⟨"/" ++ name⟩ := by
  simp [createGlob, (law.compiles name literal).2]

theorem isMatch_eq (path : String) : wax.isMatch ⟨name⟩ path = decide (path = name) := by
  rw [Bool.eq_iff_iff, decide_eq_true_iff]
  exact law.isMatch name path literal

theorem isMatch_rooted_eq (path : String) :
    wax.isMatch ⟨"/" ++ name⟩ path = decide (path = "/" ++ name) := by
  rw [Bool.eq_iff_iff, decide_eq_true_iff]
  exact law.isMatch_rooted name path literal

end LiteralLaw

/-! ## The path test and the walk's split agree on unprefixed patterns -/

theorem globSet_matches_iff_split (wax : Wax) {patterns : List String}
    (h : ∀ p ∈ patterns, Unprefixed p) (path : String) :
    (GlobSet.new wax patterns).map (GlobSet.matches wax · path) =
      (splitPatterns wax patterns).map fun split =>
        split.1.any fun glob => wax.isMatch glob path := by
  rw [splitPatterns_unprefixed wax h, GlobSet.new]
  cases patterns.mapM (createGlob wax) <;> rfl

theorem unprefixed_patterns_agree :
    (∀ p ∈ ["src/index.ts", "*.json"], Unprefixed p) ∧
    (GlobSet.new literalWax ["src/index.ts", "*.json"]).map
        (GlobSet.matches literalWax · "a.json") =
      (splitPatterns literalWax ["src/index.ts", "*.json"]).map fun split =>
        split.1.any fun glob => literalWax.isMatch glob "a.json" :=
  have h : ∀ p ∈ ["src/index.ts", "*.json"], Unprefixed p := by decide
  ⟨h, globSet_matches_iff_split literalWax h "a.json"⟩

/-! ## Where the two disagree -/

/-- For a rooted literal pattern, the path test keeps the `/` and the walk's split strips it, so
on the name itself `GlobSet::matches` says no and the split's globs say yes. -/
theorem rooted_literal_disagrees {wax : Wax} (law : LiteralLaw wax) {name : String}
    (literal : IsLiteralName name) :
    (GlobSet.new wax ["/" ++ name]).map (GlobSet.matches wax · name) = .ok false ∧
      (splitPatterns wax ["/" ++ name]).map
        (fun split => split.1.any fun glob => wax.isMatch glob name) = .ok true := by
  constructor
  · rw [GlobSet.new, List.mapM_cons, List.mapM_nil, law.createGlob_rooted_eq literal]
    simp [GlobSet.matches, law.isMatch_rooted_eq literal, literal.ne_rooted]
  · simp [splitPatterns, splitPattern_rooted, law.createGlob_eq literal, law.isMatch_eq literal]

theorem rooted_pattern_sets_disagree :
    ¬ ∃ wax, LiteralLaw wax ∧ ∀ (patterns : List String) (path : String),
      (∀ p ∈ patterns, p.data.head? ≠ some '!') → path.data.head? ≠ some '/' →
      (GlobSet.new wax patterns).map (GlobSet.matches wax · path) =
        (splitPatterns wax patterns).map fun split =>
          split.1.any fun glob => wax.isMatch glob path := by
  rintro ⟨wax, law, agree⟩
  have literal : IsLiteralName "a.ts" := by decide
  have agreed := agree ["/" ++ "a.ts"] "a.ts" (by decide) (by decide)
  rw [(rooted_literal_disagrees law literal).1, (rooted_literal_disagrees law literal).2] at agreed
  cases agreed

/-- A glob that compiled is the glob of its pattern. -/
theorem createGlob_ok (wax : Wax) {pattern : String} {glob : Glob}
    (h : createGlob wax pattern = .ok glob) : glob = ⟨pattern⟩ := by
  unfold createGlob at h
  split_ifs at h
  exact (Except.ok.inj h).symm

/-! ## Negations in the walk -/

section Walk

variable (wax : Wax) (dir : Directory)

theorem Directory.join_inj {a b : String} (h : dir.join a = dir.join b) : a = b :=
  String.ext (List.append_cancel_left (congrArg String.data h))

/-- The paths of a walk: the entries a positive glob matches and no negation matches, each joined
to the base directory. -/
theorem mem_walk {patterns : List String} {globs negations : List Glob}
    (split : splitPatterns wax patterns = .ok (globs, negations)) {paths : List String}
    (walked : walk wax dir patterns = .ok paths) (path : String) :
    path ∈ paths ↔ ∃ glob ∈ globs, ∃ entry ∈ dir.entries,
      (∀ negation ∈ negations, wax.isMatch negation entry = false) ∧ wax.isMatch glob entry ∧
        dir.join entry = path := by
  rw [walk, split] at walked
  obtain rfl := Except.ok.inj walked
  simp [walkGlob, and_assoc]

theorem splitPatterns_append_negation (patterns : List String) (pattern : String) :
    splitPatterns wax (patterns ++ ["!" ++ pattern]) =
      splitPatterns wax patterns >>= fun split =>
        (createGlob wax pattern).map fun glob => (split.1, split.2 ++ [glob]) := by
  simp only [splitPatterns, List.foldlM_append, List.foldlM_cons, List.foldlM_nil,
    splitPattern_negation, bind_pure]

/-- Every path a walk returns after a negation `!pattern` comes from an entry `pattern` does not
match. -/
theorem walk_append_negation {patterns : List String} {pattern : String} {paths : List String}
    (walked : walk wax dir (patterns ++ ["!" ++ pattern]) = .ok paths) {path : String}
    (mem : path ∈ paths) :
    ∃ entry, wax.isMatch ⟨pattern⟩ entry = false ∧ dir.join entry = path := by
  rcases split : splitPatterns wax patterns with _ | ⟨globs, negations⟩
  · simp [walk, splitPatterns_append_negation, split] at walked
  rcases compiled : createGlob wax pattern with _ | glob
  · simp [walk, splitPatterns_append_negation, split, compiled] at walked
  obtain rfl := createGlob_ok wax compiled
  have whole : splitPatterns wax (patterns ++ ["!" ++ pattern]) =
      .ok (globs, negations ++ [⟨pattern⟩]) := by
    rw [splitPatterns_append_negation, split, compiled]; rfl
  obtain ⟨_, _, entry, _, excluded, _, joined⟩ := (mem_walk wax dir whole walked path).1 mem
  exact ⟨entry, excluded _ (by simp), joined⟩

/-- Every path a walk of `[pattern]` alone returns comes from an entry `pattern` matches, unless
`pattern` starts with `/`. -/
theorem walk_single {pattern : String} (unrooted : pattern.data.head? ≠ some '/')
    {paths : List String} (walked : walk wax dir [pattern] = .ok paths) {path : String}
    (mem : path ∈ paths) :
    ∃ entry ∈ dir.entries, wax.isMatch ⟨pattern⟩ entry ∧ dir.join entry = path := by
  by_cases negated : pattern.data.head? = some '!'
  · -- a lone negation: no positive glob, so nothing is walked
    obtain ⟨rest, rfl⟩ : ∃ rest, pattern = "!" ++ ⟨rest⟩ := by
      cases h : pattern.data with
      | nil => simp [h] at negated
      | cons c rest => exact ⟨rest, String.ext (by simp_all)⟩
    rcases compiled : createGlob wax ⟨rest⟩ with _ | glob <;>
      simp [walk, splitPatterns, splitPattern_negation, compiled] at walked
    simp [walked] at mem
  · rcases compiled : createGlob wax pattern with _ | glob <;>
      simp [walk, splitPatterns, splitPattern_unprefixed wax _ ⟨negated, unrooted⟩, compiled]
        at walked
    obtain rfl := createGlob_ok wax compiled
    simpa [← walked, walkGlob, and_assoc] using mem

theorem walk_negation_excludes (patterns : List String) {pattern : String}
    (unrooted : pattern.data.head? ≠ some '/') {paths kept : List String}
    (walked : walk wax dir (patterns ++ ["!" ++ pattern]) = .ok paths)
    (alone : walk wax dir [pattern] = .ok kept) :
    ∀ path ∈ paths, path ∉ kept := by
  intro path mem kept_mem
  obtain ⟨entry, excluded, rfl⟩ := walk_append_negation wax dir walked mem
  obtain ⟨entry', -, matched, joined⟩ := walk_single wax dir unrooted alone kept_mem
  rw [Directory.join_inj dir joined] at matched
  simp [excluded] at matched

theorem negation_excludes_positive_walk :
    "a.ts".data.head? ≠ some '/' ∧
      walk literalWax ⟨"base", ["a.ts", "b.ts"]⟩ (["a.ts", "b.ts"] ++ ["!" ++ "a.ts"]) =
        .ok ["base/b.ts"] ∧
      walk literalWax ⟨"base", ["a.ts", "b.ts"]⟩ ["a.ts"] = .ok ["base/a.ts"] ∧
      ∀ path ∈ ["base/b.ts"], path ∉ ["base/a.ts"] :=
  have unrooted : "a.ts".data.head? ≠ some '/' := by decide
  have walked : walk literalWax ⟨"base", ["a.ts", "b.ts"]⟩ (["a.ts", "b.ts"] ++ ["!" ++ "a.ts"]) =
      .ok ["base/b.ts"] := rfl
  have alone : walk literalWax ⟨"base", ["a.ts", "b.ts"]⟩ ["a.ts"] = .ok ["base/a.ts"] := rfl
  ⟨unrooted, walked, alone,
    walk_negation_excludes literalWax ⟨"base", ["a.ts", "b.ts"]⟩ _ unrooted walked alone⟩

/-- A negation `!/name` is compiled with its `/`, so it matches no relative path and excludes
nothing, while the positive `/name` is compiled without it: both walks return every entry
`name`. -/
theorem walk_keeps_path_of_rooted_negation {wax : Wax} (law : LiteralLaw wax) (dir : Directory)
    {name : String} (literal : IsLiteralName name) :
    walk wax dir ([name] ++ ["!" ++ ("/" ++ name)]) =
        .ok ((dir.entries.filter (· = name)).map dir.join) ∧
      walk wax dir ["/" ++ name] = .ok ((dir.entries.filter (· = name)).map dir.join) := by
  have split : splitPatterns wax ([name] ++ ["!" ++ ("/" ++ name)]) =
      .ok ([⟨name⟩], [⟨"/" ++ name⟩]) := by
    rw [splitPatterns_append_negation, law.createGlob_rooted_eq literal]
    simp [splitPatterns, splitPattern_unprefixed wax _ literal.unprefixed,
      law.createGlob_eq literal]
  have splitRooted : splitPatterns wax ["/" ++ name] = .ok ([⟨name⟩], []) := by
    simp [splitPatterns, splitPattern_rooted, law.createGlob_eq literal]
  rw [walk, split, walk, splitRooted]
  simp only [walkGlob, Except.map_ok, law.isMatch_eq literal, law.isMatch_rooted_eq literal,
    List.filter_filter, List.flatMap_cons, List.flatMap_nil, List.append_nil, List.any_cons,
    List.any_nil, Bool.or_false, Bool.not_false, Bool.true_and, List.filter_true, and_true]
  -- an entry equal to `name` is not `/` followed by `name`
  congr 2
  exact List.filter_congr fun entry _ => by
    by_cases h : entry = name <;> simp [h, literal.ne_rooted]

theorem rooted_negation_keeps_entry :
    LiteralLaw literalWax ∧ IsLiteralName "a.ts" ∧
      (walk literalWax ⟨"base", ["a.ts", "b.ts"]⟩ (["a.ts"] ++ ["!" ++ ("/" ++ "a.ts")]) =
          .ok ["base/a.ts"] ∧
        walk literalWax ⟨"base", ["a.ts", "b.ts"]⟩ ["/" ++ "a.ts"] = .ok ["base/a.ts"]) :=
  have literal : IsLiteralName "a.ts" := by decide
  ⟨literalWax_literalLaw, literal,
    walk_keeps_path_of_rooted_negation literalWax_literalLaw ⟨"base", ["a.ts", "b.ts"]⟩ literal⟩

end Walk

/-! ## What a walk selects -/

/-- The text `split_patterns` compiles into the expressions for a pattern: nothing for a
negation, the rest after a leading `/`, else the pattern as it is. -/
def positiveBody (pattern : String) : Option String :=
  match pattern.data with
  | '!' :: _ => none
  | '/' :: rest => some ⟨rest⟩
  | _ => some pattern

/-- The text `split_patterns` compiles into the negations for a pattern: the rest after a
leading `!`. -/
def negationBody (pattern : String) : Option String :=
  match pattern.data with
  | '!' :: rest => some ⟨rest⟩
  | _ => none

/-- What a walk is for, as a set of entries: those that the positive body of some pattern
matches and the negation body of no pattern matches. -/
def Selected (wax : Wax) (patterns : List String) (entry : String) : Prop :=
  (∃ p ∈ patterns, (positiveBody p).any fun body => wax.isMatch ⟨body⟩ entry) ∧
    ∀ p ∈ patterns, (negationBody p).all fun body => !wax.isMatch ⟨body⟩ entry

instance (wax : Wax) (patterns : List String) (entry : String) :
    Decidable (Selected wax patterns entry) :=
  inferInstanceAs (Decidable
    ((∃ p ∈ patterns, (positiveBody p).any fun body => wax.isMatch ⟨body⟩ entry) ∧
      ∀ p ∈ patterns, (negationBody p).all fun body => !wax.isMatch ⟨body⟩ entry))

/-- Every pattern is a negation, a rooted pattern, or one compiled as it is. -/
theorem pattern_cases (pattern : String) :
    (∃ body, pattern = "!" ++ body) ∨ (∃ body, pattern = "/" ++ body) ∨ Unprefixed pattern := by
  rcases h : pattern.data with _ | ⟨c, rest⟩
  · exact .inr (.inr ⟨by simp [h], by simp [h]⟩)
  · by_cases bang : c = '!'
    · exact .inl ⟨⟨rest⟩, String.ext (by simp [h, bang])⟩
    · by_cases slash : c = '/'
      · exact .inr (.inl ⟨⟨rest⟩, String.ext (by simp [h, slash])⟩)
      · exact .inr (.inr ⟨by simp [h, bang], by simp [h, slash]⟩)

theorem positiveBody_unprefixed {pattern : String} (h : Unprefixed pattern) :
    positiveBody pattern = some pattern := by
  unfold positiveBody
  split <;> simp_all [Unprefixed]

theorem negationBody_unprefixed {pattern : String} (h : Unprefixed pattern) :
    negationBody pattern = none := by
  unfold negationBody
  split <;> simp_all [Unprefixed]

/-- A pass of `split_patterns` that succeeds appends the pattern's positive body to the
expressions and its negation body to the negations. -/
theorem splitPattern_ok {wax : Wax} {split s : List Glob × List Glob} {pattern : String}
    (h : splitPattern wax split pattern = .ok s) :
    s = (split.1 ++ ((positiveBody pattern).map Glob.mk).toList,
      split.2 ++ ((negationBody pattern).map Glob.mk).toList) := by
  rcases pattern_cases pattern with ⟨body, rfl⟩ | ⟨body, rfl⟩ | plain
  · rw [splitPattern_negation] at h
    rcases compiled : createGlob wax body with _ | glob <;> simp [compiled] at h
    obtain rfl := createGlob_ok wax compiled
    simp [← h, positiveBody, negationBody]
  · rw [splitPattern_rooted] at h
    rcases compiled : createGlob wax body with _ | glob <;> simp [compiled] at h
    obtain rfl := createGlob_ok wax compiled
    simp [← h, positiveBody, negationBody]
  · rw [splitPattern_unprefixed wax _ plain] at h
    rcases compiled : createGlob wax pattern with _ | glob <;> simp [compiled] at h
    obtain rfl := createGlob_ok wax compiled
    simp [← h, positiveBody_unprefixed plain, negationBody_unprefixed plain]

/-- When `split_patterns` succeeds, the expressions are the positive bodies and the negations
the negation bodies, in pattern order. -/
theorem foldlM_splitPattern_ok {wax : Wax} {patterns : List String} :
    ∀ {split s : List Glob × List Glob}, patterns.foldlM (splitPattern wax) split = .ok s →
      s = (split.1 ++ (patterns.filterMap positiveBody).map Glob.mk,
        split.2 ++ (patterns.filterMap negationBody).map Glob.mk) := by
  induction patterns with
  | nil => intro split s h; simpa [eq_comm] using h
  | cons p ps ih =>
    intro split s h
    rw [List.foldlM_cons] at h
    rcases passed : splitPattern wax split p with _ | s₁ <;> simp [passed] at h
    rw [ih h, splitPattern_ok passed, List.filterMap_cons, List.filterMap_cons]
    cases positiveBody p <;> cases negationBody p <;> simp

theorem exists_filterMap_isMatch (wax : Wax) (body : String → Option String)
    (patterns : List String) (entry : String) :
    (∃ glob ∈ (patterns.filterMap body).map Glob.mk, wax.isMatch glob entry) ↔
      ∃ p ∈ patterns, (body p).any fun b => wax.isMatch ⟨b⟩ entry := by
  induction patterns with
  | nil => simp
  | cons p ps ih =>
    rw [List.filterMap_cons]
    simp only [List.mem_cons, exists_eq_or_imp, ← ih]
    cases body p with
    | none => simp only [Option.any_none, Bool.false_eq_true, false_or]
    | some b => simp only [Option.any_some, List.map_cons, List.mem_cons, exists_eq_or_imp]

theorem forall_filterMap_isMatch (wax : Wax) (body : String → Option String)
    (patterns : List String) (entry : String) :
    (∀ glob ∈ (patterns.filterMap body).map Glob.mk, wax.isMatch glob entry = false) ↔
      ∀ p ∈ patterns, (body p).all fun b => !wax.isMatch ⟨b⟩ entry := by
  induction patterns with
  | nil => simp
  | cons p ps ih =>
    rw [List.forall_mem_cons, ← ih, List.filterMap_cons]
    cases body p with
    | none => simp only [Option.all_none, true_and]
    | some b => simp only [Option.all_some, List.map_cons, List.forall_mem_cons, Bool.not_eq_true']

/-- The paths of a walk, as a set: the entries `Selected` keeps, joined to the base directory. -/
theorem mem_walk_iff_selected (wax : Wax) (dir : Directory) {patterns paths : List String}
    (walked : walk wax dir patterns = .ok paths) (path : String) :
    path ∈ paths ↔ ∃ entry ∈ dir.entries, Selected wax patterns entry ∧ dir.join entry = path := by
  rcases split : splitPatterns wax patterns with _ | ⟨globs, negations⟩
  · simp [walk, split] at walked
  obtain ⟨rfl, rfl⟩ := Prod.mk.inj (foldlM_splitPattern_ok split)
  rw [mem_walk wax dir split walked]
  constructor
  · rintro ⟨glob, hg, entry, he, excluded, matched, rfl⟩
    exact ⟨entry, he, ⟨(exists_filterMap_isMatch wax _ _ _).1 ⟨glob, hg, matched⟩,
      (forall_filterMap_isMatch wax _ _ _).1 excluded⟩, rfl⟩
  · rintro ⟨entry, he, ⟨matched, excluded⟩, rfl⟩
    obtain ⟨glob, hg, m⟩ := (exists_filterMap_isMatch wax _ _ _).2 matched
    exact ⟨glob, hg, entry, he, (forall_filterMap_isMatch wax _ _ _).2 excluded, m, rfl⟩

theorem walk_selects_rooted_and_plain :
    walk literalWax ⟨"base", ["a.ts", "b.ts", "c.ts"]⟩ ["a.ts", "/b.ts", "!a.ts"] =
        .ok ["base/b.ts"] ∧
      ("base/b.ts" ∈ ["base/b.ts"] ↔ ∃ entry ∈ ["a.ts", "b.ts", "c.ts"],
        Selected literalWax ["a.ts", "/b.ts", "!a.ts"] entry ∧
          (⟨"base", ["a.ts", "b.ts", "c.ts"]⟩ : Directory).join entry = "base/b.ts") :=
  have walked : walk literalWax ⟨"base", ["a.ts", "b.ts", "c.ts"]⟩ ["a.ts", "/b.ts", "!a.ts"] =
      .ok ["base/b.ts"] := rfl
  ⟨walked, mem_walk_iff_selected literalWax _ walked "base/b.ts"⟩

/-! ## Where compiling fails

`GlobSet::new` and `split_patterns` both stop at the first pattern `wax` rejects, through `?`,
and return its error. `GlobSet::new` compiles and names each pattern as written, `walk` each
pattern without its leading `!` or `/` (`globs_fail_at_first_error`). -/

/-- The text `split_patterns` compiles for a pattern: the pattern without a leading `!` or `/`. -/
def compiledText (pattern : String) : String :=
  match pattern.data with
  | '!' :: rest | '/' :: rest => ⟨rest⟩
  | _ => pattern

/-- The error of the first text, in order, that `wax` does not compile. -/
def firstError (wax : Wax) (texts : List String) : Option GlobError :=
  (texts.find? fun text => !wax.compiles text).map GlobError.mk

@[simp] theorem firstError_nil (wax : Wax) : firstError wax [] = none := rfl

theorem firstError_cons (wax : Wax) (text : String) (texts : List String) :
    firstError wax (text :: texts) =
      if wax.compiles text then firstError wax texts else some ⟨text⟩ := by
  cases h : wax.compiles text <;> simp [firstError, List.find?_cons, h]

theorem Except.map_eq_error {ε α β : Type} {f : α → β} {x : Except ε α} {e : ε} :
    x.map f = .error e ↔ x = .error e := by
  cases x <;> simp

theorem createGlob_eq_error {wax : Wax} {text : String} {e : GlobError} :
    createGlob wax text = .error e ↔ wax.compiles text = false ∧ e = ⟨text⟩ := by
  unfold createGlob
  cases wax.compiles text <;> simp [eq_comm]

/-- A pass of `split_patterns` fails exactly when compiling the pattern's text fails. -/
theorem splitPattern_eq_error (wax : Wax) (split : List Glob × List Glob) (pattern : String)
    (e : GlobError) :
    splitPattern wax split pattern = .error e ↔ createGlob wax (compiledText pattern) = .error e := by
  rcases pattern_cases pattern with ⟨body, rfl⟩ | ⟨body, rfl⟩ | plain
  · rw [splitPattern_negation, Except.map_eq_error]
    rfl
  · rw [splitPattern_rooted, Except.map_eq_error]
    rfl
  · rw [splitPattern_unprefixed wax _ plain, Except.map_eq_error, show compiledText pattern = pattern by
      unfold compiledText
      split <;> simp_all [Unprefixed]]

theorem foldlM_splitPattern_eq_error (wax : Wax) (e : GlobError) :
    ∀ (patterns : List String) (split : List Glob × List Glob),
      patterns.foldlM (splitPattern wax) split = .error e ↔
        firstError wax (patterns.map compiledText) = some e
  | [], _ => by simp
  | p :: ps, split => by
    rw [List.foldlM_cons, List.map_cons, firstError_cons]
    rcases passed : splitPattern wax split p with e' | split'
    · obtain ⟨rejected, rfl⟩ := createGlob_eq_error.1 ((splitPattern_eq_error ..).1 passed)
      simp [rejected]
    · have compiled : wax.compiles (compiledText p) = true := by
        by_contra rejected
        have := (splitPattern_eq_error wax split p ⟨compiledText p⟩).2
          (createGlob_eq_error.2 ⟨Bool.eq_false_iff.2 rejected, rfl⟩)
        rw [passed] at this
        cases this
      simp only [Except.ok_bind, compiled, if_true]
      exact foldlM_splitPattern_eq_error wax e ps split'

theorem mapM_createGlob_eq_error (wax : Wax) (e : GlobError) :
    ∀ patterns : List String,
      patterns.mapM (createGlob wax) = .error e ↔ firstError wax patterns = some e
  | [] => by
    rw [List.mapM_nil]
    simp
  | p :: ps => by
    rw [List.mapM_cons, firstError_cons]
    cases compiled : wax.compiles p
    · rw [show createGlob wax p = .error ⟨p⟩ by simp [createGlob, compiled]]
      simp [eq_comm]
    · rw [show createGlob wax p = .ok ⟨p⟩ by simp [createGlob, compiled], if_pos rfl,
        ← mapM_createGlob_eq_error wax e ps]
      cases ps.mapM (createGlob wax) <;> simp

theorem globs_fail_at_first_error (wax : Wax) (dir : Directory) (patterns : List String)
    (e : GlobError) :
    (GlobSet.new wax patterns = .error e ↔ firstError wax patterns = some e) ∧
      (walk wax dir patterns = .error e ↔ firstError wax (patterns.map compiledText) = some e) :=
  ⟨Except.map_eq_error.trans (mapM_createGlob_eq_error wax e patterns),
    Except.map_eq_error.trans (foldlM_splitPattern_eq_error wax e patterns ([], []))⟩

end Moon.GlobEngine
