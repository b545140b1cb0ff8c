import Moon.Hasher.TargetHasher
import Mathlib.Data.List.Chain

/-! # `normalize`

`normalize` in `crates/utils/src/glob.rs` turns a path into glob text: separators become `/`,
and on Windows every match of `WINDOWS_PREFIX`, `(//\?/)?[A-Z]:`, becomes `**`. `replace_all`
finds leftmost-first matches left to right without overlap; the optional group is greedy, so
`//?/C:` is one match. `replaceFrom` scans the text once with the count of matched characters
still to drop, so it is structurally recursive and runs under `decide`.

The output is glob text as `normalize` means it (`normalize_normalized`): no backslash, on
Windows no drive letter followed by a colon (`replaceWindowsPrefix_chain`: a replaced match
leaves `*`, and an unreplaced letter is never followed by a colon), and `normalize` leaves its
own output unchanged.
-/

namespace Moon.GlobEngine

open Moon.Hasher (standardizeSeparators)

/-- The length of the match of `WINDOWS_PREFIX` at the start of `cs`, if there is one. -/
def windowsPrefixLength : List Char → Option Nat
  | '/' :: '/' :: '?' :: '/' :: d :: ':' :: _ => if d.isUpper then some 6 else none
  | d :: ':' :: _ => if d.isUpper then some 2 else none
  | _ => none

/-- `replace_all(_, "**")` of `WINDOWS_PREFIX` from a position in the text, with `skip`
characters of the last match still to drop. -/
def replaceFrom : Nat → List Char → List Char
  | _, [] => []
  | skip + 1, _ :: rest => replaceFrom skip rest
  | 0, c :: rest =>
    match windowsPrefixLength (c :: rest) with
    | some n => '*' :: '*' :: replaceFrom (n - 1) rest
    | none => c :: replaceFrom 0 rest

/-- `WINDOWS_PREFIX.replace_all(glob, "**")`. -/
def replaceWindowsPrefix (glob : List Char) : List Char := replaceFrom 0 glob

/-- Rust's `normalize` of a path whose text is `path`: separators standardized to `/`, and on
Windows (`cfg!(windows)`) every UNC or drive prefix replaced by `**`. -/
def normalize (windows : Bool) (path : String) : String :=
  let glob := standardizeSeparators path
  if windows then ⟨replaceWindowsPrefix glob.data⟩ else glob

/-- The source's test of `WINDOWS_PREFIX`. -/
example : replaceWindowsPrefix "//?/D:/Projects/moon".data = "**/Projects/moon".data := by
  decide

/-! ## The scan -/

/-- The characters a match covers besides the first are dropped. -/
theorem replaceFrom_eq_drop : ∀ (skip : Nat) (l : List Char),
    replaceFrom skip l = replaceWindowsPrefix (l.drop skip)
  | 0, _ => rfl
  | _ + 1, [] => by simp [replaceFrom, replaceWindowsPrefix]
  | skip + 1, _ :: rest => replaceFrom_eq_drop skip rest

theorem windowsPrefixLength_pos {cs : List Char} {n : Nat} (h : windowsPrefixLength cs = some n) :
    0 < n := by
  unfold windowsPrefixLength at h
  split at h <;> (try split at h) <;> simp only [Option.some.injEq, reduceCtorEq] at h <;> omega

/-- One position of the scan: a match there is replaced and skipped, else the character is
kept. -/
theorem replaceWindowsPrefix_cons (c : Char) (rest : List Char) :
    replaceWindowsPrefix (c :: rest) =
      match windowsPrefixLength (c :: rest) with
      | some n => '*' :: '*' :: replaceWindowsPrefix ((c :: rest).drop n)
      | none => c :: replaceWindowsPrefix rest := by
  show replaceFrom 0 (c :: rest) = _
  simp only [replaceFrom]
  cases h : windowsPrefixLength (c :: rest) with
  | none => rfl
  | some n =>
    obtain ⟨k, rfl⟩ := Nat.exists_eq_succ_of_ne_zero (windowsPrefixLength_pos h).ne'
    simp only [Nat.succ_sub_one, replaceFrom_eq_drop, List.drop_succ_cons]

/-- A letter followed by a colon starts a match exactly when it is uppercase. -/
theorem windowsPrefixLength_colon (d : Char) (more : List Char) :
    windowsPrefixLength (d :: ':' :: more) = if d.isUpper then some 2 else none := by
  unfold windowsPrefixLength
  split <;> simp_all

/-- Every match holds an uppercase letter followed by a colon. -/
theorem windowsPrefixLength_drive {l : List Char} {n : Nat} (h : windowsPrefixLength l = some n) :
    ∃ pre d post, l = pre ++ d :: ':' :: post ∧ d.isUpper = true := by
  unfold windowsPrefixLength at h
  split at h
  · split at h
    · exact ⟨['/', '/', '?', '/'], _, _, rfl, ‹_›⟩
    · cases h
  · split at h
    · exact ⟨[], _, _, rfl, ‹_›⟩
    · cases h
  · cases h

/-- The scan starts with the first character or with a replacement. -/
theorem head_replaceWindowsPrefix (c : Char) (rest : List Char) :
    (replaceWindowsPrefix (c :: rest)).head? = some c ∨
      (replaceWindowsPrefix (c :: rest)).head? = some '*' := by
  rw [replaceWindowsPrefix_cons]
  split <;> simp

/-- Induction along the scan: at each position a match is replaced and skipped, or the
character is kept. -/
theorem scan_induction {motive : List Char → Prop} (nil : motive [])
    (replaced : ∀ c rest n, windowsPrefixLength (c :: rest) = some n →
      motive ((c :: rest).drop n) → motive (c :: rest))
    (kept : ∀ c rest, windowsPrefixLength (c :: rest) = none → motive rest → motive (c :: rest)) :
    ∀ l, motive l := by
  suffices scan : ∀ n (l : List Char), l.length = n → motive l from fun l => scan _ l rfl
  intro n
  induction n using Nat.strong_induction_on with
  | _ n ih =>
    rintro (_ | ⟨c, rest⟩) rfl
    · exact nil
    · cases hw : windowsPrefixLength (c :: rest) with
      | none => exact kept c rest hw (ih _ (by simp) rest rfl)
      | some k =>
        have shorter : ((c :: rest).drop k).length < (c :: rest).length := by
          have := windowsPrefixLength_pos hw
          simp only [List.length_drop, List.length_cons]
          omega
        exact replaced c rest k hw (ih _ shorter _ rfl)

/-! ## What the scan leaves -/

/-- No uppercase letter is directly followed by a colon. -/
def NoDrive : List Char → Prop := List.Chain' fun a b => ¬ (a.isUpper = true ∧ b = ':')

theorem NoDrive.not_upper {pre post : List Char} {d : Char} (h : NoDrive (pre ++ d :: ':' :: post)) :
    d.isUpper = false := by
  have pair := (List.chain'_cons.1 (List.chain'_append.1 h).2.1).1
  simpa using pair

theorem replaceWindowsPrefix_chain : ∀ l : List Char, NoDrive (replaceWindowsPrefix l) := by
  refine scan_induction List.chain'_nil (fun c rest n hw later => ?_) (fun c rest hw later => ?_)
  · -- a replaced match: a star is no letter
    have star : ∀ y, ¬ ('*'.isUpper = true ∧ y = ':') := fun _ drive => absurd drive.1 (by decide)
    rw [replaceWindowsPrefix_cons, hw]
    exact (later.cons' fun y _ => star y).cons' fun y _ => star y
  · -- a kept character: a letter kept is not followed by a colon
    rw [replaceWindowsPrefix_cons, hw]
    refine later.cons' fun b hb ⟨upper, colon⟩ => ?_
    subst colon
    rcases rest with _ | ⟨e, more⟩
    · cases hb
    · rcases head_replaceWindowsPrefix e more with h | h <;>
        rw [h, Option.mem_def, Option.some.injEq] at hb
      · subst hb
        rw [windowsPrefixLength_colon, if_pos upper] at hw
        cases hw
      · cases hb

/-- Text with no uppercase letter followed by a colon has no match: the scan leaves it as it
is. -/
theorem replaceWindowsPrefix_of_noDrive : ∀ {l : List Char}, NoDrive l → replaceWindowsPrefix l = l
  | [], _ => rfl
  | c :: rest, h => by
    have none : windowsPrefixLength (c :: rest) = none := by
      cases hw : windowsPrefixLength (c :: rest) with
      | none => rfl
      | some n =>
        obtain ⟨pre, d, post, split, upper⟩ := windowsPrefixLength_drive hw
        rw [split] at h
        rw [h.not_upper] at upper
        cases upper
    have tail : NoDrive rest := h.tail
    rw [replaceWindowsPrefix_cons, none, replaceWindowsPrefix_of_noDrive tail]

/-- A replacement brings in no character but `*`. -/
theorem mem_replaceWindowsPrefix {x : Char} :
    ∀ l : List Char, x ∈ replaceWindowsPrefix l → x ∈ l ∨ x = '*' := by
  refine scan_induction (fun h => absurd h (List.not_mem_nil x)) (fun c rest n hw later h => ?_)
    (fun c rest hw later h => ?_) <;> rw [replaceWindowsPrefix_cons, hw] at h
  · rcases List.mem_cons.1 h with rfl | h
    · exact .inr rfl
    rcases List.mem_cons.1 h with rfl | h
    · exact .inr rfl
    exact (later h).imp_left List.mem_of_mem_drop
  · rcases List.mem_cons.1 h with rfl | h
    · exact .inl (.head _)
    · exact (later h).imp_left (.tail _)

/-! ## `normalize` -/

theorem standardizeSeparators_data (path : String) :
    (standardizeSeparators path).data = path.data.map fun c => if c = '\\' then '/' else c := rfl

theorem backslash_not_mem_standardizeSeparators (path : String) :
    '\\' ∉ (standardizeSeparators path).data := by
  simp only [standardizeSeparators_data, List.mem_map, not_exists, not_and]
  intro c _
  split_ifs with h
  · decide
  · exact h

/-- Standardizing text with no backslash leaves it. -/
theorem standardizeSeparators_of_not_mem {path : String} (h : '\\' ∉ path.data) :
    standardizeSeparators path = path := by
  show String.mk _ = String.mk _
  congr 1
  conv_rhs => rw [← List.map_id path.data]
  exact List.map_congr_left fun c hc => if_neg fun (same : c = '\\') => h (same ▸ hc)

theorem normalize_normalized (windows : Bool) (path : String) :
    '\\' ∉ (normalize windows path).data ∧
      (windows = true → ∀ pre d post, (normalize windows path).data = pre ++ d :: ':' :: post →
        d.isUpper = false) ∧
      normalize windows (normalize windows path) = normalize windows path := by
  have clean := backslash_not_mem_standardizeSeparators path
  cases windows with
  | false =>
    exact ⟨clean, nofun, standardizeSeparators_of_not_mem clean⟩
  | true =>
    have noBackslash : '\\' ∉ replaceWindowsPrefix (standardizeSeparators path).data :=
      fun h => (mem_replaceWindowsPrefix _ h).elim clean (by decide)
    have noDrive := replaceWindowsPrefix_chain (standardizeSeparators path).data
    refine ⟨noBackslash, fun _ pre d post split => ?_, ?_⟩
    · have output : NoDrive (normalize true path).data := noDrive
      rw [split] at output
      exact output.not_upper
    · show String.mk (replaceWindowsPrefix (standardizeSeparators ⟨_⟩).data) = _
      rw [@standardizeSeparators_of_not_mem ⟨replaceWindowsPrefix (standardizeSeparators path).data⟩
        noBackslash, replaceWindowsPrefix_of_noDrive noDrive]
      rfl

end Moon.GlobEngine
