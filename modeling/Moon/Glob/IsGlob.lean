import Moon.Support.Utf8
import Mathlib.Data.List.Infix

/-! # `is_glob`

`is_glob` (`crates/utils/src/glob.rs`) guesses whether a string is a glob: `**` anywhere, or one
of `*`, `?`, `!`, or an opening `{` or `[` whose closing character also occurs, at its first
occurrence not escaped by a backslash; the spec describes the test per trigger
(`referenceIsGlob`). The code tests escapes with one closure reading `bytes.nth(index - 1)` on a
`Bytes` iterator made once for the whole call. `nth` consumes what it passes, so every test after
the first reads `index - 1` bytes on from where the last one stopped. The model threads the
iterator through both loops (`isEscaped` returns it, `scanTriggers` passes it on).

The two readings agree on every string with at most one backslash (`isGlob_eq_reference`). With
two they part, both ways: `\*\?` is a glob to the code and not to the spec, `ab?\*\` the
reverse (`escapes_misread`).
-/

namespace Moon.GlobEngine

open Moon.Str (asBytes)

/-! ## The code -/

/-- `Iterator::nth` on a `Bytes` iterator: the byte `n` places on, and the iterator left past
it. -/
def nth (bytes : List UInt8) (n : Nat) : Option UInt8 × List UInt8 :=
  ((bytes.drop n).head?, bytes.drop (n + 1))

/-- The `is_escaped` closure: whether the byte `bytes.nth(index - 1)` reads, `index - 1` places on
from where the shared iterator stands, is a backslash (no byte reads as a space); with the
iterator it leaves. -/
def isEscaped (bytes : List UInt8) (index : Nat) : Bool × List UInt8 :=
  if index = 0 then (false, bytes)
  else
    let (byte, bytes) := nth bytes (index - 1)
    (byte.getD ' '.toUInt8 == '\\'.toUInt8, bytes)

/-- One `for` loop of `is_glob` over trigger characters, each with whether the loop's `continue`
guard lets it through. `none` where `is_glob` returns `true`; otherwise the iterator the loop
leaves. -/
def scanTriggers (value : List Char) : List (Bool × Char) → List UInt8 → Option (List UInt8)
  | [], bytes => some bytes
  | (guard, c) :: triggers, bytes =>
    if !guard then scanTriggers value triggers bytes
    else match Str.find value c with
      | none => scanTriggers value triggers bytes
      | some index =>
        let (escaped, bytes) := isEscaped bytes index
        if !escaped then none else scanTriggers value triggers bytes

/-- `single_values`. -/
def singleValues : List Char := ['*', '?', '!']

/-- `paired_values`. -/
def pairedValues : List (Char × Char) := [('{', '}'), ('[', ']')]

/-- The first loop: each single value, let through if the value contains it. -/
def singleTriggers (value : List Char) : List (Bool × Char) :=
  singleValues.map fun single => (value.contains single, single)

/-- The second loop: each opening character, let through if the value contains it and its
closing character. -/
def pairedTriggers (value : List Char) : List (Bool × Char) :=
  pairedValues.map fun (opening, closing) =>
    (value.contains opening && value.contains closing, opening)

/-- Rust's `is_glob`: `**` anywhere, or an unescaped trigger in either loop; the loops share the
byte iterator. -/
def isGlob (value : String) : Bool :=
  if decide (['*', '*'] <:+: value.data) then true
  else
    match scanTriggers value.data (singleTriggers value.data) (asBytes value) with
    | none => true
    | some bytes => (scanTriggers value.data (pairedTriggers value.data) bytes).isNone

/-- The source's tests of `is_glob`. -/
example :
    ["**", "**/src/*", "src/**", "*.ts", "file.*", "file.\x7bjs,ts\x7d", "file.[jstx]",
      "file.tsx?"].all isGlob ∧
    (["dir", "file.rs", "dir/file.ts", "dir/dir/file_test.rs", "dir/dirDir/file-ts.js", "\\*.rs",
      "file\\?.js", "folder-\\[id\\]"].all fun s => !isGlob s) := by
  decide

/-! ## The spec's reading -/

/-- The spec's test of one trigger character `c`: `c` occurs, and its first occurrence is at index
0 or not right after a backslash. -/
def firstUnescaped (value : List Char) (c : Char) : Bool :=
  value.contains c && (value.takeWhile (· != c)).getLast? != some '\\'

/-- `is_glob` as the spec describes it. -/
def referenceIsGlob (value : String) : Bool :=
  decide (['*', '*'] <:+: value.data) || singleValues.any (firstUnescaped value.data) ||
    pairedValues.any fun (opening, closing) =>
      value.data.contains closing && firstUnescaped value.data opening

theorem escapes_misread :
    isGlob "\\*\\?" = true ∧ referenceIsGlob "\\*\\?" = false ∧
    isGlob "ab?\\*\\" = false ∧ referenceIsGlob "ab?\\*\\" = true := by
  decide

/-! ## The escape test -/

theorem isEscaped_eq (bytes : List UInt8) (index : Nat) :
    isEscaped bytes index =
      (decide (index ≠ 0 ∧ (bytes.drop (index - 1)).head? = some '\\'.toUInt8), bytes.drop index) := by
  unfold isEscaped nth
  split_ifs with h
  · simp [h]
  · obtain ⟨i, rfl⟩ := Nat.exists_eq_succ_of_ne_zero h
    rw [Nat.succ_sub_one]
    cases (bytes.drop i).head?
    · simpa using (by decide : ' '.toUInt8 ≠ '\\'.toUInt8)
    · simp
      rfl

/-- With no backslash left on the iterator, no test finds an escape. -/
theorem isEscaped_fst_of_not_mem {bytes : List UInt8} (clear : '\\'.toUInt8 ∉ bytes)
    (index : Nat) : (isEscaped bytes index).1 = false := by
  rw [isEscaped_eq, decide_eq_false_iff_not]
  rintro ⟨-, head⟩
  exact clear (List.mem_of_mem_drop (List.mem_of_mem_head? head))

/-- A character's encoding ends in a backslash byte only for the backslash. -/
theorem getLast?_utf8EncodeChar (d : Char) :
    (String.utf8EncodeChar d).getLast? = some '\\'.toUInt8 ↔ d = '\\' := by
  constructor
  · intro h
    have := (Str.mem_utf8EncodeChar_of_lt (by decide) d).1 (List.mem_of_mem_getLast? h)
    rw [← Char.ofNat_toNat d, this]
    rfl
  · rintro rfl
    rfl

/-- The element before the cut at a list's last position is its last element. -/
theorem head?_drop_pred_length {α : Type} {l : List α} (tail : List α) (h : l ≠ []) :
    ((l ++ tail).drop (l.length - 1)).head? = l.getLast? := by
  rw [List.head?_drop, List.getElem?_append_left (by have := List.length_pos.2 h; omega),
    List.getLast?_eq_getElem?]

/-- The first test made, from the start of the iterator, reads the byte before the index: the
last byte of the character there. It leaves the iterator at the index. -/
theorem isEscaped_first (pre : List Char) (tail : List UInt8) :
    isEscaped (pre.flatMap String.utf8EncodeChar ++ tail) (pre.flatMap String.utf8EncodeChar).length =
      (pre.getLast? == some '\\', tail) := by
  rw [isEscaped_eq, List.drop_left]
  rcases pre.eq_nil_or_concat with rfl | ⟨init, d, rfl⟩
  · rfl
  · have ne : (init.concat d).flatMap String.utf8EncodeChar ≠ [] := by
      simp [Str.utf8EncodeChar_ne_nil]
    rw [head?_drop_pred_length tail ne]
    simp [ne, List.getLast?_append, getLast?_utf8EncodeChar, (Char.utf8Size_pos d).ne',
      Str.utf8EncodeChar_ne_nil]
    rfl

/-! ## One backslash at most -/

/-- The two loops run as one over both trigger lists, threading the iterator. -/
theorem scanTriggers_append (value : List Char) (ts us : List (Bool × Char))
    (bytes : List UInt8) :
    scanTriggers value (ts ++ us) bytes =
      (scanTriggers value ts bytes).bind (scanTriggers value us) := by
  induction ts generalizing bytes with
  | nil => rfl
  | cons t ts ih =>
    obtain ⟨guard, c⟩ := t
    simp only [List.cons_append, scanTriggers]
    split
    · exact ih bytes
    · split
      · exact ih bytes
      · rw [isEscaped_eq]
        dsimp only
        split
        · rfl
        · exact ih _

theorem backslash_of_mem_utf8EncodeChar {d : Char}
    (h : '\\'.toUInt8 ∈ String.utf8EncodeChar d) : d = '\\' := by
  rw [← Char.ofNat_toNat d, (Str.mem_utf8EncodeChar_of_lt (by decide) d).1 h]
  rfl

/-- In a list holding `x` at most once, two prefixes that end in `x` are the same. -/
theorem prefix_eq_of_getLast? {v p q : List Char} {x : Char} (hp : p <+: v) (hq : q <+: v)
    (lp : p.getLast? = some x) (lq : q.getLast? = some x) (once : v.count x ≤ 1) : p = q := by
  have shorter : ∀ {p q : List Char}, p <+: q → q <+: v → p.getLast? = some x →
      q.getLast? = some x → p = q := by
    rintro p _ ⟨m, rfl⟩ hq lp lq
    rcases m.eq_nil_or_concat with rfl | ⟨m, y, rfl⟩
    · simp
    · have hy : y = x := by simpa using lq
      have twice := List.IsPrefix.count_le hq x
      have inP := List.count_pos_iff.2 (List.mem_of_mem_getLast? lp)
      simp [List.count_append, hy] at twice
      omega
  rcases List.prefix_or_prefix_of_prefix hp hq with h | h
  · exact shorter h hq lp lq
  · exact (shorter h hp lq lp).symm

section
variable {value : List Char}

/-- With no backslash left on the iterator, the loop returns `true` at the first trigger it lets
through. -/
theorem scanTriggers_isNone_of_clear {bytes : List UInt8} (clear : '\\'.toUInt8 ∉ bytes) :
    ∀ (triggers : List (Bool × Char)), (∀ t ∈ triggers, t.1 = true → t.2 ∈ value) →
      (scanTriggers value triggers bytes).isNone = triggers.any (·.1)
  | [], _ => rfl
  | (guard, c) :: triggers, occur => by
    cases guard
    · exact scanTriggers_isNone_of_clear clear triggers fun t ht => occur t (.tail _ ht)
    · have hc : c ∈ value := occur _ (.head _) rfl
      simp only [scanTriggers, Bool.not_true, Str.find_eq_some hc]
      rw [show isEscaped bytes _ = (false, _) from Prod.ext (isEscaped_fst_of_not_mem clear _) rfl]
      rfl

/-- After a first test that finds an escape, the rest of a value with one backslash holds none. -/
theorem clear_after_escape {c : Char} {post : List Char} (once : value.count '\\' ≤ 1)
    (split : value = value.takeWhile (· != c) ++ c :: post)
    (escaped : (value.takeWhile (· != c)).getLast? = some '\\') :
    '\\'.toUInt8 ∉ (c :: post).flatMap String.utf8EncodeChar := by
  have counts := congrArg (List.count '\\') split
  rw [List.count_append] at counts
  have before := List.count_pos_iff.2 (List.mem_of_mem_getLast? escaped)
  intro h
  obtain ⟨d, hd, hmem⟩ := List.mem_flatMap.1 h
  have after := List.count_pos_iff.2 (backslash_of_mem_utf8EncodeChar hmem ▸ hd)
  omega

/-- In a value with one backslash, once that backslash escapes `c`, every other character passes
the spec's test. -/
theorem firstUnescaped_of_escaped {c d : Char} (once : value.count '\\' ≤ 1) (hc : c ∈ value)
    (escaped : (value.takeWhile (· != c)).getLast? = some '\\') (hd : d ∈ value) (ne : d ≠ c) :
    firstUnescaped value d = true := by
  simp only [firstUnescaped, List.elem_iff.2 hd, Bool.true_and, bne_iff_ne, ne_eq]
  intro h
  obtain ⟨post, split⟩ := Str.takeWhile_ne_append hc
  obtain ⟨post₂, split₂⟩ := Str.takeWhile_ne_append hd
  rw [prefix_eq_of_getLast? (List.takeWhile_prefix _) (List.takeWhile_prefix _) h escaped
    once] at split₂
  exact ne (List.cons.inj (List.append_cancel_left (split₂.symm.trans split))).1

theorem any_fst_eq {triggers : List (Bool × Char)} {p : Char → Bool}
    (h : ∀ t ∈ triggers, t.1 = true → p t.2 = true) :
    triggers.any (·.1) = triggers.any fun t => t.1 && p t.2 := by
  induction triggers with
  | nil => rfl
  | cons t ts ih =>
    rw [List.any_cons, List.any_cons, ih fun t' ht' => h t' (.tail _ ht')]
    cases h1 : t.1
    · rfl
    · rw [h t (.head _) h1]
      rfl

/-- From the start of the iterator, in a value holding at most one backslash, the loop over
distinct trigger characters returns `true` exactly when the spec's test passes for one of the
triggers it lets through. -/
theorem scanTriggers_isNone_of_once (once : value.count '\\' ≤ 1) :
    ∀ (triggers : List (Bool × Char)), (∀ t ∈ triggers, t.1 = true → t.2 ∈ value) →
      (triggers.map Prod.snd).Nodup →
      (scanTriggers value triggers (value.flatMap String.utf8EncodeChar)).isNone =
        triggers.any fun t => t.1 && firstUnescaped value t.2
  | [], _, _ => rfl
  | (guard, c) :: triggers, occur, distinct => by
    have occur' : ∀ t ∈ triggers, t.1 = true → t.2 ∈ value := fun t ht => occur t (.tail _ ht)
    rw [List.map_cons, List.nodup_cons] at distinct
    cases guard
    · exact scanTriggers_isNone_of_once once triggers occur' distinct.2
    · have hc : c ∈ value := occur _ (.head _) rfl
      obtain ⟨post, split⟩ := Str.takeWhile_ne_append hc
      have bytes : value.flatMap String.utf8EncodeChar =
          (value.takeWhile (· != c)).flatMap String.utf8EncodeChar ++
            (c :: post).flatMap String.utf8EncodeChar := by
        conv_lhs => rw [split]
        exact List.flatMap_append _ _ _
      simp only [scanTriggers, Bool.not_true, Str.find_eq_some hc, bytes, isEscaped_first]
      by_cases escaped : (value.takeWhile (· != c)).getLast? = some '\\'
      · have escapedC : firstUnescaped value c = false := by simp [firstUnescaped, escaped]
        simp only [escaped, beq_self_eq_true, Bool.not_true, Bool.false_eq_true, ite_false,
          scanTriggers_isNone_of_clear (clear_after_escape once split escaped) triggers occur',
          List.any_cons, escapedC, Bool.and_false, Bool.false_or]
        exact any_fst_eq fun t ht h1 => firstUnescaped_of_escaped once hc escaped
          (occur' t ht h1) fun same => distinct.1 (List.mem_map.2 ⟨t, ht, same⟩)
      · simp [escaped, firstUnescaped, List.elem_iff.2 hc, hc]

end

/-! ## The trigger lists -/

/-- Each trigger a loop lets through occurs in the value. -/
theorem mem_of_trigger (value : List Char) :
    ∀ t ∈ singleTriggers value ++ pairedTriggers value, t.1 = true → t.2 ∈ value := by
  simp [singleTriggers, pairedTriggers, singleValues, pairedValues]
  tauto

/-- The two loops test five different characters. -/
theorem nodup_triggers (value : List Char) :
    ((singleTriggers value ++ pairedTriggers value).map Prod.snd).Nodup := by
  simp [singleTriggers, pairedTriggers, singleValues, pairedValues]

/-- The spec's test already asks that the character occurs. -/
theorem contains_and_firstUnescaped (value : List Char) (c : Char) :
    (value.contains c && firstUnescaped value c) = firstUnescaped value c := by
  unfold firstUnescaped
  cases value.contains c <;> rfl

theorem containsBoth_and_firstUnescaped (value : List Char) (opening closing : Char) :
    ((value.contains opening && value.contains closing) && firstUnescaped value opening) =
      (value.contains closing && firstUnescaped value opening) := by
  rw [Bool.and_right_comm, contains_and_firstUnescaped, Bool.and_comm]

theorem isGlob_eq_reference (value : String) (once : value.data.count '\\' ≤ 1) :
    isGlob value = referenceIsGlob value := by
  have merged : ∀ o : Option (List UInt8), (match o with
      | none => true
      | some bytes => (scanTriggers value.data (pairedTriggers value.data) bytes).isNone) =
        (o.bind (scanTriggers value.data (pairedTriggers value.data))).isNone := fun o => by
    cases o <;> rfl
  unfold isGlob referenceIsGlob
  rw [merged, ← scanTriggers_append, asBytes,
    scanTriggers_isNone_of_once once _ (mem_of_trigger _) (nodup_triggers _)]
  simp only [singleTriggers, pairedTriggers, singleValues, pairedValues, List.map_cons,
    List.map_nil, List.cons_append, List.nil_append, List.any_cons, List.any_nil, Bool.or_false,
    contains_and_firstUnescaped, containsBoth_and_firstUnescaped]
  cases decide (['*', '*'] <:+: value.data) <;> simp [Bool.or_assoc]

theorem escaped_question_mark_agrees :
    ("file\\?.js" : String).data.count '\\' ≤ 1 ∧ isGlob "file\\?.js" = referenceIsGlob "file\\?.js" :=
  ⟨by decide, isGlob_eq_reference _ (by decide)⟩

end Moon.GlobEngine
