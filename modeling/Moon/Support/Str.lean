import Mathlib.Data.String.Basic

/-! # The `str` operations the parsers use

The VCS parsers read subprocess output with a handful of `str` methods: `split` on a character,
`trim`, byte-range slicing and `as_bytes`. They are modelled here on the character list of a
`String`, which is how Rust's `str` methods behave on valid UTF-8.

Slicing is the one operation that can panic: `&s[i..]` aborts when byte `i` is not on a
character boundary. `sliceFrom` and `sliceTo` therefore return `none` exactly where Rust panics,
so the parsers built on them record a panic as `none` rather than assuming it away.
-/

namespace Moon.Str

/-- Rust's `str::split` with a `char` pattern: the pieces between the occurrences of `c`, empty
pieces included (`"a\0".split('\0')` is `["a", ""]`). -/
def split (s : String) (c : Char) : List String :=
  (s.data.splitOn c).map String.mk

/-- Rust's `char::is_whitespace`: the Unicode `White_Space` property. -/
def isWhitespace (c : Char) : Bool :=
  let n := c.toNat
  (0x9 ≤ n && n ≤ 0xD) || n == 0x20 || n == 0x85 || n == 0xA0 || n == 0x1680 ||
    (0x2000 ≤ n && n ≤ 0x200A) || n == 0x2028 || n == 0x2029 || n == 0x202F || n == 0x205F ||
    n == 0x3000

/-- Rust's `str::trim`: drop leading and trailing whitespace. -/
def trim (s : String) : String :=
  ⟨((s.data.dropWhile isWhitespace).reverse.dropWhile isWhitespace).reverse⟩

/-- Slicing `&s[i..]` on the characters of `s`: the text after byte `i`, or `none` where Rust panics
(`i` inside a character, or past the end). -/
def sliceFrom : List Char → Nat → Option (List Char)
  | cs, 0 => some cs
  | [], _ + 1 => none
  | c :: cs, n + 1 => if c.utf8Size ≤ n + 1 then sliceFrom cs (n + 1 - c.utf8Size) else none

/-- Slicing `&s[..i]` on the characters of `s`: the text before byte `i`, or `none` where Rust
panics. -/
def sliceTo : List Char → Nat → Option (List Char)
  | _, 0 => some []
  | [], _ + 1 => none
  | c :: cs, n + 1 =>
    if c.utf8Size ≤ n + 1 then (sliceTo cs (n + 1 - c.utf8Size)).map (c :: ·) else none

@[simp] theorem sliceFrom_zero (cs : List Char) : sliceFrom cs 0 = some cs := by
  cases cs <;> rfl

theorem isEmpty_eq_false {s : String} (h : s.data ≠ []) : s.isEmpty = false :=
  Bool.eq_false_iff.2 fun e => h (congrArg String.data ((String.isEmpty_iff _).1 e))

@[simp] theorem isEmpty_cons (c : Char) (cs : List Char) : (String.mk (c :: cs)).isEmpty = false :=
  isEmpty_eq_false (List.cons_ne_nil c cs)

theorem data_ne_nil_of_isEmpty {s : String} (h : s.isEmpty = false) : s.data ≠ [] := fun e => by
  rw [show s = "" from String.ext e] at h
  cases h

/-- Rust's `str::as_bytes`: the UTF-8 encoding. -/
def asBytes (s : String) : List UInt8 :=
  s.data.flatMap String.utf8EncodeChar

theorem asBytes_append (s t : String) : asBytes (s ++ t) = asBytes s ++ asBytes t := by
  simp [asBytes, String.data_append]

/-- Rust's `str::find` with a `char` pattern: the byte index of the first occurrence. -/
def find : List Char → Char → Option Nat
  | [], _ => none
  | d :: ds, c => if d = c then some 0 else (find ds c).map (d.utf8Size + ·)

/-- A character that occurs splits the text at its first occurrence. -/
theorem takeWhile_ne_append {v : List Char} {c : Char} (h : c ∈ v) :
    ∃ rest, v = v.takeWhile (· != c) ++ c :: rest := by
  induction v with
  | nil => cases h
  | cons d ds ih =>
    by_cases hd : d = c
    · exact ⟨ds, by simp [hd]⟩
    · obtain ⟨rest, hrest⟩ := ih ((List.mem_cons.1 h).resolve_left (Ne.symm hd))
      exact ⟨rest, by simp only [List.takeWhile_cons, bne_iff_ne, ne_eq, hd, not_false_eq_true,
        if_true, List.cons_append, ← hrest]⟩

/-- `find` gives the byte length of the text before the first occurrence. -/
theorem find_eq_some {v : List Char} {c : Char} (h : c ∈ v) :
    find v c = some ((v.takeWhile (· != c)).flatMap String.utf8EncodeChar).length := by
  induction v with
  | nil => cases h
  | cons d ds ih =>
    by_cases hd : d = c
    · simp [find, hd]
    · simp [find, hd, ih ((List.mem_cons.1 h).resolve_left (Ne.symm hd))]

/-- Joining pieces that do not contain the separator and splitting again gives the pieces
back. -/
theorem split_intercalate {c : Char} {pieces : List String} (hc : ∀ p ∈ pieces, c ∉ p.data)
    (hne : pieces ≠ []) :
    split (String.mk ([c].intercalate (pieces.map String.data))) c = pieces := by
  have hmap : pieces.map String.data ≠ [] := by simpa using hne
  rw [split, List.splitOn_intercalate _ c (by simpa using hc) hmap, List.map_map]
  exact List.map_id pieces

/-- Records each followed by a terminator, as `git ... -z` prints them with NUL. -/
def terminated (records : List String) (c : Char) : String :=
  ⟨records.flatMap fun r => r.data ++ [c]⟩

/-- Terminated records split into the records and one final empty piece. -/
theorem split_terminated {c : Char} {records : List String} (hc : ∀ r ∈ records, c ∉ r.data) :
    split (terminated records c) c = records ++ [""] := by
  induction records with
  | nil => rfl
  | cons r rest ih =>
    have hr : ∀ x ∈ r.data, ¬ (x == c) = true := fun x hx h => hc r (.head _) (beq_iff_eq.1 h ▸ hx)
    have tail := ih fun r' h => hc r' (.tail _ h)
    simp only [split, terminated, List.splitOn, List.flatMap_cons, List.append_assoc,
      List.singleton_append] at tail ⊢
    rw [List.splitOnP_first _ _ hr c (beq_self_eq_true c), List.map_cons, tail]
    rfl

/-- Text without the separator is one piece. -/
theorem split_of_not_mem {s : String} {c : Char} (h : c ∉ s.data) : split s c = [s] := by
  rw [split, List.splitOn,
    List.splitOnP_eq_single (· == c) _ fun x hx hc => h (beq_iff_eq.1 hc ▸ hx)]
  rfl

/-- Splitting reads up to the first separator. -/
theorem split_append_cons {a b : List Char} {c : Char} (h : c ∉ a) :
    split ⟨a ++ c :: b⟩ c = ⟨a⟩ :: split ⟨b⟩ c := by
  rw [split, List.splitOn, List.splitOnP_first (· == c) _ (fun x hx hc => h (beq_iff_eq.1 hc ▸ hx))
    c (beq_self_eq_true c)]
  rfl

/-- A piece of `splitOnP.go` holds characters of the input or of the piece begun so far, none of
them a separator. -/
theorem splitOnP_go_mem {α : Type} (P : α → Bool) :
    ∀ (xs acc : List α), (∀ x ∈ acc, P x = false) → ∀ piece ∈ List.splitOnP.go P xs acc,
      ∀ x ∈ piece, P x = false ∧ (x ∈ acc ∨ x ∈ xs)
  | [], acc, h, piece, hp, x, hx => by
    rw [List.splitOnP.go, List.mem_singleton] at hp
    subst hp
    exact ⟨h x (List.mem_reverse.1 hx), .inl (List.mem_reverse.1 hx)⟩
  | a :: t, acc, h, piece, hp, x, hx => by
    rw [List.splitOnP.go] at hp
    split at hp
    · rcases List.mem_cons.1 hp with rfl | hp
      · exact ⟨h x (List.mem_reverse.1 hx), .inl (List.mem_reverse.1 hx)⟩
      · obtain ⟨px, mem⟩ := splitOnP_go_mem P t [] (fun _ => nofun) piece hp x hx
        exact ⟨px, .inr (.tail _ (mem.resolve_left (List.not_mem_nil x)))⟩
    · have acc' : ∀ y ∈ a :: acc, P y = false := fun y hy =>
        (List.mem_cons.1 hy).elim (fun same => same ▸ Bool.eq_false_iff.2 ‹_›) (h y)
      obtain ⟨px, mem⟩ := splitOnP_go_mem P t (a :: acc) acc' piece hp x hx
      refine ⟨px, ?_⟩
      rcases mem with mem | mem
      · exact (List.mem_cons.1 mem).elim (fun same => .inr (same ▸ .head _)) .inl
      · exact .inr (.tail _ mem)

/-- Every character of a piece is a character of the text and not the separator. -/
theorem mem_of_mem_split {s piece : String} {c : Char} (h : piece ∈ split s c) {x : Char}
    (hx : x ∈ piece.data) : x ∈ s.data ∧ x ≠ c := by
  obtain ⟨l, hl, rfl⟩ := List.mem_map.1 h
  obtain ⟨px, mem⟩ := splitOnP_go_mem (· == c) s.data [] (fun _ => nofun) l hl x hx
  exact ⟨mem.resolve_left (List.not_mem_nil x), fun same => by simp [same] at px⟩

/-! ## Trimming -/

theorem dropWhile_eq_self {p : Char → Bool} :
    ∀ {l : List Char}, (∀ c ∈ l.head?, p c = false) → l.dropWhile p = l
  | [], _ => rfl
  | c :: _, h => List.dropWhile_cons_of_neg (by simpa using h c rfl)

/-- Printable ASCII other than space is not whitespace. -/
theorem isWhitespace_of_printable {c : Char} (lo : 0x20 ≤ c.toNat) (hi : c.toNat < 0x7f)
    (ne : c ≠ ' ') : isWhitespace c = false := by
  have : c.toNat ≠ 0x20 := fun h => ne (by rw [← Char.ofNat_toNat c, h])
  simp [isWhitespace]
  omega

/-- Text that neither starts nor ends with whitespace is its own trim. -/
theorem trim_eq_self {cs : List Char} (head : ∀ c ∈ cs.head?, isWhitespace c = false)
    (last : ∀ c ∈ cs.getLast?, isWhitespace c = false) : trim ⟨cs⟩ = ⟨cs⟩ := by
  rw [← List.head?_reverse] at last
  simp only [trim, dropWhile_eq_self head, dropWhile_eq_self last, List.reverse_reverse]

theorem trim_append_whitespace {cs : List Char} {c : Char} (hc : isWhitespace c = true)
    (head : ∀ d ∈ cs.head?, isWhitespace d = false)
    (last : ∀ d ∈ cs.getLast?, isWhitespace d = false) : trim ⟨cs ++ [c]⟩ = ⟨cs⟩ := by
  rw [← List.head?_reverse] at last
  cases cs with
  | nil => simp [trim, hc]
  | cons d ds =>
    have front : (d :: ds ++ [c]).dropWhile isWhitespace = d :: ds ++ [c] :=
      dropWhile_eq_self head
    simp only [trim, front, List.reverse_append, List.reverse_cons, List.reverse_nil,
      List.nil_append, List.singleton_append, List.dropWhile_cons_of_pos hc]
    rw [← List.reverse_cons, dropWhile_eq_self last, List.reverse_reverse]

/-- The text's last character, if any, is not whitespace. -/
def EndsClean (cs : List Char) : Prop := ∀ c ∈ cs.getLast?, isWhitespace c = false

theorem EndsClean.append {l₁ l₂ : List Char} (h₁ : EndsClean l₁) (h₂ : EndsClean l₂) :
    EndsClean (l₁ ++ l₂) := by
  intro c hc
  rw [List.getLast?_append] at hc
  cases h : l₂.getLast? with
  | none => exact h₁ c (by simpa [h] using hc)
  | some d => exact h₂ c (by simpa [h] using hc)

theorem EndsClean.prepend (sep : List Char) {l : List Char} (ne : l ≠ []) (h : EndsClean l) :
    EndsClean (sep ++ l) := by
  rw [EndsClean, List.getLast?_append_of_ne_nil _ ne]
  exact h

/-! ## Joining -/

theorem intercalate_go_data (acc s : String) (l : List String) :
    (String.intercalate.go acc s l).data = acc.data ++ l.flatMap fun a => s.data ++ a.data := by
  induction l generalizing acc with
  | nil => simp [String.intercalate.go]
  | cons a as ih => simp [String.intercalate.go, ih, String.data_append]

theorem intercalate_cons_eq {α : Type} (sep a : List α) :
    ∀ as : List (List α), sep.intercalate (a :: as) = a ++ as.flatMap (sep ++ ·)
  | [] => by simp [List.intercalate]
  | b :: bs => by
    rw [List.intercalate, List.intersperse_cons₂, List.flatten_cons, List.flatten_cons,
      ← List.intercalate, intercalate_cons_eq sep b bs]
    simp

/-- Rust's `join` is Lean's `String.intercalate`: the pieces with the separator between them. -/
theorem intercalate_data (s : String) (l : List String) :
    (s.intercalate l).data = s.data.intercalate (l.map String.data) := by
  cases l with
  | nil => rfl
  | cons a as =>
    rw [String.intercalate, intercalate_go_data, List.map_cons, intercalate_cons_eq,
      List.flatMap_map]

/-- A character of one byte is its own boundary: the slices after it always succeed. -/
theorem sliceFrom_ascii {c : Char} (h : c.utf8Size = 1) (cs : List Char) (n : Nat) :
    sliceFrom (c :: cs) (n + 1) = sliceFrom cs n := by
  simp [sliceFrom, h]

theorem sliceTo_ascii {c : Char} (h : c.utf8Size = 1) (cs : List Char) (n : Nat) :
    sliceTo (c :: cs) (n + 1) = (sliceTo cs n).map (c :: ·) := by
  simp [sliceTo, h]

@[simp] theorem sliceTo_zero (cs : List Char) : sliceTo cs 0 = some [] := by
  cases cs <;> rfl

theorem endsClean_flatMap_prepend (sep : List Char) :
    ∀ {pieces : List (List Char)}, (∀ p ∈ pieces, p ≠ [] ∧ EndsClean p) →
      EndsClean (pieces.flatMap (sep ++ ·))
  | [], _ => fun _ h => by simp at h
  | p :: ps, h => by
    rw [List.flatMap_cons]
    exact ((h p (.head _)).2.prepend sep (h p (.head _)).1).append
      (endsClean_flatMap_prepend sep fun q hq => h q (.tail _ hq))

/-- Pieces that are non-empty and end without whitespace, joined by any separator, end without
whitespace. -/
theorem endsClean_intercalate (sep : List Char) {pieces : List (List Char)}
    (h : ∀ p ∈ pieces, p ≠ [] ∧ EndsClean p) : EndsClean (sep.intercalate pieces) := by
  cases pieces with
  | nil => exact fun _ hc => by simp [List.intercalate] at hc
  | cons a as =>
    rw [intercalate_cons_eq]
    exact (h a (.head _)).2.append (endsClean_flatMap_prepend sep fun p hp => h p (.tail _ hp))

/-- Terminated records are the joined records followed by the terminator. -/
theorem terminated_data (c : Char) (a : String) (as : List String) :
    (terminated (a :: as) c).data = [c].intercalate ((a :: as).map String.data) ++ [c] := by
  induction as generalizing a with
  | nil => simp [terminated, intercalate_cons_eq]
  | cons b bs ih =>
    have tail :
        (terminated (a :: b :: bs) c).data = a.data ++ [c] ++ (terminated (b :: bs) c).data := by
      simp [terminated]
    rw [tail, ih b, List.map_cons, List.map_cons, intercalate_cons_eq, List.map_cons,
      intercalate_cons_eq, List.flatMap_cons]
    simp

end Moon.Str
