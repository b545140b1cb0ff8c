import Moon.Support.Str

/-! # UTF-8 loses nothing

`to_hash` feeds strings to SHA-256 as their UTF-8 bytes. Saying which hashers feed the same
bytes needs that the encoding is injective on strings (`asBytes_injective`), which the library
does not state. We read the encoder `String.utf8EncodeChar` back as numbers
(`utf8EncodeChar_toNat`): a tag or-ed onto payload bits per byte, which is the tag plus the
payload (`tag_toNat`). Decoding those numbers gives the character back
(`utf8Value_utf8EncodeChar`), and the first byte fixes how many bytes a character takes
(`utf8Size_eq_of_head`), so a concatenation of encodings splits in only one way.
-/

namespace Moon.Str

theorem or_toNat (a b : UInt8) : (a ||| b).toNat = a.toNat ||| b.toNat := BitVec.toNat_or ..

/-- A byte's low `k` bits under a tag above them: the tag plus the byte modulo `2 ^ k`. -/
theorem tag_toNat {b mask tag : UInt8} (k t : Nat) (hmask : mask.toNat = 2 ^ k - 1)
    (htag : tag.toNat = 2 ^ k * t) : (b &&& mask ||| tag).toNat = 2 ^ k * t + b.toNat % 2 ^ k := by
  rw [or_toNat, UInt8.and_toNat, hmask, Nat.and_pow_two_sub_one_eq_mod, htag, Nat.or_comm,
    Nat.mul_add_lt_is_or (Nat.mod_lt _ (Nat.two_pow_pos k))]

theorem lead2_toNat (b : UInt8) : (b &&& 0x1f ||| 0xc0).toNat = 0xc0 + b.toNat % 32 :=
  tag_toNat 5 6 rfl rfl

theorem lead3_toNat (b : UInt8) : (b &&& 0x0f ||| 0xe0).toNat = 0xe0 + b.toNat % 16 :=
  tag_toNat 4 14 rfl rfl

theorem lead4_toNat (b : UInt8) : (b &&& 0x07 ||| 0xf0).toNat = 0xf0 + b.toNat % 8 :=
  tag_toNat 3 30 rfl rfl

theorem continuation_toNat (b : UInt8) : (b &&& 0x3f ||| 0x80).toNat = 0x80 + b.toNat % 64 :=
  tag_toNat 6 2 rfl rfl

theorem toNat_toUInt8 (v : UInt32) : v.toUInt8.toNat = v.toNat % 256 := by
  simp [UInt32.toUInt8, UInt8.toNat, UInt8.ofNat, BitVec.toNat_ofNat]

theorem toNat_lt_two_pow (c : Char) : c.toNat < 2 ^ 21 := by
  have := c.valid
  simp only [UInt32.isValidChar, Nat.isValidChar] at this
  exact (show c.toNat = c.val.toNat from rfl) ▸ by omega

/-- The bytes of a character, as numbers: a tag plus payload bits each. -/
theorem utf8EncodeChar_toNat (c : Char) : (String.utf8EncodeChar c).map UInt8.toNat =
    if c.toNat ≤ 0x7f then [c.toNat]
    else if c.toNat ≤ 0x7ff then [0xc0 + c.toNat / 64 % 32, 0x80 + c.toNat % 64]
    else if c.toNat ≤ 0xffff then
      [0xe0 + c.toNat / 4096 % 16, 0x80 + c.toNat / 64 % 64, 0x80 + c.toNat % 64]
    else [0xf0 + c.toNat / 262144 % 8, 0x80 + c.toNat / 4096 % 64, 0x80 + c.toNat / 64 % 64,
      0x80 + c.toNat % 64] := by
  have s6 : (c.val >>> 6).toNat = c.toNat / 64 := Nat.shiftRight_eq_div_pow c.toNat 6
  have s12 : (c.val >>> 12).toNat = c.toNat / 4096 := Nat.shiftRight_eq_div_pow c.toNat 12
  have s18 : (c.val >>> 18).toNat = c.toNat / 262144 := Nat.shiftRight_eq_div_pow c.toNat 18
  have h7f : c.val ≤ 0x7f ↔ c.toNat ≤ 0x7f := Iff.rfl
  have h7ff : c.val ≤ 0x7ff ↔ c.toNat ≤ 0x7ff := Iff.rfl
  have hffff : c.val ≤ 0xffff ↔ c.toNat ≤ 0xffff := Iff.rfl
  have hval : c.val.toNat = c.toNat := rfl
  simp only [String.utf8EncodeChar, h7f, h7ff, hffff]
  split_ifs <;> simp only [List.map_cons, List.map_nil, lead2_toNat, lead3_toNat, lead4_toNat,
    continuation_toNat, toNat_toUInt8, s6, s12, s18, List.cons.injEq, and_true] <;> omega

theorem utf8Size_eq (c : Char) : c.utf8Size =
    if c.toNat ≤ 0x7f then 1 else if c.toNat ≤ 0x7ff then 2 else if c.toNat ≤ 0xffff then 3
    else 4 :=
  if_congr Iff.rfl rfl (if_congr Iff.rfl rfl (if_congr Iff.rfl rfl rfl))

theorem utf8EncodeChar_ne_nil (c : Char) : String.utf8EncodeChar c ≠ [] :=
  List.ne_nil_of_length_pos (by simpa using Char.utf8Size_pos c)

/-- An ASCII byte occurs in a character's encoding only as that character itself: the bytes of a
longer encoding are all at least `0x80`. -/
theorem mem_utf8EncodeChar_of_lt {b : UInt8} (hb : b.toNat < 128) (c : Char) :
    b ∈ String.utf8EncodeChar c ↔ c.toNat = b.toNat := by
  rw [← List.mem_map_of_injective (f := UInt8.toNat) (fun _ _ h => UInt8.toNat.inj h),
    utf8EncodeChar_toNat]
  split_ifs <;> simp <;> omega

/-- The decoder, on byte numbers: the payload bits of one encoded character put back together. -/
def utf8Value : List Nat → Nat
  | [a] => a
  | [a, b] => (a - 0xc0) * 64 + (b - 0x80)
  | [a, b, c] => (a - 0xe0) * 4096 + (b - 0x80) * 64 + (c - 0x80)
  | [a, b, c, d] => (a - 0xf0) * 262144 + (b - 0x80) * 4096 + (c - 0x80) * 64 + (d - 0x80)
  | _ => 0

/-- The width a lead byte announces. -/
def utf8Width (lead : Nat) : Nat :=
  if lead < 0x80 then 1 else if lead < 0xe0 then 2 else if lead < 0xf0 then 3 else 4

theorem utf8Value_utf8EncodeChar (c : Char) :
    utf8Value ((String.utf8EncodeChar c).map UInt8.toNat) = c.toNat := by
  have := toNat_lt_two_pow c
  rw [utf8EncodeChar_toNat]
  split_ifs <;> simp only [utf8Value, Nat.add_sub_cancel_left] <;> omega

theorem utf8Width_head (c : Char) :
    ((String.utf8EncodeChar c).map UInt8.toNat).head?.map utf8Width = some c.utf8Size := by
  have := toNat_lt_two_pow c
  rw [utf8EncodeChar_toNat, utf8Size_eq]
  split_ifs <;> simp (disch := omega) only [List.head?_cons, Option.map_some', utf8Width, if_pos,
    if_neg]

theorem utf8EncodeChar_injective : Function.Injective String.utf8EncodeChar := fun c d h =>
  Char.ext (UInt32.toNat.inj (by
    simpa only [Function.comp, utf8Value_utf8EncodeChar] using
      congrArg (utf8Value ∘ List.map UInt8.toNat) h))

/-- The first byte fixes how many bytes a character takes. -/
theorem utf8Size_eq_of_head {c d : Char}
    (h : (String.utf8EncodeChar c).head? = (String.utf8EncodeChar d).head?) :
    c.utf8Size = d.utf8Size := by
  have widths : ((String.utf8EncodeChar c).map UInt8.toNat).head?.map utf8Width =
      ((String.utf8EncodeChar d).map UInt8.toNat).head?.map utf8Width := by
    rw [List.head?_map, List.head?_map, h]
  rw [utf8Width_head, utf8Width_head] at widths
  exact Option.some.inj widths

theorem head?_utf8EncodeChar_append (c : Char) (rest : List UInt8) :
    (String.utf8EncodeChar c ++ rest).head? = (String.utf8EncodeChar c).head? := by
  cases h : String.utf8EncodeChar c with
  | nil => exact absurd h (utf8EncodeChar_ne_nil c)
  | cons b bs => rfl

/-- A concatenation of encodings splits in one way only. -/
theorem utf8EncodeChar_append_inj {c d : Char} {r₁ r₂ : List UInt8}
    (h : String.utf8EncodeChar c ++ r₁ = String.utf8EncodeChar d ++ r₂) : c = d ∧ r₁ = r₂ := by
  have heads := congrArg List.head? h
  rw [head?_utf8EncodeChar_append, head?_utf8EncodeChar_append] at heads
  have lengths : (String.utf8EncodeChar c).length = (String.utf8EncodeChar d).length := by
    simp only [String.length_utf8EncodeChar, utf8Size_eq_of_head heads]
  obtain ⟨same, rest⟩ := List.append_inj h lengths
  exact ⟨utf8EncodeChar_injective same, rest⟩

theorem flatMap_utf8EncodeChar_injective :
    ∀ {cs ds : List Char}, cs.flatMap String.utf8EncodeChar = ds.flatMap String.utf8EncodeChar →
      cs = ds
  | [], [], _ => rfl
  | [], d :: _, h => absurd h.symm (by simp [utf8EncodeChar_ne_nil])
  | c :: _, [], h => absurd h (by simp [utf8EncodeChar_ne_nil])
  | c :: cs, d :: ds, h => by
    simp only [List.flatMap_cons] at h
    obtain ⟨rfl, rest⟩ := utf8EncodeChar_append_inj h
    rw [flatMap_utf8EncodeChar_injective rest]

/-- Strings with the same UTF-8 bytes are the same string. -/
theorem asBytes_injective {s t : String} (h : asBytes s = asBytes t) : s = t :=
  String.ext (flatMap_utf8EncodeChar_injective h)

/-- Feeding strings one after another feeds the encoding of their characters. -/
theorem flatMap_asBytes (l : List String) :
    l.flatMap asBytes = (l.map String.data).flatten.flatMap String.utf8EncodeChar := by
  induction l with
  | nil => rfl
  | cons x rest ih => simp [asBytes, ih]

end Moon.Str
