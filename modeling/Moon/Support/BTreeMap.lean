import Mathlib.Data.String.Basic
import Mathlib.Data.List.Sort
import Mathlib.Data.List.Perm.Basic

/-! # `BTreeMap<String, String>`

Every map the hasher accumulates and the VCS layer returns is a `BTreeMap` from strings to
strings, represented by its entries in ascending key order with no key twice. The representation
is canonical: maps that agree on every lookup are equal (`BTreeMap.ext`). Lean orders `String`
by characters and Rust by UTF-8 bytes; the orders agree, since UTF-8 preserves code point order.
The comparison is decided on character lists, so that `decide` evaluates concrete maps.

`insertEntry` replaces the value of an equal key in one pass, so its lookup lemma
`findEntry_insertEntry` needs no well-formedness hypothesis; `extend_congr` says the order and
repetition of the pairs `extend` inserts do not matter while no key is given two values.
-/

namespace Moon

/-- Strings compared character by character. Mathlib decides `<` on `String` through its
iterator, which the kernel cannot unfold; deciding it on the character lists instead lets `decide`
evaluate map inserts and sorts on concrete strings. -/
instance (priority := high) decidableLtByChars : DecidableRel (α := String) (· < ·) :=
  fun a b => decidable_of_iff (a.data < b.data) String.lt_iff_toList_lt.symm

/-- Strings compared character by character, for `≤`. -/
instance (priority := high) decidableLeByChars : DecidableRel (α := String) (· ≤ ·) :=
  fun a b => decidable_of_iff (a.data ≤ b.data) String.le_iff_toList_le.symm

/-- Keys strictly ascending: the order relation of a `BTreeMap`'s entries. -/
def KeyLt (a b : String × String) : Prop := a.1 < b.1

instance : DecidableRel KeyLt := fun a b => inferInstanceAs (Decidable (a.1 < b.1))

/-- Sorted insertion into an entry list (`BTreeMap::insert`), replacing the value of an equal
key. -/
def insertEntry (k v : String) : List (String × String) → List (String × String)
  | [] => [(k, v)]
  | (k', v') :: rest =>
    if k < k' then (k, v) :: (k', v') :: rest
    else if k = k' then (k, v) :: rest
    else (k', v') :: insertEntry k v rest

/-- Lookup in an entry list (`BTreeMap::get`). -/
def findEntry (k : String) : List (String × String) → Option String
  | [] => none
  | (k', v) :: rest => if k = k' then some v else findEntry k rest

@[simp] theorem findEntry_insertEntry (k v k' : String) (l : List (String × String)) :
    findEntry k' (insertEntry k v l) = if k' = k then some v else findEntry k' l := by
  induction l with
  | nil => simp [insertEntry, findEntry]
  | cons e rest ih =>
    obtain ⟨k'', v''⟩ := e
    simp only [insertEntry]
    split_ifs <;> simp_all [findEntry]

theorem mem_insertEntry {k v : String} {a : String × String} {l : List (String × String)}
    (h : a ∈ insertEntry k v l) : a = (k, v) ∨ a ∈ l := by
  induction l with
  | nil => simpa [insertEntry] using h
  | cons e rest ih =>
    obtain ⟨k', v'⟩ := e
    simp only [insertEntry] at h
    split_ifs at h <;> simp only [List.mem_cons] at h ⊢ <;> tauto

theorem insertEntry_ascending (k v : String) {l : List (String × String)}
    (h : l.Pairwise KeyLt) : (insertEntry k v l).Pairwise KeyLt := by
  induction l with
  | nil => simp [insertEntry]
  | cons e rest ih =>
    obtain ⟨k', v'⟩ := e
    rw [List.pairwise_cons] at h
    simp only [insertEntry]
    split_ifs with below same
    · exact List.Pairwise.cons (fun a ha => (List.mem_cons.mp ha).elim
        (fun e => e ▸ below) (fun m => lt_trans below (h.1 a m))) (List.pairwise_cons.mpr h)
    · subst same
      exact List.Pairwise.cons h.1 h.2
    · refine List.Pairwise.cons (fun a ha => ?_) (ih h.2)
      rcases mem_insertEntry ha with rfl | m
      · exact lt_of_le_of_ne (not_lt.mp below) (Ne.symm same)
      · exact h.1 a m

/-- In an ascending entry list an entry is present exactly when lookup finds it. -/
theorem mem_iff_findEntry {k v : String} {l : List (String × String)}
    (h : l.Pairwise KeyLt) : (k, v) ∈ l ↔ findEntry k l = some v := by
  induction l with
  | nil => simp [findEntry]
  | cons e rest ih =>
    obtain ⟨k', v'⟩ := e
    rw [List.pairwise_cons] at h
    by_cases hk : k = k'
    · subst hk
      have absent : (k, v) ∉ rest := fun m => lt_irrefl k (h.1 _ m)
      simp [findEntry, absent, eq_comm]
    · simp [findEntry, hk, ih h.2]

/-- Two ascending entry lists with the same lookups are the same list. -/
theorem entries_ext {l₁ l₂ : List (String × String)} (h₁ : l₁.Pairwise KeyLt)
    (h₂ : l₂.Pairwise KeyLt) (h : ∀ k, findEntry k l₁ = findEntry k l₂) : l₁ = l₂ := by
  have nodup : ∀ {l : List (String × String)}, l.Pairwise KeyLt → l.Nodup :=
    fun hl => hl.imp fun {a b} (hab : a.1 < b.1) => ne_of_apply_ne Prod.fst (ne_of_lt hab)
  have : IsAntisymm (String × String) KeyLt := ⟨fun _ _ hab hba => absurd (lt_trans hab hba)
    (lt_irrefl _)⟩
  refine List.eq_of_perm_of_sorted
    ((List.perm_ext_iff_of_nodup (nodup h₁) (nodup h₂)).2 fun ⟨k, v⟩ => ?_) h₁ h₂
  rw [mem_iff_findEntry h₁, mem_iff_findEntry h₂, h]

/-- A `std::collections::BTreeMap<String, String>`: its entries, keys strictly ascending. -/
structure BTreeMap where
  entries : List (String × String)
  ascending : entries.Pairwise KeyLt

namespace BTreeMap

theorem ext_entries {m n : BTreeMap} (h : m.entries = n.entries) : m = n := by
  cases m; cases n; cases h; rfl

instance : DecidableEq BTreeMap := fun m n =>
  decidable_of_iff (m.entries = n.entries) ⟨ext_entries, fun h => h ▸ rfl⟩

/-- The empty map, `BTreeMap::new`. -/
def empty : BTreeMap := ⟨[], .nil⟩

/-- Lookup, `BTreeMap::get`. -/
def get? (m : BTreeMap) (k : String) : Option String := findEntry k m.entries

/-- Insertion, `BTreeMap::insert`. -/
def insert (m : BTreeMap) (k v : String) : BTreeMap :=
  ⟨insertEntry k v m.entries, insertEntry_ascending k v m.ascending⟩

/-- Merging, `Extend::extend`: insert the pairs in iteration order, a later pair overwriting an
earlier one with the same key. -/
def extend (m : BTreeMap) : List (String × String) → BTreeMap
  | [] => m
  | (k, v) :: rest => (m.insert k v).extend rest

/-- The map of a list of pairs, `BTreeMap::from_iter`. -/
def ofList (kvs : List (String × String)) : BTreeMap := empty.extend kvs

@[simp] theorem get?_empty (k : String) : empty.get? k = none := rfl

@[simp] theorem get?_insert (m : BTreeMap) (k v k' : String) :
    (m.insert k v).get? k' = if k' = k then some v else m.get? k' :=
  findEntry_insertEntry k v k' m.entries

@[simp] theorem entries_empty : empty.entries = [] := rfl

theorem mem_entries {m : BTreeMap} {k v : String} : (k, v) ∈ m.entries ↔ m.get? k = some v :=
  mem_iff_findEntry m.ascending

@[ext] theorem ext {m n : BTreeMap} (h : ∀ k, m.get? k = n.get? k) : m = n :=
  ext_entries (entries_ext m.ascending n.ascending h)

@[simp] theorem extend_nil (m : BTreeMap) : m.extend [] = m := rfl

@[simp] theorem extend_cons (m : BTreeMap) (k v : String) (rest : List (String × String)) :
    m.extend ((k, v) :: rest) = (m.insert k v).extend rest := rfl

theorem extend_append (m : BTreeMap) (l₁ l₂ : List (String × String)) :
    m.extend (l₁ ++ l₂) = (m.extend l₁).extend l₂ := by
  induction l₁ generalizing m with
  | nil => rfl
  | cons p rest ih => exact ih _

/-- A key the pairs never mention keeps its value. -/
theorem get?_extend_of_forall_ne {m : BTreeMap} {k : String} {kvs : List (String × String)}
    (h : ∀ p ∈ kvs, p.1 ≠ k) : (m.extend kvs).get? k = m.get? k := by
  induction kvs generalizing m with
  | nil => rfl
  | cons p rest ih =>
    obtain ⟨k', v'⟩ := p
    have hk : k ≠ k' := fun e => h _ (List.mem_cons_self _ _) e.symm
    rw [extend_cons, ih fun q hq => h q (List.mem_cons_of_mem _ hq), get?_insert, if_neg hk]

/-- No key is given two different values. -/
def Consistent (kvs : List (String × String)) : Prop :=
  ∀ k v v', (k, v) ∈ kvs → (k, v') ∈ kvs → v = v'

instance : DecidablePred Consistent := fun kvs =>
  decidable_of_iff (∀ p ∈ kvs, ∀ q ∈ kvs, p.1 = q.1 → p.2 = q.2)
    ⟨fun h k v v' hv hv' => h _ hv _ hv' rfl,
      fun h ⟨a, b⟩ hp ⟨c, d⟩ hq e => by obtain rfl : a = c := e; exact h a b d hp hq⟩

theorem Consistent.of_cons {p : String × String} {kvs : List (String × String)}
    (h : Consistent (p :: kvs)) : Consistent kvs :=
  fun k v v' hv hv' => h k v v' (List.mem_cons_of_mem _ hv) (List.mem_cons_of_mem _ hv')

/-- A key the pairs give one value ends with that value, whatever came before. -/
theorem get?_extend_of_mem {m : BTreeMap} {k v : String} {kvs : List (String × String)}
    (hc : Consistent kvs) (hm : (k, v) ∈ kvs) : (m.extend kvs).get? k = some v := by
  induction kvs generalizing m with
  | nil => cases hm
  | cons p rest ih =>
    obtain ⟨k', v'⟩ := p
    rw [extend_cons]
    by_cases later : ∀ q ∈ rest, q.1 ≠ k
    · have head : (k, v) = (k', v') := (List.mem_cons.mp hm).resolve_right
        fun m => later _ m rfl
      cases head
      rw [get?_extend_of_forall_ne later, get?_insert, if_pos rfl]
    · push_neg at later
      obtain ⟨⟨k'', v''⟩, hq, rfl⟩ := later
      have : v'' = v := hc _ _ _ (List.mem_cons_of_mem _ hq) hm
      exact ih hc.of_cons (this ▸ hq)

/-- Extending by consistent pairs depends only on which pairs occur, not on their order or
repetition. -/
theorem extend_congr {m : BTreeMap} {kvs₁ kvs₂ : List (String × String)}
    (hc : Consistent kvs₁) (same : ∀ p, p ∈ kvs₁ ↔ p ∈ kvs₂) :
    m.extend kvs₁ = m.extend kvs₂ := by
  have hc₂ : Consistent kvs₂ := fun k v v' hv hv' => hc k v v' ((same _).2 hv) ((same _).2 hv')
  ext k
  by_cases present : ∃ v, (k, v) ∈ kvs₁
  · obtain ⟨v, hv⟩ := present
    rw [get?_extend_of_mem hc hv, get?_extend_of_mem hc₂ ((same _).1 hv)]
  · push_neg at present
    have absent : ∀ {l : List (String × String)}, (∀ p, p ∈ kvs₁ ↔ p ∈ l) →
        ∀ p ∈ l, p.1 ≠ k := fun hl p hp e => present p.2 (e ▸ (hl p).2 hp)
    rw [get?_extend_of_forall_ne (absent fun _ => Iff.rfl), get?_extend_of_forall_ne (absent same)]

/-- A map built from consistent pairs holds exactly those pairs. -/
theorem get?_ofList_eq_some {kvs : List (String × String)} (hc : Consistent kvs) {k v : String} :
    (ofList kvs).get? k = some v ↔ (k, v) ∈ kvs := by
  refine ⟨fun h => ?_, get?_extend_of_mem hc⟩
  by_cases present : ∃ v', (k, v') ∈ kvs
  · obtain ⟨v', hv'⟩ := present
    rw [ofList, get?_extend_of_mem hc hv'] at h
    exact Option.some.inj h ▸ hv'
  · push_neg at present
    rw [ofList, get?_extend_of_forall_ne fun ⟨_, v'⟩ hp e => present v' (e ▸ hp)] at h
    cases h

theorem mem_iff_of_ofList_eq {kvs₁ kvs₂ : List (String × String)} (h₁ : Consistent kvs₁)
    (h₂ : Consistent kvs₂) (h : ofList kvs₁ = ofList kvs₂) (p : String × String) :
    p ∈ kvs₁ ↔ p ∈ kvs₂ := by
  rw [← get?_ofList_eq_some h₁, ← get?_ofList_eq_some h₂, h]

end BTreeMap

end Moon
