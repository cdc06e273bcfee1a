import Mathlib

/-!
# Direct-mapped tables

A direct-mapped table has one slot for all keys with the same hash `h k`; an
entry `v` in it was stored under the key `key v`. Such a table stands for the
finite map of its entries (`Represents`) as long as an entry is only ever
replaced or removed through its own key.

* `Represents.put`: an update through a key whose slot is free or its own.
* `Represents.own`, `Represents.foreign`: what the slot of a key says about the
  map, and `Represents.foreign_iff` how the map shows that it is another's.
-/

namespace DirectMapped

variable {K V I : Type*} [DecidableEq K]

/-! ## Finite maps -/

/-- Set or remove the value of a key. -/
def put (m : Finmap fun _ : K => V) (k : K) : Option V → Finmap fun _ : K => V
  | none => m.erase k
  | some v => m.insert k v

@[simp] theorem lookup_put_self (m : Finmap fun _ : K => V) (k : K) (v : Option V) :
    (put m k v).lookup k = v := by
  cases v with
  | none => exact Finmap.lookup_erase k m
  | some v => exact Finmap.lookup_insert m

theorem lookup_put_ne (m : Finmap fun _ : K => V) {k k' : K} (h : k' ≠ k) (v : Option V) :
    (put m k v).lookup k' = m.lookup k' := by
  cases v with
  | none => exact Finmap.lookup_erase_ne h
  | some v => exact Finmap.lookup_insert_of_ne m h

theorem put_lookup (m : Finmap fun _ : K => V) (k : K) : put m k (m.lookup k) = m := by
  refine Finmap.ext_lookup fun k' => ?_
  by_cases h : k' = k
  · rw [h, lookup_put_self]
  · exact lookup_put_ne m h _

/-- The number of keys after an update. -/
theorem card_keys_put (m : Finmap fun _ : K => V) (k : K) (v : Option V) :
    (put m k v).keys.card = m.keys.card - (m.lookup k).isSome.toNat + v.isSome.toNat := by
  have hmem : k ∈ m.keys ↔ (m.lookup k).isSome = true := by
    rw [Finmap.mem_keys, Finmap.lookup_isSome]
  cases v with
  | none =>
    rw [put, Finmap.keys_erase]
    by_cases hk : (m.lookup k).isSome = true
    · rw [Finset.card_erase_of_mem (hmem.mpr hk), hk]
      rfl
    · rw [Finset.erase_eq_of_notMem (fun h => hk (hmem.mp h))]
      rw [Bool.not_eq_true] at hk
      rw [hk]
      rfl
  | some v =>
    have hkeys : (put m k (some v)).keys = insert k m.keys := by
      ext k'
      rw [put, Finmap.mem_keys, Finmap.mem_insert, Finset.mem_insert, Finmap.mem_keys]
    rw [hkeys]
    by_cases hk : (m.lookup k).isSome = true
    · have hpos : 0 < m.keys.card := Finset.card_pos.mpr ⟨k, hmem.mpr hk⟩
      rw [Finset.insert_eq_of_mem (hmem.mpr hk), hk]
      simp only [Bool.toNat_true, Option.isSome_some]
      omega
    · rw [Finset.card_insert_of_notMem (fun h => hk (hmem.mp h))]
      rw [Bool.not_eq_true] at hk
      rw [hk]
      rfl

/-! ## Tables -/

/-- The table with these slots stands for the map `m`. -/
structure Represents (h : K → I) (key : V → K) (slots : I → Option V)
    (m : Finmap fun _ : K => V) : Prop where
  lookup : ∀ k v, m.lookup k = some v ↔ slots (h k) = some v ∧ key v = k
  home : ∀ i v, slots i = some v → h (key v) = i

theorem represents_empty (h : K → I) (key : V → K) :
    Represents h key (fun _ => none) (∅ : Finmap fun _ : K => V) where
  lookup k v := by simp
  home i v hv := by cases hv

variable {h : K → I} {key : V → K} {slots : I → Option V} {m : Finmap fun _ : K => V}

/-- The slot of a key is free or holds its own entry: the map agrees. -/
theorem Represents.own (hr : Represents h key slots m) {k : K}
    (hown : ∀ v ∈ slots (h k), key v = k) : m.lookup k = slots (h k) := by
  cases hslot : slots (h k) with
  | none =>
    by_contra hne
    obtain ⟨v, hv⟩ := Option.ne_none_iff_exists'.mp hne
    have hs := ((hr.lookup k v).mp hv).1
    rw [hslot] at hs
    cases hs
  | some v => exact (hr.lookup k v).mpr ⟨hslot, hown v hslot⟩

/-- The slot of a key holds another key's entry: the map has none for it. -/
theorem Represents.foreign (hr : Represents h key slots m) {k : K} {v : V}
    (hslot : slots (h k) = some v) (hne : key v ≠ k) : m.lookup k = none := by
  by_contra hsome
  obtain ⟨v', hv'⟩ := Option.ne_none_iff_exists'.mp hsome
  obtain ⟨hs, hk⟩ := (hr.lookup k v').mp hv'
  rw [hslot] at hs
  injection hs with hs
  exact hne (hs ▸ hk)

/-- A slot holds another key's entry when the map has a key with the same hash. -/
theorem Represents.foreign_iff (hr : Represents h key slots m) {k : K} {v : V} :
    (slots (h k) = some v ∧ key v ≠ k) ↔ ∃ k', m.lookup k' = some v ∧ h k' = h k ∧ k' ≠ k := by
  constructor
  · rintro ⟨hslot, hne⟩
    have hhome := hr.home _ _ hslot
    exact ⟨key v, (hr.lookup _ _).mpr ⟨by rw [hhome]; exact hslot, rfl⟩, hhome, hne⟩
  · rintro ⟨k', hk', hhash, hne⟩
    obtain ⟨hslot, rfl⟩ := (hr.lookup k' v).mp hk'
    exact ⟨hhash ▸ hslot, hne⟩

/-- An update through a key whose slot is free or its own. -/
theorem Represents.put (hr : Represents h key slots m) {k : K}
    (hown : ∀ v ∈ slots (h k), key v = k) {slots' : I → Option V} {new : Option V}
    (hnew : ∀ v ∈ new, key v = k) (hself : slots' (h k) = new)
    (hother : ∀ i, i ≠ h k → slots' i = slots i) : Represents h key slots' (put m k new) where
  lookup k' v := by
    by_cases hk : k' = k
    · subst hk
      rw [lookup_put_self, hself]
      exact ⟨fun hv => ⟨hv, hnew v hv⟩, fun hv => hv.1⟩
    · rw [lookup_put_ne m hk]
      by_cases hh : h k' = h k
      · -- another key with the same hash: not in the map, before or after
        constructor
        · intro hv
          obtain ⟨hslot, hkey⟩ := (hr.lookup k' v).mp hv
          rw [hh] at hslot
          exact absurd (hkey.symm.trans (hown v hslot)) hk
        · rintro ⟨hslot, hkey⟩
          rw [hh, hself] at hslot
          exact absurd (hkey.symm.trans (hnew v hslot)) hk
      · rw [hother _ hh]
        exact hr.lookup k' v
  home i v hv := by
    by_cases hi : i = h k
    · subst hi
      rw [hself] at hv
      rw [hnew v hv]
    · rw [hother i hi] at hv
      exact hr.home i v hv

end DirectMapped
