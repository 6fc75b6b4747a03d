import Mathlib.Algebra.Order.Ring.Nat
import Metropolis.Settings

/-!
# The seeds of an ensemble

The distance of a chain's seed from the first one stays at the largest word where it would not fit
in one, and only the sum with the first seed wraps around. So a seed is the sum modulo `2 ^ 64` as
long as the distance fits, and chains too far from the first for that all have the same seed.
-/

namespace Metropolis.Ensemble

variable (e : Ensemble) (base : UInt64) {i j : Nat}

theorem toNat_offset (i : Nat) : (e.offset i).toNat = min (i * e.stride.toNat) (2 ^ 64 - 1) := by
  have hfits : min (i * e.stride.toNat) (2 ^ 64 - 1) < 2 ^ 64 := by omega
  exact UInt64.toNat_ofNat_of_lt' hfits

theorem toNat_seed (i : Nat) :
    (e.seed base i).toNat = (base.toNat + min (i * e.stride.toNat) (2 ^ 64 - 1)) % 2 ^ 64 := by
  rw [seed, UInt64.toNat_add, toNat_offset]

/-! ## Sums that wrap around -/

/-- A seed is the wrapped sum if its distance from the first fits in a word, and otherwise only if
the distance is the largest word modulo `2 ^ 64`. -/
theorem seed_eq_sum_iff (i : Nat) :
    (e.seed base i).toNat = (base.toNat + i * e.stride.toNat) % 2 ^ 64 ↔
      i * e.stride.toNat < 2 ^ 64 ∨ i * e.stride.toNat % 2 ^ 64 = 2 ^ 64 - 1 := by
  rw [toNat_seed]
  generalize i * e.stride.toNat = distance
  have hbase := base.toNat_lt
  by_cases hfits : distance < 2 ^ 64
  · rw [Nat.min_eq_left (by omega)]
    simp only [hfits, true_or]
  · rw [Nat.min_eq_right (by omega)]
    -- The largest word in place of the distance: the same sum only for the same residue.
    omega

/-! ## Seeds that are shared -/

theorem seed_eq_seed_iff (i j : Nat) :
    e.seed base i = e.seed base j ↔
      min (i * e.stride.toNat) (2 ^ 64 - 1) = min (j * e.stride.toNat) (2 ^ 64 - 1) := by
  rw [← toNat_offset, ← toNat_offset, UInt64.toNat_inj]
  exact UInt64.add_right_inj base

theorem seed_eq_seed_iff_of_lt (hlt : i < j) (hstride : e.stride ≠ 0) :
    e.seed base i = e.seed base j ↔ 2 ^ 64 - 1 ≤ i * e.stride.toNat := by
  have hpos : 0 < e.stride.toNat := by
    rw [Nat.pos_iff_ne_zero]
    intro hzero
    exact hstride (UInt64.toNat_inj.1 hzero)
  have hfarther : i * e.stride.toNat < j * e.stride.toNat := Nat.mul_lt_mul_of_pos_right hlt hpos
  rw [seed_eq_seed_iff]
  omega

theorem check_eq_ok_iff : e.check = .ok () ↔ 2 ≤ e.chains ∧ e.stride ≠ 0 := by
  unfold check
  by_cases hchains : e.chains < 2
  · simp only [hchains, if_true, reduceCtorEq, false_iff]
    omega
  · by_cases hstride : e.stride = 0
    · simp [hchains, hstride]
    · simp [hchains, hstride]
      omega

/-- The chains of a run differ in their seeds exactly if the distance of the last but one from the
first is less than the largest word. -/
theorem seeds_distinct_iff (hcheck : e.check = .ok ()) :
    (∀ i < e.chains, ∀ j < e.chains, e.seed base i = e.seed base j → i = j) ↔
      (e.chains - 2) * e.stride.toNat < 2 ^ 64 - 1 := by
  obtain ⟨hchains, hstride⟩ := e.check_eq_ok_iff.1 hcheck
  constructor
  · intro hdistinct
    by_contra hfar
    have hshared := (e.seed_eq_seed_iff_of_lt base (i := e.chains - 2) (j := e.chains - 1)
      (by omega) hstride).2 (by omega)
    have heq := hdistinct _ (by omega) _ (by omega) hshared
    omega
  · intro hnear i hi j hj hshared
    -- The nearer of two chains with one seed would be too far from the first already.
    have hnearer : ∀ k l, k < l → l < e.chains → e.seed base k ≠ e.seed base l := by
      intro k l hkl hl heq
      have hfar := (e.seed_eq_seed_iff_of_lt base hkl hstride).1 heq
      have hle : k * e.stride.toNat ≤ (e.chains - 2) * e.stride.toNat :=
        Nat.mul_le_mul_right _ (by omega)
      omega
    rcases Nat.lt_trichotomy i j with hlt | heq | hlt
    · exact absurd hshared (hnearer i j hlt hj)
    · exact heq
    · exact absurd hshared.symm (hnearer j i hlt hi)

/-- When a seed is the wrapped sum, when two chains share one, and when no two of a run do. -/
theorem seeds_wrap (e : Ensemble) (hcheck : e.check = .ok ()) (base : UInt64) :
    (∀ i, (e.seed base i).toNat = (base.toNat + i * e.stride.toNat) % 2 ^ 64 ↔
        i * e.stride.toNat < 2 ^ 64 ∨ i * e.stride.toNat % 2 ^ 64 = 2 ^ 64 - 1) ∧
      (∀ i j, i < j → (e.seed base i = e.seed base j ↔ 2 ^ 64 - 1 ≤ i * e.stride.toNat)) ∧
      ((∀ i < e.chains, ∀ j < e.chains, e.seed base i = e.seed base j → i = j) ↔
        (e.chains - 2) * e.stride.toNat < 2 ^ 64 - 1) :=
  ⟨e.seed_eq_sum_iff base,
    fun _ _ hlt => e.seed_eq_seed_iff_of_lt base hlt (e.check_eq_ok_iff.1 hcheck).2,
    e.seeds_distinct_iff base hcheck⟩

/-- With a stride above half of the words, two chains are far enough apart already. -/
theorem seeds_wrap_wideStride :
    let e : Ensemble := ⟨4, 9223372036854775809⟩
    e.check = .ok () ∧ e.seed 0 1 = 9223372036854775809 ∧ e.seed 0 2 = e.seed 0 3 := by
  intro e
  have hcheck : e.check = .ok () := rfl
  obtain ⟨hsum, hshared, -⟩ := seeds_wrap e hcheck 0
  refine ⟨hcheck, ?_, (hshared 2 3 (by decide)).2 (by decide)⟩
  apply UInt64.toNat_inj.1
  rw [(hsum 1).2 (.inl (by decide))]
  decide

/-- A proper ensemble with an odd stride of which a seed is not the wrapped sum, and is shared by
two chains for which the sums differ. -/
theorem seed_shared_oddStride :
    let e : Ensemble := ⟨4, 9223372036854775809⟩
    e.check = .ok () ∧ e.stride.toNat % 2 = 1 ∧
      (e.seed 0 2).toNat ≠ (0 + 2 * e.stride.toNat) % 2 ^ 64 ∧
      e.seed 0 2 = e.seed 0 3 ∧
      2 * e.stride.toNat % 2 ^ 64 ≠ 3 * e.stride.toNat % 2 ^ 64 := by
  decide

end Metropolis.Ensemble
