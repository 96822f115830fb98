import EncryptedReals.Proofs.Ring.Residues
import Mathlib.NumberTheory.LucasPrimality

/-!
# Powers and inverses up to the word size

The sums and differences of residues are words and need a bit to spare.  Powers do not: the product of
two residues is taken in 128 bits and reduced at once, so square and multiply is right for every modulus
that is a word itself.  `Modulus.pow?` is the power with a check of every product it forms, and it returns
what `Modulus.pow` does; the invariant is that the base and the result stay below the modulus.

Powers also prove primality.  By Lucas's test a modulus is prime once a base has the power `q - 1` equal
to 1, but no power `(q - 1) / p` for a prime factor `p` of `q - 1`.

## Main Definitions

* `Modulus.pow?` — the power with checked products
* `Modulus.Certifies` — a certificate of primality

## Main results

* `Modulus.pow?_eq` — powers modulo a word do not overflow
* `Modulus.mul_mod_eq_one_iff` — the inverse is the only residue that is inverse
* `Modulus.pow_and_inv_exact` — powers and inverses are exact for every modulus of 64 bits
* `Modulus.Certifies.prime` — Lucas's test
-/

namespace EncryptedReals

namespace Modulus

variable {q : Modulus} {a b : ℕ}

/-! ### Products of 128 bits -/

/-- **Product of two residues with a check**: `none` when it does not fit in 128 bits before it is
reduced. -/
def mul? (q : Modulus) (a b : ℕ) : Option ℕ :=
  if a * b < 2 ^ 128 then some (q.mul a b) else none

/-- Square and multiply with checked products. -/
def powBits? (q : Modulus) : (bits exponent base result : ℕ) → Option ℕ
  | 0, _, _, result => some result
  | bits + 1, exponent, base, result => do
    let next ← if exponent % 2 = 1 then q.mul? result base else some result
    let square ← q.mul? base base
    powBits? q bits (exponent / 2) square next

/-- **Power of a residue with checked products**: `none` when any of them overflows. -/
def pow? (q : Modulus) (base exponent : ℕ) : Option ℕ :=
  powBits? q (bitLength exponent) exponent (base % q.value) 1

/-- Two residues of a modulus of 64 bits have a product of 128. -/
theorem mul?_eq (hq : q.value < 2 ^ 64) (ha : a < q.value) (hb : b < q.value) :
    q.mul? a b = some (q.mul a b) := by
  have hle : a * b ≤ (2 ^ 64 - 1) * (2 ^ 64 - 1) := Nat.mul_le_mul (by omega) (by omega)
  rw [mul?, if_pos (by omega)]

/-- **No check fails**, by induction on the bits: the base and the result stay residues. -/
theorem powBits?_eq (hq : q.value < 2 ^ 64) :
    ∀ (bits exponent base result : ℕ), base < q.value → result < q.value →
      q.powBits? bits exponent base result = some (q.powBits bits exponent base result) := by
  intro bits
  induction bits with
  | zero => exact fun _ _ _ _ _ => rfl
  | succ bits ih =>
      intro exponent base result hbase hresult
      have hpos : 0 < q.value := by omega
      rw [powBits?, powBits, mul?_eq hq hbase hbase]
      split
      · rw [mul?_eq hq hresult hbase]
        exact ih _ _ _ (mul_lt hpos _ _) (mul_lt hpos _ _)
      · exact ih _ _ _ (mul_lt hpos _ _) hresult

/-- **Powers do not overflow**, whatever the base and the exponent. -/
theorem pow?_eq (htwo : 2 ≤ q.value) (hq : q.value < 2 ^ 64) (base exponent : ℕ) :
    q.pow? base exponent = some (q.pow base exponent) :=
  powBits?_eq hq _ _ _ _ (Nat.mod_lt _ (by omega)) (by omega)

/-! ### Inverses -/

/-- A product is 1 modulo a prime exactly when its factors are inverse in the field. -/
theorem mul_mod_eq_one_iff_cast [hprime : Fact q.value.Prime] (a b : ℕ) :
    a * b % q.value = 1 ↔ (a : ZMod q.value) * b = 1 := by
  rw [← Nat.cast_mul, ← Nat.cast_one (R := ZMod q.value), ZMod.natCast_eq_natCast_iff',
    Nat.mod_eq_of_lt hprime.out.one_lt]

/-- **The inverse is the one residue that is inverse to its argument.** -/
theorem mul_mod_eq_one_iff [hprime : Fact q.value.Prime] (hq : q.value < 2 ^ 64)
    (ha : ¬q.value ∣ a) (b : ℕ) : b < q.value ∧ a * b % q.value = 1 ↔ b = q.inv a := by
  have hzero : (a : ZMod q.value) ≠ 0 := mt (ZMod.natCast_eq_zero_iff a q.value).mp ha
  have hinv := cast_inv hq hzero
  have hlt : q.inv a < q.value := pow_lt hprime.out.one_lt _ _
  rw [mul_mod_eq_one_iff_cast]
  constructor
  · rintro ⟨hb, hone⟩
    refine eq_of_cast_eq hb hlt ?_
    rw [hinv, eq_inv_of_mul_eq_one_right hone]
  · rintro rfl
    exact ⟨hlt, by rw [hinv, mul_inv_cancel₀ hzero]⟩

/-! ### Primality by powers -/

/-- **A certificate of primality**: the factors of `q - 1`, apart from its twos, and a base that has the
power `q - 1` equal to 1, but no power `(q - 1) / p` for 2 and those factors. -/
def Certifies (q : Modulus) (base twos : ℕ) (odds : List ℕ) : Prop :=
  1 < q.value ∧ 2 ^ twos * odds.prod = q.value - 1 ∧ q.pow base (q.value - 1) = 1 ∧
    ∀ p ∈ 2 :: odds, q.pow base ((q.value - 1) / p) ≠ 1

instance {base twos : ℕ} {odds : List ℕ} : Decidable (q.Certifies base twos odds) :=
  inferInstanceAs (Decidable (_ ∧ _ ∧ _ ∧ _))

/-- **Lucas's test**: what is certified with prime factors is prime. -/
theorem Certifies.prime {base twos : ℕ} {odds : List ℕ} (h : q.Certifies base twos odds)
    (hodds : ∀ p ∈ odds, p.Prime) : q.value.Prime := by
  obtain ⟨hq, hprod, hfull, hpart⟩ := h
  have hcast (exponent : ℕ) :
      (base : ZMod q.value) ^ exponent = 1 ↔ q.pow base exponent = 1 := by
    rw [← cast_pow, ← Nat.cast_one]
    exact ⟨eq_of_cast_eq (pow_lt hq _ _) hq, fun h => by rw [h]⟩
  refine lucas_primality q.value base ((hcast _).mpr hfull) fun p hp hdvd => ?_
  have hmem : p ∈ 2 :: odds := by
    rw [← hprod] at hdvd
    rcases hp.dvd_mul.mp hdvd with htwo | hodd
    · exact List.mem_cons.mpr (.inl (Nat.prime_eq_prime_of_dvd_pow hp Nat.prime_two htwo))
    · obtain ⟨f, hf, hpf⟩ := (Prime.dvd_prod_iff hp.prime).mp hodd
      obtain rfl := (Nat.prime_dvd_prime_iff_eq hp (hodds f hf)).mp hpf
      exact List.mem_cons_of_mem 2 hf
  exact mt (hcast _).mp (hpart p hmem)

/-! ### Every modulus of a word -/

/-- **Powers and inverses are exact up to the word size.**  For every modulus of 64 bits and all
arguments, square and multiply gives the canonical residue of the power and forms no product beyond
128 bits; and modulo a prime the power `q - 2` of what is not divisible by `q` is its inverse, which is
the only residue with that property. -/
theorem pow_and_inv_exact (q : Modulus) (htwo : 2 ≤ q.value) (hq : q.value < 2 ^ 64) :
    (∀ base exponent, q.pow base exponent = base ^ exponent % q.value ∧
      q.pow base exponent < q.value ∧ q.pow? base exponent = some (q.pow base exponent)) ∧
    (q.value.Prime → ∀ a, ¬q.value ∣ a →
      q.inv a = q.pow a (q.value - 2) ∧
        ∀ b, b < q.value ∧ a * b % q.value = 1 ↔ b = q.inv a) := by
  refine ⟨fun base exponent => ⟨pow_eq_mod (by omega) _ _, pow_lt (by omega) _ _,
    pow?_eq htwo hq _ _⟩, fun hprime a ha => ⟨inv_eq_pow htwo hq a, ?_⟩⟩
  have : Fact q.value.Prime := ⟨hprime⟩
  exact mul_mod_eq_one_iff hq ha

/-- A prime of 64 bits, 59 below the first number that is no word. -/
theorem prime_wide : Nat.Prime 18446744073709551557 := by
  have hfactor : Nat.Prime 5594472617641 :=
    (by decide +kernel : Certifies ⟨5594472617641⟩ 13 3 [3, 5, 1427, 2131, 15331]).prime (by norm_num)
  refine (by decide +kernel : Certifies ⟨18446744073709551557⟩ 2 2
    [11, 137, 547, 5594472617641]).prime ?_
  simp only [List.forall_mem_cons]
  exact ⟨by norm_num, by norm_num, by norm_num, hfactor, List.forall_mem_nil _⟩

/-- The cube of the largest word and the inverse of 3, modulo that prime. -/
theorem pow_and_inv_exact_wide :
    (⟨18446744073709551557⟩ : Modulus).value.Prime ∧
      (⟨18446744073709551557⟩ : Modulus).pow 18446744073709551615 3 = 195112 ∧
      (⟨18446744073709551557⟩ : Modulus).pow? 18446744073709551615 3 = some 195112 ∧
      (⟨18446744073709551557⟩ : Modulus).inv 3 = 6148914691236517186 := by
  obtain ⟨hpow, hinv⟩ := pow_and_inv_exact ⟨18446744073709551557⟩ (by decide) (by decide)
  have hcube : (⟨18446744073709551557⟩ : Modulus).pow 18446744073709551615 3 = 195112 := by
    rw [(hpow _ _).1]
    norm_num
  refine ⟨prime_wide, hcube, (hpow _ _).2.2.trans (congrArg some hcube), ?_⟩
  exact (((hinv prime_wide 3 (by decide)).2 6148914691236517186).mp (by decide)).symm

end Modulus

end EncryptedReals
