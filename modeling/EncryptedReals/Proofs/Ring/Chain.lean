import EncryptedReals.Proofs.Success
import EncryptedReals.Ring.PrimeChain

/-!
# The generated chain

The primes that `PrimeChain.generate` returns have the widths asked for, are 1 modulo
the order, and are distinct.  Primes of different widths lie in disjoint ranges.
For one width the cursor carries the argument: it stays below every prime that the
width has produced (`next?_spec`), and each new prime is at or below the cursor.

Whether a number that passes the primality test is prime is not settled here.
-/

namespace EncryptedReals.PrimeChain

variable {order bits : ℕ}

/-- **A prime of a width** for an order: in the upper half of the range of the width, and 1
modulo the order. -/
structure OfWidth (order bits p : ℕ) : Prop where
  lower : 2 ^ (bits - 1) < p
  upper : p < 2 ^ bits
  congruent : p % order = 1
  passes : Primality.isPrime p = true

/-- The candidate below a prime keeps what makes it a candidate. -/
def CursorsBelow (order : ℕ) (cursors : List (ℕ × ℕ)) : Prop :=
  ∀ bits c, cursors.lookup bits = some c → c % order = 1 ∧ c < 2 ^ bits

/-! ### The search -/

/-- The search ends at an admissible number some steps below the candidate. -/
theorem descend_spec {lower p : ℕ} :
    ∀ {fuel candidate : ℕ}, descend order lower fuel candidate = some p →
      lower < p ∧ Primality.isPrime p = true ∧ ∃ m, candidate = p + m * order := by
  intro fuel
  induction fuel with
  | zero =>
      intro candidate h
      cases h
  | succ fuel ih =>
      intro candidate h
      unfold descend at h
      split at h
      · cases h
      · split at h
        · next hlow hprime =>
            cases h
            exact ⟨by omega, hprime, 0, by omega⟩
        · obtain ⟨hlow, hprime, m, hm⟩ := ih h
          refine ⟨hlow, hprime, m + 1, ?_⟩
          -- a candidate below the order would have been the last one
          have hle : p ≤ candidate - order := by omega
          rw [Nat.add_mul]
          omega

theorem top?_spec {m c : ℕ} (hm : 1 ≤ m) (h : top? bits (2 ^ m) = some c) :
    c % 2 ^ m = 1 ∧ c < 2 ^ bits := by
  unfold top? at h
  split at h
  · next hle =>
      cases h
      have hbits : m ≤ bits := (Nat.pow_le_pow_iff_right (by norm_num : 1 < 2)).mp hle
      have htwo : 2 ≤ 2 ^ m := Nat.pow_le_pow_right (by norm_num : 0 < 2) hm
      have hdvd : 2 ^ m ∣ 2 ^ bits - 2 ^ m :=
        Nat.dvd_sub (pow_dvd_pow 2 hbits) dvd_rfl
      refine ⟨?_, by omega⟩
      rw [Nat.add_mod, Nat.mod_eq_zero_of_dvd hdvd, zero_add, Nat.mod_mod,
        Nat.mod_eq_of_lt (by omega)]
  · cases h

/-- **The next prime** has the width asked for and stays at or below the cursor. -/
theorem next?_spec {m p : ℕ} {cursors : List (ℕ × ℕ)} (hm : 1 ≤ m)
    (hcursors : CursorsBelow (2 ^ m) cursors) (h : next? (2 ^ m) cursors bits = some p) :
    OfWidth (2 ^ m) bits p ∧ ∀ c, cursors.lookup bits = some c → p ≤ c := by
  unfold next? at h
  obtain ⟨candidate, hcandidate, hdescend⟩ := Option.bind_eq_some_iff.mp h
  obtain ⟨hlow, hprime, steps, hsteps⟩ := descend_spec hdescend
  have hstart : candidate % 2 ^ m = 1 ∧ candidate < 2 ^ bits := by
    cases hlookup : cursors.lookup bits with
    | none =>
        rw [hlookup, Option.none_or] at hcandidate
        exact top?_spec hm hcandidate
    | some c =>
        rw [hlookup, Option.some_or, Option.some.injEq] at hcandidate
        exact hcandidate ▸ hcursors bits c hlookup
  refine ⟨⟨hlow, by omega, ?_, hprime⟩, fun c hc => ?_⟩
  · rw [← hstart.1, hsteps, Nat.add_mul_mod_self_right]
  · rw [hc, Option.some_or, Option.some.injEq] at hcandidate
    omega

/-- The candidate below a prime can stand for its width. -/
theorem CursorsBelow.cons {p : ℕ} {cursors : List (ℕ × ℕ)} (hcursors : CursorsBelow order cursors)
    (hp : OfWidth order bits p) : CursorsBelow order ((bits, p - order) :: cursors) := by
  intro b c hc
  rw [List.lookup_cons] at hc
  split at hc
  · next heq =>
      cases hc
      have hbits : b = bits := beq_iff_eq.mp heq
      have hone : 0 < 2 ^ (bits - 1) := Nat.two_pow_pos _
      have hlower := hp.lower
      have hupper := hp.upper
      have hle : order ≤ p := by
        by_contra hlt
        have hmod := hp.congruent
        rw [Nat.mod_eq_of_lt (by omega)] at hmod
        omega
      refine ⟨?_, by rw [hbits]; omega⟩
      rw [← Nat.mod_eq_sub_mod hle, hp.congruent]
  · exact hcursors b c hc

/-! ### The chain -/

/-- Widths whose ranges meet are equal. -/
theorem OfWidth.width_unique {b b' p : ℕ} (h : OfWidth order b p) (h' : OfWidth order b' p) :
    b = b' := by
  have hle : ∀ {x y : ℕ}, OfWidth order x p → OfWidth order y p → x ≤ y := by
    intro x y hx hy
    by_contra hlt
    have hpow : 2 ^ y ≤ 2 ^ (x - 1) := Nat.pow_le_pow_right (by norm_num : 0 < 2) (by omega)
    have hlower := hx.lower
    have hupper := hy.upper
    omega
  exact le_antisymm (hle h h') (hle h' h)

/-- **The remaining primes are distinct, have their widths, and stay below the cursors.** -/
theorem generateFrom_spec {m : ℕ} (hm : 1 ≤ m) :
    ∀ {widths : List ℕ} {cursors : List (ℕ × ℕ)} {moduli : List Modulus},
      CursorsBelow (2 ^ m) cursors → generateFrom (2 ^ m) cursors widths = .ok moduli →
      moduli.length = widths.length ∧ moduli.Nodup ∧
        ∀ q ∈ moduli, ∃ bits ∈ widths, OfWidth (2 ^ m) bits q.value ∧
          ∀ c, cursors.lookup bits = some c → q.value ≤ c := by
  intro widths
  induction widths with
  | nil =>
      intro cursors moduli _ h
      cases h
      exact ⟨rfl, List.nodup_nil, fun q hq => by simp at hq⟩
  | cons bits widths ih =>
      intro cursors moduli hcursors h
      unfold generateFrom at h
      split at h
      · cases h
      · next p hnext =>
          simp only [bind_eq_ok, pure_eq_ok] at h
          obtain ⟨rest, hrest, rfl⟩ := h
          obtain ⟨hwidth, hcursor⟩ := next?_spec hm hcursors hnext
          obtain ⟨hlength, hnodup, hmembers⟩ := ih (hcursors.cons hwidth) hrest
          have hpos : 0 < 2 ^ m := Nat.two_pow_pos m
          refine ⟨by rw [List.length_cons, List.length_cons, hlength], ?_, ?_⟩
          · -- a later prime of this width stays below the new cursor
            refine List.nodup_cons.mpr ⟨fun hmem => ?_, hnodup⟩
            obtain ⟨b, -, hb, hbcursor⟩ := hmembers _ hmem
            have hbits : b = bits := hb.width_unique hwidth
            have hlt := hbcursor (p - 2 ^ m) (by rw [hbits, List.lookup_cons_self])
            have hpositive : 0 < p := Nat.zero_lt_of_lt hwidth.lower
            have hge : p ≤ p - 2 ^ m := hlt
            omega
          · intro q hq
            rcases List.mem_cons.mp hq with rfl | hq
            · exact ⟨bits, List.mem_cons_self, hwidth, hcursor⟩
            · obtain ⟨b, hb, hbwidth, hbcursor⟩ := hmembers q hq
              refine ⟨b, List.mem_cons_of_mem bits hb, hbwidth, fun c hc => ?_⟩
              by_cases heq : b = bits
              · subst heq
                have hnew := hbcursor (p - 2 ^ m) List.lookup_cons_self
                have hold := hcursor c hc
                omega
              · refine hbcursor c ?_
                rw [List.lookup_cons, beq_eq_false_iff_ne.mpr heq]
                exact hc

/-- **The generated chain**: distinct numbers of the widths asked for, 1 modulo the order. -/
theorem generate_spec {m : ℕ} {widths : List ℕ} {moduli : List Modulus} (hm : 1 ≤ m)
    (h : generate (2 ^ m) widths = .ok moduli) :
    moduli.length = widths.length ∧ moduli.Nodup ∧
      ∀ q ∈ moduli, ∃ bits ∈ widths, OfWidth (2 ^ m) bits q.value := by
  obtain ⟨hlength, hnodup, hmembers⟩ :=
    generateFrom_spec hm (fun b c hc => by simp at hc) h
  refine ⟨hlength, hnodup, fun q hq => ?_⟩
  obtain ⟨bits, hbits, hwidth, -⟩ := hmembers q hq
  exact ⟨bits, hbits, hwidth⟩

end EncryptedReals.PrimeChain
