import EncryptedReals.Proofs.Context

/-!
# Which primes a chain is made of

The search for the primes of a chain keeps one cursor for each width and walks down from it.  The
cursor of a width carries the argument: it is 1 modulo the order, and as many primes of the width lie
above it as the width has produced.  So what the search finds next is the largest prime that is left,
and when it finds nothing the width has no prime left.  Widths do not interfere, however they are
interleaved in the list.

That the primality test is right on the candidates is assumed where it is needed.

## Main Definitions

* `PrimeChain.widthPrimes` — the primes of a width that are 1 modulo the order
* `PrimeChain.HasRank` — the prime of a width with a given number of larger ones
* `PrimeChain.Tracks` — what a cursor knows about its width

## Main results

* `PrimeChain.next?_eq_some`, `PrimeChain.next?_eq_none` — one step of the search
* `PrimeChain.generateFrom_eq_ok`, `PrimeChain.generateFrom_eq_error` — the whole search
* `Parameters.make_iff` — when parameters exist, and which moduli they have
-/

namespace EncryptedReals

open Finset

namespace PrimeChain

variable {order bits m : ℕ}

/-- **The primes of a width** that are 1 modulo the order. -/
def widthPrimes (order bits : ℕ) : Finset ℕ :=
  {p ∈ Ioo (2 ^ (bits - 1)) (2 ^ bits) | p.Prime ∧ p % order = 1}

/-- The primality test decides primality on the candidates of a width. -/
def Decides (order bits : ℕ) : Prop :=
  ∀ n, 2 ^ (bits - 1) < n → n < 2 ^ bits → n % order = 1 → (Primality.isPrime n = true ↔ n.Prime)

/-- **The prime of a rank**: `k` primes of the width are larger. -/
structure HasRank (order bits k p : ℕ) : Prop where
  mem : p ∈ widthPrimes order bits
  card_larger : #{r ∈ widthPrimes order bits | p < r} = k

theorem mem_widthPrimes {p : ℕ} :
    p ∈ widthPrimes order bits ↔
      (2 ^ (bits - 1) < p ∧ p < 2 ^ bits) ∧ p.Prime ∧ p % order = 1 := by
  rw [widthPrimes, mem_filter, mem_Ioo]

/-- Two numbers that are 1 modulo the order are the order apart. -/
theorem add_le_of_lt {r c : ℕ} (hr : r % order = 1) (hc : c % order = 1) (hlt : r < c) :
    r + order ≤ c := by
  have hdvd : order ∣ c - r := (Nat.modEq_iff_dvd' hlt.le).mp (hr.trans hc.symm)
  have hle := Nat.le_of_dvd (by omega) hdvd
  omega

/-- A prime of a width lies above the order. -/
theorem order_le_of_mem {p : ℕ} (hp : p ∈ widthPrimes order bits) : order ≤ p := by
  obtain ⟨-, hprime, hmod⟩ := mem_widthPrimes.mp hp
  by_contra hlt
  rw [Nat.mod_eq_of_lt (by omega)] at hmod
  exact hprime.one_lt.ne' hmod

/-! ### Ranks -/

/-- A rank leaves room for one more prime. -/
theorem HasRank.lt_card {k p : ℕ} (h : HasRank order bits k p) : k < #(widthPrimes order bits) := by
  rw [← h.card_larger]
  exact card_lt_card (filter_ssubset.mpr ⟨p, h.mem, lt_irrefl p⟩)

/-! ### The search below a candidate -/

/-- **What the search finds is the greatest** number that passes. -/
theorem descend_greatest {lower p : ℕ} : ∀ {fuel candidate : ℕ}, candidate % order = 1 →
    descend order lower fuel candidate = some p → ∀ r, r ≤ candidate → r % order = 1 →
      Primality.isPrime r = true → r ≤ p := by
  intro fuel
  induction fuel with
  | zero => exact fun _ h => nomatch h
  | succ fuel ih =>
      intro candidate hcandidate h r hle hr hpasses
      unfold descend at h
      split at h
      · cases h
      · split at h
        · cases h
          exact hle
        · next hfails =>
            rcases hle.eq_or_lt with rfl | hlt
            · exact absurd hpasses hfails
            · have hstep := add_le_of_lt hr hcandidate hlt
              refine ih ?_ h r (by omega) hr hpasses
              rw [← Nat.mod_eq_sub_mod (by omega), hcandidate]

/-- **A search that finds nothing** has left out nothing that passes. -/
theorem descend_exhausted {lower : ℕ} (horder : 0 < order) : ∀ {fuel candidate : ℕ},
    candidate / order < fuel → candidate % order = 1 → descend order lower fuel candidate = none →
      ∀ r, lower < r → r ≤ candidate → r % order = 1 → ¬Primality.isPrime r = true := by
  intro fuel
  induction fuel with
  | zero => exact fun h => nomatch h
  | succ fuel ih =>
      intro candidate hfuel hcandidate h r hlower hle hr
      unfold descend at h
      split at h
      · omega
      · split at h
        · cases h
        · next hfails =>
            rcases hle.eq_or_lt with rfl | hlt
            · exact hfails
            · have hstep := add_le_of_lt hr hcandidate hlt
              have hquotient := Nat.div_eq_sub_div horder (by omega : order ≤ candidate)
              refine ih (by omega) ?_ h r hlower (by omega) hr
              rw [← Nat.mod_eq_sub_mod (by omega), hcandidate]

/-! ### Cursors -/

/-- **What a cursor knows about its width**: as many primes lie above it as the width has been asked
for, and it is 1 modulo the order.  A width without a cursor has not been asked for. -/
def Tracks (order : ℕ) (cursors : List (ℕ × ℕ)) (earlier : List ℕ) (bits : ℕ) : Prop :=
  match cursors.lookup bits with
  | none => earlier.count bits = 0
  | some c => c % order = 1 ∧ c < 2 ^ bits ∧
      #{p ∈ widthPrimes order bits | c < p} = earlier.count bits

/-- No prime of a width lies above the candidate at its top. -/
theorem card_above_top {c : ℕ} (hm : 1 ≤ m) (h : top? bits (2 ^ m) = some c) :
    #{p ∈ widthPrimes (2 ^ m) bits | c < p} = 0 := by
  rw [card_eq_zero, filter_eq_empty_iff]
  intro p hp hlt
  obtain ⟨⟨-, hupper⟩, -, hmod⟩ := mem_widthPrimes.mp hp
  have hstep := add_le_of_lt (top?_spec hm h).1 hmod hlt
  unfold top? at h
  split at h <;> cases h
  omega

/-- A width below the order has no primes. -/
theorem widthPrimes_eq_empty (h : top? bits order = none) : widthPrimes order bits = ∅ := by
  refine eq_empty_of_forall_notMem fun p hp => ?_
  have hle := order_le_of_mem hp
  obtain ⟨⟨-, hupper⟩, -⟩ := mem_widthPrimes.mp hp
  unfold top? at h
  split at h
  · cases h
  · omega

/-- **The candidate of a width** is where the cursor says. -/
theorem Tracks.candidate {cursors : List (ℕ × ℕ)} {earlier : List ℕ} (hm : 1 ≤ m)
    (h : Tracks (2 ^ m) cursors earlier bits) {c : ℕ}
    (hc : (cursors.lookup bits).or (top? bits (2 ^ m)) = some c) :
    c % 2 ^ m = 1 ∧ c < 2 ^ bits ∧
      #{p ∈ widthPrimes (2 ^ m) bits | c < p} = earlier.count bits := by
  unfold Tracks at h
  cases hlookup : cursors.lookup bits with
  | none =>
      rw [hlookup] at h hc
      obtain ⟨hmod, hupper⟩ := top?_spec hm hc
      exact ⟨hmod, hupper, (card_above_top hm hc).trans h.symm⟩
  | some c' =>
      rw [hlookup] at h hc
      cases hc
      exact h

section Step

variable {cursors : List (ℕ × ℕ)} {earlier : List ℕ} {p : ℕ}

/-- **One step finds the largest prime that is left**: its rank is the number of times the width was
asked for before. -/
theorem next?_eq_some (hm : 1 ≤ m) (hdecides : Decides (2 ^ m) bits)
    (h : Tracks (2 ^ m) cursors earlier bits) (hnext : next? (2 ^ m) cursors bits = some p) :
    HasRank (2 ^ m) bits (earlier.count bits) p := by
  obtain ⟨c, hc, hdescend⟩ := Option.bind_eq_some_iff.mp hnext
  obtain ⟨hmod, hupper, hcard⟩ := h.candidate hm hc
  obtain ⟨hlower, hpasses, steps, hsteps⟩ := descend_spec hdescend
  have hle : p ≤ c := by omega
  have hpmod : p % 2 ^ m = 1 := by rw [← hmod, hsteps, Nat.add_mul_mod_self_right]
  have hprime := (hdecides p hlower (by omega) hpmod).mp hpasses
  refine ⟨mem_widthPrimes.mpr ⟨⟨hlower, by omega⟩, hprime, hpmod⟩, ?_⟩
  rw [← hcard]
  congr 1
  refine filter_congr fun r hr => ⟨fun hlt => ?_, fun hlt => hle.trans_lt hlt⟩
  -- a larger prime at or below the candidate would have been found first
  obtain ⟨⟨hrlower, hrupper⟩, hrprime, hrmod⟩ := mem_widthPrimes.mp hr
  by_contra hrle
  have hrpasses := (hdecides r hrlower hrupper hrmod).mpr hrprime
  have hgreatest := descend_greatest hmod hdescend r (not_lt.mp hrle) hrmod hrpasses
  omega

/-- **When a step finds nothing**, the width was asked for all its primes before. -/
theorem next?_eq_none (hm : 1 ≤ m) (hdecides : Decides (2 ^ m) bits)
    (h : Tracks (2 ^ m) cursors earlier bits) (hnext : next? (2 ^ m) cursors bits = none) :
    #(widthPrimes (2 ^ m) bits) ≤ earlier.count bits := by
  cases hc : (cursors.lookup bits).or (top? bits (2 ^ m)) with
  | none =>
      rw [Option.or_eq_none_iff] at hc
      rw [widthPrimes_eq_empty hc.2, card_empty]
      exact Nat.zero_le _
  | some c =>
      obtain ⟨hmod, -, hcard⟩ := h.candidate hm hc
      have hdescend := (Option.bind_eq_none_iff.mp hnext) c hc
      rw [← hcard, filter_true_of_mem fun r hr => ?_]
      obtain ⟨⟨hlower, hupper⟩, hprime, hrmod⟩ := mem_widthPrimes.mp hr
      by_contra hle
      exact descend_exhausted (Nat.two_pow_pos m) (Nat.lt_succ_self _) hmod hdescend r hlower
        (not_lt.mp hle) hrmod ((hdecides r hlower hupper hrmod).mpr hprime)

/-- Above the candidate below a prime there is one prime more. -/
theorem HasRank.card_above {k : ℕ} (h : HasRank order bits k p) :
    #{r ∈ widthPrimes order bits | p - order < r} = k + 1 := by
  have horder := order_le_of_mem h.mem
  obtain ⟨-, hprime, hpmod⟩ := mem_widthPrimes.mp h.mem
  have hinsert : {r ∈ widthPrimes order bits | p - order < r} =
      insert p {r ∈ widthPrimes order bits | p < r} := by
    ext r
    simp only [mem_filter, mem_insert]
    constructor
    · rintro ⟨hr, hlt⟩
      rcases lt_trichotomy r p with hrp | rfl | hrp
      · have hstep := add_le_of_lt (mem_widthPrimes.mp hr).2.2 hpmod hrp
        omega
      · exact .inl rfl
      · exact .inr ⟨hr, hrp⟩
    · rintro (rfl | ⟨hr, hlt⟩)
      · refine ⟨h.mem, ?_⟩
        have hpos : 0 < order := by
          by_contra hzero
          obtain rfl : order = 0 := by omega
          rw [Nat.mod_zero] at hpmod
          exact hprime.one_lt.ne' hpmod
        have := hprime.pos
        omega
      · exact ⟨hr, by omega⟩
  rw [hinsert, card_insert_of_notMem (by simp), h.card_larger]

/-- **A step moves the cursor of its width**, and no other. -/
theorem Tracks.cons {w : ℕ} (hp : HasRank order bits (earlier.count bits) p)
    (h : Tracks order cursors earlier w) :
    Tracks order ((bits, p - order) :: cursors) (bits :: earlier) w := by
  unfold Tracks at h ⊢
  by_cases hw : w = bits
  · subst hw
    have horder := order_le_of_mem hp.mem
    obtain ⟨⟨-, hupper⟩, -, hmod⟩ := mem_widthPrimes.mp hp.mem
    rw [List.lookup_cons_self, List.count_cons_self]
    exact ⟨(Nat.mod_eq_sub_mod horder).symm.trans hmod, by omega, hp.card_above⟩
  · rw [List.lookup_cons, beq_eq_false_iff_ne.mpr hw, List.count_cons_of_ne (Ne.symm hw)]
    exact h

end Step

/-! ### The whole search -/

/-- **The primes of a list of widths**: each has the rank that its width has reached. -/
theorem generateFrom_eq_ok (hm : 1 ≤ m) :
    ∀ {widths earlier : List ℕ} {cursors : List (ℕ × ℕ)} {moduli : List Modulus},
      (∀ w ∈ widths, Decides (2 ^ m) w ∧ Tracks (2 ^ m) cursors earlier w) →
        generateFrom (2 ^ m) cursors widths = .ok moduli →
          (∀ i w q, widths[i]? = some w → moduli[i]? = some q →
            HasRank (2 ^ m) w (earlier.count w + (widths.take i).count w) q.value) ∧
          ∀ w ∈ widths, earlier.count w + widths.count w ≤ #(widthPrimes (2 ^ m) w) := by
  intro widths
  induction widths with
  | nil => exact fun _ _ => ⟨fun i w q hw => by simp at hw, List.forall_mem_nil _⟩
  | cons bits widths ih =>
      intro earlier cursors moduli hwidths h
      obtain ⟨⟨hdecides, htracks⟩, hrest⟩ := List.forall_mem_cons.mp hwidths
      unfold generateFrom at h
      split at h
      · cases h
      · next p hnext =>
          simp only [bind_eq_ok, pure_eq_ok] at h
          obtain ⟨rest, hgenerate, rfl⟩ := h
          have hp := next?_eq_some hm hdecides htracks hnext
          obtain ⟨hranks, hcounts⟩ := ih (fun w hw => ⟨(hrest w hw).1, (hrest w hw).2.cons hp⟩)
            hgenerate
          have hcount : ∀ (l : List ℕ) w, (bits :: earlier).count w + l.count w =
              earlier.count w + (bits :: l).count w := by
            intro l w
            rw [List.count_cons, List.count_cons]
            omega
          refine ⟨fun i w q hw hq => ?_, fun w hw => ?_⟩
          · cases i with
            | zero =>
                cases hw
                cases hq
                exact hp
            | succ i =>
                rw [List.take_succ_cons, ← hcount]
                exact hranks i w q hw hq
          · rw [← hcount]
            by_cases hmem : w ∈ widths
            · exact hcounts w hmem
            · obtain rfl : w = bits := (List.mem_cons.mp hw).resolve_right hmem
              rw [List.count_cons_self, List.count_eq_zero_of_not_mem hmem]
              exact hp.lt_card

/-- **A search that fails** has met a width that is asked for more primes than it has. -/
theorem generateFrom_eq_error (hm : 1 ≤ m) :
    ∀ {widths earlier : List ℕ} {cursors : List (ℕ × ℕ)} {e : Failure},
      (∀ w ∈ widths, Decides (2 ^ m) w ∧ Tracks (2 ^ m) cursors earlier w) →
        generateFrom (2 ^ m) cursors widths = .error e →
          ∃ w, #(widthPrimes (2 ^ m) w) < earlier.count w + widths.count w ∧
            e = .configuration (.primesExhausted w (2 ^ m)) := by
  intro widths
  induction widths with
  | nil => exact fun _ h => nomatch h
  | cons bits widths ih =>
      intro earlier cursors e hwidths h
      obtain ⟨⟨hdecides, htracks⟩, hrest⟩ := List.forall_mem_cons.mp hwidths
      unfold generateFrom at h
      split at h
      · next hnext =>
          cases h
          refine ⟨bits, ?_, rfl⟩
          have hall := next?_eq_none hm hdecides htracks hnext
          rw [List.count_cons_self]
          omega
      · next p hnext =>
          have hp := next?_eq_some hm hdecides htracks hnext
          obtain ⟨w, hlt, rfl⟩ := ih (fun w hw => ⟨(hrest w hw).1, (hrest w hw).2.cons hp⟩)
            (bind_pure_eq_error.mp h)
          refine ⟨w, ?_, rfl⟩
          rw [List.count_cons] at hlt ⊢
          omega

end PrimeChain

/-! ### Parameters -/

open PrimeChain

/-- The width of a modulus is the width it was found for. -/
theorem Modulus.bits_of_mem {order w : ℕ} {q : Modulus} (hw : 1 ≤ w)
    (hq : q.value ∈ widthPrimes order w) : q.bits = w := by
  obtain ⟨⟨hlower, hupper⟩, hprime, -⟩ := mem_widthPrimes.mp hq
  have hlog : q.value.log2 = w - 1 := by
    rw [Nat.log2_eq_iff hprime.ne_zero, Nat.sub_add_cancel hw]
    exact ⟨hlower.le, hupper⟩
  rw [bits, bitLength, if_neg hprime.ne_zero, hlog, Nat.sub_add_cancel hw]

namespace Parameters

/-- The bound of a security level holds, if it has one. -/
def WithinBound (degree total : ℕ) (security : Security) : Prop :=
  security = .unchecked ∨ ∃ bound, Security.bound? degree = some bound ∧ total ≤ bound

theorem checkSecurity_ok {degree total : ℕ} {security : Security} :
    checkSecurity degree total security = .ok () ↔ WithinBound degree total security := by
  unfold checkSecurity WithinBound
  cases security with
  | unchecked => simp
  | classical128 =>
      cases hbound : Security.bound? degree with
      | none => simp
      | some bound =>
          simp only [reduceCtorEq, false_or, Option.some.injEq, exists_eq_left']
          split <;> simp <;> omega

/-- **Past its first checks** the constructor asks for the security bound and for the primes. -/
theorem make_ok_iff {k : ℕ} {widths : List ℕ} {security : Security} {params : Parameters}
    (hk : 1 ≤ k) (hne : widths ≠ []) (hwidths : ∀ w ∈ widths, 2 ≤ w ∧ w ≤ maxModulusBits) :
    make (2 ^ k) widths security = .ok params ↔ WithinBound (2 ^ k) widths.sum security ∧
      ∃ moduli, generate (2 * 2 ^ k) widths = .ok moduli ∧ ⟨2 ^ k, moduli, security⟩ = params := by
  have hdegree : ¬(!isPowerOfTwo (2 ^ k) || decide (2 ^ k < 2)) = true := by
    have htwo : 2 ^ 1 ≤ 2 ^ k := Nat.pow_le_pow_right (by norm_num) hk
    have hpos : 2 ^ k ≠ 0 := by positivity
    simp only [isPowerOfTwo, Nat.log2_two_pow, bne_iff_ne.mpr hpos, Bool.true_and, Bool.or_eq_true,
      Bool.not_eq_true', decide_eq_true_eq, not_or, not_lt]
    exact ⟨by simp, htwo⟩
  have hempty : ¬widths.isEmpty = true := by simpa using hne
  have hfind : widths.find? (fun bits => bits < 2 || maxModulusBits < bits) = none := by
    refine List.find?_eq_none.mpr fun w hw => ?_
    have hw := hwidths w hw
    simp only [Bool.or_eq_true, decide_eq_true_eq, not_or, not_lt]
    exact hw
  rw [make, if_neg hdegree, if_neg hempty, hfind, check_bind_eq_ok, checkSecurity_ok]
  simp only [bind_eq_ok, pure_eq_ok]

/-- **When parameters exist, and which moduli they have.**  For a power of two and widths in range,
parameters exist exactly when the security bound holds and no width is asked for more primes than it
has.  The modulus of an entry is then the largest prime of its width that earlier entries of the width
have left: its rank is the number of these entries.  So the moduli are distinct primes of the widths
asked for, and 1 modulo twice the dimension. -/
theorem make_iff (degree : ℕ) (widths : List ℕ) (security : Security) {k : ℕ} (hk : 1 ≤ k)
    (hdegree : degree = 2 ^ k) (hne : widths ≠ [])
    (hwidths : ∀ w ∈ widths, 2 ≤ w ∧ w ≤ maxModulusBits)
    (hdecides : ∀ w ∈ widths, Decides (2 * degree) w) :
    ((∃ params, make degree widths security = .ok params) ↔
      WithinBound degree widths.sum security ∧
        ∀ w, widths.count w ≤ #(widthPrimes (2 * degree) w)) ∧
    ∀ params, make degree widths security = .ok params →
      params.degree = degree ∧ params.moduli.map Modulus.bits = widths ∧ params.moduli.Nodup ∧
        (∀ q ∈ params.moduli, q.value.Prime ∧ q.value % (2 * degree) = 1) ∧
        ∀ i w q, widths[i]? = some w → params.moduli[i]? = some q →
          HasRank (2 * degree) w ((widths.take i).count w) q.value := by
  subst hdegree
  have hpow : 2 * 2 ^ k = 2 ^ (k + 1) := (pow_succ' 2 k).symm
  have hstart : ∀ w ∈ widths, Decides (2 ^ (k + 1)) w ∧ Tracks (2 ^ (k + 1)) [] [] w := by
    rw [← hpow]
    exact fun w hw => ⟨hdecides w hw, List.count_nil⟩
  simp only [make_ok_iff hk hne hwidths, hpow]
  constructor
  · rw [exists_and_left]
    refine and_congr_right fun _ => ⟨?_, fun hcounts => ?_⟩
    · rintro ⟨params, moduli, hmoduli, rfl⟩ w
      by_cases hw : w ∈ widths
      · simpa using (generateFrom_eq_ok (by omega) hstart hmoduli).2 w hw
      · rw [List.count_eq_zero_of_not_mem hw]
        exact Nat.zero_le _
    · cases hgenerate : generate (2 ^ (k + 1)) widths with
      | ok moduli => exact ⟨_, moduli, rfl, rfl⟩
      | error e =>
          obtain ⟨w, hlt, -⟩ := generateFrom_eq_error (by omega) hstart hgenerate
          rw [List.count_nil] at hlt
          have := hcounts w
          omega
  · rintro params ⟨-, moduli, hmoduli, rfl⟩
    obtain ⟨hlength, hnodup, -⟩ := generate_spec (by omega) hmoduli
    have hranks : ∀ i w q, widths[i]? = some w → moduli[i]? = some q →
        HasRank (2 ^ (k + 1)) w ((widths.take i).count w) q.value := by
      simpa using (generateFrom_eq_ok (by omega) hstart hmoduli).1
    have hentry : ∀ (i : ℕ) (q : Modulus), moduli[i]? = some q → ∃ w, widths[i]? = some w ∧ w ∈ widths ∧
        q.value ∈ widthPrimes (2 ^ (k + 1)) w := by
      intro i q hq
      have hi : i < widths.length := hlength ▸ (List.getElem?_eq_some_iff.mp hq).1
      have hw := List.getElem?_eq_getElem hi
      exact ⟨_, hw, List.mem_of_getElem? hw, (hranks i _ q hw hq).mem⟩
    refine ⟨rfl, List.ext_getElem? fun i => ?_, hnodup, fun q hq => ?_, hranks⟩
    · rw [List.getElem?_map]
      cases hq : moduli[i]? with
      | none =>
          rw [List.getElem?_eq_none_iff, hlength] at hq
          exact (List.getElem?_eq_none hq).symm
      | some q =>
          obtain ⟨w, hw, hmem, hprime⟩ := hentry i q hq
          have hwidth := (hwidths w hmem).1
          rw [hw, Option.map_some, Modulus.bits_of_mem (by omega) hprime]
    · obtain ⟨i, hi⟩ := List.mem_iff_getElem?.mp hq
      obtain ⟨w, -, -, hprime⟩ := hentry i q hi
      exact (mem_widthPrimes.mp hprime).2

/-- A width that is asked for twice with another one between, and one that is asked for too often:
17 is the only prime of five bits that is 1 modulo 8. -/
theorem make_iff_four :
    (¬∃ params, make 4 [5, 5] .unchecked = .ok params) ∧
      ∃ params, make 4 [7, 5, 7] .unchecked = .ok params ∧
        params.moduli = [⟨113⟩, ⟨17⟩, ⟨97⟩] ∧ HasRank 8 7 0 113 ∧ HasRank 8 5 0 17 ∧
          HasRank 8 7 1 97 := by
  have hdecides : ∀ w ∈ [7, 5, 7], Decides 8 w := by
    have hcandidates : ∀ w ∈ [7, 5, 7], ∀ j < 2 ^ (w - 3), 2 ^ (w - 1) < 8 * j + 1 →
        (Primality.isPrime (8 * j + 1) = true ↔ (8 * j + 1).Prime) := by decide +kernel
    intro w hw n hlower hupper hmod
    have hpow : ∀ w ∈ [7, 5, 7], 2 ^ w = 8 * 2 ^ (w - 3) := by decide
    have hn : n = 8 * (n / 8) + 1 := by omega
    rw [hn]
    exact hcandidates w hw (n / 8) (by have := hpow w hw; omega) (by omega)
  obtain ⟨htwice, -⟩ := make_iff 4 [5, 5] .unchecked (k := 2) (by decide) rfl (by decide)
    (by decide) fun w hw => hdecides w (by simp_all)
  obtain ⟨-, hmoduli⟩ := make_iff 4 [7, 5, 7] .unchecked (k := 2) (by decide) rfl (by decide)
    (by decide) hdecides
  refine ⟨fun h => absurd ((htwice.mp h).2 5) (by decide +kernel), ?_⟩
  have hmake : make 4 [7, 5, 7] .unchecked = .ok ⟨4, [⟨113⟩, ⟨17⟩, ⟨97⟩], .unchecked⟩ := rfl
  obtain ⟨-, -, -, -, hranks⟩ := hmoduli _ hmake
  exact ⟨_, hmake, rfl, hranks 0 7 ⟨113⟩ rfl rfl, hranks 1 5 ⟨17⟩ rfl rfl, hranks 2 7 ⟨97⟩ rfl rfl⟩

end Parameters

end EncryptedReals
