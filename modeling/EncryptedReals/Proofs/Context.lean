import EncryptedReals.Context
import EncryptedReals.Proofs.Ring.Chain
import EncryptedReals.Proofs.Ring.Product

/-!
# What a context is made of

A context that its constructors returned has a power of two as its ring dimension, a
chain of distinct primes with a transform for each, and levels that index a prefix of
the chain.  Whatever is proved about ciphertexts starts from `Context.Made` and takes
its facts from here.

## Main Definitions

* `Context.Made` — a context as its constructors make it
* `Context.Owns` — a ciphertext of the context, with canonical residues

## Design Notes

The primality test is not shown to be right.  `Context.Made` asks that it did not err on
the members of the chain, and every other property of the chain is proved from the way the
chain is generated.
-/

namespace EncryptedReals

/-! ### Parameters -/

namespace Parameters

variable {params : Parameters}

/-- **What validated parameters are.** -/
theorem make_spec {degree : ℕ} {widths : List ℕ} {security : Security}
    (h : make degree widths security = .ok params) :
    params.degree = degree ∧ (∃ k, 1 ≤ k ∧ degree = 2 ^ k) ∧ widths ≠ [] ∧
      (∀ bits ∈ widths, 2 ≤ bits ∧ bits ≤ maxModulusBits) ∧
      PrimeChain.generate (2 * degree) widths = .ok params.moduli := by
  unfold make at h
  split at h
  · cases h
  · next hdegree =>
      split at h
      · cases h
      · next hempty =>
          split at h
          · cases h
          · next hwidths =>
              simp only [bind_eq_ok, pure_eq_ok] at h
              obtain ⟨-, -, moduli, hmoduli, rfl⟩ := h
              rw [Bool.or_eq_true, not_or, Bool.not_eq_true', Bool.not_eq_false,
                decide_eq_true_eq] at hdegree
              have hpower := Transform.eq_two_pow_of_isPowerOfTwo hdegree.1
              refine ⟨rfl, ⟨degree.log2, ?_, hpower⟩, by simpa using hempty, ?_, hmoduli⟩
              · by_contra hlog
                have hzero : degree.log2 = 0 := by omega
                rw [hzero] at hpower
                omega
              · intro bits hbits
                have hnone := List.find?_eq_none.mp hwidths bits hbits
                simp only [Bool.or_eq_true, decide_eq_true_eq, not_or] at hnone
                omega

/-- **A modulus of a generated chain** passed the primality test, is below `2 ^ 60`, and is 1 modulo
twice the ring dimension. -/
theorem modulus_spec {degree : ℕ} {widths : List ℕ} {security : Security}
    (hmake : make degree widths security = .ok params) {q : Modulus} (hq : q ∈ params.moduli) :
    Primality.isPrime q.value = true ∧ q.value < 2 ^ 60 ∧ q.value % (2 * params.degree) = 1 := by
  obtain ⟨hdegree, ⟨k, hk, hpower⟩, -, hbits, hgenerate⟩ := make_spec hmake
  rw [hpower, ← pow_succ'] at hgenerate
  obtain ⟨-, -, hmembers⟩ := PrimeChain.generate_spec (by omega) hgenerate
  obtain ⟨bits, hmem, hwidth⟩ := hmembers q hq
  refine ⟨hwidth.passes, ?_, ?_⟩
  · exact hwidth.upper.trans_le (Nat.pow_le_pow_right (by norm_num) (hbits bits hmem).2)
  · rw [hdegree, hpower, ← pow_succ']
    exact hwidth.congruent

/-- **A chain that passed the primality test rightly** consists of distinct primes with a
transform of the ring dimension, which is a power of two. -/
theorem exists_chain {degree : ℕ} {widths : List ℕ} {security : Security}
    (hmake : make degree widths security = .ok params) (hprime : ∀ q ∈ params.moduli, q.value.Prime) :
    ∃ k, 1 ≤ k ∧ params.degree = 2 ^ k ∧ TransformChain (2 ^ k) params.moduli := by
  obtain ⟨hdegree, ⟨k, hk, hpower⟩, hwidths, -, hgenerate⟩ := make_spec hmake
  rw [hpower, ← pow_succ'] at hgenerate
  obtain ⟨hlength, hnodup, -⟩ := PrimeChain.generate_spec (by omega) hgenerate
  have hpower := hdegree.trans hpower
  refine ⟨k, hk, hpower, ?_, hnodup, hprime, fun q hq => (modulus_spec hmake hq).2.1,
    fun q hq => hpower ▸ (modulus_spec hmake hq).2.2⟩
  intro hnil
  rw [hnil, List.length_nil] at hlength
  exact hwidths (List.length_eq_zero_iff.mp hlength.symm)

/-- There is a data modulus. -/
theorem dataModuli_length_pos (h : params.moduli ≠ []) : 0 < params.dataModuli.length := by
  have hpos := List.length_pos_iff.mpr h
  unfold dataModuli hasKeySwitching
  split
  · next hkeys =>
      rw [List.length_dropLast]
      have := of_decide_eq_true hkeys
      omega
  · exact hpos

theorem maxLevel_lt (h : params.moduli ≠ []) : params.maxLevel < params.moduli.length := by
  have hpos := dataModuli_length_pos h
  have hle : params.dataModuli.length ≤ params.moduli.length := by
    unfold dataModuli
    split
    · rw [List.length_dropLast]
      omega
    · exact le_refl _
  unfold maxLevel
  omega

theorem getElem?_moduliAt {level i : ℕ} {q : Modulus} :
    (params.moduliAt level)[i]? = some q ↔ i ≤ level ∧ params.moduli[i]? = some q := by
  rw [moduliAt, List.getElem?_take]
  split
  · next hlt => exact ⟨fun h => ⟨by omega, h⟩, fun h => h.2⟩
  · next hge => exact ⟨fun h => by simp at h, fun h => by omega⟩

theorem length_moduliAt {level : ℕ} (h : level < params.moduli.length) :
    (params.moduliAt level).length = level + 1 := by
  rw [moduliAt, List.length_take]
  omega

end Parameters

theorem FitWords.take {moduli : List Modulus} (h : FitWords moduli) (l : ℕ) :
    FitWords (moduli.take l) :=
  fun q hq => h q (List.mem_of_mem_take hq)

/-- The transforms of a chain cover its prefixes. -/
theorem Transform.Cover.take {n : ℕ} {moduli : List Modulus} {transforms : List Transform}
    (h : Transform.Cover n moduli transforms) (l : ℕ) :
    Transform.Cover n (moduli.take l) transforms := by
  intro i q hq
  rw [List.getElem?_take] at hq
  split at hq
  · exact h i q hq
  · cases hq

/-! ### Contexts -/

namespace Context

variable {ctx : Context}

/-- **What a context is made of**: its parameters, a transform for each modulus, and the embedding. -/
theorem make_spec {id : ℕ} {params : Parameters} (h : make id params = .ok ctx) :
    ctx.id = id ∧ ctx.parameters = params ∧
      params.moduli.mapM (Transform.make params.degree) = .ok ctx.transforms ∧
      ctx.embedding = Embedding.make params.degree := by
  simp only [make, bind_eq_ok, pure_eq_ok] at h
  obtain ⟨transforms, hmake, rfl⟩ := h
  exact ⟨rfl, rfl, hmake, rfl⟩

/-- **A context as its constructors make it**, where the chain passed the primality test
rightly. -/
structure Made (ctx : Context) : Prop where
  parameters : ∃ degree widths security, Parameters.make degree widths security = .ok ctx.parameters
  tables : make ctx.id ctx.parameters = .ok ctx
  prime : ∀ q ∈ ctx.parameters.moduli, q.value.Prime

namespace Made

/-- **The ring dimension is a power of two, and the chain has transforms of that length.** -/
theorem exists_chain (h : ctx.Made) :
    ∃ k, 1 ≤ k ∧ ctx.degree = 2 ^ k ∧ TransformChain (2 ^ k) ctx.parameters.moduli := by
  obtain ⟨degree, widths, security, hmake⟩ := h.parameters
  exact Parameters.exists_chain hmake h.prime

theorem exists_two_pow (h : ctx.Made) : ∃ k, 1 ≤ k ∧ ctx.degree = 2 ^ k := by
  obtain ⟨k, hk, hdegree, -⟩ := h.exists_chain
  exact ⟨k, hk, hdegree⟩

theorem degree_pos (h : ctx.Made) : 0 < ctx.degree := by
  obtain ⟨k, -, hdegree⟩ := h.exists_two_pow
  rw [hdegree]
  exact Nat.two_pow_pos k

theorem moduli_ne_nil (h : ctx.Made) : ctx.parameters.moduli ≠ [] := by
  obtain ⟨k, -, -, hchain⟩ := h.exists_chain
  exact hchain.nonempty

/-- Every modulus is odd. -/
theorem modulus_odd (h : ctx.Made) {q : Modulus} (hq : q ∈ ctx.parameters.moduli) :
    q.value % 2 = 1 := by
  obtain ⟨k, -, -, hchain⟩ := h.exists_chain
  rw [← Nat.mod_mod_of_dvd q.value (Dvd.intro (2 ^ k) rfl), hchain.congruent q hq]

/-- A modulus has an inverse modulo every other one. -/
theorem modulus_ne_zero (h : ctx.Made) {i j : ℕ} {q r : Modulus}
    (hq : ctx.parameters.moduli[i]? = some q) (hr : ctx.parameters.moduli[j]? = some r)
    (hne : i ≠ j) : (r.value : ZMod q.value) ≠ 0 := by
  obtain ⟨k, -, -, hchain⟩ := h.exists_chain
  have hqr : q ≠ r := by
    rintro rfl
    obtain ⟨hi, hiq⟩ := List.getElem?_eq_some_iff.mp hq
    obtain ⟨hj, hjq⟩ := List.getElem?_eq_some_iff.mp hr
    exact hne (hchain.nodup.getElem_inj_iff.mp (hiq.trans hjq.symm))
  have hmem := List.mem_of_getElem? hq
  have hcoprime := hchain.distinctPrimes.coprime hmem (List.mem_of_getElem? hr) hqr
  intro hzero
  have hdvd := (ZMod.natCast_eq_zero_iff _ _).mp hzero
  exact (hchain.prime q hmem).ne_one (Nat.eq_one_of_dvd_coprimes hcoprime dvd_rfl hdvd)

theorem mapM_make (h : ctx.Made) :
    ctx.parameters.moduli.mapM (Transform.make ctx.degree) = .ok ctx.transforms :=
  (make_spec h.tables).2.2.1

theorem embedding_eq (h : ctx.Made) : ctx.embedding = Embedding.make ctx.degree :=
  (make_spec h.tables).2.2.2

theorem length_transforms (h : ctx.Made) :
    ctx.transforms.length = ctx.parameters.moduli.length :=
  (getElem?_of_mapM_ok h.mapM_make).1

/-- **Every modulus has its transform.** -/
theorem cover (h : ctx.Made) :
    Transform.Cover ctx.degree ctx.parameters.moduli ctx.transforms := by
  obtain ⟨k, -, hdegree, hchain⟩ := h.exists_chain
  have hmake := h.mapM_make
  rw [hdegree] at hmake ⊢
  exact Transform.cover_of_mapM_make hchain hmake

theorem coverAt (h : ctx.Made) (level : ℕ) :
    Transform.Cover ctx.degree (ctx.moduliAt level) ctx.transforms :=
  h.cover.take (level + 1)

/-- A level needs no transforms beyond its own moduli. -/
theorem coverAt_take (h : ctx.Made) (level : ℕ) :
    Transform.Cover ctx.degree (ctx.moduliAt level) (ctx.transforms.take (level + 1)) := by
  intro i q hq
  have hi := (Parameters.getElem?_moduliAt.mp hq).1
  rw [List.getElem?_take_of_lt (by omega)]
  exact h.coverAt level i q hq

theorem fitWords (h : ctx.Made) : FitWords ctx.parameters.moduli :=
  h.cover.fitWords

theorem fitWordsAt (h : ctx.Made) (level : ℕ) : FitWords (ctx.moduliAt level) :=
  h.fitWords.take (level + 1)

/-- A level has one modulus more than its number. -/
theorem length_moduliAt (h : ctx.Made) {level : ℕ} (hlevel : level ≤ ctx.maxLevel) :
    (ctx.moduliAt level).length = level + 1 :=
  Parameters.length_moduliAt (hlevel.trans_lt (Parameters.maxLevel_lt h.moduli_ne_nil))

theorem exists_modulusAt (h : ctx.Made) {level i : ℕ} (hlevel : level ≤ ctx.maxLevel)
    (hi : i ≤ level) : ∃ q, (ctx.moduliAt level)[i]? = some q := by
  have hlt : i < (ctx.moduliAt level).length := by
    rw [h.length_moduliAt hlevel]
    omega
  exact ⟨_, List.getElem?_eq_getElem hlt⟩

end Made

/-! ### Limbs -/

/-- **A limb of the context**: the transform at an index, with its modulus and its root. -/
structure Limb (ctx : Context) (i : ℕ) (t : Transform) (psi : ZMod t.modulus.value) : Prop where
  modulus : ctx.parameters.moduli[i]? = some t.modulus
  transform : ctx.transforms[i]? = some t
  size_eq : t.size = ctx.degree
  lawful : t.Lawful psi

/-- Every modulus has its limb. -/
theorem Made.exists_limb (h : ctx.Made) {i : ℕ} {q : Modulus}
    (hq : ctx.parameters.moduli[i]? = some q) :
    ∃ (t : Transform) (psi : ZMod t.modulus.value), t.modulus = q ∧ ctx.Limb i t psi := by
  obtain ⟨t, ht, rfl, hn, psi, hlawful⟩ := h.cover i q hq
  exact ⟨t, psi, rfl, hq, ht, hn, hlawful⟩

/-- Every modulus of a level has its limb. -/
theorem Made.exists_limbAt (h : ctx.Made) {level i : ℕ} {q : Modulus}
    (hq : (ctx.moduliAt level)[i]? = some q) :
    i ≤ level ∧ ∃ (t : Transform) (psi : ZMod t.modulus.value), t.modulus = q ∧ ctx.Limb i t psi := by
  obtain ⟨hi, hmodulus⟩ := Parameters.getElem?_moduliAt.mp hq
  exact ⟨hi, h.exists_limb hmodulus⟩

namespace Limb

variable {i k level : ℕ} {t : Transform} {psi : ZMod t.modulus.value} {p : ResiduePoly}

theorem modulusAt (hl : ctx.Limb i t psi) (hi : i ≤ level) :
    (ctx.moduliAt level)[i]? = some t.modulus :=
  Parameters.getElem?_moduliAt.mpr ⟨hi, hl.modulus⟩

theorem point_pow (hl : ctx.Limb i t psi) (k : ℕ) : t.point psi k ^ ctx.degree = -1 :=
  hl.size_eq ▸ hl.lawful.point_pow k

/-- The coefficients of a limb have the values of the limb. -/
theorem eval_inverse (hl : ctx.Limb i t psi) (hi : i ≤ level)
    (hp : p.Canonical ctx.degree (ctx.moduliAt level)) (hk : k < ctx.degree) :
    Negacyclic.eval ctx.degree ((p.inverse ctx.transforms).value t.modulus i) (t.point psi k) =
      p.value t.modulus i k :=
  hp.eval_inverse (hl.modulusAt hi) hl.transform hl.size_eq hl.lawful hk

/-- The coefficients of a limb are those of any polynomial with its values. -/
theorem value_inverse_of_eval (hl : ctx.Limb i t psi) (hi : i ≤ level)
    (hp : p.Canonical ctx.degree (ctx.moduliAt level)) {c : ℕ → ZMod t.modulus.value}
    (hc : ∀ j < ctx.degree,
      p.value t.modulus i j = Negacyclic.eval ctx.degree c (t.point psi j)) (hk : k < ctx.degree) :
    (p.inverse ctx.transforms).value t.modulus i k = c k :=
  hp.value_inverse_of_eval (hl.modulusAt hi) hl.transform hl.size_eq hl.lawful hc hk

/-- Polynomials with equal values in a limb have equal coefficients. -/
theorem eq_of_eval_point_eq (hl : ctx.Limb i t psi) {c d : ℕ → ZMod t.modulus.value}
    (hcd : ∀ j < ctx.degree, Negacyclic.eval ctx.degree c (t.point psi j) =
      Negacyclic.eval ctx.degree d (t.point psi j)) (hk : k < ctx.degree) : c k = d k := by
  have hn := hl.size_eq
  rw [← hn] at hcd hk
  exact hl.lawful.eq_of_eval_point_eq hcd hk

/-- **An integer polynomial that vanishes in a limb** is a multiple of the modulus. -/
theorem dvd_of_evalInt_eq_zero (hl : ctx.Limb i t psi) {c : ℕ → ℤ}
    (hc : ∀ j < ctx.degree, Negacyclic.evalInt ctx.degree c (t.point psi j) = 0)
    (hk : k < ctx.degree) : (t.modulus.value : ℤ) ∣ c k := by
  have hzero : (c k : ZMod t.modulus.value) = 0 := by
    refine hl.eq_of_eval_point_eq (c := fun m => (c m : ZMod t.modulus.value)) (d := fun _ => 0)
      (fun j hj => (hc j hj).trans ?_) hk
    simp [Negacyclic.eval]
  exact (ZMod.intCast_zmod_eq_zero_iff_dvd _ _).mp hzero

end Limb

/-- The smallest context with two data moduli and two slots: dimension 4, the primes 17 and
41, and 113 for key switching. -/
def small : Context where
  id := 0
  parameters := ⟨4, [⟨17⟩, ⟨41⟩, ⟨113⟩], .unchecked⟩
  transforms := [.ofRoot ⟨17⟩ 4 2 9, .ofRoot ⟨41⟩ 4 2 38, .ofRoot ⟨113⟩ 4 2 18]
  embedding := .make 4

theorem made_small : small.Made where
  parameters := ⟨4, [5, 6, 7], .unchecked, rfl⟩
  tables := rfl
  prime := by
    simp only [small, List.forall_mem_cons]
    norm_num

/-- The moduli of a lower level are the first ones of a higher level. -/
theorem take_moduliAt (ctx : Context) {level higher : ℕ} (h : level ≤ higher) :
    (ctx.moduliAt higher).take (level + 1) = ctx.moduliAt level := by
  rw [moduliAt, moduliAt, Parameters.moduliAt, Parameters.moduliAt, List.take_take,
    Nat.min_eq_left (by omega)]

/-- **The data moduli** are those of the top level. -/
theorem Made.dataModuli_eq (h : ctx.Made) :
    ctx.parameters.dataModuli = ctx.moduliAt ctx.maxLevel := by
  have hpos := Parameters.dataModuli_length_pos h.moduli_ne_nil
  show _ = ctx.parameters.moduli.take (ctx.parameters.dataModuli.length - 1 + 1)
  rw [Nat.sub_add_cancel hpos, Parameters.dataModuli]
  split
  · rw [List.length_dropLast, ← List.dropLast_eq_take]
  · rw [List.take_length]

/-! ### Ciphertexts -/

/-- **A well-formed ciphertext of the context**: of a level of the chain, with two parts or
more, whose residues are canonical. -/
structure Owns (ctx : Context) (ct : Ciphertext) : Prop where
  owner_eq : ct.owner = ctx.id
  level_le : ct.level ≤ ctx.maxLevel
  two_le_size : 2 ≤ ct.size
  canonical : ∀ p ∈ ct.parts, p.Canonical ctx.degree (ctx.moduliAt ct.level)

/-- A ciphertext of two canonical parts in place of others. -/
theorem Owns.pair {ct : Ciphertext} (hct : ctx.Owns ct) {p0 p1 : ResiduePoly}
    (h0 : p0.Canonical ctx.degree (ctx.moduliAt ct.level))
    (h1 : p1.Canonical ctx.degree (ctx.moduliAt ct.level)) :
    ctx.Owns { ct with parts := [p0, p1] } := by
  refine ⟨hct.owner_eq, hct.level_le, le_rfl, ?_⟩
  rintro p (- | ⟨-, - | ⟨-, ⟨⟩⟩⟩)
  · exact h0
  · exact h1

theorem Owns.canonical_pair {ct : Ciphertext} (hct : ctx.Owns ct) {c0 c1 : ResiduePoly}
    (hparts : ct.parts = [c0, c1]) :
    c0.Canonical ctx.degree (ctx.moduliAt ct.level) ∧
      c1.Canonical ctx.degree (ctx.moduliAt ct.level) := by
  have hcanonical := hct.canonical
  rw [hparts] at hcanonical
  exact ⟨hcanonical c0 (by simp), hcanonical c1 (by simp)⟩

theorem owns_iff {ct : Ciphertext} :
    ctx.Owns ct ↔ ct.owner = ctx.id ∧ ct.level ≤ ctx.maxLevel ∧ 2 ≤ ct.size ∧
      ∀ p ∈ ct.parts, p.Canonical ctx.degree (ctx.moduliAt ct.level) :=
  ⟨fun h => ⟨h.owner_eq, h.level_le, h.two_le_size, h.canonical⟩,
    fun ⟨howner, hlevel, hsize, hparts⟩ => ⟨howner, hlevel, hsize, hparts⟩⟩

instance {ct : Ciphertext} : Decidable (ctx.Owns ct) :=
  decidable_of_iff _ owns_iff.symm

end Context

/-- Ciphertexts of the small context, of two and of three parts. -/
def Ciphertext.small (three : Bool) : Ciphertext where
  parts := ⟨[#[1, 2, 3, 4], #[5, 6, 7, 8]], 4⟩ :: ⟨[#[16, 3, 2, 1], #[40, 7, 6, 5]], 4⟩ ::
    if three then [⟨[#[9, 8, 7, 6], #[1, 30, 2, 20]], 4⟩] else []
  scale := 1
  level := 1
  owner := 0

namespace Context

variable {ctx : Context}

theorem owns_small : ∀ three, small.Owns (.small three) := by decide +kernel

theorem checkLevel_ok {level : ℕ} : ctx.checkLevel level = .ok () ↔ level ≤ ctx.maxLevel := by
  unfold checkLevel
  split <;> simp <;> omega

theorem checkPart_ok {level : ℕ} {p : ResiduePoly} :
    ctx.checkPart level p = .ok () ↔ p.limbs.length = level + 1 ∧ p.degree = ctx.degree := by
  unfold checkPart
  split
  · next h =>
      simp only [bne_iff_ne, ne_eq, Bool.or_eq_true] at h
      simp only [reduceCtorEq, false_iff, not_and_or]
      exact h
  · next h => simpa using h

/-- **What the check of a shape says.** -/
theorem checkShape_ok {ct : Ciphertext} :
    ctx.checkShape ct = .ok () ↔ ct.level ≤ ctx.maxLevel ∧ 2 ≤ ct.size ∧
      ∀ p ∈ ct.parts, p.limbs.length = ct.level + 1 ∧ p.degree = ctx.degree := by
  have hparts : ct.parts.forM (ctx.checkPart ct.level) = .ok () ↔
      ∀ p ∈ ct.parts, p.limbs.length = ct.level + 1 ∧ p.degree = ctx.degree := by
    rw [forM_eq_ok]
    exact forall₂_congr fun p _ => checkPart_ok
  simp only [checkShape, throw_bind, check_bind_eq_ok, check_eq_ok, not_lt, checkLevel_ok, hparts]

theorem Owns.checkShape {ct : Ciphertext} (h : ctx.Made) (hct : ctx.Owns ct) :
    ctx.checkShape ct = .ok () := by
  refine checkShape_ok.mpr ⟨hct.level_le, hct.two_le_size, fun p hp => ?_⟩
  have hcanonical := hct.canonical p hp
  exact ⟨hcanonical.length_eq.trans (h.length_moduliAt hct.level_le), hcanonical.degree_eq⟩

/-- **A well-formed ciphertext passes the check of every operation.** -/
theorem Owns.checkOwned {ct : Ciphertext} (h : ctx.Made) (hct : ctx.Owns ct) :
    ctx.checkOwned ct = .ok () := by
  simp only [Context.checkOwned, throw_bind, check_eq_ok, bne_iff_ne, ne_eq, not_not]
  exact ⟨hct.owner_eq, hct.checkShape h⟩

end Context

end EncryptedReals
