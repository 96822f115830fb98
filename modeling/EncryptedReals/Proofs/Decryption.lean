import EncryptedReals.Encryption
import EncryptedReals.Proofs.Context

/-!
# Decryption is evaluation at the secret

Entry by entry, decryption takes the parts `c₀, c₁, …` of a ciphertext to
`c₀ + c₁ s + c₂ s² + …` in the ring of each modulus.  It succeeds on every
well-formed ciphertext of the secret's context.

## Main Definitions

* `horner` — the value of a list of coefficients at a point
* `Context.phase` — an entry of a ciphertext at the secret
* `SecretKey.BelongsTo` — the secrets of a context
* `Context.message` — what decryption returns

## Main results

* `Context.decrypt_eq`, `Context.message_spec` — decryption returns the phase
-/

namespace EncryptedReals

/-! ### Values of lists -/

section Horner

variable {R : Type} [CommRing R]

/-- **The value of a list of coefficients at a point**, the constant one first. -/
def horner (x : R) : List R → R
  | [] => 0
  | a :: as => horner x as * x + a

@[simp] theorem horner_nil (x : R) : horner x [] = 0 :=
  rfl

@[simp] theorem horner_cons (x a : R) (as : List R) : horner x (a :: as) = horner x as * x + a :=
  rfl

theorem horner_map_neg (x : R) (as : List R) : horner x (as.map Neg.neg) = -horner x as := by
  induction as with
  | nil => rw [List.map_nil, horner_nil, neg_zero]
  | cons a as ih =>
      rw [List.map_cons, horner_cons, horner_cons, ih]
      ring

theorem horner_map_mul (x c : R) (as : List R) :
    horner x (as.map fun a => a * c) = horner x as * c := by
  induction as with
  | nil => rw [List.map_nil, horner_nil, zero_mul]
  | cons a as ih =>
      rw [List.map_cons, horner_cons, horner_cons, ih]
      ring

/-- Zeros at the end do not count. -/
theorem horner_append_zeros (x : R) (as : List R) (m : ℕ) :
    horner x (as ++ List.replicate m 0) = horner x as := by
  induction as with
  | nil =>
      induction m with
      | zero => rfl
      | succ m ih =>
          rw [List.nil_append, horner_nil] at ih
          rw [List.nil_append, List.replicate_succ, horner_cons, ih, zero_mul, add_zero,
            horner_nil]
  | cons a as ih => rw [List.cons_append, horner_cons, horner_cons, ih]

/-- A sum of lists has the sum of their values, when the left one is no shorter. -/
theorem horner_overlay_add (x : R) :
    ∀ {as bs : List R}, bs.length ≤ as.length →
      horner x (overlay (fun a b => a + b) as bs) = horner x as + horner x bs := by
  intro as
  induction as with
  | nil =>
      intro bs h
      rw [List.length_nil, Nat.le_zero, List.length_eq_zero_iff] at h
      rw [h, overlay, horner_nil, add_zero]
  | cons a as ih =>
      intro bs h
      cases bs with
      | nil => rw [overlay, horner_nil, add_zero]
      | cons b bs =>
          rw [overlay, horner_cons, horner_cons, horner_cons, ih (Nat.le_of_succ_le_succ h)]
          ring

end Horner

/-! ### Secrets -/

/-- **A secret of the context**: it carries the context's number and has canonical residues
for every modulus. -/
structure SecretKey.BelongsTo (sk : SecretKey) (ctx : Context) : Prop where
  owner_eq : sk.owner = ctx.id
  canonical : sk.poly.Canonical ctx.degree ctx.parameters.moduli

/-- Values of signed coefficients are canonical. -/
theorem Context.canonical_lift {ctx : Context} {moduli : List Modulus} {coefficients : Array ℤ}
    (hcover : Transform.Cover ctx.degree moduli ctx.transforms)
    (hsize : coefficients.size = ctx.degree) :
    (ctx.lift coefficients moduli).Canonical ctx.degree moduli := by
  have hints := ResiduePoly.canonical_ofInts hcover.fitWords coefficients
  rw [hsize] at hints
  exact hints.forward hcover

/-- **Every secret that is made from draws** is a secret of its context. -/
theorem SecretKey.belongsTo_ofDraws {ctx : Context} (h : ctx.Made) {coefficients : Array ℤ}
    (hsize : coefficients.size = ctx.degree) : (ofDraws ctx coefficients).BelongsTo ctx :=
  ⟨rfl, Context.canonical_lift h.cover hsize⟩

namespace Context

variable {ctx : Context} {sk : SecretKey} {ct : Ciphertext} {moduli : List Modulus}
  {s : ResiduePoly} {n i k : ℕ} {q : Modulus}

/-! ### Evaluation -/

/-- An entry of the parts at the secret. -/
def phase (q : Modulus) (i k : ℕ) (s : ResiduePoly) (parts : List ResiduePoly) : ZMod q.value :=
  horner (s.value q i k) (parts.map fun p => p.value q i k)

theorem phase_pair (q : Modulus) (i k : ℕ) (s p0 p1 : ResiduePoly) :
    phase q i k s [p0, p1] = p0.value q i k + p1.value q i k * s.value q i k := by
  show horner _ [p0.value q i k, p1.value q i k] = _
  rw [horner_cons, horner_cons, horner_nil, zero_mul, zero_add, add_comm]

theorem evaluateAt_singleton (moduli : List Modulus) (s p : ResiduePoly) :
    evaluateAt moduli s [p] = p :=
  rfl

/-- Horner's rule, from the first part on. -/
theorem evaluateAt_cons (moduli : List Modulus) (s p : ResiduePoly) {rest : List ResiduePoly}
    (hrest : rest ≠ []) :
    evaluateAt moduli s (p :: rest) =
      ((evaluateAt moduli s rest).mul moduli s).add moduli p := by
  obtain ⟨lower, last, rfl⟩ := (List.eq_nil_or_concat rest).resolve_left hrest
  simp only [evaluateAt, List.concat_eq_append, List.reverse_cons, List.reverse_append,
    List.reverse_nil, List.nil_append, List.cons_append, List.foldl_append, List.foldl_cons,
    List.foldl_nil]

/-- **Evaluation at the secret** keeps residues canonical and has the phase as its entries. -/
theorem evaluateAt_spec (hw : FitWords moduli) (hs : s.Canonical n moduli) :
    ∀ {parts : List ResiduePoly}, parts ≠ [] → (∀ p ∈ parts, p.Canonical n moduli) →
      (evaluateAt moduli s parts).Canonical n moduli ∧
        ∀ (i : ℕ) (q : Modulus), moduli[i]? = some q → ∀ k < n,
          (evaluateAt moduli s parts).value q i k = phase q i k s parts := by
  intro parts
  induction parts with
  | nil => intro hne; exact absurd rfl hne
  | cons p rest ih =>
      intro _ hparts
      obtain ⟨hp, hrest⟩ := List.forall_mem_cons.mp hparts
      by_cases hnil : rest = []
      · subst hnil
        rw [evaluateAt_singleton]
        refine ⟨hp, fun i q _ k _ => ?_⟩
        rw [phase, List.map_singleton, horner_cons, horner_nil, zero_mul, zero_add]
      · obtain ⟨hcanonical, hvalue⟩ := ih hnil hrest
        have hmul := hcanonical.mul hw hs
        rw [evaluateAt_cons moduli s p hnil]
        refine ⟨hmul.add hw hp, fun i q hq k hk => ?_⟩
        rw [ResiduePoly.value_add hw hmul hp hq hk, ResiduePoly.value_mul hcanonical hs hq hk,
          hvalue i q hq k hk, phase, phase, List.map_cons, horner_cons]

/-! ### Decryption -/

theorem Owns.parts_ne_nil (hct : ctx.Owns ct) : ct.parts ≠ [] := by
  intro hnil
  have hsize := hct.two_le_size
  rw [Ciphertext.size, hnil, List.length_nil] at hsize
  omega

/-- **What decryption checks**: both owners, and the declared shape. -/
theorem checkDecryptable_ok : ctx.checkDecryptable ct sk = .ok () ↔
    ct.owner = ctx.id ∧ sk.owner = ctx.id ∧ ctx.checkShape ct = .ok () := by
  unfold checkDecryptable
  split
  · next hforeign =>
      simp only [Bool.or_eq_true, bne_iff_ne] at hforeign
      refine ⟨fun h => (by cases h), fun ⟨hct, hsk, _⟩ => ?_⟩
      exact absurd hforeign (not_or.mpr ⟨not_not.mpr hct, not_not.mpr hsk⟩)
  · next howned =>
      simp only [Bool.or_eq_true, bne_iff_ne, not_or, not_not] at howned
      rw [mapError_eq_ok]
      exact ⟨fun h => ⟨howned.1, howned.2, h⟩, fun h => h.2.2⟩

theorem Owns.checkDecryptable (h : ctx.Made) (hsk : sk.BelongsTo ctx) (hct : ctx.Owns ct) :
    ctx.checkDecryptable ct sk = .ok () :=
  checkDecryptable_ok.mpr ⟨hct.owner_eq, hsk.owner_eq, hct.checkShape h⟩

/-- The secret at the level of a ciphertext. -/
theorem canonical_secretAt (hsk : sk.BelongsTo ctx) (level : ℕ) :
    (sk.poly.truncate (level + 1)).Canonical ctx.degree (ctx.moduliAt level) :=
  hsk.canonical.truncate (level + 1)

/-- The polynomial that decryption returns. -/
def message (ctx : Context) (sk : SecretKey) (ct : Ciphertext) : ResiduePoly :=
  evaluateAt (ctx.moduliAt ct.level) (sk.poly.truncate (ct.level + 1)) ct.parts

/-- **Decryption of a well-formed ciphertext succeeds**, and keeps level and scale. -/
theorem decrypt_eq (h : ctx.Made) (hsk : sk.BelongsTo ctx) (hct : ctx.Owns ct) :
    ctx.decrypt ct sk = .ok ⟨ctx.message sk ct, ct.scale, ct.level⟩ := by
  rw [decrypt, check_bind_eq_ok]
  exact ⟨hct.checkDecryptable h hsk, rfl⟩

/-- **The message is the phase at the secret**, with canonical residues. -/
theorem message_spec (h : ctx.Made) (hsk : sk.BelongsTo ctx) (hct : ctx.Owns ct) :
    (ctx.message sk ct).Canonical ctx.degree (ctx.moduliAt ct.level) ∧
      ∀ (i : ℕ) (q : Modulus), (ctx.moduliAt ct.level)[i]? = some q → ∀ k < ctx.degree,
        (ctx.message sk ct).value q i k = phase q i k sk.poly ct.parts := by
  obtain ⟨hcanonical, hvalue⟩ := evaluateAt_spec (h.fitWordsAt ct.level)
    (canonical_secretAt hsk ct.level) hct.parts_ne_nil hct.canonical
  refine ⟨hcanonical, fun i q hq k hk => ?_⟩
  have hi : i < ct.level + 1 := by
    have hlevel := (Parameters.getElem?_moduliAt.mp hq).1
    omega
  rw [message, hvalue i q hq k hk, phase, phase, ResiduePoly.value_truncate _ _ hi]

/-- **The coefficients of a message** are those of any polynomial whose values are the
phases. -/
theorem value_inverse_message (h : ctx.Made) (hsk : sk.BelongsTo ctx) (hct : ctx.Owns ct)
    {t : Transform} {psi : ZMod t.modulus.value} (hl : ctx.Limb i t psi) (hi : i ≤ ct.level)
    {c : ℕ → ZMod t.modulus.value}
    (hc : ∀ j < ctx.degree,
      phase t.modulus i j sk.poly ct.parts = Negacyclic.eval ctx.degree c (t.point psi j))
    (hk : k < ctx.degree) :
    ((ctx.message sk ct).inverse ctx.transforms).value t.modulus i k = c k := by
  obtain ⟨hcanonical, hvalue⟩ := message_spec h hsk hct
  refine hl.value_inverse_of_eval hi hcanonical (fun j hj => ?_) hk
  rw [hvalue i _ (hl.modulusAt hi) j hj, hc j hj]

/-- **The coefficients of a message with an error**: those that are said by the values, and the error. -/
theorem value_inverse_message_add (h : ctx.Made) (hsk : sk.BelongsTo ctx) (hct : ctx.Owns ct)
    {t : Transform} {psi : ZMod t.modulus.value} (hl : ctx.Limb i t psi) (hi : i ≤ ct.level)
    {c : ℕ → ZMod t.modulus.value} {E : ℕ → ℤ}
    (hc : ∀ j < ctx.degree, phase t.modulus i j sk.poly ct.parts =
      Negacyclic.eval ctx.degree c (t.point psi j) +
        Negacyclic.evalInt ctx.degree E (t.point psi j))
    (hk : k < ctx.degree) :
    ((ctx.message sk ct).inverse ctx.transforms).value t.modulus i k = c k + E k :=
  value_inverse_message (c := fun k => c k + E k) h hsk hct hl hi
    (fun j hj => by rw [hc j hj, Negacyclic.eval_add, Negacyclic.evalInt]) hk

/-- The coefficients of a message have the phases as their values. -/
theorem eval_inverse_message (h : ctx.Made) (hsk : sk.BelongsTo ctx) (hct : ctx.Owns ct)
    {t : Transform} {psi : ZMod t.modulus.value} (hl : ctx.Limb i t psi) (hi : i ≤ ct.level)
    (hk : k < ctx.degree) :
    Negacyclic.eval ctx.degree
        (((ctx.message sk ct).inverse ctx.transforms).value t.modulus i) (t.point psi k) =
      phase t.modulus i k sk.poly ct.parts := by
  obtain ⟨hcanonical, hvalue⟩ := message_spec h hsk hct
  rw [hl.eval_inverse hi hcanonical hk, hvalue i _ (hl.modulusAt hi) k hk]

end Context

end EncryptedReals
