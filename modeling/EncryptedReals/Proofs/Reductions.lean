import EncryptedReals.Proofs.RingLaws
import EncryptedReals.Proofs.Scales
import EncryptedReals.Proofs.Sessions

/-!
# Reductions do not depend on the order of the items

The values of a collection are added from the left, and so are the values under a flag, each of which goes
through a product, a key switch and a rescaling first.  The items that a scheme encrypts have the same
level and scale, so either all of these products fail, with the same failure, or all of them succeed and
have a level and a scale in common.  Well-formed ciphertexts that share these are determined by the
residues of their parts, and the residues of a sum are sums of residues.  Hence a reduction of the items in
another order is the same ciphertext bit for bit, or the same failure.

A product of all values takes one level for each item after the first, whatever the items are.

## Main Definitions

* `Observed.Gives` — the outcome of a computation, whatever was recorded before
* `Context.TwoParts` — well-formed ciphertexts of two parts, of a level and a scale
* `combineAll` — the ciphertexts of a list combined from the left
* `Scheme.masked` — a product of two values, relinearized and rescaled
* `Item.Made` — the items that a scheme encrypts
* `Collection.IsMaskedSum` — the sum of the products of values and flags

## Main results

* `Context.addAll_spec`, `Context.addAll_perm` — what the parts of a sum are, and that the order does
  not count
* `Scheme.masked_uniform` — products of values fail together or succeed together
* `Collection.result_reduce`, `Collection.result_sumWhere_eq` — reductions as folds without a record
* `Collection.sumWhere_spec`, `Collection.reduce_product_spec` — the sum under a flag and the product
* `Collection.reductions_spec` — all of it
-/

namespace EncryptedReals

open Binary64

/-! ### Outcomes of observed computations -/

/-- **The outcome of an observed computation**, whatever was recorded before. -/
def Observed.Gives {α : Type} (x : Observed α) (outcome : Except Failure α) : Prop :=
  ∀ steps, (x.run.run steps).1 = outcome

namespace Observed.Gives

variable {α β : Type}

theorem result {x : Observed α} {outcome : Except Failure α} (h : x.Gives outcome) :
    x.result = outcome :=
  h []

theorem pure {a : α} : Gives (Pure.pure a) (.ok a) := fun _ => rfl

theorem throw {e : Failure} : Gives (MonadExcept.throw e : Observed α) (.error e) := fun _ => rfl

theorem bind {x : Observed α} {f : α → Observed β} {outcome : Except Failure α}
    {k : α → Except Failure β} (hx : x.Gives outcome) (hf : ∀ a, (f a).Gives (k a)) :
    (x >>= f).Gives (outcome >>= k) := by
  intro steps
  rw [run_bind, ← hx steps]
  rcases x.run.run steps with ⟨e | a, steps'⟩
  · rfl
  · exact hf a steps'

theorem foldlM {f : β → α → Observed β} {k : β → α → Except Failure β}
    (hf : ∀ b a, (f b a).Gives (k b a)) :
    ∀ (as : List α) (b : β), Gives (as.foldlM f b) (as.foldlM k b) := by
  intro as
  induction as with
  | nil => exact fun _ => .pure
  | cons a as ih =>
      intro b
      rw [List.foldlM_cons, List.foldlM_cons]
      exact (hf b a).bind ih

end Observed.Gives

/-- A request has the outcome of its call. -/
theorem Request.gives {s : Scheme} {r : Request} (hr : ¬r.IsIdle) :
    (r.observed s).Gives (r.perform s) := by
  intro steps
  rw [run_observed hr]
  cases r.perform s <;> rfl

/-- **The ciphertexts of a list, combined from the left**; nothing for none. -/
def combineAll (f : Ciphertext → Ciphertext → Except Failure Ciphertext) :
    List Ciphertext → Except Failure (Option Ciphertext)
  | [] => .ok none
  | ct :: cts => some <$> cts.foldlM f ct

/-! ### Sums of two parts -/

namespace Context

variable {ctx : Context} {a b ct ct' : Ciphertext} {cts cts' : List Ciphertext} {level : ℕ}
  {scale : Float}

/-- **A well-formed ciphertext of two parts**, of a level and a scale. -/
structure TwoParts (ctx : Context) (level : ℕ) (scale : Float) (ct : Ciphertext) : Prop where
  owns : ctx.Owns ct
  level_eq : ct.level = level
  scale_eq : ct.scale = scale
  size_eq : ct.size = 2

/-- **The residues of the parts determine a ciphertext** of a level and a scale. -/
theorem TwoParts.ext (h : ctx.Made) (ha : ctx.TwoParts level scale a) (hb : ctx.TwoParts level scale b)
    (hpoly : ∀ (i : ℕ) (q : Modulus), (ctx.moduliAt level)[i]? = some q → ∀ k < ctx.degree,
      partsPoly q i k a.parts = partsPoly q i k b.parts) : a = b := by
  have hparts : a.parts = b.parts :=
    parts_ext (h.fitWordsAt level) (ha.owns.canonicalAt ha.level_eq) (hb.owns.canonicalAt hb.level_eq)
      (ha.size_eq.trans hb.size_eq.symm) hpoly
  have hlevel := ha.level_eq.trans hb.level_eq.symm
  have hscale := ha.scale_eq.trans hb.scale_eq.symm
  have howner := ha.owns.owner_eq.trans hb.owns.owner_eq.symm
  cases a
  cases b
  simp_all

/-- **The sum of two** has their level and their scale, and the sums of their residues. -/
theorem TwoParts.sum (h : ctx.Made) (ha : ctx.TwoParts level scale a)
    (hb : ctx.TwoParts level scale b) : ctx.TwoParts level scale (ctx.sum a b) ∧
      ∀ (i : ℕ) (q : Modulus), (ctx.moduliAt level)[i]? = some q → ∀ k < ctx.degree,
        partsPoly q i k (ctx.sum a b).parts = partsPoly q i k a.parts + partsPoly q i k b.parts := by
  have hlevel := ha.level_eq.trans hb.level_eq.symm
  refine ⟨⟨owns_sum h ha.owns hb.owns hlevel, ha.level_eq, ha.scale_eq, ?_⟩, fun i q hq k hk => ?_⟩
  · show (addParts _ _ a.parts b.parts).length = 2
    rw [length_addParts]
    exact (congrArg₂ max ha.size_eq hb.size_eq).trans (max_self 2)
  · have hlength := h.length_moduliAt ha.owns.level_le
    show partsPoly q i k (addParts _ (.zero ctx.degree (a.level + 1)) a.parts b.parts) = _
    rw [← hlength, ha.level_eq]
    exact partsPoly_addParts (h.fitWordsAt level) (ha.owns.canonicalAt ha.level_eq)
      (hb.owns.canonicalAt hb.level_eq) hq hk

/-- **A sum of many**, by induction on the summands. -/
theorem TwoParts.foldl_sum (h : ctx.Made) : ∀ {cts : List Ciphertext} {a : Ciphertext},
    ctx.TwoParts level scale a → (∀ ct ∈ cts, ctx.TwoParts level scale ct) →
      ctx.TwoParts level scale (cts.foldl ctx.sum a) ∧
        ∀ (i : ℕ) (q : Modulus), (ctx.moduliAt level)[i]? = some q → ∀ k < ctx.degree,
          partsPoly q i k (cts.foldl ctx.sum a).parts =
            ((a :: cts).map fun ct => partsPoly q i k ct.parts).sum := by
  intro cts
  induction cts with
  | nil => exact fun ha _ => ⟨ha, fun i q _ k _ => by simp⟩
  | cons ct cts ih =>
      intro a ha hcts
      obtain ⟨hct, hrest⟩ := List.forall_mem_cons.mp hcts
      obtain ⟨hsum, hpoly⟩ := ha.sum h hct
      obtain ⟨htotal, hpolys⟩ := ih hsum hrest
      refine ⟨htotal, fun i q hq k hk => ?_⟩
      rw [List.foldl_cons, hpolys i q hq k hk]
      simp only [List.map_cons, List.sum_cons, hpoly i q hq k hk, add_assoc]

/-- **Adding from the left** succeeds, since the common scale equals itself. -/
theorem foldlM_add (h : ctx.Made) (hscale : scale.isFinite = true) :
    ∀ {cts : List Ciphertext} {a : Ciphertext}, ctx.TwoParts level scale a →
      (∀ ct ∈ cts, ctx.TwoParts level scale ct) →
        cts.foldlM ctx.add a = .ok (cts.foldl ctx.sum a) := by
  intro cts
  induction cts with
  | nil => exact fun _ _ => rfl
  | cons ct cts ih =>
      intro a ha hcts
      obtain ⟨hct, hrest⟩ := List.forall_mem_cons.mp hcts
      have hadd : ctx.add a ct = .ok (ctx.sum a ct) := by
        refine add_eq h ha.owns hct.owns (ha.level_eq.trans hct.level_eq.symm) ?_
        rw [ha.scale_eq, hct.scale_eq]
        exact bne_self_of_isFinite hscale
      rw [List.foldlM_cons, bind_of_ok hadd]
      exact ih (ha.sum h hct).1 hrest

/-- **What a sum of a list is**: of the common level and scale, with the sums of the residues. -/
theorem addAll_spec (h : ctx.Made) (hscale : scale.isFinite = true)
    (hcts : ∀ ct ∈ cts, ctx.TwoParts level scale ct) (hne : cts ≠ []) :
    ∃ ct, combineAll ctx.add cts = .ok (some ct) ∧ ctx.TwoParts level scale ct ∧
      ∀ (i : ℕ) (q : Modulus), (ctx.moduliAt level)[i]? = some q → ∀ k < ctx.degree,
        partsPoly q i k ct.parts = (cts.map fun ct => partsPoly q i k ct.parts).sum := by
  obtain ⟨ct, cts, rfl⟩ := List.exists_cons_of_ne_nil hne
  obtain ⟨hct, hrest⟩ := List.forall_mem_cons.mp hcts
  rw [combineAll, foldlM_add h hscale hct hrest]
  exact ⟨_, rfl, hct.foldl_sum h hrest⟩

/-- **The order does not count** in a sum of ciphertexts of one level and scale. -/
theorem addAll_perm (h : ctx.Made) (hscale : scale.isFinite = true)
    (hcts : ∀ ct ∈ cts, ctx.TwoParts level scale ct) (hperm : cts'.Perm cts) :
    combineAll ctx.add cts' = combineAll ctx.add cts := by
  by_cases hne : cts = []
  · rw [hne] at hperm ⊢
    rw [hperm.eq_nil]
  · have hcts' : ∀ ct ∈ cts', ctx.TwoParts level scale ct := fun ct hct =>
      hcts ct (hperm.mem_iff.mp hct)
    have hne' : cts' ≠ [] := by
      rintro rfl
      exact hne hperm.nil_eq.symm
    obtain ⟨ct, hct, htwo, hpoly⟩ := addAll_spec h hscale hcts hne
    obtain ⟨ct', hct', htwo', hpoly'⟩ := addAll_spec h hscale hcts' hne'
    have heq : ct' = ct := htwo'.ext h htwo fun i q hq k hk => by
      rw [hpoly i q hq k hk, hpoly' i q hq k hk]
      exact (hperm.map _).sum_eq
    rw [hct, hct', heq]

/-! ### Products of two parts -/

/-- **A rescaling above level 0** divides the scale by the modulus that it drops. -/
theorem TwoParts.exists_rescale (h : ctx.Made) {q : Modulus}
    (hq : ctx.parameters.moduli[level + 1]? = some q) (ha : ctx.TwoParts (level + 1) scale a) :
    ∃ ct, ctx.rescale a = .ok ct ∧ ctx.TwoParts level (scale / Binary64.nearest q.value) ct := by
  obtain ⟨last, psi, rfl, hlimb⟩ := h.exists_limb hq
  have hrescale := rescale_eq h ha.owns ha.level_eq hlimb
  refine ⟨_, hrescale, owns_rescaled h ha.owns ha.level_eq hlimb _, rfl, ?_, ?_⟩
  · exact congrArg (· / Binary64.nearest last.modulus.value) ha.scale_eq
  · exact (List.length_map _).trans ha.size_eq

/-- **A product of two parts each** has three, which relinearization brings back to two. -/
theorem TwoParts.exists_relinearize (h : ctx.Made) {rk : RelinearizationKey}
    (hrk : ctx.DrawsRelinearizationKey rk) (ha : ctx.TwoParts level scale a)
    (hb : ctx.TwoParts level scale b)
    (hscale : ctx.checkProductScale (scale * scale) level = .ok ()) :
    ∃ product ct, ctx.multiply a b = .ok product ∧ ctx.relinearize product rk = .ok ct ∧
      ctx.TwoParts level (scale * scale) ct := by
  have hlevel := ha.level_eq.trans hb.level_eq.symm
  obtain ⟨product, hproduct⟩ := exists_multiply h ha.owns hb.owns hlevel
    (by rwa [ha.scale_eq, hb.scale_eq, ha.level_eq])
  obtain ⟨-, hshaped, -, hlevel', hsize⟩ := (shaped_iff_owns.mpr ha.owns).multiply h
    (shaped_iff_owns.mpr hb.owns) hproduct
  obtain ⟨hscale', -, -⟩ := Call.scales h hproduct
  rw [ha.size_eq, hb.size_eq] at hsize
  obtain ⟨c0, c1, c2, hparts⟩ := List.length_eq_three.mp hsize
  have hbelongs := hrk.belongsTo h
  obtain ⟨sk, g, g', -, hdraw⟩ := hrk
  have howner := (RelinearizationKey.madeFor_draw (pairDraw_draw h) hdraw).owner_eq
  have hrelinearize := relinearize_eq h (shaped_iff_owns.mp hshaped) howner hparts
  refine ⟨product, _, hproduct, hrelinearize, ?_, hlevel'.trans ha.level_eq, ?_, rfl⟩
  · exact shaped_iff_owns.mp (hshaped.relinearize h hbelongs hrelinearize).2.1
  · exact hscale'.trans (congrArg₂ (· * ·) ha.scale_eq hb.scale_eq)

end Context

namespace Scheme

variable {s : Scheme} {a b ct : Ciphertext} {level : ℕ} {scale : Float}

/-- **A product of two values**, relinearized and rescaled. -/
def masked (s : Scheme) (a b : Ciphertext) : Except Failure Ciphertext := do
  let product ← s.context.multiply a b
  let relinearized ← s.context.relinearize product s.relinearizationKey
  s.context.rescale relinearized

theorem gives_multiplyRescale (s : Scheme) (a b : Ciphertext) :
    (s.multiplyRescale a b).Gives (s.masked a b) :=
  (Request.gives (r := .multiply a b) not_false).bind fun product =>
    (Request.gives (r := .relinearize product) not_false).bind fun relinearized =>
      Request.gives (r := .rescale relinearized) not_false

/-- Every such product lies one level lower and has two parts. -/
theorem masked_eq_ok (hct : s.masked a b = .ok ct) : ct.level + 1 = a.level ∧ ct.size = 2 := by
  simp only [masked, bind_eq_ok] at hct
  obtain ⟨product, hproduct, relinearized, hrelinearized, hct⟩ := hct
  obtain ⟨-, hlevel, -⟩ := Call.follows (.multiply a b) hproduct
  obtain ⟨hlevel', hsize⟩ := Call.follows (.relinearize product s.relinearizationKey) hrelinearized
  obtain ⟨hlower, hsize'⟩ := Call.follows (.rescale relinearized) hct
  exact ⟨hlower.trans (hlevel'.trans hlevel), hsize'.trans hsize⟩

theorem Built.signed_scale (h : s.Built) : Signed .positive 971 (unpacked s.scale) := by
  obtain ⟨hfinite, hpos, -⟩ := checkScale_eq_ok.mp h.checkScale
  exact signed_of_pos hfinite hpos

theorem Built.drawsRelinearizationKey (h : s.Built) :
    s.context.DrawsRelinearizationKey s.relinearizationKey := by
  obtain ⟨profile, rotations, generator, id, id', hbuild⟩ := h.build
  obtain ⟨-, -, -, hkeys⟩ := build_spec hbuild
  obtain ⟨g, g', hdraw⟩ := hkeys.relinearizationKey
  exact ⟨s.secretKey, g, g', hkeys.secretKey, hdraw⟩

/-- **Products above level 0** whose scale passes its check succeed, and share a level and a scale. -/
theorem Built.exists_masked (h : s.Built) (hlevel : level + 1 ≤ s.context.maxLevel)
    (hscale : Signed .positive 971 (unpacked scale))
    (hcheck : s.context.checkProductScale (scale * scale) (level + 1) = .ok ()) :
    ∃ scale', scale'.isFinite = true ∧ ∀ a b, s.context.TwoParts (level + 1) scale a →
      s.context.TwoParts (level + 1) scale b →
        ∃ ct, s.masked a b = .ok ct ∧ s.context.TwoParts level scale' ct := by
  obtain ⟨q, hq⟩ := h.made.exists_modulusAt hlevel le_rfl
  have hmodulus := (Parameters.getElem?_moduliAt.mp hq).2
  obtain ⟨last, psi, rfl, hlimb⟩ := h.made.exists_limb hmodulus
  have hsquare := signed_mul hscale hscale (Context.checkProductScale_eq_ok.mp hcheck).1
  have hquotient := signed_div_nearest hlimb.lawful.prime.two_le hlimb.lawful.small hsquare
  refine ⟨_, hquotient.isFinite, fun a b ha hb => ?_⟩
  obtain ⟨product, ct, hproduct, hct, hparts⟩ :=
    ha.exists_relinearize h.made h.drawsRelinearizationKey hb hcheck
  rw [masked, bind_of_ok hproduct, bind_of_ok hct]
  exact hparts.exists_rescale h.made hmodulus

/-- **Products of ciphertexts of one level and scale fail together or succeed together.**  The check of
the scale and the level are the same for all of them, and nothing else can fail. -/
theorem masked_uniform (h : s.Built) (hlevel : level ≤ s.context.maxLevel)
    (hscale : Signed .positive 971 (unpacked scale)) :
    (∃ e, ∀ a b, s.context.TwoParts level scale a → s.context.TwoParts level scale b →
      s.masked a b = .error e) ∨
    ∃ lower scale', lower + 1 = level ∧ scale'.isFinite = true ∧
      ∀ a b, s.context.TwoParts level scale a → s.context.TwoParts level scale b →
        ∃ ct, s.masked a b = .ok ct ∧ s.context.TwoParts lower scale' ct := by
  cases hcheck : s.context.checkProductScale (scale * scale) level with
  | error e =>
      refine .inl ⟨e, fun a b ha hb => ?_⟩
      have hlevel := ha.level_eq.trans hb.level_eq.symm
      have hmultiply : s.context.multiply a b = .error e := by
        rw [Context.multiply, bind_of_ok (ha.owns.checkOwned h.made),
          bind_of_ok (hb.owns.checkOwned h.made)]
        simp only [hlevel, bne_self_eq_false, Bool.false_eq_true, if_false]
        rw [← hlevel, ha.level_eq, ha.scale_eq, hb.scale_eq]
        exact bind_of_error hcheck
      exact bind_of_error hmultiply
  | ok u =>
      cases level with
      | zero =>
          refine .inl ⟨.chainExhausted 0, fun a b ha hb => ?_⟩
          obtain ⟨product, ct, hproduct, hct, hparts⟩ :=
            ha.exists_relinearize h.made h.drawsRelinearizationKey hb hcheck
          rw [masked, bind_of_ok hproduct, bind_of_ok hct,
            Context.rescale_bottom (hparts.owns.checkOwned h.made) hparts.level_eq]
      | succ lower =>
          obtain ⟨scale', hscale', hok⟩ := h.exists_masked hlevel hscale hcheck
          exact .inr ⟨lower, scale', rfl, hscale', hok⟩

end Scheme

/-! ### Items -/

/-- **The items that a scheme encrypts**, with flags set any number of times. -/
inductive Item.Made (s : Scheme) : Item → Prop
  | encrypt {value : Float} {flagCount : ℕ} {item : Item} {g g' : Generator}
      (hencrypt : (Item.encrypt s value flagCount).run.run g = (.ok item, g')) : Made s item
  | setFlag {item item' : Item} {index : ℕ} {on : Bool} {g g' : Generator} (hitem : Made s item)
      (hset : (item.setFlag s index on).run.run g = (.ok item', g')) : Made s item'

/-- **An encryption** has two parts, at the top level and at the scheme's scale. -/
theorem Scheme.Built.twoParts {s : Scheme} (h : s.Built) {value : Float} {g g' : Generator}
    {ct : Ciphertext} (hct : (s.encryptValue value s.scale).run.run g = (.ok ct, g')) :
    s.context.TwoParts s.maxLevel s.scale ct := by
  have hct := congrArg Prod.fst hct
  have hfresh := h.fresh hct
  obtain ⟨pt, noise, -, -, rfl⟩ := h.encryptValue_spec hct
  exact ⟨hfresh.owns, hfresh.level_eq, hfresh.scale_eq, rfl⟩

/-- **The value and the flags of an item** have the same level and scale. -/
theorem Item.Made.twoParts {s : Scheme} (h : s.Built) {item : Item} (hitem : item.Made s) :
    s.context.TwoParts s.maxLevel s.scale item.value ∧
      ∀ flag ∈ item.flags, s.context.TwoParts s.maxLevel s.scale flag := by
  induction hitem with
  | encrypt hencrypt =>
      obtain ⟨value, g₁, hvalue, hencrypt⟩ := run_bind_ok hencrypt
      obtain ⟨flags, g₂, hflags, hencrypt⟩ := run_bind_ok hencrypt
      cases hencrypt
      exact ⟨h.twoParts hvalue, (run_mapM_ok (fun _ _ _ _ => h.twoParts) hflags).2⟩
  | setFlag _ hset ih =>
      obtain ⟨flag, hflag, rfl⟩ := Item.setFlag_eq_ok hset
      refine ⟨ih.1, fun other hother => ?_⟩
      rcases List.mem_or_eq_of_mem_set hother with hother | rfl
      · exact ih.2 other hother
      · exact h.twoParts hflag

/-! ### Reductions -/

namespace Collection

variable {s : Scheme} {c c' : Collection} {index : ℕ}

/-- **A reduction of all values** is that of their list, without the record. -/
theorem result_reduce {reduction : Reduction}
    {f : Ciphertext → Ciphertext → Except Failure Ciphertext}
    (hf : ∀ acc value, (combine s reduction acc value).Gives (f acc value)) (c : Collection) :
    (c.reduce s reduction).result = combineAll f (c.items.map Item.value) := by
  refine Observed.Gives.result ?_
  unfold reduce
  cases c.items with
  | nil => exact .pure
  | cons first rest =>
      have hfold : Observed.Gives
          (rest.foldlM (fun acc item => combine s reduction acc item.value) first.value)
          (rest.foldlM (fun acc item => f acc item.value) first.value) :=
        .foldlM (fun acc item => hf acc item.value) rest first.value
      rw [List.map_cons, combineAll, List.foldlM_map, map_eq_pure_bind]
      exact hfold.bind fun _ => .pure

theorem gives_combine_sum (s : Scheme) (acc value : Ciphertext) :
    (combine s .sum acc value).Gives (s.context.add acc value) :=
  Request.gives (r := .add acc value) not_false

/-- **The product of an item's value with its flag.** -/
def mask (s : Scheme) (index : ℕ) (item : Item) : Except Failure Ciphertext :=
  match item.flags[index]? with
  | none => .error (.configuration (.missingFlag index))
  | some flag => s.masked item.value flag

theorem mask_of_flag {item : Item} {flag : Ciphertext} (hflag : item.flags[index]? = some flag) :
    mask s index item = (s.multiplyRescale item.value flag).result := by
  rw [mask, hflag]
  exact (s.gives_multiplyRescale item.value flag).result.symm

theorem mask_eq_ok {item : Item} {masked : Ciphertext} (h : mask s index item = .ok masked) :
    ∃ flag, item.flags[index]? = some flag ∧
      (s.multiplyRescale item.value flag).result = .ok masked := by
  cases hflag : item.flags[index]? with
  | none =>
      rw [mask, hflag] at h
      cases h
  | some flag => exact ⟨flag, rfl, (mask_of_flag hflag).symm.trans h⟩

/-- One more masked value is added. -/
def addMask (s : Scheme) (index : ℕ) (sum : Option Ciphertext) (item : Item) :
    Except Failure (Option Ciphertext) := do
  let masked ← mask s index item
  match sum with
  | none => return some masked
  | some acc => some <$> s.context.add acc masked

theorem result_sumWhere_eq (s : Scheme) (c : Collection) (index : ℕ) :
    (c.sumWhere s index).result =
      if c.flagCount ≤ index then .error (.configuration (.flagOutOfRange index c.flagCount))
      else c.items.foldlM (addMask s index) none := by
  refine Observed.Gives.result ?_
  unfold sumWhere
  split
  · exact .throw
  · refine .foldlM (fun sum item => ?_) c.items none
    unfold addMask mask
    cases item.flags[index]? with
    | none => exact .throw
    | some flag =>
        refine (s.gives_multiplyRescale item.value flag).bind fun masked => ?_
        cases sum with
        | none => exact .pure
        | some acc =>
            have hadd : (s.add acc masked).Gives (s.context.add acc masked) :=
              Request.gives (r := .add acc masked) not_false
            simp only [map_eq_pure_bind]
            exact hadd.bind fun _ => .pure

theorem foldlM_addMask : ∀ {items : List Item} {masks : List Ciphertext} {acc : Ciphertext},
    items.mapM (mask s index) = .ok masks →
      items.foldlM (addMask s index) (some acc) = some <$> masks.foldlM s.context.add acc := by
  intro items
  induction items with
  | nil =>
      intro masks acc hmasks
      cases hmasks
      rfl
  | cons item items ih =>
      intro masks acc hmasks
      simp only [List.mapM_cons, bind_eq_ok, pure_eq_ok] at hmasks
      obtain ⟨masked, hmasked, rest, hrest, rfl⟩ := hmasks
      rw [List.foldlM_cons, List.foldlM_cons, addMask, bind_of_ok hmasked]
      dsimp only
      cases s.context.add acc masked with
      | error e => rfl
      | ok sum => exact ih hrest

/-- **Adding masked values** is the sum of their list, when all of them succeed. -/
theorem foldlM_addMask_none {items : List Item} {masks : List Ciphertext}
    (hmasks : items.mapM (mask s index) = .ok masks) :
    items.foldlM (addMask s index) none = combineAll s.context.add masks := by
  cases items with
  | nil =>
      cases hmasks
      rfl
  | cons item items =>
      simp only [List.mapM_cons, bind_eq_ok, pure_eq_ok] at hmasks
      obtain ⟨masked, hmasked, rest, hrest, rfl⟩ := hmasks
      rw [List.foldlM_cons, addMask, bind_of_ok hmasked, combineAll]
      exact foldlM_addMask hrest

/-- When all of them fail alike, so does the sum. -/
theorem foldlM_addMask_of_error {items : List Item} {e : Failure} (hne : items ≠ [])
    (he : ∀ item ∈ items, mask s index item = .error e) :
    items.foldlM (addMask s index) none = .error e := by
  obtain ⟨item, items, rfl⟩ := List.exists_cons_of_ne_nil hne
  rw [List.foldlM_cons, addMask, bind_of_error (he item List.mem_cons_self)]
  rfl

/-! ### The order of the items -/

/-- **Masked values fail together or succeed together.** -/
theorem mask_uniform (h : s.Built) (index : ℕ) :
    (∃ e, ∀ item : Item, item.Made s → index < item.flags.length →
      mask s index item = .error e) ∨
    ∃ level scale, level + 1 = s.maxLevel ∧ scale.isFinite = true ∧
      ∀ item : Item, item.Made s → index < item.flags.length →
        ∃ masked, mask s index item = .ok masked ∧ s.context.TwoParts level scale masked := by
  have hmask : ∀ (item : Item) (hlt : index < item.flags.length),
      mask s index item = s.masked item.value item.flags[index] := fun item hlt => by
    rw [mask, List.getElem?_eq_getElem hlt]
  rcases s.masked_uniform h le_rfl h.signed_scale with ⟨e, he⟩ | ⟨level, scale, hlevel, hscale, hok⟩
  · refine .inl ⟨e, fun item hmade hlt => ?_⟩
    obtain ⟨hvalue, hflags⟩ := hmade.twoParts h
    rw [hmask item hlt, he _ _ hvalue (hflags _ (List.getElem_mem hlt))]
  · refine .inr ⟨level, scale, hlevel, hscale, fun item hmade hlt => ?_⟩
    obtain ⟨hvalue, hflags⟩ := hmade.twoParts h
    rw [hmask item hlt]
    exact hok _ _ hvalue (hflags _ (List.getElem_mem hlt))

/-- The masked values of a list have a level and a scale in common, when all of them succeed. -/
theorem exists_masks {items : List Item} {level : ℕ} {scale : Float}
    (hok : ∀ item ∈ items, ∃ masked, mask s index item = .ok masked ∧
      s.context.TwoParts level scale masked) :
    ∃ masks, items.mapM (mask s index) = .ok masks ∧
      ∀ masked ∈ masks, s.context.TwoParts level scale masked := by
  obtain ⟨masks, hmasks⟩ := exists_mapM_ok fun item hitem => (hok item hitem).imp fun _ => And.left
  refine ⟨masks, hmasks, fun masked hmasked => ?_⟩
  obtain ⟨item, hitem, heq⟩ := exists_mem_of_mapM_ok hmasks hmasked
  obtain ⟨masked', hmasked', htwo⟩ := hok item hitem
  cases heq.symm.trans hmasked'
  exact htwo

/-- **The order of the items does not count** in the sum of all values. -/
theorem reduce_sum_perm (h : s.Built) (hmade : ∀ item ∈ c.items, item.Made s)
    (hperm : c'.items.Perm c.items) : (c'.reduce s .sum).result = (c.reduce s .sum).result := by
  have hvalues : ∀ ct ∈ c.items.map Item.value, s.context.TwoParts s.maxLevel s.scale ct :=
    List.forall_mem_map.mpr fun item hitem => ((hmade item hitem).twoParts h).1
  rw [result_reduce (gives_combine_sum s), result_reduce (gives_combine_sum s)]
  exact Context.addAll_perm h.made h.isFinite_scale hvalues (hperm.map _)

/-- **The order of the items does not count** when masked values are added. -/
theorem foldlM_addMask_perm (h : s.Built) {items items' : List Item}
    (hmade : ∀ item ∈ items, item.Made s) (hflags : ∀ item ∈ items, index < item.flags.length)
    (hperm : items'.Perm items) :
    items'.foldlM (addMask s index) none = items.foldlM (addMask s index) none := by
  have hmem : ∀ item ∈ items', item ∈ items := fun item => hperm.mem_iff.mp
  rcases mask_uniform h index with ⟨e, he⟩ | ⟨level, scale, -, hscale, hok⟩
  · have herror : ∀ item ∈ items, mask s index item = .error e := fun item hitem =>
      he item (hmade item hitem) (hflags item hitem)
    by_cases hne : items = []
    · rw [hne] at hperm ⊢
      rw [hperm.eq_nil]
    · have hne' : items' ≠ [] := by
        rintro rfl
        exact hne hperm.nil_eq.symm
      rw [foldlM_addMask_of_error hne herror,
        foldlM_addMask_of_error hne' fun item hitem => herror item (hmem item hitem)]
  · have hmasked := fun item hitem => hok item (hmade item hitem) (hflags item hitem)
    obtain ⟨masks, hmasks, htwo⟩ := exists_masks hmasked
    obtain ⟨masks', hmasks', -⟩ := exists_masks fun item hitem => hmasked item (hmem item hitem)
    rw [foldlM_addMask_none hmasks, foldlM_addMask_none hmasks']
    exact Context.addAll_perm h.made hscale htwo (perm_of_mapM_ok hperm hmasks hmasks')

/-! ### The sum under a flag -/

/-- **A sum of masked values**: it has two parts and lies one level below the items, and the residues of
its parts are the sums of those of the masked values. -/
structure IsMaskedSum (s : Scheme) (c : Collection) (index : ℕ) (masks : List Ciphertext)
    (ct : Ciphertext) : Prop where
  masks_eq : List.Forall₂ (fun (item : Item) masked => ∃ flag, item.flags[index]? = some flag ∧
    (s.multiplyRescale item.value flag).result = .ok masked) c.items masks
  size_eq : ct.size = 2
  level_eq : ∀ item ∈ c.items, ct.level + 1 = item.value.level
  value_eq : ∀ (i : ℕ) (q : Modulus), (s.context.moduliAt ct.level)[i]? = some q →
    ∀ k < s.context.degree,
      let part (j : ℕ) (ct' : Ciphertext) :=
        ct'.parts.getD j (.zero s.context.degree (s.context.moduliAt ct.level).length)
      ∀ j, (part j ct).value q i k = (masks.map fun masked => (part j masked).value q i k).sum

/-- **A sum under a flag fails only as every product of a value and its flag does**, and is the sum of
these products otherwise. -/
theorem sumWhere_spec (h : s.Built) (hc : c.Uniform) (hmade : ∀ item ∈ c.items, item.Made s)
    (hne : c.items ≠ []) (hindex : index < c.flagCount) :
    (∃ e, (c.sumWhere s index).result = .error e ∧ ∀ item ∈ c.items, ∀ flag,
      item.flags[index]? = some flag → (s.multiplyRescale item.value flag).result = .error e) ∨
    ∃ ct masks, (c.sumWhere s index).result = .ok (some ct) ∧ IsMaskedSum s c index masks ct := by
  have hflags : ∀ item ∈ c.items, index < item.flags.length := fun item hitem =>
    (hc item hitem).symm ▸ hindex
  rw [result_sumWhere_eq, if_neg (not_le.mpr hindex)]
  rcases mask_uniform h index with ⟨e, he⟩ | ⟨level, scale, hlevel, hscale, hok⟩
  · have herror : ∀ item ∈ c.items, mask s index item = .error e := fun item hitem =>
      he item (hmade item hitem) (hflags item hitem)
    exact .inl ⟨e, foldlM_addMask_of_error hne herror, fun item hitem flag hflag =>
      (mask_of_flag hflag).symm.trans (herror item hitem)⟩
  · obtain ⟨masks, hmasks, htwo⟩ :=
      exists_masks fun item hitem => hok item (hmade item hitem) (hflags item hitem)
    have hmasksNe : masks ≠ [] := by
      rintro rfl
      exact hne (List.length_eq_zero_iff.mp (getElem?_of_mapM_ok hmasks).1.symm)
    obtain ⟨ct, hct, hparts, hpoly⟩ := Context.addAll_spec h.made hscale htwo hmasksNe
    refine .inr ⟨ct, masks, (foldlM_addMask_none hmasks).trans hct,
      (forall₂_of_mapM_ok hmasks).imp fun _ _ => mask_eq_ok, hparts.size_eq, fun item hitem => ?_,
      fun i q hq k hk => ?_⟩
    · rw [hparts.level_eq, hlevel, ((hmade item hitem).twoParts h).1.level_eq]
    · -- one part is one coefficient of the polynomials that were added up
      intro part j
      have hcoefficient := congrArg (Polynomial.coeff · j) (hpoly i q (hparts.level_eq ▸ hq) k hk)
      simpa only [Polynomial.coeff_list_sum_map, Context.coeff_partsPoly hq hk] using hcoefficient

/-! ### Products -/

/-- A value brought down to the level of an accumulator; itself when it is there. -/
def lowered (s : Scheme) (acc value : Ciphertext) : Except Failure Ciphertext :=
  if acc.level = value.level then .ok value else s.context.switchTo value acc.level

/-- One more value multiplied with the accumulator. -/
def multiplyDown (s : Scheme) (acc value : Ciphertext) : Except Failure Ciphertext := do
  let value ← lowered s acc value
  s.masked acc value

theorem gives_combine_product (s : Scheme) (acc value : Ciphertext) :
    (combine s .product acc value).Gives (multiplyDown s acc value) := by
  have hlowered : (s.switchTo value acc.level).Gives (lowered s acc value) := by
    by_cases hidle : acc.level = value.level
    · rw [Scheme.switchTo, lowered, if_pos hidle, if_pos hidle]
      exact .pure
    · rw [lowered, if_neg hidle]
      exact Request.gives (r := .switchTo value acc.level) hidle
  exact hlowered.bind fun value => s.gives_multiplyRescale acc value

/-- **Each further value takes one level**, by induction on the values. -/
theorem level_foldlM_multiplyDown : ∀ {values : List Ciphertext} {acc ct : Ciphertext},
    values.foldlM (multiplyDown s) acc = .ok ct → ct.level + values.length = acc.level := by
  intro values
  induction values with
  | nil =>
      intro acc ct hct
      cases hct
      rfl
  | cons value values ih =>
      intro acc ct hct
      rw [List.foldlM_cons, bind_eq_ok] at hct
      obtain ⟨next, hnext, hct⟩ := hct
      rw [multiplyDown, bind_eq_ok] at hnext
      obtain ⟨lowered, -, hmasked⟩ := hnext
      rw [List.length_cons, ← Nat.add_assoc, ih hct]
      exact (Scheme.masked_eq_ok hmasked).1

/-- **The product of all values** lies one level lower for each item after the first. -/
theorem reduce_product_spec {first : Item} {rest : List Item} (hitems : c.items = first :: rest)
    {total : Option Ciphertext} (htotal : (c.reduce s .product).result = .ok total) :
    ∃ ct, total = some ct ∧ ct.level + rest.length = first.value.level := by
  rw [result_reduce (gives_combine_product s), hitems, List.map_cons, combineAll, map_eq_pure_bind,
    bind_eq_ok] at htotal
  obtain ⟨ct, hct, htotal⟩ := htotal
  have hlevel := level_foldlM_multiplyDown hct
  rw [List.length_map] at hlevel
  exact ⟨ct, (pure_eq_ok.mp htotal).symm, hlevel⟩

/-! ### All reductions -/

/-- **How a collection is reduced** whose items one scheme encrypted.  In whatever order its items stand,
the sum of all values and the sum under each flag are the same ciphertext, or the same failure.  The
first never fails.  The second fails only as every product of a value and its flag does, and is the sum
of these products otherwise.  A product of all values lies one level lower for each item after the
first. -/
theorem reductions_spec (h : s.Built) (hc : c.Uniform) (hmade : ∀ item ∈ c.items, item.Made s)
    (hne : c.items ≠ []) :
    (∀ items : List Item, items.Perm c.items →
      ((mk c.flagCount items).reduce s .sum).result = (c.reduce s .sum).result ∧
        ∀ index, ((mk c.flagCount items).sumWhere s index).result = (c.sumWhere s index).result) ∧
      (∃ ct, (c.reduce s .sum).result = .ok (some ct)) ∧
      (∀ index < c.flagCount,
        (∃ e, (c.sumWhere s index).result = .error e ∧ ∀ item ∈ c.items, ∀ flag,
          item.flags[index]? = some flag → (s.multiplyRescale item.value flag).result = .error e) ∨
        ∃ ct masks, (c.sumWhere s index).result = .ok (some ct) ∧ IsMaskedSum s c index masks ct) ∧
      ∀ total, (c.reduce s .product).result = .ok total → ∃ ct, total = some ct ∧
        ∀ item ∈ c.items, ct.level + (c.items.length - 1) = item.value.level := by
  have hvalues : ∀ item ∈ c.items, s.context.TwoParts s.maxLevel s.scale item.value :=
    fun item hitem => ((hmade item hitem).twoParts h).1
  refine ⟨fun items hperm => ⟨reduce_sum_perm h hmade hperm, fun index => ?_⟩, ?_,
    fun index => sumWhere_spec h hc hmade hne, fun total htotal => ?_⟩
  · rw [result_sumWhere_eq, result_sumWhere_eq]
    split
    · rfl
    · next hindex =>
        refine foldlM_addMask_perm h hmade (fun item hitem => ?_) hperm
        rw [hc item hitem]
        exact not_le.mp hindex
  · obtain ⟨ct, hct, -⟩ := Context.addAll_spec h.made h.isFinite_scale
      (List.forall_mem_map.mpr hvalues) (mt List.map_eq_nil_iff.mp hne)
    exact ⟨ct, (result_reduce (gives_combine_sum s) c).trans hct⟩
  · obtain ⟨first, rest, hitems⟩ := List.exists_cons_of_ne_nil hne
    have hfirst : first ∈ c.items := hitems ▸ List.mem_cons_self
    obtain ⟨ct, htotal, hproduct⟩ := reduce_product_spec hitems htotal
    refine ⟨ct, htotal, fun item hitem => ?_⟩
    rw [(hvalues item hitem).level_eq, ← (hvalues first hfirst).level_eq, hitems]
    exact hproduct

/-- Two items of value 0 over the small context in either order, where each of the products succeeds. -/
theorem reductions_spec_small : ∃ (s : Scheme) (a b : Item) (total ct : Ciphertext), s.Built ∧
    ((Item.encrypt s 0.0 1).run.run (.ofSeed 1)).1 = .ok a ∧
    ((Item.encrypt s 0.0 1).run.run (.ofSeed 2)).1 = .ok b ∧
      ((mk 1 [a, b]).reduce s .sum).result = .ok (some total) ∧
      ((mk 1 [b, a]).reduce s .sum).result = .ok (some total) ∧
      ((mk 1 [a, b]).sumWhere s 0).result = .ok (some ct) ∧
      ((mk 1 [b, a]).sumWhere s 0).result = .ok (some ct) ∧
      ct.size = 2 ∧ ct.level + 1 = a.value.level := by
  obtain ⟨s, hbuilt, hcontext, hscale⟩ := Scheme.exists_built_small
  obtain ⟨a, g, ha⟩ := (hbuilt.infallible_item 1).exists_ok (.ofSeed 1)
  obtain ⟨b, g', hb⟩ := (hbuilt.infallible_item 1).exists_ok (.ofSeed 2)
  have hflags : (mk 1 [a, b]).Uniform := List.forall_mem_cons.mpr
    ⟨Item.length_flags_encrypt ha, List.forall_mem_singleton.mpr (Item.length_flags_encrypt hb)⟩
  have hmade : ∀ item ∈ [a, b], item.Made s :=
    List.forall_mem_cons.mpr ⟨.encrypt ha, List.forall_mem_singleton.mpr (.encrypt hb)⟩
  obtain ⟨horder, ⟨total, htotal⟩, hwhere, -⟩ :=
    reductions_spec hbuilt hflags hmade (List.cons_ne_nil _ _)
  obtain ⟨hsum, hsumWhere⟩ := horder [b, a] (.swap a b [])
  -- the square of the scale fits, so the first product succeeds
  have hmaxLevel : s.maxLevel = 1 := congrArg Context.maxLevel hcontext
  have hcheck : s.context.checkProductScale (s.scale * s.scale) 1 = .ok () := by
    rw [hcontext, hscale]
    rfl
  obtain ⟨scale', -, hmasked⟩ := hbuilt.exists_masked hmaxLevel.ge hbuilt.signed_scale hcheck
  obtain ⟨hvalue, hflag⟩ := (hmade a List.mem_cons_self).twoParts hbuilt
  rw [hmaxLevel] at hvalue hflag
  obtain ⟨flag, hflags⟩ := List.length_eq_one_iff.mp (Item.length_flags_encrypt ha)
  obtain ⟨masked, hok, -⟩ := hmasked _ _ hvalue (hflag flag (hflags ▸ List.mem_cons_self))
  rcases hwhere 0 Nat.one_pos with ⟨e, -, he⟩ | ⟨ct, masks, hct, hspec⟩
  · have herror := he a List.mem_cons_self flag (by rw [hflags]; rfl)
    cases hok.symm.trans ((s.gives_multiplyRescale _ _).result.symm.trans herror)
  · exact ⟨s, a, b, total, ct, hbuilt, congrArg Prod.fst ha, congrArg Prod.fst hb, htotal,
      hsum.trans htotal, hct, (hsumWhere 0).trans hct, hspec.size_eq,
      hspec.level_eq a List.mem_cons_self⟩

end Collection

end EncryptedReals
