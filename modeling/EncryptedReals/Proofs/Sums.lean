import EncryptedReals.Proofs.Operations

/-!
# Sums of ciphertexts do not depend on grouping

The residues of a sum are canonical, so they are determined by their values, and sums that are
equal as polynomials are equal bit for bit.  The sizes of the summands are free: a sum has as many
parts as its longest summand, and a part that is missing counts as zero.

## Main Definitions

* `Context.sum` — the ciphertext that addition returns

## Main results

* `Context.getD_addParts` — the parts of a sum
* `Context.add_eq` — when addition succeeds
* `Context.sum_assoc` — sums can be regrouped
-/

namespace EncryptedReals

/-! ### Polynomials -/

namespace ResiduePoly

variable {n : ℕ} {moduli : List Modulus} {p r c : ResiduePoly} (hw : FitWords moduli)
  (hp : p.Canonical n moduli)

include hw hp

/-- **Sums of canonical polynomials can be regrouped.** -/
theorem add_assoc_of_canonical (hr : r.Canonical n moduli) (hc : c.Canonical n moduli) :
    (p.add moduli r).add moduli c = p.add moduli (r.add moduli c) := by
  refine ((hp.add hw hr).add hw hc).ext (hp.add hw (hr.add hw hc)) fun i q hq k hk => ?_
  rw [value_add hw (hp.add hw hr) hc hq hk, value_add hw hp hr hq hk,
    value_add hw hp (hr.add hw hc) hq hk, value_add hw hr hc hq hk, add_assoc]

theorem add_zero_of_canonical : p.add moduli (.zero n moduli.length) = p := by
  have hzero := canonical_zero (n := n) hw
  refine (hp.add hw hzero).ext hp fun i q hq k hk => ?_
  rw [value_add hw hp hzero hq hk, value_zero hq hk, add_zero]

end ResiduePoly

/-- Past the end of the right list the left one stays. -/
theorem getElem?_overlay_of_none {α β : Type} (f : α → β → α) {as : List α} {bs : List β} {i : ℕ}
    (hb : bs[i]? = none) : (overlay f as bs)[i]? = as[i]? := by
  rw [getElem?_overlay_eq, hb]
  exact Option.map_id'

namespace Context

variable {ctx : Context} {a b c : Ciphertext} {moduli : List Modulus} {n : ℕ}

/-! ### Parts -/

section Parts

variable {as bs cs : List ResiduePoly} (hw : FitWords moduli)
  (has : ∀ p ∈ as, p.Canonical n moduli)

include hw has

theorem canonical_getD (k : ℕ) :
    (as.getD k (.zero n moduli.length)).Canonical n moduli := by
  rw [List.getD_eq_getElem?_getD]
  cases hk : as[k]? with
  | none => exact ResiduePoly.canonical_zero hw
  | some p => exact has p (List.mem_of_getElem? hk)

/-- **A part of a sum** is the sum of the parts, of which a missing one is zero. -/
theorem getD_addParts (k : ℕ) :
    (addParts moduli (.zero n moduli.length) as bs).getD k (.zero n moduli.length) =
      (as.getD k (.zero n moduli.length)).add moduli (bs.getD k (.zero n moduli.length)) := by
  have hpadded : (as ++ List.replicate (bs.length - as.length)
      (ResiduePoly.zero n moduli.length)).getD k (.zero n moduli.length) =
        as.getD k (.zero n moduli.length) := by
    rcases Nat.lt_or_ge k as.length with hk | hk
    · rw [List.getD_append _ _ _ _ hk]
    · rw [List.getD_append_right _ _ _ _ hk, List.getD_eq_default as _ hk,
        List.getD_eq_getElem?_getD, List.getElem?_replicate]
      split <;> rfl
  cases hb : bs[k]? with
  | none =>
      have hmissing : bs.getD k (.zero n moduli.length) = .zero n moduli.length := by
        rw [List.getD_eq_getElem?_getD, hb, Option.getD_none]
      rw [hmissing, ResiduePoly.add_zero_of_canonical hw (canonical_getD hw has k), ← hpadded,
        addParts, List.getD_eq_getElem?_getD, getElem?_overlay_of_none _ hb,
        List.getD_eq_getElem?_getD]
  | some r =>
      have hpresent : bs.getD k (.zero n moduli.length) = r := by
        rw [List.getD_eq_getElem?_getD, hb, Option.getD_some]
      have hlt : k < bs.length := (List.getElem?_eq_some_iff.mp hb).1
      have hlength : k < (as ++ List.replicate (bs.length - as.length)
          (ResiduePoly.zero n moduli.length)).length := by
        rw [List.length_append, List.length_replicate]
        omega
      have hentry : (as ++ List.replicate (bs.length - as.length)
          (ResiduePoly.zero n moduli.length))[k]? = some (as.getD k (.zero n moduli.length)) := by
        rw [List.getElem?_eq_getElem hlength, ← List.getD_eq_getElem _
          (ResiduePoly.zero n moduli.length) hlength, hpadded]
      rw [addParts, List.getD_eq_getElem?_getD, getElem?_overlay _ hentry hb, Option.getD_some,
        hpresent]

/-- **Sums of parts can be regrouped**, whatever the sizes. -/
theorem addParts_assoc (hbs : ∀ p ∈ bs, p.Canonical n moduli)
    (hcs : ∀ p ∈ cs, p.Canonical n moduli) :
    addParts moduli (.zero n moduli.length) (addParts moduli (.zero n moduli.length) as bs) cs =
      addParts moduli (.zero n moduli.length) as
        (addParts moduli (.zero n moduli.length) bs cs) := by
  refine List.ext_getElem ?_ fun k hleft hright => ?_
  · rw [length_addParts, length_addParts, length_addParts, length_addParts, max_assoc]
  · rw [← List.getD_eq_getElem _ (ResiduePoly.zero n moduli.length) hleft,
      ← List.getD_eq_getElem _ (ResiduePoly.zero n moduli.length) hright,
      getD_addParts hw (canonical_addParts hw has hbs), getD_addParts hw has,
      getD_addParts hw has, getD_addParts hw hbs,
      ResiduePoly.add_assoc_of_canonical hw (canonical_getD hw has k) (canonical_getD hw hbs k)
        (canonical_getD hw hcs k)]

end Parts

/-! ### Ciphertexts -/

/-- **The sum of two ciphertexts** of one level. -/
def sum (ctx : Context) (a b : Ciphertext) : Ciphertext :=
  { a with parts := addParts (ctx.moduliAt a.level) (.zero ctx.degree (a.level + 1)) a.parts b.parts }

/-- **When addition succeeds**: the summands share level and scale. -/
theorem add_eq (h : ctx.Made) (ha : ctx.Owns a) (hb : ctx.Owns b) (hlevel : a.level = b.level)
    (hscale : (a.scale != b.scale) = false) : ctx.add a b = .ok (ctx.sum a b) := by
  have hsummands : checkSummands a b = .ok () := by
    simp only [checkSummands, throw_bind, check_eq_ok, bne_iff_ne, ne_eq, not_not, hscale]
    exact ⟨hlevel, by simp, rfl⟩
  simp only [add, check_bind_eq_ok]
  exact ⟨ha.checkOwned h, hb.checkOwned h, hsummands, rfl⟩

section Sum

variable (h : ctx.Made) (ha : ctx.Owns a) (hb : ctx.Owns b) (hab : a.level = b.level)

include h ha hb hab

theorem owns_sum : ctx.Owns (ctx.sum a b) := by
  have hlength := h.length_moduliAt ha.level_le
  refine ⟨ha.owner_eq, ha.level_le, ?_, ?_⟩
  · show 2 ≤ (addParts _ _ a.parts b.parts).length
    rw [length_addParts]
    exact ha.two_le_size.trans (le_max_left _ _)
  · show ∀ p ∈ addParts _ (.zero ctx.degree (a.level + 1)) a.parts b.parts, _
    rw [← hlength]
    exact canonical_addParts (h.fitWordsAt a.level) ha.canonical (hab ▸ hb.canonical)

/-- **Sums of ciphertexts can be regrouped**, bit for bit. -/
theorem sum_assoc (hc : ctx.Owns c) (hbc : b.level = c.level) :
    ctx.sum (ctx.sum a b) c = ctx.sum a (ctx.sum b c) := by
  have hparts := addParts_assoc (h.fitWordsAt a.level) ha.canonical (hab ▸ hb.canonical)
    ((hab.trans hbc) ▸ hc.canonical)
  rw [h.length_moduliAt ha.level_le] at hparts
  simp only [sum]
  rw [hparts, hab]

end Sum

end Context

end EncryptedReals
