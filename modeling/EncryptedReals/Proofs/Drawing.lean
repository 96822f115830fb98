import EncryptedReals.Proofs.Doubles
import EncryptedReals.Random.Sampler

/-!
# What a drawing returns

Statements here hold for every generator.  A list or a vector of draws has one draw for each
place, made with some generator, so what every single draw satisfies, all of them do.  And a drawing
moves along its stream: it may read any number of words, but it never leaves the stream or goes back.

## Main Definitions

* `Drawing.Onward` — computations that move along the stream

## Main results

* `Drawing.vector_spec`, `Drawing.getElem?_mapM` — vectors and lists of draws
* `Drawing.toList_vector`, `Drawing.place_vector` — draws of one word each, by their places
* `Drawing.below_lt` — a number below a range is below it
* `Drawing.retry_spec` — draws that are repeated until one is accepted
* `Sampler.ternary_spec`, `Sampler.uniform_spec`, `Sampler.normalErrors_spec` — the samplers
* `Sampler.onward_ternary`, `Sampler.onward_normalErrors` — the samplers of an encryption move along
-/

namespace EncryptedReals

namespace Drawing

/-! ### Vectors and lists -/

section Repeated

variable {α β : Type} {P : α → Prop}

/-- A vector grows by the draws that are still to be made. -/
theorem vectorFrom_spec {d : Drawing α} (hd : ∀ g, P (d.run g).1) :
    ∀ (count : ℕ) {acc : Array α} (g : Generator), (∀ x ∈ acc, P x) →
      ((vectorFrom d count acc).run g).1.size = acc.size + count ∧
        ∀ x ∈ ((vectorFrom d count acc).run g).1, P x := by
  intro count
  induction count with
  | zero =>
      intro acc g hacc
      exact ⟨rfl, hacc⟩
  | succ count ih =>
      intro acc g hacc
      have hpush : ∀ x ∈ acc.push (d.run g).1, P x := by
        intro x hx
        rcases Array.mem_push.mp hx with hx | rfl
        · exact hacc x hx
        · exact hd g
      obtain ⟨hsize, hmem⟩ := ih (d.run g).2 hpush
      rw [Array.size_push] at hsize
      refine ⟨?_, hmem⟩
      show ((vectorFrom d count (acc.push (d.run g).1)).run (d.run g).2).1.size = _
      omega

/-- **A vector of draws** has the length asked for, and all that every draw has. -/
theorem vector_spec {d : Drawing α} (hd : ∀ g, P (d.run g).1) (count : ℕ) (g : Generator) :
    ((vector count d).run g).1.size = count ∧ ∀ x ∈ ((vector count d).run g).1, P x := by
  obtain ⟨hsize, hmem⟩ := @vectorFrom_spec _ _ _ hd count #[] g (by simp)
  exact ⟨hsize.trans (Nat.zero_add count), hmem⟩

/-- Draws that take one word each add what stands at the next places of the stream, and move on by as
many places. -/
theorem run_vectorFrom {d : Drawing α} (hd : ∀ g, (d.run g).2 = g.next) :
    ∀ (count : ℕ) {acc : Array α} {g : Generator},
      ((vectorFrom d count acc).run g).1.toList =
          acc.toList ++ ((List.range' g.position count).map fun i => (d.run (g.atPosition i)).1) ∧
        ((vectorFrom d count acc).run g).2 = g.atPosition (g.position + count) := by
  intro count
  induction count with
  | zero =>
      intro acc g
      exact ⟨(List.append_nil acc.toList).symm, rfl⟩
  | succ count ih =>
      intro acc g
      obtain ⟨hlist, hplace⟩ := @ih (acc.push (d.run g).1) g.next
      have hstep : (vectorFrom d (count + 1) acc).run g =
          (vectorFrom d count (acc.push (d.run g).1)).run g.next := by rw [← hd g]; rfl
      rw [hstep, hlist, hplace]
      constructor
      · rw [Array.toList_push, List.append_assoc, List.range'_succ, List.map_cons]
        rfl
      · exact congrArg g.atPosition (Nat.add_right_comm g.position 1 count)

/-- **Draws that take one word each** can be entered anywhere: each is what its place of the stream
gives. -/
theorem toList_vector {d : Drawing α} (hd : ∀ g, (d.run g).2 = g.next) (count : ℕ)
    (g : Generator) : ((vector count d).run g).1.toList =
      (List.range' g.position count).map fun i => (d.run (g.atPosition i)).1 :=
  (run_vectorFrom hd count).1

/-- **Draws that take one word each** lead to the place that is entered behind them. -/
theorem place_vector {d : Drawing α} (hd : ∀ g, (d.run g).2 = g.next) (count : ℕ) (g : Generator) :
    ((vector count d).run g).2 = g.atPosition (g.position + count) :=
  (run_vectorFrom hd count).2

/-- **What a list of draws returns** at a place comes from the draw for the member there. -/
theorem getElem?_mapM {d : β → Drawing α} :
    ∀ {bs : List β} {g : Generator}, ((bs.mapM d).run g).1.length = bs.length ∧
      ∀ (i : ℕ) (b : β), bs[i]? = some b → ∃ g', ((bs.mapM d).run g).1[i]? =
        some ((d b).run g').1 := by
  intro bs
  induction bs with
  | nil =>
      intro g
      exact ⟨rfl, fun i b hb => by simp at hb⟩
  | cons b bs ih =>
      intro g
      rw [List.mapM_cons]
      obtain ⟨hlength, hget⟩ := @ih ((d b).run g).2
      refine ⟨congrArg (· + 1) hlength, fun i b' hb' => ?_⟩
      cases i with
      | zero =>
          rw [List.getElem?_cons_zero, Option.some.injEq] at hb'
          subst hb'
          exact ⟨g, rfl⟩
      | succ i =>
          rw [List.getElem?_cons_succ] at hb'
          exact hget i b' hb'

/-- Each member of what a list of draws returns comes from one of them. -/
theorem mem_mapM {d : β → Drawing α} {bs : List β} {g : Generator} {a : α}
    (ha : a ∈ ((bs.mapM d).run g).1) : ∃ b g', a = ((d b).run g').1 := by
  obtain ⟨hlength, hget⟩ := @getElem?_mapM _ _ d bs g
  obtain ⟨i, hi, rfl⟩ := List.mem_iff_getElem.mp ha
  obtain ⟨g', hg'⟩ := hget i _ (List.getElem?_eq_getElem (hlength ▸ hi))
  exact ⟨_, g', Option.some.inj ((List.getElem?_eq_getElem hi).symm.trans hg')⟩

end Repeated

/-! ### Repeated tries -/

/-- **Draws that are repeated** return what an accepted one satisfies, or the fallback. -/
theorem retry_spec {α : Type} {P : α → Prop} {d : Drawing (Option α)} {fallback : α}
    (hfallback : P fallback) (hd : ∀ g x, (d.run g).1 = some x → P x) :
    ∀ (fuel : ℕ) (g : Generator), P ((retry d fallback fuel).run g).1 := by
  intro fuel
  induction fuel with
  | zero => intro g; exact hfallback
  | succ fuel ih =>
      intro g
      rw [retry, StateT.run_bind]
      simp only [bind]
      rcases htry : d.run g with ⟨_ | x, g'⟩
      · exact ih g'
      · exact hd g x (congrArg Prod.fst htry)

/-! ### Numbers below a range -/

theorem run_ite {α : Type} {p : Prop} [Decidable p] (x y : Drawing α) (g : Generator) :
    (if p then x else y).run g = if p then x.run g else y.run g := by
  split <;> rfl

/-- **The number that is drawn**: the high word of a product, with the carry of a second word when
the low word leaves it in doubt. -/
theorem run_below (range : ℕ) (g : Generator) : ((below range).run g).1 =
    if 2 ^ 64 - range < g.word.toNat * range % 2 ^ 64 ∧
        2 ^ 64 ≤ g.word.toNat * range % 2 ^ 64 + g.next.word.toNat * range / 2 ^ 64 then
      g.word.toNat * range / 2 ^ 64 + 1
    else g.word.toNat * range / 2 ^ 64 := by
  have hrun : (below range).run g =
      (if 2 ^ 64 - range < g.word.toNat * range % 2 ^ 64 then
        (do
          let carry := (← word).toNat * range / 2 ^ 64
          return if 2 ^ 64 ≤ g.word.toNat * range % 2 ^ 64 + carry then
            g.word.toNat * range / 2 ^ 64 + 1 else g.word.toNat * range / 2 ^ 64 : Drawing ℕ)
      else return g.word.toNat * range / 2 ^ 64).run g.next := rfl
  rw [hrun, run_ite, apply_ite Prod.fst, ite_and]
  rfl

/-- **A number below a range** is below it.  A word is less than `2 ^ 64`, so its product leaves
room for one more range, and the carry is less than that. -/
theorem below_lt {range : ℕ} (hrange : 0 < range) (g : Generator) :
    ((below range).run g).1 < range := by
  have hword : g.word.toNat < 2 ^ 64 := g.word.toNat_lt
  have hnext : g.next.word.toNat < 2 ^ 64 := g.next.word.toNat_lt
  have hproduct : g.word.toNat * range + range ≤ 2 ^ 64 * range := by
    rw [← Nat.succ_mul]
    exact Nat.mul_le_mul_right range hword
  have hcarry : g.next.word.toNat * range / 2 ^ 64 < range :=
    Nat.div_lt_of_lt_mul (Nat.mul_lt_mul_of_pos_right hnext hrange)
  have hdivision := Nat.div_add_mod (g.word.toNat * range) (2 ^ 64)
  rw [run_below]
  split
  · omega
  · exact Nat.div_lt_of_lt_mul (Nat.mul_lt_mul_of_pos_right hword hrange)

/-! ### Places in the stream -/

section Places

variable {α β : Type} {d d' : Drawing α}

/-- **Onward**: wherever it begins, a computation leaves the generator at a later place of the same
stream, or where it was. -/
def Onward (d : Drawing α) : Prop :=
  ∀ g, ∃ count, (d.run g).2 = g.atPosition (g.position + count)

theorem onward_pure (a : α) : Onward (pure a) :=
  fun _ => ⟨0, rfl⟩

theorem onward_word : Onward word :=
  fun _ => ⟨1, rfl⟩

theorem Onward.bind (hd : Onward d) {f : α → Drawing β} (hf : ∀ a, Onward (f a)) :
    Onward (d >>= f) := by
  intro g
  obtain ⟨count, hcount⟩ := hd g
  obtain ⟨count', hcount'⟩ := hf (d.run g).1 (d.run g).2
  have hrun : (d >>= f).run g = (f (d.run g).1).run (d.run g).2 := rfl
  refine ⟨count + count', ?_⟩
  rw [hrun, hcount', hcount, ← Nat.add_assoc]
  rfl

theorem Onward.ite {p : Prop} [Decidable p] (hd : Onward d) (hd' : Onward d') :
    Onward (if p then d else d') := by
  split
  · exact hd
  · exact hd'

theorem Onward.vector (hd : Onward d) (count : ℕ) : Onward (vector count d) := by
  have hfrom : ∀ acc, Onward (vectorFrom d count acc) := by
    induction count with
    | zero => exact fun acc => onward_pure acc
    | succ count ih => exact fun acc => hd.bind fun x => ih (acc.push x)
  exact hfrom #[]

theorem Onward.retry {d : Drawing (Option α)} (hd : Onward d) (fallback : α) :
    ∀ fuel, Onward (retry d fallback fuel) := by
  intro fuel
  induction fuel with
  | zero => exact onward_pure fallback
  | succ fuel ih =>
      refine hd.bind fun tried => ?_
      cases tried with
      | none => exact ih
      | some x => exact onward_pure x

theorem onward_unit : Onward unit :=
  onward_word.bind fun _ => onward_pure _

theorem onward_openUnit : Onward openUnit :=
  onward_word.bind fun _ => onward_pure _

theorem onward_below (range : ℕ) : Onward (below range) :=
  onward_word.bind fun _ => .ite (onward_word.bind fun _ => onward_pure _) (onward_pure _)

theorem onward_tail (u : Float) : Onward (tail u) := by
  have htry : Onward tailTry :=
    onward_openUnit.bind fun _ => onward_openUnit.bind fun _ => onward_pure _
  exact (htry.retry 0 patience).bind fun _ => onward_pure _

theorem onward_normal : Onward normal := by
  have htry : Onward normalTry := by
    refine onward_word.bind fun w => .ite (onward_pure _) (.ite ?_ ?_)
    · exact (onward_tail _).bind fun _ => onward_pure _
    · exact onward_unit.bind fun _ => onward_pure _
  exact htry.retry 0 patience

end Places

end Drawing

/-! ### Samplers -/

namespace Sampler

/-- **Ternary coefficients** are as many as asked for, each -1, 0 or 1. -/
theorem ternary_spec (count : ℕ) (g : Generator) :
    ((ternary count).run g).1.size = count ∧
      ∀ x ∈ ((ternary count).run g).1, x = -1 ∨ x = 0 ∨ x = 1 := by
  refine Drawing.vector_spec (P := fun x : ℤ => x = -1 ∨ x = 0 ∨ x = 1) (fun g => ?_) count g
  have hlt := Drawing.below_lt (show 0 < 3 by norm_num) g
  show (((Drawing.below 3).run g).1 : ℤ) - 1 = -1 ∨ (((Drawing.below 3).run g).1 : ℤ) - 1 = 0 ∨
    (((Drawing.below 3).run g).1 : ℤ) - 1 = 1
  omega

/-- **Uniform residues** are as many as asked for, each below the modulus. -/
theorem uniform_spec (count : ℕ) {modulus : ℕ} (hmodulus : 0 < modulus) (g : Generator) :
    ((uniform count modulus).run g).1.size = count ∧
      ∀ x ∈ ((uniform count modulus).run g).1, x < modulus :=
  Drawing.vector_spec (P := fun x => x < modulus) (fun g => Drawing.below_lt hmodulus g) count g

/-- **An error that is accepted** is within the bound: rounding does not leave an integral bound. -/
theorem abs_le_of_errorTry {deviation : Float} {g : Generator} {x : ℤ}
    (h : ((errorTry deviation).run g).1 = some x) : |x| ≤ 19 := by
  have hbound : Binary64.ofFloat? (Float.ofNat errorBound) =
      some ⟨false, 5348024557502464, -48⟩ := by
    decide +kernel
  obtain ⟨y, hy⟩ : ∃ y, ((errorTry deviation).run g).1 =
      if y.abs ≤ Float.ofNat errorBound then (Binary64.ofFloat? y).map Binary64.round else none := by
    refine ⟨0.0 + deviation * (Drawing.normal.run g).1, ?_⟩
    have hrun : (errorTry deviation).run g =
        (if (0.0 + deviation * (Drawing.normal.run g).1).abs ≤ Float.ofNat errorBound then
          (return (Binary64.ofFloat? (0.0 + deviation * (Drawing.normal.run g).1)).map
            Binary64.round : Drawing (Option ℤ))
        else return none).run (Drawing.normal.run g).2 := rfl
    rw [hrun, Drawing.run_ite, apply_ite Prod.fst]
    rfl
  rw [hy] at h
  split at h
  · next haccepted =>
      obtain ⟨v, hv, rfl⟩ := Option.map_eq_some_iff.mp h
      have hvalue := Binary64.abs_value_le haccepted hv hbound
      refine @Binary64.abs_round_le v 19 (hvalue.trans_eq ?_)
      norm_num [Binary64.value, zpow_neg]
  · cases h

/-- **Normal errors** are as many as asked for, each at most 19, whatever the deviation. -/
theorem normalErrors_spec (count : ℕ) (deviation : Float) (g : Generator) :
    ((normalErrors count deviation).run g).1.size = count ∧
      ∀ x ∈ ((normalErrors count deviation).run g).1, |x| ≤ 19 := by
  unfold normalErrors
  split
  · refine Drawing.vector_spec (P := fun x : ℤ => |x| ≤ 19) (fun g => ?_) count g
    exact Drawing.retry_spec (P := fun x : ℤ => |x| ≤ 19) (by norm_num)
      (fun g x hx => abs_le_of_errorTry hx) Drawing.patience g
  · refine ⟨Array.size_replicate, fun x hx => ?_⟩
    rw [Array.eq_of_mem_replicate hx]
    norm_num

theorem onward_ternary (count : ℕ) : Drawing.Onward (ternary count) :=
  .vector ((Drawing.onward_below 3).bind fun _ => Drawing.onward_pure _) count

theorem onward_normalErrors (count : ℕ) (deviation : Float) :
    Drawing.Onward (normalErrors count deviation) := by
  have htry : Drawing.Onward (errorTry deviation) :=
    Drawing.onward_normal.bind fun _ => .ite (Drawing.onward_pure _) (Drawing.onward_pure _)
  exact .ite (.vector (htry.retry 0 Drawing.patience) count) (Drawing.onward_pure _)

end Sampler

end EncryptedReals
