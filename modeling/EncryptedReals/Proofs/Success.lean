import Mathlib

/-!
# What a success says

A fallible computation is a sequence of checks and steps.  The lemmas here turn
the equation "the sequence returned this" into the checks that held and the results of
the steps, one `↔` for each way of building a sequence.  Statements about
operations are proved from them without opening an operation twice.

What can be said of a failure without knowing the operands goes through the same ways of building:
a condition on the failures of the parts is one on the failures of the whole (`FailsWith`, and
`RunsFailWith` for computations with a state).
-/

namespace EncryptedReals

variable {α β ε ε' : Type}

/-- A sequence succeeds when both of its steps do. -/
@[simp] theorem bind_eq_ok {x : Except ε α} {f : α → Except ε β} {b : β} :
    (x >>= f) = .ok b ↔ ∃ a, x = .ok a ∧ f a = .ok b := by
  cases x <;> simp [bind, Except.bind]

/-- A sequence that starts with a check succeeds when the check does and the rest does. -/
theorem check_bind_eq_ok {x : Except ε Unit} {f : Unit → Except ε β} {b : β} :
    (x >>= f) = .ok b ↔ x = .ok () ∧ f () = .ok b := by
  rw [bind_eq_ok]
  exact ⟨fun ⟨(), h⟩ => h, fun h => ⟨(), h⟩⟩

@[simp] theorem pure_eq_ok {a b : α} : (pure a : Except ε α) = .ok b ↔ a = b := by
  simp [pure, Except.pure]

/-- A sequence that ends with a return fails as its first step does. -/
theorem bind_pure_eq_error {x : Except ε α} {f : α → β} {e : ε} :
    (x >>= fun a => pure (f a)) = .error e ↔ x = .error e := by
  cases x <;> simp [bind, Except.bind, pure, Except.pure]

@[simp] theorem throw_eq_ok {e : ε} {a : α} : (throw e : Except ε α) = .ok a ↔ False := by
  simp [throw, throwThe, MonadExceptOf.throw]

@[simp] theorem mapError_eq_ok {x : Except ε α} {f : ε → ε'} {a : α} :
    x.mapError f = .ok a ↔ x = .ok a := by
  cases x <;> simp [Except.mapError]

/-- A sequence fails as its first step does, or as the rest does after it. -/
theorem bind_eq_error {x : Except ε α} {f : α → Except ε β} {e : ε} :
    (x >>= f) = .error e ↔ x = .error e ∨ ∃ a, x = .ok a ∧ f a = .error e := by
  cases x <;> simp [bind, Except.bind]

/-- A sequence fails with a check that fails. -/
theorem bind_of_error {x : Except ε α} {f : α → Except ε β} {e : ε} (h : x = .error e) :
    (x >>= f) = .error e :=
  bind_eq_error.mpr (.inl h)

/-- A sequence goes on after a step that succeeds. -/
theorem bind_of_ok {x : Except ε α} {f : α → Except ε β} {a : α} (h : x = .ok a) :
    (x >>= f) = f a := by
  rw [h]
  rfl

/-- Nothing comes after a throw. -/
@[simp] theorem throw_bind {e : ε} {f : α → Except ε β} :
    (throw e >>= f : Except ε β) = throw e :=
  rfl

theorem eq_ok_of_toOption {x : Except ε α} {a : α} (h : x.toOption = some a) : x = .ok a := by
  cases x with
  | error e => cases h
  | ok b => exact congrArg Except.ok (Option.some.inj h)

theorem exists_ok_of_isOk {x : Except ε α} (h : x.isOk = true) : ∃ a, x = .ok a := by
  cases x with
  | error e => cases h
  | ok a => exact ⟨a, rfl⟩

/-- A check that throws on a condition succeeds when the condition fails and the rest
succeeds. -/
@[simp] theorem check_eq_ok {p : Prop} [Decidable p] {e : ε} {x : Except ε α} {a : α} :
    (if p then throw e else x) = .ok a ↔ ¬p ∧ x = .ok a := by
  by_cases hp : p <;> simp [hp]

/-- A check that throws on a condition fails with the throw under it, and as the rest does
otherwise. -/
theorem check_eq_error {p : Prop} [Decidable p] {e e' : ε} {x : Except ε α} :
    (if p then throw e else x) = .error e' ↔ p ∧ e = e' ∨ ¬p ∧ x = .error e' := by
  by_cases hp : p <;> simp [hp, throw, throwThe, MonadExceptOf.throw]

/-- Checks over a list succeed when each one does. -/
theorem forM_eq_ok {f : α → Except ε Unit} {as : List α} :
    as.forM f = .ok () ↔ ∀ a ∈ as, f a = .ok () := by
  induction as with
  | nil => simp [List.forM]
  | cons a as ih =>
      rw [List.forM, check_bind_eq_ok, List.forall_mem_cons, ← ih]

/-- Checks over a list fail with the first one that does. -/
theorem forM_eq_error {f : α → Except ε Unit} {e : ε} :
    ∀ {as : List α}, as.forM f = .error e ↔ ∃ before a after, as = before ++ a :: after ∧
      (∀ b ∈ before, f b = .ok ()) ∧ f a = .error e := by
  intro as
  induction as with
  | nil => simp [List.forM, pure, Except.pure]
  | cons a as ih =>
      rw [List.forM, bind_eq_error, ih]
      constructor
      · rintro (ha | ⟨⟨⟩, ha, before, b, after, rfl, hbefore, hb⟩)
        · exact ⟨[], a, as, rfl, List.forall_mem_nil _, ha⟩
        · exact ⟨a :: before, b, after, rfl, List.forall_mem_cons.mpr ⟨ha, hbefore⟩, hb⟩
      · rintro ⟨before, b, after, hsplit, hbefore, hb⟩
        cases before with
        | nil =>
            cases hsplit
            exact .inl hb
        | cons c before =>
            cases hsplit
            obtain ⟨ha, hbefore⟩ := List.forall_mem_cons.mp hbefore
            exact .inr ⟨(), ha, before, b, after, rfl, hbefore, hb⟩

/-- A sequence with a state succeeds when both of its steps do, the second in the state that
the first leaves. -/
theorem run_bind_ok {σ : Type} {x : ExceptT ε (StateM σ) α} {f : α → ExceptT ε (StateM σ) β}
    {s s'' : σ} {b : β} (h : (x >>= f).run.run s = (.ok b, s'')) :
    ∃ a s', x.run.run s = (.ok a, s') ∧ (f a).run.run s' = (.ok b, s'') := by
  have hbind : (match x.run.run s with
      | (outcome, s') => (ExceptT.bindCont f outcome : StateM σ _).run s') = (.ok b, s'') := h
  rcases hx : x.run.run s with ⟨outcome, s'⟩
  rw [hx] at hbind
  cases outcome with
  | error e => cases hbind
  | ok a => exact ⟨a, s', rfl, hbind⟩

/-- A sequence goes on from what its first step returns, in the state that it leaves. -/
theorem run_bind {σ : Type} (x : ExceptT ε (StateM σ) α) (f : α → ExceptT ε (StateM σ) β) (s : σ) :
    (x >>= f).run.run s =
      match x.run.run s with
      | (.ok a, s') => (f a).run.run s'
      | (.error e, s') => (.error e, s') := by
  show (match x.run.run s with
    | (outcome, s') => (ExceptT.bindCont f outcome : StateM σ _).run s') = _
  rcases x.run.run s with ⟨e | a, s'⟩ <;> rfl

theorem run_bind_eq {σ : Type} {x : ExceptT ε (StateM σ) α} {f : α → ExceptT ε (StateM σ) β}
    {s s' : σ} {a : α} (h : x.run.run s = (.ok a, s')) :
    (x >>= f).run.run s = (f a).run.run s' := by
  rw [run_bind, h]

/-- A step without a state leaves the state as it is. -/
theorem run_liftM_ok {σ : Type} {x : Except ε α} {s s' : σ} {a : α}
    (h : (liftM x : ExceptT ε (StateM σ) α).run.run s = (.ok a, s')) : x = .ok a ∧ s' = s := by
  cases x with
  | error e => cases h
  | ok b =>
      cases h
      exact ⟨rfl, rfl⟩

/-- A sequence whose first step has no state goes on from its result, or ends with its failure in
the state in which it began. -/
theorem run_liftM_bind {σ : Type} {x : Except ε α} {f : α → ExceptT ε (StateM σ) β} {s : σ} :
    (liftM x >>= f : ExceptT ε (StateM σ) β).run.run s =
      match x with
      | .ok a => (f a).run.run s
      | .error e => (.error e, s) := by
  cases x <;> rfl

/-- A step that cannot fail returns what it computes. -/
theorem run_lift_ok {σ : Type} {x : StateM σ α} {s s' : σ} {a : α}
    (h : (liftM x : ExceptT ε (StateM σ) α).run.run s = (.ok a, s')) : a = (x.run s).1 := by
  have hrun : (liftM x : ExceptT ε (StateM σ) α).run.run s = (.ok (x.run s).1, (x.run s).2) := rfl
  rw [hrun] at h
  cases h
  rfl

/-! ### What failures say -/

/-- **Every failure of a computation meets a condition.** -/
def FailsWith (P : ε → Prop) (x : Except ε α) : Prop :=
  ∀ e, x = .error e → P e

namespace FailsWith

variable {P Q : ε → Prop}

theorem ok {a : α} : FailsWith P (.ok a) := fun _ h => nomatch h

theorem pure {a : α} : FailsWith P (Pure.pure a : Except ε α) := ok

theorem error {e : ε} (he : P e) : FailsWith P (.error e : Except ε α) :=
  fun _ h => Except.error.inj h ▸ he

theorem throw {e : ε} (he : P e) : FailsWith P (MonadExcept.throw e : Except ε α) :=
  error he

theorem mono {x : Except ε α} (h : FailsWith P x) (hPQ : ∀ e, P e → Q e) : FailsWith Q x :=
  fun e he => hPQ e (h e he)

theorem map {x : Except ε α} {f : α → β} (h : FailsWith P x) : FailsWith P (x.map f) := by
  cases x with
  | ok a => exact ok
  | error e => exact error (h e rfl)

theorem ite {p : Prop} [Decidable p] {x y : Except ε α} (hx : p → FailsWith P x)
    (hy : ¬p → FailsWith P y) : FailsWith P (if p then x else y) := by
  split
  · next hp => exact hx hp
  · next hp => exact hy hp

/-- The failures of a sequence are those of its steps. -/
theorem bind {x : Except ε α} {f : α → Except ε β} (hx : FailsWith P x)
    (hf : ∀ a, x = .ok a → FailsWith P (f a)) : FailsWith P (x >>= f) := by
  intro e he
  rcases bind_eq_error.mp he with he | ⟨a, ha, he⟩
  · exact hx e he
  · exact hf a ha e he

end FailsWith

/-- **Every failure of a computation with a state meets a condition**, from whatever state it runs. -/
def RunsFailWith {σ : Type} (P : ε → Prop) (x : ExceptT ε (StateM σ) α) : Prop :=
  ∀ s, FailsWith P (x.run.run s).1

namespace RunsFailWith

variable {σ : Type} {P : ε → Prop}

theorem pure {a : α} : RunsFailWith P (Pure.pure a : ExceptT ε (StateM σ) α) := fun _ => .ok

theorem liftM {x : Except ε α} (hx : FailsWith P x) :
    RunsFailWith P (MonadLiftT.monadLift x : ExceptT ε (StateM σ) α) := fun s => by
  cases x with
  | ok a => exact .ok
  | error e => exact .error (hx e rfl)

theorem throw {e : ε} (he : P e) :
    RunsFailWith P (MonadExcept.throw e : ExceptT ε (StateM σ) α) := fun _ => .error he

/-- A step that cannot fail meets every condition. -/
theorem lift {x : StateM σ α} : RunsFailWith P (MonadLiftT.monadLift x : ExceptT ε (StateM σ) α) :=
  fun _ => .ok

/-- The failures of a sequence are those of its steps. -/
theorem bind {x : ExceptT ε (StateM σ) α} {f : α → ExceptT ε (StateM σ) β} (hx : RunsFailWith P x)
    (hf : ∀ a, RunsFailWith P (f a)) : RunsFailWith P (x >>= f) := by
  intro s
  have hfails := hx s
  rw [run_bind]
  rcases hrun : x.run.run s with ⟨e | a, s'⟩
  · exact .error (hfails e (congrArg Prod.fst hrun))
  · exact hf a s'

/-- The failures of a list of computations are those of its members. -/
theorem mapM {f : α → ExceptT ε (StateM σ) β} : ∀ {as : List α},
    (∀ a ∈ as, RunsFailWith P (f a)) → RunsFailWith P (as.mapM f) := by
  intro as
  induction as with
  | nil => exact fun _ => .pure
  | cons a as ih =>
      intro hf
      rw [List.mapM_cons]
      exact (hf a List.mem_cons_self).bind fun _ =>
        (ih fun a' ha' => hf a' (List.mem_cons_of_mem a ha')).bind fun _ => .pure

/-- The failures of a run over a list are those of its rounds. -/
theorem foldlM {f : β → α → ExceptT ε (StateM σ) β} : ∀ {as : List α},
    (∀ b, ∀ a ∈ as, RunsFailWith P (f b a)) → ∀ b, RunsFailWith P (as.foldlM f b) := by
  intro as
  induction as with
  | nil => exact fun _ _ => .pure
  | cons a as ih =>
      intro hf b
      rw [List.foldlM_cons]
      exact (hf b a List.mem_cons_self).bind
        (ih fun b a' ha' => hf b a' (List.mem_cons_of_mem a ha'))

end RunsFailWith

/-! ### Lists of results -/

/-- When every member has a result, so has the list. -/
theorem exists_mapM_ok {f : α → Except ε β} :
    ∀ {as : List α}, (∀ a ∈ as, ∃ b, f a = .ok b) → ∃ bs, as.mapM f = .ok bs := by
  intro as
  induction as with
  | nil => intro _; exact ⟨[], rfl⟩
  | cons a as ih =>
      intro h
      obtain ⟨b, hb⟩ := h a List.mem_cons_self
      obtain ⟨bs, hbs⟩ := ih fun a' ha' => h a' (List.mem_cons_of_mem a ha')
      refine ⟨b :: bs, ?_⟩
      simp only [List.mapM_cons, bind_eq_ok, pure_eq_ok]
      exact ⟨b, hb, bs, hbs, rfl⟩

/-- With a state there are as many results as members, too, and what every result satisfies, all of
them do. -/
theorem run_mapM_ok {σ : Type} {f : α → ExceptT ε (StateM σ) β} {P : β → Prop}
    (hf : ∀ a b s s', (f a).run.run s = (.ok b, s') → P b) :
    ∀ {as : List α} {bs : List β} {s s' : σ}, (as.mapM f).run.run s = (.ok bs, s') →
      bs.length = as.length ∧ ∀ b ∈ bs, P b := by
  intro as
  induction as with
  | nil =>
      intro bs s s' h
      cases h
      exact ⟨rfl, List.forall_mem_nil _⟩
  | cons a as ih =>
      intro bs s s' h
      rw [List.mapM_cons] at h
      obtain ⟨b, s₁, hb, h⟩ := run_bind_ok h
      obtain ⟨rest, s₂, hrest, h⟩ := run_bind_ok h
      cases h
      obtain ⟨hlength, hmem⟩ := ih hrest
      exact ⟨congrArg Nat.succ hlength, List.forall_mem_cons.mpr ⟨hf a b s s₁ hb, hmem⟩⟩

/-- What every result satisfies, the members of a list of results do. -/
theorem forall_mem_of_mapM_ok {f : α → Except ε β} {P : β → Prop}
    (hf : ∀ a b, f a = .ok b → P b) :
    ∀ {as : List α} {bs : List β}, as.mapM f = .ok bs → ∀ b ∈ bs, P b := by
  intro as
  induction as with
  | nil =>
      intro bs h
      cases h
      exact fun b hb => by cases hb
  | cons a as ih =>
      intro bs h
      simp only [List.mapM_cons, bind_eq_ok, pure_eq_ok] at h
      obtain ⟨b, hb, rest, hrest, rfl⟩ := h
      exact List.forall_mem_cons.mpr ⟨hf a b hb, ih hrest⟩

/-- A list has results when each member has its own. -/
theorem mapM_eq_ok_iff {f : α → Except ε β} :
    ∀ {as : List α} {bs : List β}, as.mapM f = .ok bs ↔ as.map f = bs.map .ok := by
  intro as
  induction as with
  | nil =>
      intro bs
      rw [List.mapM_nil, pure_eq_ok, List.map_nil, eq_comm, eq_comm (a := []), List.map_eq_nil_iff]
  | cons a as ih =>
      intro bs
      simp only [List.mapM_cons, bind_eq_ok, pure_eq_ok, ih]
      cases bs with
      | nil => simp
      | cons b bs =>
          rw [List.map_cons, List.map_cons, List.cons.injEq]
          constructor
          · rintro ⟨b', hb, bs', hbs, heq⟩
            cases heq
            exact ⟨hb, hbs⟩
          · rintro ⟨hb, hbs⟩
            exact ⟨b, hb, bs, hbs, rfl⟩

/-- The results of a list in another order are its results in another order. -/
theorem perm_of_mapM_ok {f : α → Except ε β} {as as' : List α} {bs bs' : List β}
    (hperm : as'.Perm as) (h : as.mapM f = .ok bs) (h' : as'.mapM f = .ok bs') : bs'.Perm bs := by
  have hinjective : Function.Injective (Except.ok : β → Except ε β) := fun _ _ => Except.ok.inj
  rw [mapM_eq_ok_iff] at h h'
  rw [← List.map_perm_map_iff hinjective, ← h, ← h']
  exact hperm.map f

/-- A member of a list of results is the result of a member. -/
theorem exists_mem_of_mapM_ok {f : α → Except ε β} {as : List α} {bs : List β}
    (h : as.mapM f = .ok bs) {b : β} (hb : b ∈ bs) : ∃ a ∈ as, f a = .ok b := by
  have hresult : Except.ok b ∈ as.map f := by
    rw [mapM_eq_ok_iff.mp h]
    exact List.mem_map_of_mem hb
  exact List.mem_map.mp hresult

/-- The results of a list stand where its members do. -/
theorem forall₂_of_mapM_ok {f : α → Except ε β} {as : List α} {bs : List β}
    (h : as.mapM f = .ok bs) : List.Forall₂ (fun a b => f a = .ok b) as bs := by
  have hall : List.Forall₂ (· = ·) (as.map f) (bs.map Except.ok) := by
    rw [List.forall₂_eq_eq_eq]
    exact mapM_eq_ok_iff.mp h
  rwa [List.forall₂_map_left_iff, List.forall₂_map_right_iff] at hall

/-- When a list has no result, one of its members has none and gives the reason. -/
theorem exists_mem_of_mapM_error {f : α → Except ε β} {e : ε} :
    ∀ {as : List α}, as.mapM f = .error e → ∃ a ∈ as, f a = .error e := by
  intro as
  induction as with
  | nil => intro h; cases h
  | cons a as ih =>
      intro h
      rw [List.mapM_cons] at h
      cases ha : f a with
      | error e' =>
          rw [ha] at h
          cases h
          exact ⟨a, List.mem_cons_self, ha⟩
      | ok b =>
          cases hrest : as.mapM f with
          | error e' =>
              rw [ha, hrest] at h
              cases h
              obtain ⟨a', hmem, ha'⟩ := ih hrest
              exact ⟨a', List.mem_cons_of_mem a hmem, ha'⟩
          | ok bs =>
              rw [ha, hrest] at h
              cases h

/-- The results stand at the indices of the members they come from. -/
theorem getElem?_of_mapM_ok {f : α → Except ε β} :
    ∀ {as : List α} {bs : List β}, as.mapM f = .ok bs →
      bs.length = as.length ∧
        ∀ (i : ℕ) (a : α), as[i]? = some a → ∃ b, bs[i]? = some b ∧ f a = .ok b := by
  intro as
  induction as with
  | nil =>
      intro bs h
      cases h
      exact ⟨rfl, fun i a ha => by simp at ha⟩
  | cons a as ih =>
      intro bs h
      simp only [List.mapM_cons, bind_eq_ok, pure_eq_ok] at h
      obtain ⟨b, hb, rest, hrest, rfl⟩ := h
      obtain ⟨hlength, hget⟩ := ih hrest
      refine ⟨by rw [List.length_cons, List.length_cons, hlength], fun i a' ha' => ?_⟩
      cases i with
      | zero =>
          rw [List.getElem?_cons_zero, Option.some.injEq] at ha'
          exact ⟨b, rfl, ha' ▸ hb⟩
      | succ i =>
          rw [List.getElem?_cons_succ] at ha'
          exact hget i a' ha'

end EncryptedReals
