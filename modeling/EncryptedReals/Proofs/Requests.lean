import EncryptedReals.Proofs.Refusals

/-!
# Requests to a scheme

A scheme runs the operations of its context with its own keys and shows each result to an observer.  A
request is one such operation with its ciphertexts and arguments.  It makes one call of the context, and
its outcome is the outcome of the call; one step is recorded when the call succeeds, and none when it
fails.  What a call returns has a level and a size that follow from those of its operands.  Each call
fails with failures of a few kinds only: no call but a rescaling reports that the chain is exhausted, and
none but a rotation whose key was not drawn that a key is missing.

A switch to the level that a ciphertext has already is answered without a call: the ciphertext comes
back as it is, unexamined and unrecorded.  The call would have refused what is foreign or declared
wrongly, and would have changed nothing else.

## Main Definitions

* `KeepsChain` — a computation that never reports the chain as exhausted
* `Call.kinds` — the kinds of failure that a call answers with
* `Request` — the operations of a scheme, with their operands
* `Request.perform`, `Request.observed` — the call alone, and the observed operation
* `Request.IsIdle` — the switches that make no call

## Main results

* `Call.follows` — level and size of a result
* `Call.failsWith_kinds` — the failures of a call are of its kinds
* `Request.keepsChain`, `Request.failsWith_ne_missingKey` — which requests never exhaust the chain, and
  which never miss a key
* `Scheme.observed_faithful` — requests and calls have the same outcomes, apart from idle switches
* `Scheme.exists_idle_unfaithful` — an idle switch that lets a foreign ciphertext pass
-/

namespace EncryptedReals

/-! ### Kinds of failure -/

/-- **A computation that never reports the chain as exhausted.** -/
def KeepsChain {α : Type} (x : Except Failure α) : Prop :=
  ∀ e, x = .error e → e.kind ≠ .chainExhausted

/-- A kind that is none of the possible ones is avoided. -/
theorem FailsWith.kind_ne {α : Type} {x : Except Failure α} {kinds : List Failure.Kind}
    {kind : Failure.Kind} (h : FailsWith (·.kind ∈ kinds) x) (hkind : kind ∉ kinds) :
    FailsWith (·.kind ≠ kind) x :=
  h.mono fun _ he heq => hkind (heq ▸ he)

/-- The same for every run. -/
theorem RunsFailWith.kind_ne {α σ : Type} {x : ExceptT Failure (StateM σ) α}
    {kinds : List Failure.Kind} {kind : Failure.Kind} (h : RunsFailWith (·.kind ∈ kinds) x)
    (hkind : kind ∉ kinds) : RunsFailWith (·.kind ≠ kind) x :=
  fun s => (h s).kind_ne hkind

namespace Context

variable {ctx : Context} {a b : Ciphertext} {scale value : Float} {level : ℕ}
  {kinds : List Failure.Kind}

/-- The check of an operand reports a defect of it. -/
theorem failsWith_checkOwned (hmismatch : .mismatch ∈ kinds) (hsize : .unsupportedSize ∈ kinds) :
    FailsWith (·.kind ∈ kinds) (ctx.checkOwned a) := by
  intro e he
  rcases (checkOwned_eq_error.mp he).kind_or with hkind | ⟨-, rfl⟩
  · rwa [hkind]
  · exact hsize

theorem failsWith_checkSummands (hmismatch : .mismatch ∈ kinds) :
    FailsWith (·.kind ∈ kinds) (checkSummands a b) :=
  .ite (fun _ => .throw hmismatch) fun _ => .ite (fun _ => .throw hmismatch) fun _ => .pure

theorem failsWith_checkProductScale (hscale : .scaleOutOfBounds ∈ kinds) :
    FailsWith (·.kind ∈ kinds) (ctx.checkProductScale scale level) :=
  .ite (fun _ => .ok) fun _ => .error hscale

theorem failsWith_add (hmismatch : .mismatch ∈ kinds) (hsize : .unsupportedSize ∈ kinds) :
    FailsWith (·.kind ∈ kinds) (ctx.add a b) :=
  (failsWith_checkOwned hmismatch hsize).bind fun _ _ =>
    (failsWith_checkOwned hmismatch hsize).bind fun _ _ =>
      (failsWith_checkSummands hmismatch).bind fun _ _ => .pure

/-- Scaled coefficients are refused for the scale, or for one of them that has no room. -/
theorem failsWith_lift {coefficients : Array Float} {moduli : List Modulus}
    (hoverflow : .encodingOverflow ∈ kinds) (hscale : .scaleOutOfBounds ∈ kinds) :
    FailsWith (·.kind ∈ kinds) (do
      checkScale scale moduli
      liftCoefficients coefficients moduli) := by
  refine .bind ?_ fun _ _ e he => ?_
  · exact .ite (fun _ => .error hoverflow) fun _ => .ite (fun _ => .ok) fun _ => .error hscale
  · obtain ⟨⟨o, rfl⟩, -⟩ := liftCoefficients_eq_error he
    exact hoverflow

/-- Encoding a value fails for its level, its scale or its size. -/
theorem failsWith_encodeScalar (hmismatch : .mismatch ∈ kinds)
    (hoverflow : .encodingOverflow ∈ kinds) (hscale : .scaleOutOfBounds ∈ kinds) :
    FailsWith (·.kind ∈ kinds) (ctx.encodeScalar value scale level) :=
  .bind (.ite (fun _ => .error hmismatch) fun _ => .ok) fun _ _ =>
    (failsWith_lift hoverflow hscale).bind fun _ _ => .pure

theorem failsWith_encodeSlots {values : List Float} (hmismatch : .mismatch ∈ kinds)
    (hoverflow : .encodingOverflow ∈ kinds) (hscale : .scaleOutOfBounds ∈ kinds) :
    FailsWith (·.kind ∈ kinds) (ctx.encodeSlots values scale level) :=
  .bind (.ite (fun _ => .error hmismatch) fun _ => .ok) fun _ _ =>
    .bind (.ite (fun _ => .throw hoverflow) fun _ => failsWith_lift hoverflow hscale)
      fun _ _ => .pure

/-- Encrypting a plaintext fails for its level or for the key. -/
theorem runsFailWith_encrypt {pt : Plaintext} {pk : PublicKey} (hmismatch : .mismatch ∈ kinds) :
    RunsFailWith (·.kind ∈ kinds) (ctx.encrypt pt pk) := by
  refine .bind (.liftM (.ite (fun _ => .throw hmismatch) fun _ => ?_)) fun _ =>
    .bind .lift fun _ => .pure
  exact .ite (fun _ => .error hmismatch) fun _ => .ok

/-- Above level 0 a rescaling has a modulus to divide by. -/
theorem keepsChain_rescale (h : ctx.Made) (hlevel : 0 < a.level) : KeepsChain (ctx.rescale a) := by
  have howned : FailsWith (·.kind ∈ [.mismatch, .unsupportedSize]) (ctx.checkOwned a) :=
    failsWith_checkOwned (by decide) (by decide)
  refine FailsWith.bind (howned.kind_ne (by decide)) fun _ hok => ?_
  have hle := (checkOwned_iff.mp hok).2.level_le
  obtain ⟨q, hq⟩ := h.exists_modulusAt hle le_rfl
  obtain ⟨-, last, psi, -, hlimb⟩ := h.exists_limbAt hq
  obtain ⟨lower, hlower⟩ : ∃ lower, a.level = lower + 1 := ⟨a.level - 1, by omega⟩
  rw [hlimb.transform, hlower]
  exact .pure

end Context

/-! ### Calls -/

namespace Call

variable {ctx : Context} {ct : Ciphertext}

/-- **The level and the size of a result** follow from those of the operands, for whatever operands. -/
theorem follows (call : Call) (hct : call.perform ctx = .ok ct) : call.Follows ct := by
  have hadd : ∀ {a b ct : Ciphertext}, ctx.add a b = .ok ct →
      a.level = b.level ∧ ct.level = a.level ∧ ct.size = max a.size b.size := by
    intro a b ct hct
    simp only [Context.add, check_bind_eq_ok, pure_eq_ok] at hct
    obtain ⟨-, -, hsummands, rfl⟩ := hct
    exact ⟨Context.checkSummands_ok hsummands, rfl, Context.length_addParts _ _ _ _⟩
  have hnegate : ∀ {a ct : Ciphertext}, ctx.negate a = .ok ct →
      ct.level = a.level ∧ ct.size = a.size := by
    intro a ct hct
    simp only [Context.negate, check_bind_eq_ok, pure_eq_ok] at hct
    obtain ⟨-, rfl⟩ := hct
    exact ⟨rfl, List.length_map _⟩
  cases call with
  | add a b => exact hadd hct
  | addInPlace a b =>
      rw [perform_addInPlace] at hct
      exact hadd hct
  | sub a b =>
      simp only [perform, Context.sub, bind_eq_ok] at hct
      obtain ⟨negated, hnegated, hct⟩ := hct
      obtain ⟨hlevel, hsize⟩ := hnegate hnegated
      have hfollows := hadd hct
      rw [hlevel, hsize] at hfollows
      exact hfollows
  | negate a => exact hnegate hct
  | multiply a b =>
      simp only [perform, Context.multiply, throw_bind, check_eq_ok, check_bind_eq_ok, pure_eq_ok,
        bne_iff_ne, ne_eq, not_not] at hct
      obtain ⟨-, -, hlevel, -, rfl⟩ := hct
      refine ⟨hlevel, rfl, ?_⟩
      rw [Ciphertext.size, List.length_map, List.length_range]
  | multiplyPlain a pt =>
      simp only [perform, Context.multiplyPlain, throw_bind, check_eq_ok, check_bind_eq_ok,
        pure_eq_ok] at hct
      obtain ⟨-, -, -, rfl⟩ := hct
      exact ⟨rfl, List.length_map _⟩
  | addPlain a pt =>
      simp only [perform, Context.addPlain, throw_bind, check_eq_ok, check_bind_eq_ok] at hct
      obtain ⟨-, -, hct⟩ := hct
      split at hct <;> cases hct
      · exact ⟨rfl, rfl⟩
      · next hparts => exact ⟨rfl, by simp [Ciphertext.size, hparts]⟩
  | relinearize a rk =>
      simp only [perform, Context.relinearize, throw_bind, check_eq_ok, check_bind_eq_ok] at hct
      obtain ⟨-, -, hct⟩ := hct
      split at hct <;> cases hct
      · next hparts => exact ⟨rfl, by simp [Ciphertext.size, hparts]⟩
      · exact ⟨rfl, rfl⟩
  | rescale a =>
      obtain ⟨level, last, hlevel, -, rfl⟩ := Context.rescale_eq_ok hct
      exact ⟨hlevel.symm, List.length_map _⟩
  | switchTo a level =>
      simp only [perform, Context.switchTo, throw_bind, check_eq_ok, check_bind_eq_ok, pure_eq_ok,
        not_lt] at hct
      obtain ⟨-, hlevel, rfl⟩ := hct
      exact ⟨hlevel, rfl, List.length_map _⟩
  | rotate a step ks =>
      simp only [perform, Context.rotate, throw_bind, check_eq_ok, check_bind_eq_ok] at hct
      obtain ⟨-, -, hct⟩ := hct
      split at hct
      · next hparts =>
          split at hct
          · cases hct
            exact ⟨rfl, rfl⟩
          · split at hct <;> cases hct
            exact ⟨rfl, by simp [Ciphertext.size, hparts]⟩
      · cases hct

/-- **The kinds of failure that a call answers with.** -/
def kinds : Call → List Failure.Kind
  | multiply .. | multiplyPlain .. => [.mismatch, .unsupportedSize, .scaleOutOfBounds]
  | rescale _ => [.mismatch, .unsupportedSize, .chainExhausted]
  | rotate .. => [.mismatch, .unsupportedSize, .missingKey]
  | add .. | addInPlace .. | sub .. | negate _ | addPlain .. | relinearize .. | switchTo .. =>
    [.mismatch, .unsupportedSize]

theorem mismatch_mem_kinds (call : Call) : .mismatch ∈ call.kinds := by
  cases call <;> simp [kinds]

theorem unsupportedSize_mem_kinds (call : Call) : .unsupportedSize ∈ call.kinds := by
  cases call <;> simp [kinds]

/-- **The failures of a call are of its kinds**, whatever its operands. -/
theorem failsWith_kinds (call : Call) : FailsWith (·.kind ∈ call.kinds) (call.perform ctx) := by
  have hmismatch := call.mismatch_mem_kinds
  have hsize := call.unsupportedSize_mem_kinds
  have hchecked : ∀ {β : Type} {a : Ciphertext} {f : Unit → Except Failure β},
      (∀ u, FailsWith (·.kind ∈ call.kinds) (f u)) →
        FailsWith (·.kind ∈ call.kinds) (ctx.checkOwned a >>= f) := fun hf =>
    (Context.failsWith_checkOwned hmismatch hsize).bind fun u _ => hf u
  cases call with
  | add a b => exact Context.failsWith_add hmismatch hsize
  | addInPlace a b =>
      rw [perform_addInPlace]
      exact Context.failsWith_add hmismatch hsize
  | sub a b =>
      exact .bind (hchecked fun _ => .pure) fun _ _ => Context.failsWith_add hmismatch hsize
  | negate a => exact hchecked fun _ => .pure
  | multiply a b =>
      exact hchecked fun _ => hchecked fun _ => .ite (fun _ => .throw hmismatch) fun _ =>
        (Context.failsWith_checkProductScale (by simp [kinds])).bind fun _ _ => .pure
  | multiplyPlain a pt =>
      exact hchecked fun _ => .ite (fun _ => .throw hmismatch) fun _ =>
        (Context.failsWith_checkProductScale (by simp [kinds])).bind fun _ _ => .pure
  | addPlain a pt =>
      refine hchecked fun _ => .ite (fun _ => .throw hmismatch) fun _ => ?_
      dsimp only
      split <;> exact .pure
  | relinearize a rk =>
      refine hchecked fun _ => .ite (fun _ => .throw hmismatch) fun _ => ?_
      dsimp only
      split
      · exact .pure
      · exact .pure
      · exact .throw hsize
  | rescale a =>
      refine hchecked fun _ => ?_
      split
      · exact .pure
      · exact .throw (by simp [kinds, Failure.kind])
  | switchTo a level =>
      exact hchecked fun _ => .ite (fun _ => .throw hmismatch) fun _ => .pure
  | rotate a step ks =>
      refine hchecked fun _ => .ite (fun _ => .throw hmismatch) fun _ => ?_
      dsimp only
      split
      · refine .ite (fun _ => .pure) fun _ => ?_
        split
        · exact .throw (by simp [kinds, Failure.kind])
        · exact .pure
      · exact .throw hsize

/-- **No call but a rescaling at level 0** reports the chain as exhausted. -/
theorem keepsChain (h : ctx.Made) (call : Call) (hcall : ∀ a, call = rescale a → 0 < a.level) :
    KeepsChain (call.perform ctx) := by
  have hkinds : .chainExhausted ∉ call.kinds → KeepsChain (call.perform ctx) :=
    call.failsWith_kinds.kind_ne
  cases call with
  | rescale a => exact Context.keepsChain_rescale h (hcall a rfl)
  | add | addInPlace | sub | negate | multiply | multiplyPlain | addPlain | relinearize | switchTo
  | rotate => exact hkinds (by simp [kinds])

/-- **No call but a rotation without a key** reports that a key is missing.  A full turn needs none. -/
theorem failsWith_ne_missingKey (call : Call) (hcall : ∀ a step ks, call = rotate a step ks →
      Automorphism.element step ctx.degree = 1 ∨
        (ks.find? (Automorphism.element step ctx.degree)).isSome) :
    FailsWith (·.kind ≠ .missingKey) (call.perform ctx) := by
  have hkinds : .missingKey ∉ call.kinds → FailsWith (·.kind ≠ .missingKey) (call.perform ctx) :=
    call.failsWith_kinds.kind_ne
  cases call with
  | rotate a step ks =>
      have howned : FailsWith (·.kind ∈ [.mismatch, .unsupportedSize]) (ctx.checkOwned a) :=
        Context.failsWith_checkOwned (by decide) (by decide)
      refine FailsWith.bind (howned.kind_ne (by decide)) fun _ _ => ?_
      refine .ite (fun _ => .throw nofun) fun _ => ?_
      dsimp only
      split
      · refine .ite (fun _ => .pure) fun hone => ?_
        rw [beq_iff_eq] at hone
        obtain ⟨key, hkey⟩ :=
          Option.isSome_iff_exists.mp ((hcall a step ks rfl).resolve_left hone)
        rw [hkey]
        exact .pure
      · exact .throw nofun
  | add | addInPlace | sub | negate | multiply | multiplyPlain | addPlain | relinearize | rescale
  | switchTo => exact hkinds (by simp [kinds])

end Call

/-! ### Requests -/

/-- **The operations of a scheme**, with their operands and arguments. -/
inductive Request where
  | add (a b : Ciphertext)
  | sub (a b : Ciphertext)
  | negate (a : Ciphertext)
  | multiply (a b : Ciphertext)
  | multiplyPlain (a : Ciphertext) (value plainScale : Float)
  | addPlain (a : Ciphertext) (value : Float)
  | relinearize (a : Ciphertext)
  | rescale (a : Ciphertext)
  | switchTo (a : Ciphertext) (level : ℕ)
  | rotate (a : Ciphertext) (step : ℤ)

namespace Request

/-- **The call that a request makes**, with the keys of the scheme and with its values encoded. -/
def call (s : Scheme) : Request → Except Failure Call
  | add a b => .ok (.add a b)
  | sub a b => .ok (.sub a b)
  | negate a => .ok (.negate a)
  | multiply a b => .ok (.multiply a b)
  | multiplyPlain a value plainScale => do
    return .multiplyPlain a (← s.context.encodeScalar value plainScale a.level)
  | addPlain a value => do return .addPlain a (← s.context.encodeScalar value a.scale a.level)
  | relinearize a => .ok (.relinearize a s.relinearizationKey)
  | rescale a => .ok (.rescale a)
  | switchTo a level => .ok (.switchTo a level)
  | rotate a step => .ok (.rotate a step s.galoisKeys)

/-- **What the call of a request returns.** -/
def perform (s : Scheme) (r : Request) : Except Failure Ciphertext := do
  (← r.call s).perform s.context

/-- **The observed operation of a request.** -/
def observed (s : Scheme) : Request → Observed Ciphertext
  | add a b => s.add a b
  | sub a b => s.sub a b
  | negate a => s.negate a
  | multiply a b => s.multiply a b
  | multiplyPlain a value plainScale => s.multiplyPlain a value plainScale
  | addPlain a value => s.addPlain a value
  | relinearize a => s.relinearize a
  | rescale a => s.rescale a
  | switchTo a level => s.switchTo a level
  | rotate a step => s.rotate a step

/-- The operation under which a request is recorded. -/
def operation : Request → Operation
  | add .. => .add
  | sub .. => .sub
  | negate .. => .negate
  | multiply .. => .multiply
  | multiplyPlain .. => .multiplyPlain
  | addPlain .. => .addPlain
  | relinearize .. => .relinearize
  | rescale .. => .rescale
  | switchTo .. => .switchLevel
  | rotate _ step => .rotate step

/-- The ciphertexts that a request works on. -/
def operands : Request → List Ciphertext
  | add a b | sub a b | multiply a b => [a, b]
  | negate a | multiplyPlain a _ _ | addPlain a _ | relinearize a | rescale a | switchTo a _
  | rotate a _ => [a]

/-- The step of a request that returned a ciphertext. -/
def step (r : Request) (ct : Ciphertext) : Step :=
  .ofResult r.operation r.operands ct

/-- **A switch to the level at hand**, which makes no call. -/
def IsIdle : Request → Prop
  | switchTo a level => level = a.level
  | _ => False

end Request

/-- A result is recorded when there is one. -/
theorem Observed.run_record (operation : Operation) (operands : List Ciphertext)
    (x : Except Failure Ciphertext) (steps : List Step) :
    (Observed.record operation operands x).run.run steps =
      match x with
      | .ok ct => (.ok ct, steps ++ [.ofResult operation operands ct])
      | .error e => (.error e, steps) := by
  cases x <;> rfl

namespace Request

variable {s : Scheme} {r : Request}

/-- **A request is its call, recorded when it succeeds.** -/
theorem observed_eq (hr : ¬r.IsIdle) :
    r.observed s = .record r.operation r.operands (r.perform s) := by
  cases r with
  | switchTo a level => exact if_neg hr
  | multiplyPlain a value plainScale =>
      show Observed.record _ _ _ = Observed.record _ _ (_ >>= _)
      rw [call, bind_assoc]
      rfl
  | addPlain a value =>
      show Observed.record _ _ _ = Observed.record _ _ (_ >>= _)
      rw [call, bind_assoc]
      rfl
  | add | sub | negate | multiply | relinearize | rescale | rotate => rfl

theorem run_observed (hr : ¬r.IsIdle) (steps : List Step) : (r.observed s).run.run steps =
    match r.perform s with
    | .ok ct => (.ok ct, steps ++ [r.step ct])
    | .error e => (.error e, steps) := by
  rw [observed_eq hr, Observed.run_record]
  rfl

/-- **The failures of a request that is observed** are its own, whatever was recorded before. -/
theorem runsFailWith {P : Failure → Prop} (hr : ¬r.IsIdle) (h : FailsWith P (r.perform s)) :
    RunsFailWith P (r.observed s) := by
  intro steps
  rw [run_observed hr]
  cases hperform : r.perform s with
  | ok ct => exact .ok
  | error e => exact .error (h e hperform)

/-- A request that succeeds is recorded. -/
theorem run_observed_of_ok {ct : Ciphertext} (hr : ¬r.IsIdle) (h : r.perform s = .ok ct)
    (steps : List Step) : (r.observed s).run.run steps = (.ok ct, steps ++ [r.step ct]) := by
  rw [run_observed hr, h]

/-- **What a request returns** has the level and the size that its call determines. -/
theorem follows {ct : Ciphertext} (hct : r.perform s = .ok ct) :
    ∃ call, r.call s = .ok call ∧ call.Follows ct := by
  obtain ⟨call, hcall, hct⟩ := bind_eq_ok.mp hct
  exact ⟨call, hcall, call.follows hct⟩

/-- **The failures of a request** are those of its call, or of the encoding of its value. -/
theorem failsWith_perform {P : Failure → Prop}
    (hencoding : ∀ e : Failure, e.kind ∈ [.mismatch, .encodingOverflow, .scaleOutOfBounds] → P e)
    (hcall : ∀ call, r.call s = .ok call → FailsWith P (call.perform s.context)) :
    FailsWith P (r.perform s) := by
  refine FailsWith.bind ?_ hcall
  cases r with
  | multiplyPlain | addPlain =>
      refine (FailsWith.mono ?_ hencoding).bind fun _ _ => .pure
      exact Context.failsWith_encodeScalar (by decide) (by decide) (by decide)
  | add | sub | negate | multiply | relinearize | rescale | switchTo | rotate => exact .ok

/-- **No request but a rescaling at level 0** reports the chain as exhausted. -/
theorem keepsChain (h : s.context.Made) (r : Request) (hr : ∀ a, r = rescale a → 0 < a.level) :
    KeepsChain (r.perform s) := by
  refine failsWith_perform (fun e he heq => ?_) fun call hok => call.keepsChain h fun a ha => hr a ?_
  · rw [heq] at he
    exact absurd he (by decide)
  subst ha
  cases r with
  | multiplyPlain | addPlain =>
      obtain ⟨pt, -, hpt⟩ := bind_eq_ok.mp hok
      cases hpt
  | rescale => cases hok; rfl
  | add | sub | negate | multiply | relinearize | switchTo | rotate => cases hok

/-- No request reports that its arguments are no configuration. -/
theorem failsWith_ne_configuration (r : Request) :
    FailsWith (·.kind ≠ .configuration) (r.perform s) := by
  refine failsWith_perform (fun e he heq => ?_) fun call _ => call.failsWith_kinds.kind_ne ?_
  · rw [heq] at he
    exact absurd he (by decide)
  · cases call <;> simp [Call.kinds]

/-- **No request but a rotation without a key** reports that a key is missing. -/
theorem failsWith_ne_missingKey (r : Request) (hr : ∀ a step, r = rotate a step →
      Automorphism.element step s.context.degree = 1 ∨
        (s.galoisKeys.find? (Automorphism.element step s.context.degree)).isSome) :
    FailsWith (·.kind ≠ .missingKey) (r.perform s) := by
  refine failsWith_perform (fun e he heq => ?_) fun call hok =>
    call.failsWith_ne_missingKey fun a step ks hrotate => ?_
  · rw [heq] at he
    exact absurd he (by decide)
  subst hrotate
  cases r with
  | multiplyPlain | addPlain =>
      obtain ⟨pt, -, hpt⟩ := bind_eq_ok.mp hok
      cases hpt
  | rotate => cases hok; exact hr _ _ rfl
  | add | sub | negate | multiply | relinearize | rescale | switchTo => cases hok

end Request

/-! ### Faithfulness -/

/-- Switching an accepted ciphertext to its own level changes nothing. -/
theorem Context.switchTo_self {ctx : Context} {ct : Ciphertext}
    (haccepted : ctx.checkOwned ct = .ok ()) : ctx.switchTo ct ct.level = .ok ct := by
  have hparts : ct.parts.map (fun p => p.truncate (ct.level + 1)) = ct.parts := by
    refine (List.map_congr_left fun p hp => ?_).trans (List.map_id' _)
    have hlength := ((checkOwned_iff.mp haccepted).2.parts p hp).1
    rw [ResiduePoly.truncate, ← hlength, List.take_length]
  rw [Context.switchTo, bind_of_ok haccepted, if_neg (lt_irrefl _), hparts]
  rfl

/-- A change leaves the steps alone. -/
theorem Updating.run_change (x : ExceptT Failure (StateM Ciphertext) Unit) (a : Ciphertext)
    (steps : List Step) : (Updating.change x).run.run (a, steps) =
      ((x.run.run a).1, (x.run.run a).2, steps) := by
  show (liftM (x.run.run a).1 : Updating Unit).run.run ((x.run.run a).2, steps) = _
  cases (x.run.run a).1 <;> rfl

namespace Scheme

/-- **Adding in place is the core sum**, whether it is observed or not; the copy that is made for the
observer is not seen outside its step. -/
theorem run_addInPlace (s : Scheme) (isObserved : Bool) (a b : Ciphertext) (steps : List Step) :
    (s.addInPlace isObserved b).run.run (a, steps) =
      match (s.context.addInPlace b).run.run a with
      | (.ok (), sum) =>
        (.ok (), sum, if isObserved then steps ++ [.ofResult .add [a, b] sum] else steps)
      | (.error e, sum) => (.error e, sum, steps) := by
  cases isObserved with
  | true =>
      have hrun : (s.addInPlace true b).run.run (a, steps) =
          (Updating.change (s.context.addInPlace b) >>= fun _ =>
            Updating.record .add [a, b]).run.run (a, steps) := rfl
      rw [hrun, run_bind, Updating.run_change]
      rcases (s.context.addInPlace b).run.run a with ⟨e | ⟨⟩, sum⟩ <;> rfl
  | false =>
      have hrun : (s.addInPlace false b).run.run (a, steps) =
          (Updating.change (s.context.addInPlace b)).run.run (a, steps) := rfl
      rw [hrun, Updating.run_change]
      rcases (s.context.addInPlace b).run.run a with ⟨e | ⟨⟩, sum⟩ <;> rfl

/-- **Requests and calls have the same outcomes.**  A request that is not an idle switch succeeds and
fails as its call does, and records one step when the call succeeds and none when it fails.  So does
adding in place, which leaves the accumulator that the core leaves, observed or not.  An idle switch
returns its ciphertext and records nothing; that is what the call returns exactly when the ciphertext
is accepted. -/
theorem observed_faithful (s : Scheme) :
    (∀ (r : Request) (steps : List Step), ¬r.IsIdle → (r.observed s).run.run steps =
      match r.perform s with
      | .ok ct => (.ok ct, steps ++ [r.step ct])
      | .error e => (.error e, steps)) ∧
    (∀ (isObserved : Bool) (a b : Ciphertext) (steps : List Step),
      (s.addInPlace isObserved b).run.run (a, steps) =
        match (s.context.addInPlace b).run.run a with
        | (.ok (), sum) =>
          (.ok (), sum, if isObserved then steps ++ [.ofResult .add [a, b] sum] else steps)
        | (.error e, sum) => (.error e, sum, steps)) ∧
    ∀ (ct : Ciphertext) (steps : List Step),
      (s.switchTo ct ct.level).run.run steps = (.ok ct, steps) ∧
        (s.context.switchTo ct ct.level = .ok ct ↔ s.context.checkOwned ct = .ok ()) := by
  refine ⟨fun r steps hr => Request.run_observed hr steps, s.run_addInPlace, fun ct steps => ⟨?_, ?_⟩⟩
  · rw [switchTo, if_pos rfl]
    rfl
  · refine ⟨fun hct => ?_, Context.switchTo_self⟩
    exact @Call.accepted _ (.switchTo ct ct.level) _ hct ct (List.mem_singleton.mpr rfl)

/-- Over the small context: a rescaling is recorded, one of a foreign ciphertext is not, and a foreign
summand leaves the accumulator and the steps alone. -/
theorem observed_faithful_small :
    let own := Ciphertext.small false
    let foreign := { own with owner := 5 }
    let refused := Failure.mismatch (.foreignCiphertext 5 0)
    ∃ (s : Scheme) (ct : Ciphertext), s.Built ∧ s.context = .small ∧
      (s.rescale own).run.run [] = (.ok ct, [.ofResult .rescale [own] ct]) ∧
      (s.rescale foreign).run.run [] = (.error refused, []) ∧
      (s.addInPlace true foreign).run.run (own, []) = (.error refused, own, []) := by
  intro own foreign refused
  obtain ⟨s, hbuilt, hcontext, -⟩ := exists_built_small
  obtain ⟨hrequests, hsums, -⟩ := observed_faithful s
  have haccepted := (Context.owns_small false).checkOwned Context.made_small
  obtain ⟨ct, hrescale⟩ : ∃ ct, Context.small.rescale own = .ok ct := by
    simp only [Context.rescale, check_bind_eq_ok]
    exact ⟨_, haccepted, rfl⟩
  have hperform : ∀ a, (Request.rescale a).perform s = Context.small.rescale a := by
    rw [← hcontext]
    exact fun a => rfl
  have hsum : Context.small.add own foreign = .error refused := by
    rw [Context.add, bind_of_ok haccepted]
    rfl
  refine ⟨s, ct, hbuilt, hcontext, ?_, ?_, ?_⟩
  · have hrun := hrequests (.rescale own) [] not_false
    rwa [hperform, hrescale] at hrun
  · have hrun := hrequests (.rescale foreign) [] not_false
    rwa [hperform, show Context.small.rescale foreign = .error refused from rfl] at hrun
  · rw [hsums, hcontext, Context.run_addInPlace_eq, hsum]

/-- **An idle switch lets a foreign ciphertext pass**, which the call refuses: over the small context,
for a ciphertext of another owner at its own level. -/
theorem exists_idle_unfaithful : ∃ (s : Scheme) (ct : Ciphertext), s.Built ∧
    (s.switchTo ct ct.level).result = .ok ct ∧
      s.context.switchTo ct ct.level = .error (.mismatch (.foreignCiphertext 5 0)) := by
  obtain ⟨s, hbuilt, hcontext, -⟩ := exists_built_small
  refine ⟨s, { Ciphertext.small false with owner := 5 }, hbuilt, ?_, ?_⟩
  · rw [switchTo, if_pos rfl]
    rfl
  · rw [hcontext]
    rfl

end Scheme

end EncryptedReals
