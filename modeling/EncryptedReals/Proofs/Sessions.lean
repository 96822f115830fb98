import EncryptedReals.Collection
import EncryptedReals.Proofs.Requests
import EncryptedReals.Proofs.SlotOrder

/-!
# Failed calls leave no trace

A client of a scheme has a channel and a collection.  It calls for encryptions, for round trips and for
items, it pushes items and it sets flags.  Some of these calls draw for several ciphertexts in turn, and
all of them share the one generator of the channel.

Calls work in place, and nothing is restored when one of them fails: what it has drawn by then is drawn,
and what it has changed is changed.  But whatever can fail in a call is checked before its first draw and
its first change.  A plaintext that was encoded can be encrypted, what was encrypted can be decrypted, and
a flag that is off can be encoded at the scale of the scheme.  So a call that fails leaves the session as
it was, and a run of calls is the run of those that succeed.  Every item in a collection keeps the
collection's number of flags, and so no sum under a flag misses one.

## Main Definitions

* `Infallible`, `Atomic` — computations that never fail, and those that leave no trace when they fail
* `Changing.Keeps` — changes in place that keep a property, also when they fail
* `Action`, `Session` — the calls, and what they work on
* `Session.step`, `Session.run` — one call, and a list of them
* `Collection.Uniform` — all items have as many flags as the collection says

## Main results

* `Action.atomic` — every call is atomic
* `Action.keeps_uniform` — a call keeps the number of flags
* `Session.step_of_error`, `Session.run_succeeding` — one failed call, and runs without them
* `Session.failures_leave_no_trace` — all of it
-/

namespace EncryptedReals

/-! ### Computations that leave no trace when they fail -/

section Computations

variable {σ α β : Type}

/-- **A computation that never fails.** -/
def Infallible (x : ExceptT Failure (StateM σ) α) : Prop :=
  RunsFailWith (fun _ => False) x

/-- **A computation that leaves no trace when it fails**: the state is then the one in which it began. -/
def Atomic (x : ExceptT Failure (StateM σ) α) (st : σ) : Prop :=
  ∀ e st', x.run.run st = (.error e, st') → st' = st

theorem Infallible.exists_ok {x : ExceptT Failure (StateM σ) α} (h : Infallible x) (st : σ) :
    ∃ a st', x.run.run st = (.ok a, st') := by
  rcases hrun : x.run.run st with ⟨e | a, st'⟩
  · exact (h st e (congrArg Prod.fst hrun)).elim
  · exact ⟨a, st', rfl⟩

namespace Atomic

variable {st : σ}

theorem of_infallible {x : ExceptT Failure (StateM σ) α} (h : Infallible x) : Atomic x st :=
  fun e _ hrun => (h st e (congrArg Prod.fst hrun)).elim

/-- A check may come first. -/
theorem liftM_bind {x : Except Failure α} {f : α → ExceptT Failure (StateM σ) β}
    (hf : ∀ a, x = .ok a → Atomic (f a) st) : Atomic (MonadLiftT.monadLift x >>= f) st := by
  intro e st' hrun
  cases x with
  | ok a => exact hf a rfl e st' hrun
  | error e' => cases hrun; rfl

/-- What succeeds in the state that is left may come last. -/
theorem bind {x : ExceptT Failure (StateM σ) α} {f : α → ExceptT Failure (StateM σ) β}
    (hx : Atomic x st)
    (hf : ∀ a st', x.run.run st = (.ok a, st') → ∃ b st'', (f a).run.run st' = (.ok b, st'')) :
    Atomic (x >>= f) st := by
  intro e st' hrun
  rw [run_bind] at hrun
  rcases hstep : x.run.run st with ⟨e' | a, st₁⟩
  · rw [hstep] at hrun
    cases hrun
    exact hx e st' hstep
  · obtain ⟨b, st₂, hb⟩ := hf a st₁ hstep
    rw [hstep] at hrun
    cases hb.symm.trans hrun

/-- What never fails may come last. -/
theorem bind_infallible {x : ExceptT Failure (StateM σ) α} {f : α → ExceptT Failure (StateM σ) β}
    (hx : Atomic x st) (hf : ∀ a, Infallible (f a)) : Atomic (x >>= f) st :=
  hx.bind fun a st' _ => (hf a).exists_ok st'

end Atomic

end Computations

/-! ### Changes in place -/

namespace Changing

variable {σ α β : Type} {P : σ → Prop}

/-- A part that draws leaves the value alone. -/
theorem run_drawing (x : FallibleDrawing α) (a : σ) (g : Generator) :
    (drawing x : Changing σ α).run.run (a, g) = ((x.run.run g).1, a, (x.run.run g).2) :=
  rfl

/-- A part that draws nothing leaves the generator alone. -/
theorem run_change (x : ExceptT Failure (StateM σ) α) (a : σ) (g : Generator) :
    (change x).run.run (a, g) = ((x.run.run a).1, (x.run.run a).2, g) :=
  rfl

theorem run_current_bind (f : σ → Changing σ α) (a : σ) (g : Generator) :
    (current >>= f).run.run (a, g) = (f a).run.run (a, g) :=
  rfl

theorem run_runOn (x : Changing σ α) (a : σ) (g : Generator) : (x.runOn a).run.run g =
    ((x.run.run (a, g)).1.map fun b => (b, (x.run.run (a, g)).2.1), (x.run.run (a, g)).2.2) :=
  rfl

theorem atomic_drawing {x : FallibleDrawing α} {g : Generator} (hx : Atomic x g) (a : σ) :
    Atomic (drawing x) (a, g) := by
  intro e st' hrun
  rcases hdraw : x.run.run g with ⟨outcome, g'⟩
  rw [run_drawing, hdraw] at hrun
  cases hrun
  rw [hx e g' hdraw]

/-- **A change that keeps a property** of what it works on, whether it succeeds or fails. -/
def Keeps (x : Changing σ α) (P : σ → Prop) : Prop :=
  ∀ a g, P a → P (x.run.run (a, g)).2.1

theorem keeps_pure (b : α) : Keeps (pure b) P :=
  fun _ _ h => h

theorem keeps_drawing (x : FallibleDrawing α) : (drawing x).Keeps P :=
  fun _ _ h => h

theorem Keeps.bind {x : Changing σ α} {f : α → Changing σ β} (hx : x.Keeps P)
    (hf : ∀ b, (f b).Keeps P) : Keeps (x >>= f) P := by
  intro a g ha
  have hnext := hx a g ha
  rw [run_bind]
  rcases hrun : x.run.run (a, g) with ⟨e | b, a', g'⟩
  · rw [hrun] at hnext
    exact hnext
  · rw [hrun] at hnext
    exact hf b a' g' hnext

end Changing

/-! ### Encryptions, round trips and items -/

/-- Nothing fails after the checks of an encryption. -/
theorem Context.atomic_encrypt (ctx : Context) (pt : Plaintext) (pk : PublicKey) (g : Generator) :
    Atomic (ctx.encrypt pt pk) g :=
  .liftM_bind fun _ _ => .of_infallible (.bind .lift fun _ => .pure)

namespace Scheme

variable {s : Scheme}

theorem atomic_encryptValue (s : Scheme) (value scale : Float) (g : Generator) :
    Atomic (s.encryptValue value scale) g :=
  .liftM_bind fun _ _ => s.context.atomic_encrypt _ _ g

theorem atomic_encryptSlots (s : Scheme) (values : List Float) (scale : Float) (g : Generator) :
    Atomic (s.encryptSlots values scale) g :=
  .liftM_bind fun _ _ => s.context.atomic_encrypt _ _ g

/-- **What is well-formed can be decrypted**, and there are slots. -/
theorem Built.exists_decryptSlots (h : s.Built) {ct : Ciphertext} (hct : s.context.Owns ct) :
    ∃ values, s.decryptSlots ct = .ok values ∧ 0 < values.size := by
  have hdecrypt := Context.decrypt_eq h.made h.secretKey hct
  have hlevel : s.context.checkLevel ct.level = .ok () := Context.checkLevel_ok.mpr hct.level_le
  rw [decryptSlots, bind_of_ok hdecrypt, Context.decode, bind_of_ok hlevel]
  refine ⟨_, rfl, ?_⟩
  rw [Embedding.decode, Embedding.toSlots, Array.size_map, h.made.embedding_eq,
    Embedding.size_slotIndex h.made.degree_pos]
  exact Automorphism.half_pos h.made.exists_two_pow

theorem Built.exists_decryptValue (h : s.Built) {ct : Ciphertext} (hct : s.context.Owns ct) :
    ∃ x, s.decryptValue ct = .ok x := by
  obtain ⟨values, hvalues, hpos⟩ := h.exists_decryptSlots hct
  rw [decryptValue, bind_of_ok hvalues, Array.getElem?_eq_getElem hpos]
  exact ⟨_, rfl⟩

theorem Built.atomic_roundTrip (h : s.Built) (value : Float) (g : Generator) :
    Atomic (s.roundTrip value) g := by
  refine (s.atomic_encryptValue value s.scale g).bind fun ct g' hrun => ?_
  obtain ⟨x, hx⟩ := h.exists_decryptValue (h.fresh (congrArg Prod.fst hrun)).owns
  rw [hx]
  exact ⟨x, g', rfl⟩

/-- **A flag that is off can always be encrypted.** -/
theorem Built.infallible_flag (h : s.Built) :
    Infallible (s.encryptValue (Item.flagValue false) s.scale) := by
  intro g e he
  obtain ⟨pt, hpt⟩ := h.exists_encodeScalar_zero
  obtain ⟨ct, hct⟩ := h.exists_encryptValue hpt g
  cases hct.symm.trans he

theorem Built.infallible_flags (h : s.Built) (flagCount : ℕ) :
    Infallible ((List.replicate flagCount false).mapM fun on =>
      s.encryptValue (Item.flagValue on) s.scale) :=
  .mapM fun on hon => by
    rw [List.eq_of_mem_replicate hon]
    exact h.infallible_flag

theorem Built.atomic_item (h : s.Built) (value : Float) (flagCount : ℕ) (g : Generator) :
    Atomic (Item.encrypt s value flagCount) g :=
  (s.atomic_encryptValue value s.scale g).bind_infallible fun _ =>
    .bind (h.infallible_flags flagCount) fun _ => .pure

/-- **An item of value 0 can always be encrypted.** -/
theorem Built.infallible_item (h : s.Built) (flagCount : ℕ) :
    Infallible (Item.encrypt s 0.0 flagCount) :=
  h.infallible_flag.bind fun _ => .bind (h.infallible_flags flagCount) fun _ => .pure

end Scheme

namespace Item

variable {s : Scheme} {item item' : Item} {value : Float} {index flagCount : ℕ} {on : Bool}
  {g g' : Generator}

/-- **An item that was encrypted** has as many flags as it was asked for. -/
theorem length_flags_encrypt (h : (encrypt s value flagCount).run.run g = (.ok item, g')) :
    item.flags.length = flagCount := by
  obtain ⟨ct, g₁, -, h⟩ := run_bind_ok h
  obtain ⟨flags, g₂, hflags, h⟩ := run_bind_ok h
  cases h
  obtain ⟨hlength, -⟩ := run_mapM_ok (P := fun _ => True) (fun _ _ _ _ _ => trivial) hflags
  rw [hlength, List.length_replicate]

/-- **What setting a flag does**: nothing when there is no such flag, and otherwise the flag is replaced
when it could be encrypted. -/
theorem run_setFlagInPlace (s : Scheme) (index : ℕ) (on : Bool) (item : Item) (g : Generator) :
    (setFlagInPlace s index on).run.run (item, g) =
      if item.flags.length ≤ index then
        (.error (.configuration (.flagOutOfRange index item.flags.length)), item, g)
      else
        match (s.encryptValue (flagValue on) s.scale).run.run g with
        | (.ok flag, g') => (.ok (), { item with flags := item.flags.set index flag }, g')
        | (.error e, g') => (.error e, item, g') := by
  rw [setFlagInPlace, Changing.run_current_bind]
  split
  · rfl
  · rw [run_bind, Changing.run_drawing]
    rcases (s.encryptValue (flagValue on) s.scale).run.run g with ⟨e | flag, g'⟩ <;> rfl

/-- The index is checked before the flag is encrypted, and the flag is encrypted before it is
replaced. -/
theorem atomic_setFlagInPlace (s : Scheme) (index : ℕ) (on : Bool) (item : Item) (g : Generator) :
    Atomic (setFlagInPlace s index on) (item, g) := by
  intro e st' hrun
  rw [run_setFlagInPlace] at hrun
  split at hrun
  · cases hrun
    rfl
  · rcases hflag : (s.encryptValue (flagValue on) s.scale).run.run g with ⟨e' | flag, g'⟩
    · rw [hflag] at hrun
      cases hrun
      rw [s.atomic_encryptValue _ _ g e g' hflag]
    · rw [hflag] at hrun
      cases hrun

/-- A flag that is replaced leaves the others where they are. -/
theorem keeps_length_setFlagInPlace (s : Scheme) (index : ℕ) (on : Bool) (flagCount : ℕ) :
    (setFlagInPlace s index on).Keeps fun item => item.flags.length = flagCount := by
  intro item g hitem
  rw [run_setFlagInPlace]
  split
  · exact hitem
  · rcases (s.encryptValue (flagValue on) s.scale).run.run g with ⟨e | flag, g'⟩
    · exact hitem
    · exact List.length_set.trans hitem

/-- The item with a flag replaced has a fresh encryption in its place. -/
theorem setFlag_eq_ok (h : (item.setFlag s index on).run.run g = (.ok item', g')) :
    ∃ flag, (s.encryptValue (flagValue on) s.scale).run.run g = (.ok flag, g') ∧
      item' = { item with flags := item.flags.set index flag } := by
  obtain ⟨⟨answer, left⟩, g₁, hrun, hleft⟩ := run_bind_ok h
  cases hleft
  rw [Changing.run_runOn, run_setFlagInPlace] at hrun
  split at hrun
  · cases hrun
  · rcases hflag : (s.encryptValue (flagValue on) s.scale).run.run g with ⟨e | flag, g₁⟩
    · rw [hflag] at hrun
      cases hrun
    · rw [hflag] at hrun
      cases hrun
      exact ⟨flag, rfl, rfl⟩

end Item

/-! ### Collections -/

namespace Collection

variable {α : Type} {s : Scheme} {c : Collection} {item : Item} {place : ℕ} {g : Generator}

/-- **All items have as many flags as the collection says.** -/
def Uniform (c : Collection) : Prop :=
  ∀ item ∈ c.items, item.flags.length = c.flagCount

theorem uniform_empty (flagCount : ℕ) : (empty flagCount).Uniform :=
  List.forall_mem_nil _

/-- **What pushing an item does**: nothing when it has another number of flags. -/
theorem run_pushInPlace (c : Collection) (item : Item) : (pushInPlace item).run.run c =
    if item.flags.length = c.flagCount then (.ok (), { c with items := c.items ++ [item] })
    else (.error (.mismatch (.flagCount item.flags.length c.flagCount)), c) := by
  have hread : (getThe Collection : ExceptT Failure (StateM Collection) Collection).run.run c =
      (.ok c, c) := rfl
  rw [pushInPlace, run_bind_eq hread]
  by_cases hcount : item.flags.length = c.flagCount
  · rw [if_neg (not_not.mpr hcount), if_pos hcount]
    rfl
  · rw [if_pos hcount, if_neg hcount]
    rfl

/-- The flags are counted before the item is appended. -/
theorem atomic_pushInPlace (c : Collection) (item : Item) (g : Generator) :
    Atomic (Changing.change (pushInPlace item)) (c, g) := by
  intro e st' hrun
  rw [Changing.run_change, run_pushInPlace] at hrun
  split at hrun
  · cases hrun
  · cases hrun
    rfl

/-- **What pushing a value does**: an item that was encrypted for the collection has its number of flags,
so that pushing it does not fail. -/
theorem run_pushPlainInPlace (s : Scheme) (value : Float) (c : Collection) (g : Generator) :
    (pushPlainInPlace s value).run.run (c, g) =
      match (Item.encrypt s value c.flagCount).run.run g with
      | (.ok item, g') => (.ok (), { c with items := c.items ++ [item] }, g')
      | (.error e, g') => (.error e, c, g') := by
  rw [pushPlainInPlace, Changing.run_current_bind, run_bind, Changing.run_drawing]
  rcases hencrypt : (Item.encrypt s value c.flagCount).run.run g with ⟨e | item, g'⟩
  · rfl
  · dsimp only
    rw [Changing.run_change, run_pushInPlace, if_pos (Item.length_flags_encrypt hencrypt)]

theorem atomic_pushPlainInPlace (h : s.Built) (c : Collection) (value : Float) (g : Generator) :
    Atomic (pushPlainInPlace s value) (c, g) := by
  intro e st' hrun
  rw [run_pushPlainInPlace] at hrun
  rcases hencrypt : (Item.encrypt s value c.flagCount).run.run g with ⟨e' | item, g'⟩
  · rw [hencrypt] at hrun
    cases hrun
    rw [h.atomic_item value c.flagCount g e g' hencrypt]
  · rw [hencrypt] at hrun
    cases hrun

theorem run_atItem_of_none {x : Changing Item α} (h : c.items[place]? = none) (g : Generator) :
    (atItem place x).run.run (c, g) = (.ok none, c, g) := by
  simp only [atItem, ExceptT.run, StateT.run, h]

/-- **A change of an item** is a change of the collection that holds it. -/
theorem run_atItem_of_some {x : Changing Item α} (h : c.items[place]? = some item) (g : Generator) :
    (atItem place x).run.run (c, g) =
      ((x.run.run (item, g)).1.map some,
        { c with items := c.items.set place (x.run.run (item, g)).2.1 },
        (x.run.run (item, g)).2.2) := by
  simp only [atItem, ExceptT.run, StateT.run, h]
  rfl

/-- A change that leaves no trace in the item leaves none in the collection. -/
theorem atomic_atItem {x : Changing Item α}
    (hx : ∀ item, c.items[place]? = some item → Atomic x (item, g)) :
    Atomic (atItem place x) (c, g) := by
  intro e st' hrun
  cases hitem : c.items[place]? with
  | none => cases (run_atItem_of_none hitem g).symm.trans hrun
  | some item =>
      rw [run_atItem_of_some hitem] at hrun
      rcases hchange : x.run.run (item, g) with ⟨e' | b, item', g'⟩
      · rw [hchange] at hrun
        cases hrun
        cases hx item hitem e (item', g') hchange
        obtain ⟨hlt, hget⟩ := List.getElem?_eq_some_iff.mp hitem
        rw [← hget, List.set_getElem_self]
      · rw [hchange] at hrun
        cases hrun

/-- **Pushing keeps the collection uniform**, since it checks the flags of the item. -/
theorem keeps_uniform_pushInPlace (item : Item) (flagCount : ℕ) :
    (Changing.change (pushInPlace item)).Keeps fun c => c.Uniform ∧ c.flagCount = flagCount := by
  rintro c g ⟨hc, hflags⟩
  rw [Changing.run_change, run_pushInPlace]
  split
  · next hcount =>
      exact ⟨List.forall_mem_append.mpr ⟨hc, List.forall_mem_singleton.mpr hcount⟩, hflags⟩
  · exact ⟨hc, hflags⟩

theorem keeps_uniform_pushPlainInPlace (s : Scheme) (value : Float) (flagCount : ℕ) :
    (pushPlainInPlace s value).Keeps fun c => c.Uniform ∧ c.flagCount = flagCount := fun c =>
  Changing.Keeps.bind (Changing.keeps_drawing (Item.encrypt s value c.flagCount))
    (fun item => keeps_uniform_pushInPlace item flagCount) c

/-- A change that keeps the number of an item's flags keeps the collection uniform. -/
theorem keeps_uniform_atItem {x : Changing Item α}
    (hx : ∀ n, x.Keeps fun item => item.flags.length = n) (place flagCount : ℕ) :
    (atItem place x).Keeps fun c => c.Uniform ∧ c.flagCount = flagCount := by
  rintro c g ⟨hc, hflags⟩
  cases hitem : c.items[place]? with
  | none =>
      rw [run_atItem_of_none hitem]
      exact ⟨hc, hflags⟩
  | some item =>
      rw [run_atItem_of_some hitem]
      refine ⟨fun other hother => ?_, hflags⟩
      rcases List.mem_or_eq_of_mem_set hother with hother | rfl
      · exact hc other hother
      · exact hx c.flagCount item g (hc item (List.mem_of_getElem? hitem))

/-- **A sum under a flag of uniform items** misses no flag.  What else may fail in it are requests. -/
theorem Uniform.runsFailWith_sumWhere (hc : c.Uniform) (s : Scheme) (index : ℕ) :
    RunsFailWith (fun e => ∀ i, e ≠ .configuration (.missingFlag i)) (c.sumWhere s index) := by
  have hrequest : ∀ r : Request, ¬r.IsIdle → RunsFailWith
      (fun e => ∀ i, e ≠ .configuration (.missingFlag i)) (r.observed s) := fun r hidle =>
    Request.runsFailWith hidle (r.failsWith_ne_configuration.mono fun e he i heq => he (heq ▸ rfl))
  unfold sumWhere
  split
  · exact .throw nofun
  · next hindex =>
      refine .foldlM (fun sum item hitem => ?_) none
      have hlt : index < item.flags.length := by
        rw [hc item hitem]
        exact not_le.mp hindex
      rw [List.getElem?_eq_getElem hlt]
      refine .bind (.bind (hrequest (.multiply _ _) not_false) fun product => .bind
        (hrequest (.relinearize product) not_false) fun _ => hrequest (.rescale _) not_false)
          fun masked => .bind ?_ fun _ => .pure
      cases sum with
      | none => exact .pure
      | some acc => exact hrequest (.add acc masked) not_false

end Collection

/-! ### Calls -/

/-- **The calls of a client** on a channel and a collection. -/
inductive Action where
  | encrypt (value scale : Float)
  | encryptSlots (values : List Float) (scale : Float)
  | roundTrip (value : Float)
  | encryptItem (value : Float) (flagCount : ℕ)
  | push (item : Item)
  | pushPlain (value : Float)
  /-- On the item at a place of the collection. -/
  | setFlag (place index : ℕ) (on : Bool)

/-- What a call answers that succeeds. -/
inductive Answer where
  | ciphertext (ct : Ciphertext)
  | value (x : Float)
  | item (item : Item)
  | done
  /-- There is no item at the place. -/
  | absent

namespace Action

/-- **What a call does** to the collection and on the generator, and its answer. -/
def perform (s : Scheme) : Action → Changing Collection Answer
  | encrypt value scale => do return .ciphertext (← .drawing (s.encryptValue value scale))
  | encryptSlots values scale => do return .ciphertext (← .drawing (s.encryptSlots values scale))
  | roundTrip value => do return .value (← .drawing (s.roundTrip value))
  | encryptItem value flagCount => do return .item (← .drawing (Item.encrypt s value flagCount))
  | push item => do
    .change (Collection.pushInPlace item)
    return .done
  | pushPlain value => do
    Collection.pushPlainInPlace s value
    return .done
  | setFlag place index on => do
    match ← Collection.setFlagInPlace s place index on with
    | some () => return .done
    | none => return .absent

variable {s : Scheme}

/-- **Every call is atomic**, from any collection and any generator. -/
theorem atomic (h : s.Built) (c : Collection) (g : Generator) (a : Action) :
    Atomic (a.perform s) (c, g) := by
  have hdrawing : ∀ {α : Type} {x : FallibleDrawing α} (answer : α → Answer), Atomic x g →
      Atomic (do return answer (← .drawing x) : Changing Collection Answer) (c, g) :=
    fun answer hx => (Changing.atomic_drawing hx c).bind_infallible fun _ => .pure
  cases a with
  | encrypt value scale => exact hdrawing .ciphertext (s.atomic_encryptValue value scale g)
  | encryptSlots values scale => exact hdrawing .ciphertext (s.atomic_encryptSlots values scale g)
  | roundTrip value => exact hdrawing .value (h.atomic_roundTrip value g)
  | encryptItem value flagCount => exact hdrawing .item (h.atomic_item value flagCount g)
  | push item => exact (Collection.atomic_pushInPlace c item g).bind_infallible fun _ => .pure
  | pushPlain value =>
      exact (Collection.atomic_pushPlainInPlace h c value g).bind_infallible fun _ => .pure
  | setFlag place index on =>
      refine Atomic.bind_infallible (Collection.atomic_atItem fun item _ =>
        Item.atomic_setFlagInPlace s index on item g) fun found => ?_
      cases found <;> exact .pure

/-- **A call keeps the collection uniform**, with its number of flags, also when it fails. -/
theorem keeps_uniform (s : Scheme) (flagCount : ℕ) (a : Action) :
    (a.perform s).Keeps fun c => c.Uniform ∧ c.flagCount = flagCount := by
  cases a with
  | encrypt | encryptSlots | roundTrip | encryptItem =>
      exact (Changing.keeps_drawing _).bind fun _ => Changing.keeps_pure _
  | push item =>
      exact (Collection.keeps_uniform_pushInPlace item flagCount).bind fun _ => Changing.keeps_pure _
  | pushPlain value =>
      exact (Collection.keeps_uniform_pushPlainInPlace s value flagCount).bind fun _ =>
        Changing.keeps_pure _
  | setFlag place index on =>
      refine Changing.Keeps.bind (Collection.keeps_uniform_atItem
        (Item.keeps_length_setFlagInPlace s index on) place flagCount) fun found => ?_
      cases found <;> exact Changing.keeps_pure _

end Action

/-! ### Sessions -/

/-- **A channel and a collection**, which a client calls on. -/
structure Session where
  channel : Channel
  collection : Collection

namespace Session

variable {st st' : Session} {a : Action} {e : Failure}

/-- **One call.**  What it has drawn is drawn from the channel, and what it has changed in the collection
is changed, also when it fails. -/
def step (st : Session) (a : Action) : Except Failure Answer × Session :=
  let (outcome, (collection, generator)) :=
    (a.perform st.channel.scheme).run.run (st.collection, st.channel.generator)
  (outcome, ⟨{ st.channel with generator }, collection⟩)

/-- **A list of calls**, their answers and the session after them. -/
def run (st : Session) : List Action → List (Except Failure Answer) × Session
  | [] => ([], st)
  | a :: actions =>
    let (answer, next) := st.step a
    let (answers, last) := next.run actions
    (answer :: answers, last)

/-- **The calls of a list that succeed.** -/
def succeeding (st : Session) (actions : List Action) : List Action :=
  ((actions.zip (st.run actions).1).filter fun p => p.2.isOk).map Prod.fst

/-- A call leaves the scheme alone. -/
theorem scheme_step (st : Session) (a : Action) :
    (st.step a).2.channel.scheme = st.channel.scheme :=
  rfl

/-- **A call that fails leaves the session as it was.** -/
theorem step_of_error (h : st.channel.scheme.Built) (hstep : st.step a = (.error e, st')) :
    st' = st := by
  rcases hrun : (a.perform st.channel.scheme).run.run (st.collection, st.channel.generator) with
    ⟨outcome, collection, generator⟩
  unfold step at hstep
  rw [hrun] at hstep
  cases hstep
  cases a.atomic h st.collection st.channel.generator e _ hrun
  rfl

theorem built_run : ∀ {actions : List Action} {st : Session}, st.channel.scheme.Built →
    (st.run actions).2.channel.scheme.Built := by
  intro actions
  induction actions with
  | nil => exact fun h => h
  | cons a actions ih =>
      intro st h
      exact @ih (st.step a).2 ((st.scheme_step a).symm ▸ h)

/-- What a call leaves, once it is known what it does. -/
theorem step_eq {outcome : Except Failure Answer} {c : Collection} {g : Generator}
    (h : (a.perform st.channel.scheme).run.run (st.collection, st.channel.generator) =
      (outcome, c, g)) : st.step a = (outcome, ⟨{ st.channel with generator := g }, c⟩) := by
  unfold step
  rw [h]

theorem step_encrypt {value scale : Float} {outcome : Except Failure Ciphertext} {g : Generator}
    (h : (st.channel.scheme.encryptValue value scale).run.run st.channel.generator = (outcome, g)) :
    st.step (.encrypt value scale) =
      (outcome.map .ciphertext, { st with channel := { st.channel with generator := g } }) := by
  refine step_eq ?_
  rw [Action.perform, run_bind, Changing.run_drawing, h]
  cases outcome <;> rfl

theorem step_pushPlain {value : Float} {item : Item} {g : Generator}
    (h : (Item.encrypt st.channel.scheme value st.collection.flagCount).run.run
      st.channel.generator = (.ok item, g)) :
    st.step (.pushPlain value) = (.ok .done, ⟨{ st.channel with generator := g },
      { st.collection with items := st.collection.items ++ [item] }⟩) := by
  refine step_eq (run_bind_eq (a := ()) ?_)
  rw [Collection.run_pushPlainInPlace, h]

theorem run_cons (st : Session) (a : Action) (actions : List Action) : st.run (a :: actions) =
    ((st.step a).1 :: ((st.step a).2.run actions).1, ((st.step a).2.run actions).2) :=
  rfl

theorem succeeding_cons (st : Session) (a : Action) (actions : List Action) :
    st.succeeding (a :: actions) =
      if (st.step a).1.isOk then a :: (st.step a).2.succeeding actions
      else (st.step a).2.succeeding actions := by
  rw [succeeding, run_cons, List.zip_cons_cons, List.filter_cons]
  split <;> rfl

/-- **A run of calls is the run of those that succeed**: they get the same answers and leave the same
session.  The induction is on the calls. -/
theorem run_succeeding : ∀ {actions : List Action} {st : Session}, st.channel.scheme.Built →
    st.run (st.succeeding actions) = ((st.run actions).1.filter (·.isOk), (st.run actions).2) := by
  intro actions
  induction actions with
  | nil => exact fun _ => rfl
  | cons a actions ih =>
      intro st h
      have hnext := @ih (st.step a).2 ((st.scheme_step a).symm ▸ h)
      rw [succeeding_cons, run_cons, List.filter_cons]
      rcases hstep : st.step a with ⟨e | answer, next⟩
      · rw [hstep] at hnext
        obtain rfl := step_of_error h hstep
        exact hnext
      · rw [hstep] at hnext
        have hok : (Except.ok answer : Except Failure Answer).isOk = true := rfl
        rw [if_pos hok, if_pos hok, run_cons, hstep, hnext]

/-- **The collection stays uniform** along a run, with its number of flags. -/
theorem uniform_run {flagCount : ℕ} : ∀ {actions : List Action} {st : Session},
    st.collection.Uniform ∧ st.collection.flagCount = flagCount →
      (st.run actions).2.collection.Uniform ∧ (st.run actions).2.collection.flagCount = flagCount := by
  intro actions
  induction actions with
  | nil => exact fun hc => hc
  | cons a actions ih =>
      intro st hc
      exact @ih (st.step a).2 (a.keeps_uniform st.channel.scheme flagCount st.collection _ hc)

/-- **Failures leave no trace.**  In a session of a scheme that was built, a call that fails leaves the
channel, with its generator, and the collection as they were.  A list of calls leaves the session that
its successful calls alone leave, and these get the same answers without the others.  When the collection
was new, all of its items have its number of flags, and no sum under a flag misses one. -/
theorem failures_leave_no_trace (st : Session) (h : st.channel.scheme.Built)
    (actions : List Action) :
    (∀ a e st', (st.run actions).2.step a = (.error e, st') → st' = (st.run actions).2) ∧
      st.run (st.succeeding actions) =
        ((st.run actions).1.filter (·.isOk), (st.run actions).2) ∧
      ∀ flagCount, st.collection = .empty flagCount →
        (∀ item ∈ (st.run actions).2.collection.items, item.flags.length = flagCount) ∧
          ∀ (s : Scheme) (index : ℕ), RunsFailWith (fun e => ∀ i, e ≠ .configuration (.missingFlag i))
            ((st.run actions).2.collection.sumWhere s index) := by
  refine ⟨fun a e st' hstep => step_of_error (built_run h) hstep, run_succeeding h,
    fun flagCount hempty => ?_⟩
  obtain ⟨huniform, hcount⟩ := @uniform_run flagCount actions st
    (hempty ▸ ⟨Collection.uniform_empty flagCount, rfl⟩)
  exact ⟨fun item hitem => (huniform item hitem).trans hcount, huniform.runsFailWith_sumWhere⟩

/-- Over the small context: an item without flags cannot be pushed where one is expected, nothing is
encrypted at scale 0, and there is no sixth flag to set.  The encryptions between these calls draw what
they draw without them. -/
theorem failures_leave_no_trace_small : ∃ (s : Scheme) (st st' : Session) (ct ct' : Ciphertext),
    s.Built ∧ st = ⟨.ofSeed s 7, .empty 1⟩ ∧
      let actions := [.push ⟨.small false, []⟩, .encrypt 1 1, .encrypt 1 0, .pushPlain 0.0,
        .setFlag 0 5 true, .encrypt 1 1]
      st.run actions = ([.error (.mismatch (.flagCount 0 1)), .ok (.ciphertext ct),
        .error (.overflow (.invalidScale 0)), .ok .done,
        .error (.configuration (.flagOutOfRange 5 1)), .ok (.ciphertext ct')], st') ∧
      st.succeeding actions = [.encrypt 1 1, .pushPlain 0.0, .encrypt 1 1] ∧
      st.run [.encrypt 1 1, .pushPlain 0.0, .encrypt 1 1] =
        ([.ok (.ciphertext ct), .ok .done, .ok (.ciphertext ct')], st') ∧
      ∀ item ∈ st'.collection.items, item.flags.length = 1 := by
  obtain ⟨s, hbuilt, hcontext, hscale⟩ := Scheme.exists_built_small
  -- what the scheme does, whatever it is called with
  have hrefused : ∀ g, (s.encryptValue 1 0).run.run g = (.error (.overflow (.invalidScale 0)), g) := by
    have hencode : s.context.encodeScalar 1 0 s.maxLevel = .error (.overflow (.invalidScale 0)) := by
      rw [Scheme.maxLevel, hcontext]
      rfl
    intro g
    rw [Scheme.encryptValue, hencode]
    rfl
  have hencrypt : ∀ g, ∃ ct g', (s.encryptValue 1 1).run.run g = (.ok ct, g') := by
    obtain ⟨pt, hpt⟩ := @Scheme.exists_encodeScalar_small s 1 hcontext hscale (by decide +kernel)
    intro g
    obtain ⟨ct, hct⟩ := hbuilt.exists_encryptValue hpt g
    rw [hscale] at hct
    exact ⟨ct, _, Prod.ext hct rfl⟩
  obtain ⟨g, hg⟩ : ∃ g, g = Generator.ofSeed 7 := ⟨_, rfl⟩
  obtain ⟨ct, g₁, hct⟩ := hencrypt g
  obtain ⟨item, g₂, hitem⟩ := (hbuilt.infallible_item 1).exists_ok g₁
  obtain ⟨ct', g₃, hct'⟩ := hencrypt g₂
  have hflags := Item.length_flags_encrypt hitem
  -- the calls one after the other
  let st : Session := ⟨⟨s, g⟩, .empty 1⟩
  let st₁ : Session := ⟨⟨s, g₁⟩, .empty 1⟩
  let st₂ : Session := ⟨⟨s, g₂⟩, ⟨1, [item]⟩⟩
  let st₃ : Session := ⟨⟨s, g₃⟩, ⟨1, [item]⟩⟩
  have hpush : st.step (.push ⟨.small false, []⟩) = (.error (.mismatch (.flagCount 0 1)), st) := rfl
  have hfirst : st.step (.encrypt 1 1) = (.ok (.ciphertext ct), st₁) :=
    @step_encrypt st 1 1 (.ok ct) g₁ hct
  have hscaled : st₁.step (.encrypt 1 0) = (.error (.overflow (.invalidScale 0)), st₁) :=
    @step_encrypt st₁ 1 0 (.error _) g₁ (hrefused g₁)
  have hplain : st₁.step (.pushPlain 0.0) = (.ok .done, st₂) := @step_pushPlain st₁ 0.0 item g₂ hitem
  have hset : st₂.step (.setFlag 0 5 true) =
      (.error (.configuration (.flagOutOfRange 5 1)), st₂) := by
    have hrun : (Collection.setFlagInPlace s 0 5 true).run.run (⟨1, [item]⟩, g₂) =
        (.error (.configuration (.flagOutOfRange 5 1)), ⟨1, [item]⟩, g₂) := by
      rw [Collection.setFlagInPlace, Collection.run_atItem_of_some rfl, Item.run_setFlagInPlace,
        hflags, if_pos (by norm_num)]
      rfl
    exact step_eq ((run_bind _ _ _).trans (by rw [hrun]))
  have hlast : st₂.step (.encrypt 1 1) = (.ok (.ciphertext ct'), st₃) :=
    @step_encrypt st₂ 1 1 (.ok ct') g₃ hct'
  have hrun : st.run [.push ⟨.small false, []⟩, .encrypt 1 1, .encrypt 1 0, .pushPlain 0.0,
      .setFlag 0 5 true, .encrypt 1 1] =
      ([.error (.mismatch (.flagCount 0 1)), .ok (.ciphertext ct),
        .error (.overflow (.invalidScale 0)), .ok .done,
        .error (.configuration (.flagOutOfRange 5 1)), .ok (.ciphertext ct')], st₃) := by
    simp only [run, hpush, hfirst, hscaled, hplain, hset, hlast]
  have hsucceeding : st.succeeding [.push ⟨.small false, []⟩, .encrypt 1 1, .encrypt 1 0,
      .pushPlain 0.0, .setFlag 0 5 true, .encrypt 1 1] =
      [.encrypt 1 1, .pushPlain 0.0, .encrypt 1 1] := by
    rw [succeeding, hrun]
    rfl
  obtain ⟨-, hwithout, huniform⟩ := failures_leave_no_trace st hbuilt
    [.push ⟨.small false, []⟩, .encrypt 1 1, .encrypt 1 0, .pushPlain 0.0, .setFlag 0 5 true,
      .encrypt 1 1]
  obtain ⟨hitems, -⟩ := huniform 1 rfl
  rw [hsucceeding, hrun] at hwithout
  rw [hrun] at hitems
  exact ⟨s, st, st₃, ct, ct', hbuilt, by rw [Channel.ofSeed, ← hg], hrun, hsucceeding, hwithout,
    hitems⟩

end Session

end EncryptedReals
