import EncryptedReals.Horner
import EncryptedReals.Proofs.Requests

/-!
# The course of a polynomial evaluation

Horner's rule performs a course of requests that its argument's level and the number of coefficients
determine: which operations come in which order, and the levels of their operands and results.  An
evaluation performs the whole course, or its steps are the records of the requests before the one that
failed.  With too few levels it fails before the first request, and with enough of them no request
exhausts the chain, because every rescaling happens above level 0.

A computation *keeps to a course* when this holds of it from any steps on (`KeepsTo`).  One request keeps
to a course of one move, and a sequence to the courses of its parts, so the course of Horner's rule is
put together along its recursion.

## Main Definitions

* `Move` — a step without its scales
* `KeepsTo` — a computation performs a course, or stops within it
* `hornerCourse` — the course of an evaluation

## Main results

* `KeepsTo.request`, `KeepsTo.bind` — requests and sequences keep to courses
* `Scheme.evaluateObserved_spec` — failures, result and trace of an evaluation
-/

namespace EncryptedReals

/-! ### Courses -/

/-- **A step without its scales.** -/
structure Move where
  operation : Operation
  operands : List ℕ
  result : ℕ
deriving DecidableEq

/-- The move of a step. -/
def Step.move (step : Step) : Move :=
  ⟨step.operation, step.operands.map Snapshot.level, step.result.level⟩

/-- A request is about to make a move: it is the operation on operands of these levels. -/
def Request.Starts (r : Request) (m : Move) : Prop :=
  m.operation = r.operation ∧ m.operands = r.operands.map Ciphertext.level

theorem Request.move_step (r : Request) (ct : Ciphertext) :
    (r.step ct).move = ⟨r.operation, r.operands.map Ciphertext.level, ct.level⟩ := by
  simp [Request.step, Step.ofResult, Step.move, Snapshot.ofCiphertext, Function.comp_def]

section Course

variable {α β : Type} {s : Scheme}

/-- **Steps that were performed**: each is the record of a request and of what it returned. -/
def Performed (s : Scheme) (steps : List Step) : Prop :=
  ∀ step ∈ steps, ∃ (r : Request) (ct : Ciphertext), r.perform s = .ok ct ∧ step = r.step ct

/-- **How a computation ends that keeps to a course**: it has made all moves, or the request for the next
move failed. -/
inductive Ends (s : Scheme) (course : List Move) (Q : α → Prop) : List Step → Except Failure α → Prop
  | done {a : α} {steps : List Step} (hmoves : steps.map Step.move = course) (ha : Q a) :
      Ends s course Q steps (.ok a)
  | stopped {e : Failure} {steps : List Step} {r : Request} {m : Move} {rest : List Move}
      (hmoves : course = steps.map Step.move ++ m :: rest) (hstarts : r.Starts m)
      (hfails : r.perform s = .error e) (hchain : e.kind ≠ .chainExhausted) :
      Ends s course Q steps (.error e)

/-- **A computation keeps to a course**, from whatever steps it starts. -/
def KeepsTo (s : Scheme) (course : List Move) (x : Observed α) (Q : α → Prop) : Prop :=
  ∀ earlier, ∃ steps outcome, x.run.run earlier = (outcome, earlier ++ steps) ∧
    Performed s steps ∧ Ends s course Q steps outcome

theorem performed_nil : Performed s [] := List.forall_mem_nil _

/-- **A request keeps to its move.** -/
theorem KeepsTo.request {r : Request} {Q : Ciphertext → Prop} {level : ℕ} (hidle : ¬r.IsIdle)
    (hchain : KeepsChain (r.perform s))
    (hok : ∀ ct, r.perform s = .ok ct → ct.level = level ∧ Q ct) :
    KeepsTo s [⟨r.operation, r.operands.map Ciphertext.level, level⟩] (r.observed s) Q := by
  intro earlier
  rw [Request.run_observed hidle]
  cases hperform : r.perform s with
  | ok ct =>
      obtain ⟨rfl, hQ⟩ := hok ct hperform
      refine ⟨[r.step ct], _, rfl, ?_, .done ?_ hQ⟩
      · exact List.forall_mem_singleton.mpr ⟨r, ct, hperform, rfl⟩
      · rw [List.map_singleton, r.move_step]
  | error e =>
      refine ⟨[], _, by rw [List.append_nil], performed_nil, ?_⟩
      exact .stopped (List.nil_append _).symm ⟨rfl, rfl⟩ hperform (hchain e hperform)

/-- **A sequence keeps to the courses of its parts**, one after the other. -/
theorem KeepsTo.bind {x : Observed α} {f : α → Observed β} {P : α → Prop} {Q : β → Prop}
    {first second : List Move} (hx : KeepsTo s first x P)
    (hf : ∀ a, P a → KeepsTo s second (f a) Q) : KeepsTo s (first ++ second) (x >>= f) Q := by
  intro earlier
  obtain ⟨steps, outcome, hrun, hperformed, hends⟩ := hx earlier
  rw [run_bind, hrun]
  cases hends with
  | @done a _ hmoves ha =>
      obtain ⟨steps', outcome, hrun', hperformed', hends⟩ := hf a ha (earlier ++ steps)
      refine ⟨steps ++ steps', outcome, ?_, ?_, ?_⟩
      · rw [← List.append_assoc]
        exact hrun'
      · exact fun step hstep => (List.mem_append.mp hstep).elim (hperformed step) (hperformed' step)
      · subst hmoves
        cases hends with
        | done hmoves' hb => exact .done (by rw [List.map_append, hmoves']) hb
        | @stopped e _ r m rest hmoves' hstarts hfails hchain =>
            have hcourse : steps.map Step.move ++ second =
                (steps ++ steps').map Step.move ++ m :: rest := by
              rw [hmoves', List.map_append, List.append_assoc]
            exact .stopped hcourse hstarts hfails hchain
  | @stopped e _ r m rest hmoves hstarts hfails hchain =>
      have hcourse : first ++ second = steps.map Step.move ++ m :: (rest ++ second) := by
        rw [hmoves, List.append_assoc, List.cons_append]
      exact ⟨steps, _, rfl, hperformed, .stopped hcourse hstarts hfails hchain⟩

end Course

/-- A recorder keeps the steps that it passes on. -/
theorem Recorder.foldl_observe (steps : List Step) (r : Recorder) :
    steps.foldl observe r = ⟨r.steps ++ steps, r.forwarded ++ steps⟩ := by
  induction steps generalizing r with
  | nil => rw [List.foldl_nil, List.append_nil, List.append_nil]
  | cons step steps ih =>
      rw [List.foldl_cons, ih, observe, List.append_assoc, List.append_assoc]
      rfl

/-! ### Requests and their moves -/

/-- A ciphertext has a level and a size. -/
def Ciphertext.Has (level size : ℕ) (ct : Ciphertext) : Prop :=
  ct.level = level ∧ ct.size = size

namespace Scheme

variable {s : Scheme} {a b x : Ciphertext} {l n k : ℕ}

/-- **A request keeps to the move that its call determines**, unless it is a rescaling at level 0. -/
theorem keepsTo_request (h : s.context.Made) (r : Request) (hidle : ¬r.IsIdle)
    (hrescale : ∀ a, r = .rescale a → 0 < a.level)
    (hresult : ∀ call ct, r.call s = .ok call → call.Follows ct → ct.Has l n) :
    KeepsTo s [⟨r.operation, r.operands.map Ciphertext.level, l⟩] (r.observed s)
      (Ciphertext.Has l n) :=
  KeepsTo.request hidle (Request.keepsChain h r hrescale) fun ct hct => by
    obtain ⟨call, hcall, hfollows⟩ := Request.follows hct
    have hhas := hresult call ct hcall hfollows
    exact ⟨hhas.1, hhas⟩

theorem keepsTo_multiplyPlain (h : s.context.Made) (ha : a.Has l n) (value plainScale : Float) :
    KeepsTo s [⟨.multiplyPlain, [l], l⟩] (s.multiplyPlain a value plainScale)
      (Ciphertext.Has l n) := by
  obtain ⟨rfl, rfl⟩ := ha
  refine keepsTo_request h (.multiplyPlain a value plainScale) not_false nofun
    fun call ct hcall hfollows => ?_
  obtain ⟨pt, -, hcall⟩ := bind_eq_ok.mp hcall
  cases hcall
  exact hfollows

theorem keepsTo_addPlain (h : s.context.Made) (ha : a.Has l n) (value : Float) :
    KeepsTo s [⟨.addPlain, [l], l⟩] (s.addPlain a value) (Ciphertext.Has l n) := by
  obtain ⟨rfl, rfl⟩ := ha
  refine keepsTo_request h (.addPlain a value) not_false nofun fun call ct hcall hfollows => ?_
  obtain ⟨pt, -, hcall⟩ := bind_eq_ok.mp hcall
  cases hcall
  exact hfollows

/-- Above level 0 a rescaling does not exhaust the chain. -/
theorem keepsTo_rescale (h : s.context.Made) (ha : a.Has (l + 1) n) :
    KeepsTo s [⟨.rescale, [l + 1], l⟩] (s.rescale a) (Ciphertext.Has l n) := by
  obtain ⟨hlevel, rfl⟩ := ha
  rw [← hlevel]
  refine keepsTo_request h (.rescale a) not_false (fun _ heq => ?_) fun call ct hcall hfollows => ?_
  · cases heq
    omega
  · cases hcall
    exact ⟨Nat.succ.inj (hfollows.1.trans hlevel), hfollows.2⟩

/-- A switch to a lower level is not idle. -/
theorem keepsTo_switchTo (h : s.context.Made) (ha : a.Has k n) (hlevel : l < k) :
    KeepsTo s [⟨.switchLevel, [k], l⟩] (s.switchTo a l) (Ciphertext.Has l n) := by
  obtain ⟨rfl, rfl⟩ := ha
  refine keepsTo_request h (.switchTo a l) hlevel.ne nofun fun call ct hcall hfollows => ?_
  cases hcall
  exact hfollows.2

theorem keepsTo_multiply (h : s.context.Made) (ha : a.Has l n) (hb : b.Has l k) :
    KeepsTo s [⟨.multiply, [l, l], l⟩] (s.multiply a b) (Ciphertext.Has l (n + k - 1)) := by
  obtain ⟨rfl, rfl⟩ := ha
  obtain ⟨hlevel, rfl⟩ := hb
  have hproduct : KeepsTo s [⟨.multiply, [a.level, b.level], a.level⟩] (s.multiply a b)
      (Ciphertext.Has a.level (a.size + b.size - 1)) := by
    refine keepsTo_request h (.multiply a b) not_false nofun fun call ct hcall hfollows => ?_
    cases hcall
    exact hfollows.2
  rwa [hlevel] at hproduct

theorem keepsTo_relinearize (h : s.context.Made) (ha : a.Has l n) :
    KeepsTo s [⟨.relinearize, [l], l⟩] (s.relinearize a) (Ciphertext.Has l 2) := by
  obtain ⟨rfl, rfl⟩ := ha
  refine keepsTo_request h (.relinearize a) not_false nofun fun call ct hcall hfollows => ?_
  cases hcall
  exact hfollows

/-! ### Horner's rule -/

/-- **The moves from one coefficient to the next**: the coefficient is added, the argument brought down,
and the product with it relinearized and rescaled. -/
def roundMoves (top l : ℕ) : List Move :=
  [⟨.addPlain, [l], l⟩, ⟨.switchLevel, [top], l⟩, ⟨.multiply, [l, l], l⟩, ⟨.relinearize, [l], l⟩,
    ⟨.rescale, [l], l - 1⟩]

/-- **The course of an evaluation** of a depth at an argument of a level. -/
def hornerCourse (top depth : ℕ) : List Move :=
  [⟨.multiplyPlain, [top], top⟩, ⟨.rescale, [top], top - 1⟩] ++
    (List.range (depth - 1)).flatMap (fun i => roundMoves top (top - 1 - i)) ++
      [⟨.addPlain, [top - depth], top - depth⟩]

theorem keepsTo_multiplyRescale (h : s.context.Made) (ha : a.Has (l + 1) 2) (hb : b.Has (l + 1) 2) :
    KeepsTo s [⟨.multiply, [l + 1, l + 1], l + 1⟩, ⟨.relinearize, [l + 1], l + 1⟩,
      ⟨.rescale, [l + 1], l⟩] (s.multiplyRescale a b) (Ciphertext.Has l 2) :=
  (keepsTo_multiply h ha hb).bind fun _ hproduct =>
    (keepsTo_relinearize h hproduct).bind fun _ hrelinearized => keepsTo_rescale h hrelinearized

/-- **The additions and products below the leading coefficient.**  The induction is on the
coefficients; the sum falls by one level for each but the last. -/
theorem keepsTo_hornerSteps (h : s.context.Made) (hx : x.size = 2) :
    ∀ {lower : List Float} {c : Float} {acc : Ciphertext}, acc.Has (l + lower.length) 2 →
      l + lower.length < x.level → KeepsTo s
        ((List.range lower.length).flatMap (fun i => roundMoves x.level (l + lower.length - i)) ++
          [⟨.addPlain, [l], l⟩]) (s.hornerSteps x (c :: lower) acc) (Ciphertext.Has l 2) := by
  intro lower
  induction lower with
  | nil => exact fun hacc _ => keepsTo_addPlain h hacc _
  | cons c' lower ih =>
      intro c acc hacc hlevel
      rw [List.length_cons, ← Nat.add_assoc] at hacc hlevel
      have hcourse : (List.range (c' :: lower).length).flatMap
          (fun i => roundMoves x.level (l + (c' :: lower).length - i)) =
            roundMoves x.level (l + lower.length + 1) ++ (List.range lower.length).flatMap
              (fun i => roundMoves x.level (l + lower.length - i)) := by
        rw [List.length_cons, List.range_succ_eq_map, List.flatMap_cons, List.flatMap_map]
        congr 1
        refine List.flatMap_congr fun i _ => ?_
        rw [Nat.succ_eq_add_one, ← Nat.add_assoc, Nat.add_sub_add_right]
      rw [hcourse, List.append_assoc]
      refine (keepsTo_addPlain h hacc c).bind fun sum hsum => ?_
      rw [hsum.1]
      exact (keepsTo_switchTo h ⟨rfl, hx⟩ hlevel).bind fun argument hargument =>
        (keepsTo_multiplyRescale h hsum hargument).bind fun product hproduct =>
          ih hproduct (Nat.lt_of_succ_lt hlevel)

/-- **The evaluation from the leading coefficient** keeps to the course of its depth. -/
theorem keepsTo_hornerFrom (h : s.context.Made) (hx : x.size = 2) (leading : Float)
    {lower : List Float} (hlower : lower ≠ []) (hdepth : lower.length ≤ x.level) :
    KeepsTo s (hornerCourse x.level lower.length) (s.hornerFrom x leading lower)
      (Ciphertext.Has (x.level - lower.length) 2) := by
  obtain ⟨c, lower, rfl⟩ := List.exists_cons_of_ne_nil hlower
  rw [List.length_cons] at hdepth ⊢
  obtain ⟨l, hl⟩ : ∃ l, x.level = l + lower.length + 1 := ⟨x.level - lower.length - 1, by omega⟩
  have hx' : x.Has (l + lower.length + 1) 2 := ⟨hl, hx⟩
  have hcourse : hornerCourse x.level (lower.length + 1) =
      [⟨.multiplyPlain, [l + lower.length + 1], l + lower.length + 1⟩] ++
        ([⟨.rescale, [l + lower.length + 1], l + lower.length⟩] ++
          ((List.range lower.length).flatMap (fun i => roundMoves x.level (l + lower.length - i)) ++
            [⟨.addPlain, [l], l⟩])) := by
    rw [hornerCourse, hl, Nat.add_sub_cancel, Nat.add_sub_cancel,
      show l + lower.length + 1 - (lower.length + 1) = l by omega]
    rfl
  rw [hcourse]
  exact (keepsTo_multiplyPlain h hx' leading s.scale).bind fun product hproduct =>
    (keepsTo_rescale h hproduct).bind fun acc hacc => by
      have hsteps := keepsTo_hornerSteps h hx (c := c) hacc (by omega)
      rwa [show x.level - (lower.length + 1) = l by omega]

/-! ### Evaluations -/

/-- **Too few levels** end an evaluation before its first request, whatever came before it. -/
theorem run_evaluate_of_level_lt {coefficients : List Float} (hne : coefficients ≠ [])
    (hlevel : x.level < Coefficients.depth coefficients) (earlier : List Step) :
    (s.evaluate x coefficients).run.run earlier = (.error (.chainExhausted x.level), earlier) := by
  unfold evaluate
  split
  · next hnil => exact absurd (List.reverse_eq_nil_iff.mp hnil) hne
  · rw [if_pos hlevel]
    rfl

theorem evaluate_of_level_lt {coefficients : List Float} (hne : coefficients ≠ [])
    (hlevel : x.level < Coefficients.depth coefficients) :
    (s.evaluate x coefficients).trace = (.error (.chainExhausted x.level), []) :=
  run_evaluate_of_level_lt hne hlevel []

/-- **With enough levels** an evaluation keeps to its course. -/
theorem keepsTo_evaluate (h : s.context.Made) (hx : x.size = 2) {coefficients : List Float}
    (hne : coefficients ≠ []) (hlevel : Coefficients.depth coefficients ≤ x.level) :
    KeepsTo s (hornerCourse x.level (Coefficients.depth coefficients)) (s.evaluate x coefficients)
      (Ciphertext.Has (x.level - Coefficients.depth coefficients) 2) := by
  unfold evaluate
  split
  · next hnil => exact absurd (List.reverse_eq_nil_iff.mp hnil) hne
  · next leading lower hreverse =>
      have hlength : coefficients.length = lower.length + 1 := by
        rw [← List.length_reverse, hreverse, List.length_cons]
      have hdepth : Coefficients.depth coefficients = max lower.length 1 := by
        rw [Coefficients.depth, hlength, Nat.add_sub_cancel]
      rw [if_neg (not_lt.mpr hlevel)]
      rw [hdepth] at hlevel ⊢
      show KeepsTo s _ (if lower.isEmpty then s.hornerFrom x 0.0 [leading]
        else s.hornerFrom x leading lower) _
      cases lower with
      | nil => exact keepsTo_hornerFrom h hx 0.0 (List.cons_ne_nil leading []) hlevel
      | cons c lower =>
          have hmax : max (c :: lower).length 1 = (c :: lower).length :=
            max_eq_left (Nat.succ_le_succ (Nat.zero_le _))
          rw [hmax] at hlevel ⊢
          exact keepsTo_hornerFrom h hx leading (List.cons_ne_nil c lower) hlevel

/-- **The evaluation with its recorder** returns what it recorded, and has passed the same steps on. -/
theorem evaluateObserved_eq (coefficients : List Float) :
    s.evaluateObserved x coefficients =
      ((s.evaluate x coefficients).trace.1.map fun ct => ⟨ct, (s.evaluate x coefficients).trace.2⟩,
        (s.evaluate x coefficients).trace.2) := by
  rw [evaluateObserved]
  simp only [Recorder.foldl_observe, Recorder.take, List.nil_append]

/-- **Failures, result and trace of an evaluation** at a ciphertext of two parts.

With fewer levels than the polynomial needs, and only then, the chain is reported as exhausted at the
argument's level, before any step.  Otherwise every step that the observer has seen is the record of a
request that succeeded, with the levels of its operands and its result.  A value has two parts, lies as
many levels lower as the polynomial needs, and comes with exactly these steps, which make the whole
course; a failure is that of the request for the next move. -/
theorem evaluateObserved_spec (h : s.Built) (x : Ciphertext) (coefficients : List Float)
    (hx : x.size = 2) (hne : coefficients ≠ []) :
    (s.evaluateObserved x coefficients = (.error (.chainExhausted x.level), []) ↔
      x.level < Coefficients.depth coefficients) ∧
    (Coefficients.depth coefficients ≤ x.level →
      ∀ outcome seen, s.evaluateObserved x coefficients = (outcome, seen) → Performed s seen ∧
        (∀ value, outcome = .ok value → value.ciphertext.size = 2 ∧
          value.ciphertext.level = x.level - Coefficients.depth coefficients ∧ value.trace = seen ∧
            seen.map Step.move = hornerCourse x.level (Coefficients.depth coefficients)) ∧
        ∀ e, outcome = .error e → e.kind ≠ .chainExhausted ∧
          ∃ (r : Request) (m : Move) (rest : List Move), r.perform s = .error e ∧ r.Starts m ∧
            hornerCourse x.level (Coefficients.depth coefficients) =
              seen.map Step.move ++ m :: rest) := by
  have hcourse : Coefficients.depth coefficients ≤ x.level → ∀ outcome seen,
      s.evaluateObserved x coefficients = (outcome, seen) → ∃ result, Performed s seen ∧
        outcome = result.map (⟨·, seen⟩) ∧
          Ends s (hornerCourse x.level (Coefficients.depth coefficients))
            (Ciphertext.Has (x.level - Coefficients.depth coefficients) 2) seen result := by
    intro hlevel outcome seen hrun
    obtain ⟨steps, result, htrace, hperformed, hends⟩ := keepsTo_evaluate h.made hx hne hlevel []
    have htrace : (s.evaluate x coefficients).trace = (result, steps) := htrace
    rw [evaluateObserved_eq, htrace] at hrun
    cases hrun
    exact ⟨result, hperformed, rfl, hends⟩
  refine ⟨⟨fun hrun => ?_, fun hlevel => ?_⟩, fun hlevel outcome seen hrun => ?_⟩
  · by_contra hlevel
    obtain ⟨result, -, houtcome, hends⟩ := hcourse (not_lt.mp hlevel) _ _ hrun
    cases hends with
    | done => cases houtcome
    | stopped hmoves hstarts hfails hchain =>
        cases houtcome
        exact hchain rfl
  · rw [evaluateObserved_eq, evaluate_of_level_lt hne hlevel]
    rfl
  · obtain ⟨result, hperformed, rfl, hends⟩ := hcourse hlevel _ _ hrun
    refine ⟨hperformed, fun value hvalue => ?_, fun e he => ?_⟩
    · cases hends with
      | done hmoves hresult =>
          cases hvalue
          exact ⟨hresult.2, hresult.1, rfl, hmoves⟩
      | stopped => cases hvalue
    · cases hends with
      | done => cases he
      | stopped hmoves hstarts hfails hchain =>
          cases he
          exact ⟨hchain, _, _, _, hfails, hstarts, hmoves⟩

/-- The polynomials `1 + x` and `1 + x + x²` at a ciphertext of level 1: the first has a value at level
0, and the second exhausts the chain. -/
theorem evaluateObserved_spec_small : ∃ (s : Scheme) (value : PolynomialValue), s.Built ∧
    s.evaluateObserved (.small false) [1, 1, 1] = (.error (.chainExhausted 1), []) ∧
    (s.evaluateObserved (.small false) [1, 1]).1 = .ok value ∧ value.ciphertext.level = 0 ∧
      value.trace.map Step.move =
        [⟨.multiplyPlain, [1], 1⟩, ⟨.rescale, [1], 0⟩, ⟨.addPlain, [0], 0⟩] := by
  obtain ⟨s, hbuilt, hcontext, hscale⟩ := exists_built_small
  obtain ⟨hexhausted, -⟩ := evaluateObserved_spec hbuilt (.small false) [1, 1, 1] rfl (by simp)
  obtain ⟨-, hsteps⟩ := evaluateObserved_spec hbuilt (.small false) [1, 1] rfl (by simp)
  obtain ⟨ct, hcore⟩ : ∃ ct, (do
      let pt ← Context.small.encodeScalar 1 1 1
      let product ← Context.small.multiplyPlain (.small false) pt
      let acc ← Context.small.rescale product
      let pt ← Context.small.encodeScalar 1 acc.scale acc.level
      Context.small.addPlain acc pt) = .ok ct :=
    exists_ok_of_isOk (by decide +kernel)
  simp only [bind_eq_ok] at hcore
  obtain ⟨pt, hpt, product, hproduct, acc, hacc, pt', hpt', hct⟩ := hcore
  have hrequests : (Request.multiplyPlain (.small false) 1 s.scale).perform s = .ok product ∧
      (Request.rescale product).perform s = .ok acc ∧
        (Request.addPlain acc 1).perform s = .ok ct := by
    simp only [Request.perform, Request.call, hcontext, hscale, bind_eq_ok, pure_eq_ok]
    exact ⟨⟨_, ⟨pt, hpt, rfl⟩, hproduct⟩, ⟨_, rfl, hacc⟩, ⟨_, ⟨pt', hpt', rfl⟩, hct⟩⟩
  obtain ⟨hfirst, hsecond, hthird⟩ := hrequests
  have hevaluate : s.evaluate (.small false) [1, 1] =
      (Request.multiplyPlain (.small false) 1 s.scale).observed s >>= fun product =>
        (Request.rescale product).observed s >>= fun acc => (Request.addPlain acc 1).observed s := rfl
  obtain ⟨value, hok⟩ : ∃ value, (s.evaluateObserved (.small false) [1, 1]).1 = .ok value := by
    obtain ⟨steps, hrun⟩ : ∃ steps, (s.evaluate (.small false) [1, 1]).trace = (.ok ct, steps) := by
      have hproduct' := Request.run_observed_of_ok (r := .multiplyPlain _ 1 _) not_false hfirst []
      have hacc' := Request.run_observed_of_ok (r := .rescale product) not_false hsecond
      have hct' := Request.run_observed_of_ok (r := .addPlain acc 1) not_false hthird
      rw [hevaluate]
      exact ⟨_, (run_bind_eq hproduct').trans ((run_bind_eq (hacc' _)).trans (hct' _))⟩
    rw [evaluateObserved_eq, hrun]
    exact ⟨_, rfl⟩
  obtain ⟨-, hvalue, -⟩ := hsteps le_rfl _ _ rfl
  obtain ⟨-, hlevel, htrace, hmoves⟩ := hvalue value hok
  refine ⟨s, value, hbuilt, hexhausted.mpr (by decide), hok, hlevel, ?_⟩
  rw [htrace, hmoves]
  rfl

end Scheme

end EncryptedReals
