import EncryptedReals.Proofs.Operations
import EncryptedReals.Proofs.Plaintexts

/-!
# Circuits are evaluated exactly

A circuit is built from ciphertexts by the operations that need no key.  Decrypting its
result gives what the circuit computes on the decrypted inputs, where the operations are
those of the integers modulo each prime.  There is no error term, and sizes and depth are
free.

## Main Definitions

* `Circuit`, `Circuit.run` — circuits and their evaluation on ciphertexts
* `Circuit.eval` — their evaluation on polynomials, by integer arithmetic

## Main results

* `Circuit.decrypt_run` — decryption commutes with circuits

## Design Notes

`Circuit.eval` is stated with operations of the integers and a single reduction.
It shares no arithmetic with the operations on ciphertexts.
-/

namespace EncryptedReals

/-! ### Integer arithmetic on residues -/

namespace ResiduePoly

/-- **An integer operation on the residues of two polynomials**, limb by limb, reduced
modulo the prime of the limb. -/
def zipResidues (moduli : List Modulus) (op : ℤ → ℤ → ℤ) (p r : ResiduePoly) : ResiduePoly :=
  ⟨(moduli.zip (p.limbs.zip r.limbs)).map fun (q, a, b) =>
    Array.zipWith (fun (x y : ℕ) => q.reduce (op x y)) a b, p.degree⟩

/-- An integer operation on the residues of one polynomial. -/
def mapResidues (moduli : List Modulus) (op : ℤ → ℤ) (p : ResiduePoly) : ResiduePoly :=
  p.zipResidues moduli (fun x _ => op x) p

variable {n l i k : ℕ} {q : Modulus} {moduli : List Modulus} {p r c : ResiduePoly}

theorem getElem?_of_take (hq : (moduli.take l)[i]? = some q) : moduli[i]? = some q := by
  rw [List.getElem?_take] at hq
  split at hq
  · exact hq
  · cases hq

theorem limb_zipResidues {op : ℤ → ℤ → ℤ} (hp : p.Canonical n (moduli.take l))
    (hr : r.Canonical n (moduli.take l)) (hq : (moduli.take l)[i]? = some q) :
    (p.zipResidues moduli op r).limb i =
      Array.zipWith (fun (x y : ℕ) => q.reduce (op x y)) (p.limb i) (r.limb i) := by
  have hzip : (moduli.zip (p.limbs.zip r.limbs))[i]? = some (q, p.limb i, r.limb i) :=
    List.getElem?_zip_eq_some.mpr ⟨getElem?_of_take hq,
      List.getElem?_zip_eq_some.mpr ⟨hp.getElem? hq, hr.getElem? hq⟩⟩
  refine limb_eq_of_getElem? ?_
  rw [zipResidues, List.getElem?_map, hzip]
  rfl

/-- **A canonical polynomial with the entries of an integer operation** is its result. -/
theorem eq_zipResidues (hw : FitWords moduli) {op : ℤ → ℤ → ℤ}
    (hc : c.Canonical n (moduli.take l)) (hp : p.Canonical n (moduli.take l))
    (hr : r.Canonical n (moduli.take l))
    (h : ∀ (i : ℕ) (q : Modulus), (moduli.take l)[i]? = some q → ∀ k < n,
      c.value q i k = (op ((p.limb i).getD k 0) ((r.limb i).getD k 0) : ℤ)) :
    c = p.zipResidues moduli op r := by
  have hentry : ∀ (i : ℕ) (q : Modulus), (moduli.take l)[i]? = some q → ∀ k < n,
      ((p.zipResidues moduli op r).limb i).getD k 0 =
        q.reduce (op ((p.limb i).getD k 0) ((r.limb i).getD k 0)) := by
    intro i q hq k hk
    rw [limb_zipResidues hp hr hq, getD_zipWith _ ((hp.isVector i q hq).size_eq ▸ hk)
      ((hr.isVector i q hq).size_eq ▸ hk) 0 0]
  have hpos : ∀ (i : ℕ) (q : Modulus), (moduli.take l)[i]? = some q → 0 < q.value :=
    fun i q hq => (hw q (List.mem_of_mem_take (List.mem_of_getElem? hq))).1
  have hcanonical : (p.zipResidues moduli op r).Canonical n (moduli.take l) := by
    refine ⟨hp.degree_eq, ?_, fun i q hq => ⟨?_, fun k hk => ?_⟩⟩
    · simp [zipResidues, hp.length_eq, hr.length_eq]
    · rw [limb_zipResidues hp hr hq, Array.size_zipWith, (hp.isVector i q hq).size_eq,
        (hr.isVector i q hq).size_eq, Nat.min_self]
    · rw [hentry i q hq k hk]
      exact q.reduce_lt (hpos i q hq) _
  refine hc.ext hcanonical fun i q hq k hk => ?_
  rw [h i q hq k hk, value, Modulus.view, hentry i q hq k hk, q.cast_reduce (hpos i q hq)]

end ResiduePoly

/-! ### Circuits -/

/-- **Circuits over ciphertexts** `ι`, of the operations that need no key. -/
inductive Circuit (ι : Type) where
  | input (i : ι)
  | add (a b : Circuit ι)
  /-- The sum, written into the left operand. -/
  | addInPlace (a b : Circuit ι)
  | sub (a b : Circuit ι)
  | negate (a : Circuit ι)
  | multiply (a b : Circuit ι)
  | multiplyPlain (a : Circuit ι) (pt : Plaintext)
  | addPlain (a : Circuit ι) (pt : Plaintext)
  | switchTo (a : Circuit ι) (level : ℕ)

namespace Circuit

variable {ι : Type}

/-- **Evaluation on ciphertexts**, by the operations of a context. -/
def run (ctx : Context) (inputs : ι → Ciphertext) : Circuit ι → Except Failure Ciphertext
  | input i => return inputs i
  | add a b => do ctx.add (← a.run ctx inputs) (← b.run ctx inputs)
  | addInPlace a b => do
    let x ← a.run ctx inputs
    let y ← b.run ctx inputs
    let (outcome, sum) := (ctx.addInPlace y).run.run x
    outcome
    return sum
  | sub a b => do ctx.sub (← a.run ctx inputs) (← b.run ctx inputs)
  | negate a => do ctx.negate (← a.run ctx inputs)
  | multiply a b => do ctx.multiply (← a.run ctx inputs) (← b.run ctx inputs)
  | multiplyPlain a pt => do ctx.multiplyPlain (← a.run ctx inputs) pt
  | addPlain a pt => do ctx.addPlain (← a.run ctx inputs) pt
  | switchTo a level => do ctx.switchTo (← a.run ctx inputs) level

/-- The plaintexts of a circuit. -/
def plaintexts : Circuit ι → List Plaintext
  | input _ => []
  | add a b | addInPlace a b | sub a b | multiply a b => a.plaintexts ++ b.plaintexts
  | negate a | switchTo a _ => a.plaintexts
  | multiplyPlain a pt | addPlain a pt => pt :: a.plaintexts

/-- **Evaluation on polynomials**: integer arithmetic modulo each prime, and a prefix of the
limbs for a lower level. -/
def eval (moduli : List Modulus) (inputs : ι → ResiduePoly) : Circuit ι → ResiduePoly
  | input i => inputs i
  | add a b | addInPlace a b =>
    (a.eval moduli inputs).zipResidues moduli (fun x y => x + y) (b.eval moduli inputs)
  | sub a b => (a.eval moduli inputs).zipResidues moduli (fun x y => x - y) (b.eval moduli inputs)
  | negate a => (a.eval moduli inputs).mapResidues moduli fun x => -x
  | multiply a b =>
    (a.eval moduli inputs).zipResidues moduli (fun x y => x * y) (b.eval moduli inputs)
  | multiplyPlain a pt => (a.eval moduli inputs).zipResidues moduli (fun x y => x * y) pt.poly
  | addPlain a pt => (a.eval moduli inputs).zipResidues moduli (fun x y => x + y) pt.poly
  | switchTo a level => (a.eval moduli inputs).truncate (level + 1)

end Circuit

/-! ### Messages of results -/

namespace Context

variable {ctx : Context} {sk : SecretKey} {a b ct : Ciphertext} {r : ResiduePoly}
  {op : ℤ → ℤ → ℤ} {F : (q : Modulus) → ZMod q.value → ZMod q.value → ZMod q.value}

/-- A result whose phase is an operation `F` on the phase of an operand and the entries of a
polynomial has as its message the integer operation that reduces to `F`. -/
theorem message_eq_zipResidues (h : ctx.Made) (hsk : sk.BelongsTo ctx) (ha : ctx.Owns a)
    (hct : ctx.Owns ct) (hlevel : ct.level = a.level)
    (hr : r.Canonical ctx.degree (ctx.moduliAt a.level))
    (hop : ∀ (q : Modulus) (x y : ℤ), ((op x y : ℤ) : ZMod q.value) = F q x y)
    (hphase : ∀ (i : ℕ) (q : Modulus), (ctx.moduliAt a.level)[i]? = some q → ∀ k < ctx.degree,
      phase q i k sk.poly ct.parts = F q (phase q i k sk.poly a.parts) (r.value q i k)) :
    ctx.message sk ct = (ctx.message sk a).zipResidues ctx.parameters.moduli op r := by
  obtain ⟨hcanonical, hvalue⟩ := message_spec h hsk hct
  obtain ⟨hcanonicala, hvaluea⟩ := message_spec h hsk ha
  rw [hlevel] at hcanonical hvalue
  refine ResiduePoly.eq_zipResidues h.fitWords hcanonical hcanonicala hr fun i q hq k hk => ?_
  rw [hvalue i q hq k hk, hphase i q hq k hk, ← hvaluea i q hq k hk, hop, Int.cast_natCast,
    Int.cast_natCast]
  rfl

/-- The same for the phases of two ciphertexts. -/
theorem message_eq_zipResidues_message (h : ctx.Made) (hsk : sk.BelongsTo ctx) (ha : ctx.Owns a)
    (hb : ctx.Owns b) (hct : ctx.Owns ct) (hab : a.level = b.level) (hlevel : ct.level = a.level)
    (hop : ∀ (q : Modulus) (x y : ℤ), ((op x y : ℤ) : ZMod q.value) = F q x y)
    (hphase : ∀ (i : ℕ) (q : Modulus), (ctx.moduliAt a.level)[i]? = some q → ∀ k < ctx.degree,
      ∀ s, phase q i k s ct.parts = F q (phase q i k s a.parts) (phase q i k s b.parts)) :
    ctx.message sk ct =
      (ctx.message sk a).zipResidues ctx.parameters.moduli op (ctx.message sk b) := by
  obtain ⟨hcanonicalb, hvalueb⟩ := message_spec h hsk hb
  rw [← hab] at hcanonicalb hvalueb
  refine message_eq_zipResidues h hsk ha hct hlevel hcanonicalb hop fun i q hq k hk => ?_
  rw [hphase i q hq k hk, hvalueb i q hq k hk]

end Context

/-! ### Exactness -/

namespace Circuit

variable {ι : Type} {ctx : Context} {sk : SecretKey} {inputs : ι → Ciphertext}

/-- **A circuit is exact** when its results are well-formed and their message is its value on
the messages of the inputs. -/
def Exact (ctx : Context) (sk : SecretKey) (inputs : ι → Ciphertext) (c : Circuit ι) : Prop :=
  ∀ ct : Ciphertext, (∀ pt ∈ c.plaintexts, ctx.Encodes pt) → c.run ctx inputs = .ok ct →
    ctx.Owns ct ∧ ctx.message sk ct =
      c.eval ctx.parameters.moduli fun i => ctx.message sk (inputs i)

/-- Writing a sum into the left operand leaves the sum there. -/
theorem run_addInPlace (a b : Circuit ι) :
    (addInPlace a b).run ctx inputs = (add a b).run ctx inputs := by
  rw [run, run]
  refine bind_congr fun x => bind_congr fun y => ?_
  rw [Context.run_addInPlace_eq]
  cases ctx.add x y with
  | error e => rfl
  | ok sum => rfl

namespace Exact

variable {a b c : Circuit ι} {pt : Plaintext} {op : ℤ → ℤ → ℤ}
  {F : (q : Modulus) → ZMod q.value → ZMod q.value → ZMod q.value}

section

variable (h : ctx.Made) (hsk : sk.BelongsTo ctx) (ha : Exact ctx sk inputs a)

include h hsk ha

/-- **Operations on two ciphertexts**: when the operation acts on phases as the integer
operation does, it keeps circuits exact. -/
theorem binary (hb : Exact ctx sk inputs b)
    {operate : Ciphertext → Ciphertext → Except Failure Ciphertext}
    (hplaintexts : c.plaintexts = a.plaintexts ++ b.plaintexts)
    (hrun : c.run ctx inputs = do operate (← a.run ctx inputs) (← b.run ctx inputs))
    (heval : ∀ polys, c.eval ctx.parameters.moduli polys =
      (a.eval ctx.parameters.moduli polys).zipResidues ctx.parameters.moduli op
        (b.eval ctx.parameters.moduli polys))
    (hop : ∀ (q : Modulus) (x y : ℤ), ((op x y : ℤ) : ZMod q.value) = F q x y)
    (hspec : ∀ {x y ct : Ciphertext}, ctx.Owns x → ctx.Owns y → operate x y = .ok ct →
      ctx.Owns ct ∧ x.level = y.level ∧ ct.level = x.level ∧
        ∀ (i : ℕ) (q : Modulus), (ctx.moduliAt x.level)[i]? = some q → ∀ k < ctx.degree, ∀ s,
          Context.phase q i k s ct.parts =
            F q (Context.phase q i k s x.parts) (Context.phase q i k s y.parts)) :
    Exact ctx sk inputs c := by
  intro ct hpts hresult
  rw [hplaintexts] at hpts
  simp only [hrun, bind_eq_ok] at hresult
  obtain ⟨x, hx, y, hy, hoperate⟩ := hresult
  obtain ⟨hownx, hmessagex⟩ := ha x (fun pt hpt => hpts pt (List.mem_append_left _ hpt)) hx
  obtain ⟨howny, hmessagey⟩ := hb y (fun pt hpt => hpts pt (List.mem_append_right _ hpt)) hy
  obtain ⟨hown, hxy, hlevel, hphase⟩ := hspec hownx howny hoperate
  refine ⟨hown, ?_⟩
  rw [heval, ← hmessagex, ← hmessagey]
  exact Context.message_eq_zipResidues_message h hsk hownx howny hown hxy hlevel hop hphase

/-- **Operations on a ciphertext and an encoded plaintext.** -/
theorem plain {operate : Ciphertext → Plaintext → Except Failure Ciphertext}
    (hplaintexts : c.plaintexts = pt :: a.plaintexts)
    (hrun : c.run ctx inputs = do operate (← a.run ctx inputs) pt)
    (heval : ∀ polys, c.eval ctx.parameters.moduli polys =
      (a.eval ctx.parameters.moduli polys).zipResidues ctx.parameters.moduli op pt.poly)
    (hop : ∀ (q : Modulus) (x y : ℤ), ((op x y : ℤ) : ZMod q.value) = F q x y)
    (hspec : ∀ {x ct : Ciphertext}, ctx.Owns x →
      pt.poly.Canonical ctx.degree (ctx.moduliAt pt.level) → operate x pt = .ok ct →
      ctx.Owns ct ∧ pt.level = x.level ∧ ct.level = x.level ∧
        ∀ (i : ℕ) (q : Modulus), (ctx.moduliAt x.level)[i]? = some q → ∀ k < ctx.degree, ∀ s,
          Context.phase q i k s ct.parts =
            F q (Context.phase q i k s x.parts) (pt.poly.value q i k)) :
    Exact ctx sk inputs c := by
  intro ct hpts hresult
  rw [hplaintexts] at hpts
  obtain ⟨hpt, hpts⟩ := List.forall_mem_cons.mp hpts
  simp only [hrun, bind_eq_ok] at hresult
  obtain ⟨x, hx, hoperate⟩ := hresult
  obtain ⟨hownx, hmessagex⟩ := ha x hpts hx
  have hcanonical := (hpt.spec h).2
  obtain ⟨hown, hpx, hlevel, hphase⟩ := hspec hownx hcanonical hoperate
  refine ⟨hown, ?_⟩
  rw [heval, ← hmessagex]
  exact Context.message_eq_zipResidues h hsk hownx hown hlevel (hpx ▸ hcanonical) hop
    fun i q hq k hk => hphase i q hq k hk sk.poly

theorem negate : Exact ctx sk inputs (.negate a) := by
  intro ct hpts hresult
  simp only [run, bind_eq_ok] at hresult
  obtain ⟨x, hx, hnegate⟩ := hresult
  obtain ⟨hownx, hmessagex⟩ := ha x hpts hx
  obtain ⟨hown, hlevel, hphase⟩ := Context.negate_spec h hownx hnegate
  refine ⟨hown, ?_⟩
  rw [eval, ← hmessagex]
  exact Context.message_eq_zipResidues_message (F := fun _ x _ => -x) h hsk hownx hownx hown rfl
    hlevel (fun q x _ => Int.cast_neg x) hphase

theorem switchTo (level : ℕ) : Exact ctx sk inputs (.switchTo a level) := by
  intro ct hpts hresult
  simp only [run, bind_eq_ok] at hresult
  obtain ⟨x, hx, hswitch⟩ := hresult
  obtain ⟨hownx, hmessagex⟩ := ha x hpts hx
  obtain ⟨hown, hle, hlevel, hphase⟩ := Context.switchTo_spec hownx hswitch
  refine ⟨hown, ?_⟩
  rw [eval, ← hmessagex]
  obtain ⟨hcanonical, hvalue⟩ := Context.message_spec h hsk hown
  obtain ⟨hcanonicalx, hvaluex⟩ := Context.message_spec h hsk hownx
  have htruncate := hcanonicalx.truncate (level + 1)
  rw [ctx.take_moduliAt hle] at htruncate
  rw [hlevel] at hcanonical hvalue
  refine hcanonical.ext htruncate fun i q hq k hk => ?_
  obtain ⟨hi, hmodulus⟩ := Parameters.getElem?_moduliAt.mp hq
  rw [hvalue i q hq k hk, hphase i q hq k hk, ResiduePoly.value_truncate _ _ (by omega),
    hvaluex i q (Parameters.getElem?_moduliAt.mpr ⟨by omega, hmodulus⟩) k hk]

end

end Exact

/-- **Every circuit is exact**, by induction on the circuit. -/
theorem exact_of_owns (h : ctx.Made) (hsk : sk.BelongsTo ctx) (hinputs : ∀ i, ctx.Owns (inputs i)) :
    ∀ c : Circuit ι, Exact ctx sk inputs c := by
  intro c
  induction c with
  | input i =>
      intro ct _ hrun
      rw [run, pure_eq_ok] at hrun
      subst hrun
      exact ⟨hinputs i, rfl⟩
  | add a b iha ihb =>
      exact iha.binary h hsk ihb rfl rfl (fun _ => rfl) (fun q x y => Int.cast_add x y)
        (F := fun _ x y => x + y) (Context.add_spec h)
  | addInPlace a b iha ihb =>
      exact iha.binary h hsk ihb rfl (run_addInPlace a b) (fun _ => rfl)
        (fun q x y => Int.cast_add x y) (F := fun _ x y => x + y) (Context.add_spec h)
  | sub a b iha ihb =>
      exact iha.binary h hsk ihb rfl rfl (fun _ => rfl) (fun q x y => Int.cast_sub x y)
        (F := fun _ x y => x - y) (Context.sub_spec h)
  | negate a iha => exact iha.negate h hsk
  | multiply a b iha ihb =>
      exact iha.binary h hsk ihb rfl rfl (fun _ => rfl) (fun q x y => Int.cast_mul x y)
        (F := fun _ x y => x * y) (Context.multiply_spec h)
  | multiplyPlain a pt iha =>
      exact iha.plain h hsk rfl rfl (fun _ => rfl) (fun q x y => Int.cast_mul x y)
        (F := fun _ x y => x * y) (Context.multiplyPlain_spec h)
  | addPlain a pt iha =>
      exact iha.plain h hsk rfl rfl (fun _ => rfl) (fun q x y => Int.cast_add x y)
        (F := fun _ x y => x + y) (Context.addPlain_spec h)
  | switchTo a level iha => exact iha.switchTo h hsk level

/-- **Decryption commutes with circuits.**  When every operation of a circuit succeeds, the
inputs and the result decrypt, and the polynomial of the result is the value of the
circuit on the polynomials of the inputs, without an error. -/
theorem decrypt_run (h : ctx.Made) (hsk : sk.BelongsTo ctx) (hinputs : ∀ i, ctx.Owns (inputs i))
    (c : Circuit ι) (hpts : ∀ pt ∈ c.plaintexts, ctx.Encodes pt) (ct : Ciphertext)
    (hrun : c.run ctx inputs = .ok ct) :
    ∃ (ms : ι → Plaintext) (m : Plaintext), (∀ i, ctx.decrypt (inputs i) sk = .ok (ms i)) ∧
      ctx.decrypt ct sk = .ok m ∧
        m.poly = c.eval ctx.parameters.moduli fun i => (ms i).poly := by
  obtain ⟨hown, hmessage⟩ := exact_of_owns h hsk hinputs c ct hpts hrun
  exact ⟨_, _, fun i => Context.decrypt_eq h hsk (hinputs i), Context.decrypt_eq h hsk hown,
    hmessage⟩

/-- The product of the sum of both ciphertexts and the first one, a level lower, plus 1. -/
theorem decrypt_run_small :
    ∃ (pt : Plaintext) (ct : Ciphertext) (ms : Bool → Plaintext) (m : Plaintext),
      Context.small.encodeScalar 1 1 0 = .ok pt ∧
      (addPlain (switchTo (multiply (addInPlace (input false) (input true)) (input false)) 0)
        pt).run Context.small Ciphertext.small = .ok ct ∧
      (∀ i, Context.small.decrypt (.small i) (.ofDraws .small #[1, 0, -1, 1]) = .ok (ms i)) ∧
      Context.small.decrypt ct (.ofDraws .small #[1, 0, -1, 1]) = .ok m ∧
      m.poly = (addPlain (switchTo (multiply (addInPlace (input false) (input true))
        (input false)) 0) pt).eval Context.small.parameters.moduli fun i => (ms i).poly := by
  have hencode : Context.small.embedding.encodeScalar 1 1 (Context.small.moduliAt 0) =
      .ok ⟨[#[1, 0, 0, 0]], 4⟩ :=
    eq_ok_of_toOption (by decide +kernel)
  have hpt : Context.small.encodeScalar 1 1 0 =
      .ok (Context.small.plaintext ⟨[#[1, 0, 0, 0]], 4⟩ 1 0) := by
    simp only [Context.encodeScalar, bind_eq_ok, pure_eq_ok]
    exact ⟨(), rfl, _, hencode, rfl⟩
  obtain ⟨ct, hrun⟩ : ∃ ct, (addPlain (switchTo (multiply (addInPlace (input false) (input true))
      (input false)) 0) (Context.small.plaintext ⟨[#[1, 0, 0, 0]], 4⟩ 1 0)).run Context.small
      Ciphertext.small = .ok ct :=
    ⟨_, rfl⟩
  have hsk : (SecretKey.ofDraws .small #[1, 0, -1, 1]).BelongsTo .small :=
    SecretKey.belongsTo_ofDraws Context.made_small rfl
  obtain ⟨ms, m, hinputs, hresult, heval⟩ :=
    decrypt_run Context.made_small hsk Context.owns_small _ (by
      intro pt hmem
      rw [List.mem_singleton.mp hmem]
      exact .inl ⟨1, 1, 0, hpt⟩) ct hrun
  exact ⟨_, ct, ms, m, hpt, hrun, hinputs, hresult, heval⟩

end Circuit

end EncryptedReals
