/-
# Metered computations

A computation that may fail, together with the memory it asked for and the rounds its loops
made, whether it failed or not.  Dropping the meter leaves the computation itself.

A metered decoder is *frugal* at a rate when the bytes it consumed pay for it at that rate, and
the bytes it was given pay for it if it failed.  Frugality is closed under sequencing and under
repetition to the end of the input, so that a decoder of nested lists is frugal as soon as its
leaves are: no length it reads makes it ask for more than its input is worth.
-/
import Zilkworm.Lib.Codec

namespace Zilkworm.Lib

variable {ε α β : Type}

/-- A result with the bytes of memory requested and the loop rounds made on the way to it. -/
structure Metered (ε α : Type) where
  memory : ℕ
  rounds : ℕ
  result : Except ε α

namespace Metered

/-- What a computation used. -/
def cost (m : Metered ε α) : ℕ := m.memory + m.rounds

/-- Sequencing; what follows a failure is not run and costs nothing. -/
protected def bind (m : Metered ε α) (f : α → Metered ε β) : Metered ε β :=
  match m.result with
  | .error e => ⟨m.memory, m.rounds, .error e⟩
  | .ok a => ⟨m.memory + (f a).memory, m.rounds + (f a).rounds, (f a).result⟩

instance : Monad (Metered ε) where
  pure a := ⟨0, 0, .ok a⟩
  bind := Metered.bind

/-- A computation that asks for no memory and makes no rounds worth counting. -/
def lift (x : Except ε α) : Metered ε α := ⟨0, 0, x⟩

/-- A request for `n` bytes. -/
def request (n : ℕ) : Metered ε Unit := ⟨n, 0, .ok ()⟩

/-- A part that asks for memory and makes rounds, counted together. -/
def spend (memory rounds : ℕ) : Metered ε Unit := ⟨memory, rounds, .ok ()⟩

/-- One round of a loop. -/
def round : Metered ε Unit := ⟨0, 1, .ok ()⟩

/-- The meter of a computation whose error is renamed. -/
def mapError {ε' : Type} (f : ε → ε') (m : Metered ε α) : Metered ε' α :=
  ⟨m.memory, m.rounds, m.result.mapError f⟩

@[simp] theorem bind_result (m : Metered ε α) (f : α → Metered ε β) :
    (m >>= f).result = m.result >>= fun a => (f a).result := by
  show (Metered.bind m f).result = _
  unfold Metered.bind
  cases m.result <;> rfl

@[simp] theorem pure_result (a : α) : (pure a : Metered ε α).result = .ok a := rfl
@[simp] theorem lift_result (x : Except ε α) : (lift x).result = x := rfl
@[simp] theorem request_result (n : ℕ) : (request n : Metered ε Unit).result = .ok () := rfl
@[simp] theorem round_result : (round : Metered ε Unit).result = .ok () := rfl
@[simp] theorem mapError_result {ε' : Type} (f : ε → ε') (m : Metered ε α) :
    (m.mapError f).result = m.result.mapError f := rfl

@[simp] theorem pure_cost (a : α) : (pure a : Metered ε α).cost = 0 := rfl
@[simp] theorem lift_cost (x : Except ε α) : (lift x).cost = 0 := rfl
@[simp] theorem request_cost (n : ℕ) : (request n : Metered ε Unit).cost = n := rfl
@[simp] theorem round_cost : (round : Metered ε Unit).cost = 1 := rfl
@[simp] theorem mapError_cost {ε' : Type} (f : ε → ε') (m : Metered ε α) :
    (m.mapError f).cost = m.cost := rfl

theorem bind_cost_ok {m : Metered ε α} {a : α} (h : m.result = .ok a) (f : α → Metered ε β) :
    (m >>= f).cost = m.cost + (f a).cost := by
  show (Metered.bind m f).cost = _
  simp only [Metered.bind, h, cost]
  omega

theorem bind_cost_error {m : Metered ε α} {e : ε} (h : m.result = .error e) (f : α → Metered ε β) :
    (m >>= f).cost = m.cost := by
  show (Metered.bind m f).cost = _
  simp only [Metered.bind, h, cost]

/-- **What a sequence costs**: its first part, and its second where there is one. -/
theorem bind_cost_le {m : Metered ε α} {f : α → Metered ε β} {n : ℕ} (hm : m.cost ≤ n)
    (hf : ∀ a, m.result = .ok a → m.cost + (f a).cost ≤ n) : (m >>= f).cost ≤ n := by
  rcases h : m.result with e | a
  · rw [bind_cost_error h]
    exact hm
  · rw [bind_cost_ok h]
    exact hf a h

theorem spend_bind_cost (memory rounds : ℕ) (f : Unit → Metered ε β) :
    (spend memory rounds >>= f).cost = memory + rounds + (f ()).cost :=
  bind_cost_ok rfl f

/-- Two bounds make one. -/
theorem bind_cost_le_add {m : Metered ε α} {f : α → Metered ε β} {a b : ℕ} (hm : m.cost ≤ a)
    (hf : ∀ v, m.result = .ok v → (f v).cost ≤ b) : (m >>= f).cost ≤ a + b :=
  bind_cost_le (by omega) fun v hv => by have := hf v hv; omega

/-- A step that costs nothing. -/
theorem bind_cost_le_of_lift {x : Except ε α} {f : α → Metered ε β} {n : ℕ}
    (hf : ∀ v, x = .ok v → (f v).cost ≤ n) : (lift x >>= f).cost ≤ n := by
  have h : (lift x >>= f).cost ≤ 0 + n := bind_cost_le_add (by simp) hf
  omega

end Metered

/-! ## Frugal decoders -/

/-- A decoder with a meter. -/
abbrev MeteredDecoder (ε α : Type) := Bytes → Metered ε (α × Bytes)

/-- **Paid at rate `k` out of `len` bytes**: the cost is at most `k` for each of them, and a success
leaves unspent what it leaves unread. -/
structure Metered.Within (k len : ℕ) (m : Metered ε (α × Bytes)) : Prop where
  total : m.cost ≤ k * len
  shrinks : ∀ v rest, m.result = .ok (v, rest) → rest.length ≤ len
  paid : ∀ v rest, m.result = .ok (v, rest) → m.cost + k * rest.length ≤ k * len

/-- **A frugal decoder at rate `k`** is paid out of the bytes it is given. -/
def Frugal (k : ℕ) (dec : MeteredDecoder ε α) : Prop := ∀ src, (dec src).Within k src.length

/-- A decoder that leaves no more than it was given. -/
def Shrinking (dec : Decoder ε α) : Prop :=
  ∀ ⦃src v rest⦄, dec src = .ok (v, rest) → rest.length ≤ src.length

theorem Canonical.shrinking {dec : Decoder ε α} {enc : α → Bytes} (h : Canonical dec enc) :
    Shrinking dec := by
  intro src v rest hd
  rw [h hd, List.length_append]
  exact Nat.le_add_left _ _

/-- The meter of a decoder that copies some of the bytes it reads and allocates nothing else: it is
charged for all of them. -/
def copying (dec : Decoder ε α) : MeteredDecoder ε α := fun src =>
  ⟨match dec src with
    | .ok (_, rest) => src.length - rest.length
    | .error _ => src.length, 0, dec src⟩

@[simp] theorem copying_result (dec : Decoder ε α) (src : Bytes) :
    (copying dec src).result = dec src := rfl

namespace Metered
namespace Within

variable {k len : ℕ}

theorem mono {k' : ℕ} {m : Metered ε (α × Bytes)} (h : m.Within k len) (hk : k ≤ k') :
    m.Within k' len := by
  refine ⟨h.total.trans (Nat.mul_le_mul_right _ hk), h.shrinks, fun v rest hd => ?_⟩
  have hp := h.paid v rest hd
  obtain ⟨d, rfl⟩ := Nat.exists_eq_add_of_le hk
  have hrest := Nat.mul_le_mul_left d (h.shrinks v rest hd)
  rw [Nat.add_mul, Nat.add_mul]
  omega

/-- More bytes pay for it too. -/
theorem widen {len' : ℕ} {m : Metered ε (α × Bytes)} (h : m.Within k len) (hl : len ≤ len') :
    m.Within k len' := by
  have hk := Nat.mul_le_mul_left k hl
  exact ⟨h.total.trans hk, fun v rest hd => (h.shrinks v rest hd).trans hl,
    fun v rest hd => (h.paid v rest hd).trans hk⟩

theorem lift {dec : Decoder ε α} (h : Shrinking dec) (src : Bytes) :
    (Metered.lift (dec src)).Within k src.length := by
  refine ⟨by simp, fun v rest hd => h hd, fun v rest hd => ?_⟩
  simpa using Nat.mul_le_mul_left k (h hd)

theorem pure (v : α) {rest : Bytes} (hl : rest.length ≤ len) :
    (Pure.pure (v, rest) : Metered ε (α × Bytes)).Within k len := by
  refine ⟨by simp, fun w r hd => ?_, fun w r hd => ?_⟩
  all_goals obtain ⟨-, rfl⟩ := Prod.mk.inj (Except.ok.inj hd)
  · exact hl
  · simpa using Nat.mul_le_mul_left k hl

theorem error (e : ε) : (Metered.lift (.error e) : Metered ε (α × Bytes)).Within k len :=
  ⟨by simp, fun w rest hd => by simp at hd, fun w rest hd => by simp at hd⟩

/-- Sequencing: the second computation is paid out of what the first left unread. -/
theorem bind {m : Metered ε (α × Bytes)} {f : α × Bytes → Metered ε (β × Bytes)} (h : m.Within k len)
    (hf : ∀ v rest, m.result = .ok (v, rest) → (f (v, rest)).Within k rest.length) :
    (m >>= f).Within k len := by
  have split : ∀ {w : β} {rest : Bytes}, (m >>= f).result = .ok (w, rest) →
      ∃ v mid, m.result = .ok (v, mid) ∧ (f (v, mid)).result = .ok (w, rest) := by
    intro w rest hd
    rw [Metered.bind_result] at hd
    obtain ⟨⟨v, mid⟩, hv, hw⟩ := bind_eq_ok.mp hd
    exact ⟨v, mid, hv, hw⟩
  refine ⟨Metered.bind_cost_le h.total ?_, fun w rest hd => ?_, fun w rest hd => ?_⟩
  · rintro ⟨v, mid⟩ hv
    have hp := h.paid v mid hv
    have ht := (hf v mid hv).total
    omega
  · obtain ⟨v, mid, hv, hw⟩ := split hd
    exact ((hf v mid hv).shrinks w rest hw).trans (h.shrinks v mid hv)
  · obtain ⟨v, mid, hv, hw⟩ := split hd
    have hp := h.paid v mid hv
    have hq := (hf v mid hv).paid w rest hw
    rw [Metered.bind_cost_ok hv]
    omega

/-- A computation paid out of `a` bytes, then one paid out of `b` others. -/
theorem spend {γ : Type} {m : Metered ε γ} {f : γ → Metered ε (α × Bytes)} {a b : ℕ}
    (hm : m.cost ≤ k * a)
    (hf : ∀ v, m.result = .ok v → (f v).Within k b) : (m >>= f).Within k (a + b) := by
  have split : ∀ {w : α} {rest : Bytes}, (m >>= f).result = .ok (w, rest) →
      ∃ v, m.result = .ok v ∧ (f v).result = .ok (w, rest) := by
    intro w rest hd
    rw [Metered.bind_result] at hd
    exact bind_eq_ok.mp hd
  refine ⟨Metered.bind_cost_le (by rw [Nat.mul_add]; omega) fun v hv => ?_, fun w rest hd => ?_,
    fun w rest hd => ?_⟩
  · have ht := (hf v hv).total
    rw [Nat.mul_add]
    omega
  · obtain ⟨v, hv, hw⟩ := split hd
    exact ((hf v hv).shrinks w rest hw).trans (Nat.le_add_left _ _)
  · obtain ⟨v, hv, hw⟩ := split hd
    have hp := (hf v hv).paid w rest hw
    rw [Metered.bind_cost_ok hv, Nat.mul_add]
    omega

/-- A check on the way is free. -/
theorem check {γ : Type} (c : Except ε γ) {f : γ → Metered ε (α × Bytes)}
    (h : ∀ u, c = .ok u → (f u).Within k len) : (Metered.lift c >>= f).Within k len := by
  have hs := spend (m := Metered.lift c) (a := 0) (Nat.zero_le _) h
  rwa [Nat.zero_add] at hs

end Within

/-- The result of a sequence from those of its parts. -/
theorem bind_result_of {m : Metered ε α} {f : α → Metered ε β} {x : Except ε α} {g : α → Except ε β}
    (hm : m.result = x) (hf : ∀ a, (f a).result = g a) : (m >>= f).result = x >>= g := by
  rw [bind_result, hm, funext hf]

/-- The same with the result read through `q`. -/
theorem bind_result_map {γ : Type} {m : Metered ε α} {f : α → Metered ε β} {x : Except ε α}
    {g : α → Except ε γ} {q : β → γ} (hm : m.result = x)
    (hf : ∀ a, x = .ok a → (f a).result.map q = g a) :
    (m >>= f).result.map q = x >>= g := by
  rw [bind_result, hm]
  cases x with
  | error e => rfl
  | ok a => exact hf a rfl

theorem round_bind_result (f : Unit → Metered ε β) : (round >>= f).result = (f ()).result := rfl

theorem round_bind_cost (f : Unit → Metered ε β) : (round >>= f).cost = 1 + (f ()).cost :=
  bind_cost_ok rfl f

theorem request_bind_result (n : ℕ) (f : Unit → Metered ε β) :
    (request n >>= f).result = (f ()).result := rfl

theorem request_bind_cost (n : ℕ) (f : Unit → Metered ε β) :
    (request n >>= f).cost = n + (f ()).cost :=
  bind_cost_ok rfl f

end Metered

theorem Frugal.mono {k k' : ℕ} {dec : MeteredDecoder ε α} (h : Frugal k dec) (hk : k ≤ k') :
    Frugal k' dec := fun src => (h src).mono hk

/-- Copying what a decoder accepts costs a byte a byte. -/
theorem Frugal.copying {dec : Decoder ε α} (h : Shrinking dec) : Frugal 1 (copying dec) := by
  intro src
  refine ⟨?_, fun v rest hd => h hd, fun v rest hd => ?_⟩
  · simp only [Lib.copying, Metered.cost]
    split <;> omega
  · have hd' : dec src = .ok (v, rest) := hd
    have hs := h hd'
    simp only [Lib.copying, Metered.cost, hd']
    omega

/-! ## Repetition -/

/-- `decodeAll` with a meter: each round pushes one item of `size` bytes and decodes into it.  A
vector that doubles has asked for less than four items' room for each item pushed. -/
def meteredAll (dec : MeteredDecoder ε α) (size : ℕ) (stuck : ε) :
    (fuel : ℕ) → Bytes → Metered ε (List α)
  | _, [] => pure []
  | 0, _ :: _ => Metered.lift (.error stuck)
  | fuel + 1, src@(_ :: _) => do
    Metered.round
    Metered.request (4 * size)
    let p ← dec src
    let vs ← meteredAll dec size stuck fuel p.2
    return p.1 :: vs

/-- A decoder that always consumes a byte. -/
def Consuming (dec : Decoder ε α) : Prop :=
  ∀ ⦃src v rest⦄, dec src = .ok (v, rest) → rest.length < src.length

theorem Consuming.shrinking {dec : Decoder ε α} (h : Consuming dec) : Shrinking dec :=
  fun _ _ _ hd => (h hd).le

/-- Metering the loop over a list does not change what it decodes. -/
theorem meteredAll_result {dec : MeteredDecoder ε α} {plain : Decoder ε α}
    (h : ∀ src, (dec src).result = plain src) (size : ℕ) (stuck : ε) (fuel : ℕ) (src : Bytes) :
    (meteredAll dec size stuck fuel src).result = decodeAll plain stuck fuel src := by
  induction fuel generalizing src with
  | zero => cases src <;> rfl
  | succ fuel ih =>
    cases src with
    | nil => rfl
    | cons b bs =>
      simp only [meteredAll, decodeAll, Metered.bind_result, h, ih]
      rcases plain (b :: bs) with e | ⟨v, rest⟩ <;> rfl

/-- **A loop over items is paid for by its input**, however many rounds it is given: each round
consumes a byte, which pays for the item pushed. -/
theorem meteredAll_cost {k size : ℕ} {dec : MeteredDecoder ε α} {plain : Decoder ε α}
    (hplain : ∀ src, (dec src).result = plain src) (hc : Consuming plain) (h : Frugal k dec)
    (stuck : ε) (fuel : ℕ) (src : Bytes) :
    (meteredAll dec size stuck fuel src).cost ≤ (k + 4 * size + 1) * src.length := by
  induction fuel generalizing src with
  | zero => cases src <;> simp [meteredAll]
  | succ fuel ih =>
    cases src with
    | nil => simp [meteredAll]
    | cons b bs =>
      have hlen : 1 ≤ (b :: bs).length := by simp
      generalize hsrc : b :: bs = src at hlen
      have hunfold : (meteredAll dec size stuck (fuel + 1) src).cost = 1 + (4 * size +
          (dec src >>= fun p => meteredAll dec size stuck fuel p.2 >>=
          fun vs => pure (p.1 :: vs)).cost) := by
        subst hsrc
        rw [meteredAll, Metered.bind_cost_ok rfl, Metered.bind_cost_ok rfl]
        simp
      rw [hunfold, show k + 4 * size + 1 = k + (4 * size + 1) by omega, Nat.add_mul]
      suffices hstep : (dec src >>= fun p => meteredAll dec size stuck fuel p.2 >>= fun vs =>
          pure (p.1 :: vs)).cost + (4 * size + 1) ≤ k * src.length + (4 * size + 1) * src.length by omega
      have hone := Nat.mul_le_mul_left (4 * size + 1) hlen
      rcases hd : (dec src).result with e | ⟨v, rest⟩
      · rw [Metered.bind_cost_error hd]
        have ht := (h src).total
        omega
      · rw [Metered.bind_cost_ok hd]
        have hp := (h src).paid v rest hd
        have hrest : rest.length + 1 ≤ src.length := hc ((hplain src).symm.trans hd)
        have hround := Nat.mul_le_mul_left (4 * size + 1) hrest
        have hloop : (meteredAll dec size stuck fuel rest >>= fun vs => pure (v :: vs)).cost ≤
            (k + 4 * size + 1) * rest.length :=
          Metered.bind_cost_le (ih rest) fun vs _ => by simpa using ih rest
        rw [show k + 4 * size + 1 = k + (4 * size + 1) by omega, Nat.add_mul] at hloop
        dsimp only
        rw [Nat.mul_add] at hround
        omega

end Zilkworm.Lib
