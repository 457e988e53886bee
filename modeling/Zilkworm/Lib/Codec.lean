/-
# Canonical decoders

A decoder consumes a prefix of a byte string and returns a value with what is left.
It is *canonical* for an encoder when the bytes it consumed are exactly the encoding
of the value it returned: nothing it accepts has a second spelling.  Canonicity is
closed under sequencing and under repetition to the end of the input, so the decoder
of a record or of a list is canonical as soon as its parts are.
-/
import Zilkworm.Lib.Bytes

namespace Zilkworm.Lib

open List

section Errors

variable {ε α β : Type}

/-- Fails with `e` when the condition holds. -/
def rejectIf (c : Prop) [Decidable c] (e : ε) : Except ε Unit :=
  if c then .error e else .ok ()

@[simp] theorem rejectIf_eq_ok {c : Prop} [Decidable c] {e : ε} {u : Unit} :
    rejectIf c e = .ok u ↔ ¬ c := by
  unfold rejectIf; split <;> simp_all

/-- A computation that returns is one whose first part returned and whose rest did. -/
@[simp] theorem bind_eq_ok {x : Except ε α} {f : α → Except ε β} {b : β} :
    (x >>= f) = .ok b ↔ ∃ a, x = .ok a ∧ f a = .ok b := by
  cases x <;> simp [bind, Except.bind]

@[simp] theorem pure_eq_ok {a b : α} : (pure a : Except ε α) = .ok b ↔ a = b := by
  simp [pure, Except.pure]

/-- Two continuations that agree on the result of the first part. -/
theorem bind_congr_ok {x : Except ε α} {f g : α → Except ε β} (h : ∀ a, x = .ok a → f a = g a) :
    (x >>= f) = (x >>= g) := by
  cases x with
  | error e => rfl
  | ok a => exact h a rfl

/-- An error renamed is no success. -/
theorem mapError_eq_ok {ε' : Type} {f : ε → ε'} {x : Except ε α} {a : α} :
    x.mapError f = .ok a ↔ x = .ok a := by
  cases x <;> simp [Except.mapError]

/-- Two computations that agree up to the renaming of their values and of their errors. -/
theorem map_eq_mapError {ε' : Type} {x : Except ε α} {y : Except ε' β} {f : α → β} {g : ε' → ε}
    (h : x.map f = y.mapError g) :
    (∃ e, y = .error e ∧ x = .error (g e)) ∨ ∃ a, x = .ok a ∧ y = .ok (f a) := by
  rcases x with e | a <;> rcases y with e' | b
  · exact .inl ⟨e', rfl, congrArg _ (Except.error.inj h)⟩
  · cases h
  · cases h
  · exact .inr ⟨a, rfl, congrArg _ (Except.ok.inj h).symm⟩

/-- A loop of checks returns when every check does. -/
theorem forM_eq_ok {f : α → Except ε Unit} {l : List α} :
    l.forM f = .ok () ↔ ∀ x ∈ l, f x = .ok () := by
  induction l with
  | nil => simp [pure, Except.pure]
  | cons x xs ih =>
    show (f x >>= fun _ => xs.forM f) = .ok () ↔ _
    rw [bind_eq_ok]
    constructor
    · rintro ⟨_, hx, hxs⟩ y hy
      rcases mem_cons.mp hy with rfl | hy
      · exact hx
      · exact ih.mp hxs y hy
    · intro h
      exact ⟨(), h x mem_cons_self, ih.mpr fun y hy => h y (mem_cons_of_mem x hy)⟩

/-- A list of optional results is there when every one of them is. -/
theorem mapM_eq_some {f : α → Option β} {l : List α} {r : List β} :
    l.mapM f = some r ↔ Forall₂ (fun a b => f a = some b) l r := by
  induction l generalizing r with
  | nil =>
    cases r with
    | nil => simp
    | cons b r => exact ⟨fun h => by simp at h, fun h => by cases h⟩
  | cons a l ih =>
    rw [mapM_cons]
    constructor
    · intro h
      obtain ⟨b, hb, h⟩ := Option.bind_eq_some_iff.mp h
      obtain ⟨bs, hbs, h⟩ := Option.bind_eq_some_iff.mp h
      obtain rfl := Option.some.inj h
      exact .cons hb (ih.mp hbs)
    · rintro (_ | ⟨hb, hbs⟩)
      rw [hb, ih.mpr hbs]
      rfl

theorem mapM_congr {f g : α → Option β} {l : List α} (h : ∀ a ∈ l, f a = g a) : l.mapM f = l.mapM g := by
  induction l with
  | nil => rfl
  | cons a l ih =>
    rw [mapM_cons, mapM_cons, h a mem_cons_self, ih fun x hx => h x (mem_cons_of_mem a hx)]

theorem mapM_eq_none {f : α → Option β} {l : List α} {a : α} (ha : a ∈ l) (h : f a = none) :
    l.mapM f = none := by
  induction l with
  | nil => cases ha
  | cons x l ih =>
    rw [mapM_cons]
    rcases mem_cons.mp ha with rfl | ha
    · rw [h]
      rfl
    · rw [ih ha]
      cases f x <;> rfl

theorem mapM_isSome {f : α → Option β} {l : List α} (h : ∀ a ∈ l, (f a).isSome) :
    ∃ r, l.mapM f = some r := by
  induction l with
  | nil => exact ⟨[], rfl⟩
  | cons x l ih =>
    obtain ⟨b, hb⟩ := Option.isSome_iff_exists.mp (h x mem_cons_self)
    obtain ⟨r, hr⟩ := ih fun a ha => h a (mem_cons_of_mem x ha)
    exact ⟨b :: r, by rw [mapM_cons, hb, hr]; rfl⟩

/-- Lists of results that agree as a whole agree one by one. -/
theorem mapM_inj {f g : α → Option β} {l : List α} {r : List β} (hf : l.mapM f = some r)
    (hg : l.mapM g = some r) : ∀ a ∈ l, f a = g a := by
  induction l generalizing r with
  | nil => exact fun _ ha => absurd ha not_mem_nil
  | cons x l ih =>
    rcases mapM_eq_some.mp hf with _ | ⟨hx, hl⟩
    rcases mapM_eq_some.mp hg with _ | ⟨hx', hl'⟩
    rintro a ha
    rcases mem_cons.mp ha with rfl | ha
    · rw [hx, hx']
    · exact ih (mapM_eq_some.mpr hl) (mapM_eq_some.mpr hl') a ha

end Errors

/-- A decoder: the value read and the bytes left, or an error. -/
abbrev Decoder (ε α : Type) := Bytes → Except ε (α × Bytes)

section Canonical

variable {ε α β : Type}

/-- **Canonical decoder.**  The bytes consumed are the encoding of the value returned. -/
def Canonical (dec : Decoder ε α) (enc : α → Bytes) : Prop :=
  ∀ ⦃src : Bytes⦄ ⦃v : α⦄ ⦃rest : Bytes⦄, dec src = .ok (v, rest) → src = enc v ++ rest

/-- Runs a decoder until its input is used up.  Each round has to consume a byte;
`fuel` counts the rounds, and the length of the input is enough. -/
def decodeAll (dec : Decoder ε α) (stuck : ε) : (fuel : ℕ) → Bytes → Except ε (List α)
  | _, [] => .ok []
  | 0, _ :: _ => .error stuck
  | fuel + 1, src@(_ :: _) => do
    let (v, rest) ← dec src
    let vs ← decodeAll dec stuck fuel rest
    return v :: vs

theorem decodeAll_canonical {dec : Decoder ε α} {enc : α → Bytes} (h : Canonical dec enc)
    {stuck : ε} {fuel : ℕ} {src : Bytes} {vs : List α}
    (hd : decodeAll dec stuck fuel src = .ok vs) : src = vs.flatMap enc := by
  induction fuel generalizing src vs with
  | zero =>
    cases src with
    | nil => cases hd; rfl
    | cons b bs => cases hd
  | succ fuel ih =>
    cases src with
    | nil => cases hd; rfl
    | cons b bs =>
      simp only [decodeAll, bind_eq_ok, pure_eq_ok] at hd
      obtain ⟨⟨v, rest⟩, hv, ws, hws, rfl⟩ := hd
      rw [flatMap_cons, ← ih hws]
      exact h hv

/-- What holds of every value a decoder returns holds of all of them. -/
theorem decodeAll_forall {dec : Decoder ε α} {P : α → Prop}
    (h : ∀ src v rest, dec src = .ok (v, rest) → P v)
    {stuck : ε} {fuel : ℕ} {src : Bytes} {vs : List α} (hd : decodeAll dec stuck fuel src = .ok vs) :
    ∀ v ∈ vs, P v := by
  induction fuel generalizing src vs with
  | zero =>
    cases src with
    | nil =>
      cases hd
      exact fun _ hv => absurd hv not_mem_nil
    | cons b bs => cases hd
  | succ fuel ih =>
    cases src with
    | nil =>
      cases hd
      exact fun _ hv => absurd hv not_mem_nil
    | cons b bs =>
      simp only [decodeAll, bind_eq_ok, pure_eq_ok] at hd
      obtain ⟨⟨v, rest⟩, hv, ws, hws, rfl⟩ := hd
      intro w hw
      rcases mem_cons.mp hw with rfl | hw
      · exact h _ _ _ hv
      · exact ih hws w hw

/-- **Complete decoder.**  The encoding of a value of the domain is read back, whatever follows it.
-/
def Complete (dec : Decoder ε α) (enc : α → Bytes) (dom : α → Prop) : Prop :=
  ∀ ⦃v : α⦄, dom v → ∀ rest : Bytes, dec (enc v ++ rest) = .ok (v, rest)

theorem decodeAll_complete {dec : Decoder ε α} {enc : α → Bytes} {dom : α → Prop}
    (h : Complete dec enc dom)
    (hne : ∀ v, enc v ≠ []) {stuck : ε} {fuel : ℕ} {vs : List α} (hdom : ∀ v ∈ vs, dom v)
    (hfuel : (vs.flatMap enc).length ≤ fuel) : decodeAll dec stuck fuel (vs.flatMap enc) = .ok vs := by
  induction vs generalizing fuel with
  | nil => cases fuel <;> rfl
  | cons v vs ih =>
    have hv := h (hdom v mem_cons_self) (vs.flatMap enc)
    have hpos := length_pos_iff.mpr (hne v)
    rw [flatMap_cons, length_append] at hfuel
    obtain ⟨fuel, rfl⟩ : ∃ f, fuel = f + 1 := ⟨fuel - 1, by omega⟩
    have hvs :=
      ih (fun w hw => hdom w (mem_cons_of_mem v hw)) (show (vs.flatMap enc).length ≤ fuel by omega)
    rw [flatMap_cons]
    rcases hsrc : enc v ++ vs.flatMap enc with _ | ⟨b, bs⟩
    · exact absurd (append_eq_nil_iff.mp hsrc).1 (hne v)
    · simp only [decodeAll, bind_eq_ok, pure_eq_ok]
      rw [hsrc] at hv
      exact ⟨_, hv, vs, hvs, rfl⟩

end Canonical

end Zilkworm.Lib
