/-
# A machine that accesses memory in words

Memory is a byte at every address.  A program loads and stores words of any size, copies whole
blocks, and leaves a log of these accesses; it has no result where its code reaches a place it
declares unreachable.

What a copying program is for is `Memory.copy`: the destination holds what the source held before.
`Copied` says that this is what happened between two machines, and that every access was aligned,
within the words that hold a byte of the two ranges, and no block copied onto itself.  Pieces of a
copy compose from the low end up (`Copied.append`) where a forward copy is right, and from the
high end down (`Copied.prepend`) where a backward copy is.
-/
import Zilkworm.Lib.Words

namespace Zilkworm.Lib

open List

/-! ## Memory -/

/-- A byte at every address. -/
abbrev ByteMap := ℕ → UInt8

namespace ByteMap

variable (mem : ByteMap)

/-- The word of `k` bytes at address `a`. -/
def word (k a : ℕ) : BitVec (8 * k) := wordOf k ((range k).map fun i => mem (a + i))

/-- The `n` bytes at address `a`. -/
def bytes (a n : ℕ) : Bytes := (range n).map fun i => mem (a + i)

/-- The memory after a store of `w` at address `a`. -/
def write {k : ℕ} (mem : ByteMap) (a : ℕ) (w : BitVec (8 * k)) : ByteMap := fun x =>
  if a ≤ x ∧ x < a + k then byteOf w (x - a) else mem x

/-- The memory in which the `n` bytes at `d` are what the `n` bytes at `s` were. -/
def copy (d s n : ℕ) : ByteMap := fun x =>
  if d ≤ x ∧ x < d + n then mem (s + (x - d)) else mem x

theorem byteOf_word {k j : ℕ} (a : ℕ) (hj : j < k) : byteOf (mem.word k a) j = mem (a + j) := by
  rw [word, byteOf_wordOf (by simp) (by simpa using hj), getElem_map, getElem_range]

theorem bytes_succ (a n : ℕ) : mem.bytes a (n + 1) = mem a :: mem.bytes (a + 1) n := by
  rw [bytes, range_succ_eq_map, map_cons, map_map, bytes]
  congr 1
  refine map_congr_left fun i _ => ?_
  show mem (a + (i + 1)) = mem (a + 1 + i)
  congr 1
  omega

/-- A word is what its bytes are. -/
theorem word_eq_of_byteOf {k a : ℕ} {w : BitVec (8 * k)} (h : ∀ j < k, byteOf w j = mem (a + j)) :
    w = mem.word k a :=
  eq_of_byteOf fun j hj => by rw [h j hj, byteOf_word mem a hj]

/-- Two words are equal if their bytes are. -/
theorem word_inj {k a a' : ℕ} :
    mem.word k a = mem.word k a' ↔ ∀ j < k, mem (a + j) = mem (a' + j) := by
  constructor
  · intro h j hj
    rw [← byteOf_word mem a hj, h, byteOf_word mem a' hj]
  · intro h
    exact mem.word_eq_of_byteOf fun j hj => by rw [byteOf_word mem a hj, h j hj]

theorem toNat_word_one (a : ℕ) : (mem.word 1 a).toNat = (mem a).toNat := by
  have h := byteOf_word mem (k := 1) a Nat.one_pos
  rw [Nat.add_zero] at h
  rw [← h, byteOf, UInt8.toNat_ofNat', Nat.mul_zero, Nat.shiftRight_zero,
    Nat.mod_eq_of_lt (mem.word 1 a).isLt]

@[simp] theorem copy_zero (d s : ℕ) : mem.copy d s 0 = mem := by
  funext x
  rw [copy, if_neg (by omega)]

theorem copy_dest {d s n j : ℕ} (hj : j < n) : mem.copy d s n (d + j) = mem (s + j) := by
  rw [copy, if_pos (by omega), Nat.add_sub_cancel_left]

/-- A store to a word that covers the destination makes the copy if the word stored is what the copy
leaves there. -/
theorem write_eq_copy {k : ℕ} {mem : ByteMap} {a d s n : ℕ} {w : BitVec (8 * k)} (hlo : a ≤ d)
    (hhi : d + n ≤ a + k)
    (h : ∀ j < k, byteOf w j = mem.copy d s n (a + j)) : mem.write a w = mem.copy d s n := by
  funext x
  unfold write
  split_ifs with hx
  · rw [h (x - a) (by omega), show a + (x - a) = x by omega]
  · rw [copy, if_neg (by omega)]

/-- A forward copy of two pieces is right if no byte of the second source lies in the first
destination. -/
theorem copy_append {mem : ByteMap} {d s n₁ n₂ : ℕ} (h : d ≤ s ∨ s + (n₁ + n₂) ≤ d) :
    (mem.copy d s n₁).copy (d + n₁) (s + n₁) n₂ = mem.copy d s (n₁ + n₂) := by
  funext x
  unfold copy
  by_cases h1 : d + n₁ ≤ x ∧ x < d + n₁ + n₂
  · rw [if_pos h1, if_neg (by omega), if_pos (by omega), show s + n₁ + (x - (d + n₁)) =
      s + (x - d) by omega]
  · rw [if_neg h1]
    by_cases h2 : d ≤ x ∧ x < d + n₁
    · rw [if_pos h2, if_pos (by omega)]
    · rw [if_neg h2, if_neg (by omega)]

/-- A backward copy of two pieces is right if the destination lies above the source. -/
theorem copy_prepend {mem : ByteMap} {d s n₁ n₂ : ℕ} (h : s ≤ d) :
    (mem.copy (d + n₁) (s + n₁) n₂).copy d s n₁ = mem.copy d s (n₁ + n₂) := by
  funext x
  unfold copy
  by_cases h1 : d ≤ x ∧ x < d + n₁
  · rw [if_pos h1, if_neg (by omega), if_pos (by omega)]
  · rw [if_neg h1]
    by_cases h2 : d + n₁ ≤ x ∧ x < d + n₁ + n₂
    · rw [if_pos h2, if_pos (by omega), show s + n₁ + (x - (d + n₁)) = s + (x - d) by omega]
    · rw [if_neg h2, if_neg (by omega)]

end ByteMap

/-! ## Accesses -/

/-- An access to memory. -/
inductive Access where
  | load (size addr : ℕ)
  | store (size addr : ℕ)
  /-- A copy of a whole block. -/
  | block (size dst src : ℕ)
  deriving DecidableEq

namespace Access

/-- The addresses an access touches, with its size. -/
def parts : Access → List (ℕ × ℕ)
  | load size addr | store size addr => [(size, addr)]
  | block size dst src => [(size, dst), (size, src)]

/-- An access that is naturally aligned, keeps to the words of `w` bytes that hold a byte of the
addresses in `P`, and is not a block copied onto itself. -/
structure Ok (w : ℕ) (P : ℕ → Prop) (acc : Access) : Prop where
  aligned : ∀ q ∈ acc.parts, q.2 % q.1 = 0
  within : ∀ q ∈ acc.parts, ∀ i < q.1, ∃ x, P x ∧ x / w = (q.2 + i) / w
  distinct : ∀ size dst src, acc = block size dst src → dst ≠ src

variable {w : ℕ} {P Q : ℕ → Prop} {acc : Access}

theorem Ok.mono (h : acc.Ok w P) (hPQ : ∀ x, P x → Q x) : acc.Ok w Q :=
  ⟨h.aligned, fun q hq i hi => (h.within q hq i hi).imp fun x hx => ⟨hPQ x hx.1, hx.2⟩, h.distinct⟩

/-- An access all of whose bytes are among the addresses. -/
theorem ok_of_inside {size addr : ℕ} (hparts : acc.parts = [(size, addr)])
    (ha : addr % size = 0) (hin : ∀ i < size, P (addr + i)) : acc.Ok w P := by
  refine ⟨fun q hq => ?_, fun q hq i hi => ?_,
    fun k d s h => absurd hparts (by rw [h]; simp [parts])⟩ <;>
    obtain rfl : q = (size, addr) := by simpa [hparts] using hq
  · exact ha
  · exact ⟨addr + i, hin i hi, rfl⟩

theorem load_byte_ok {a : ℕ} (h : P a) : (load 1 a).Ok w P :=
  ok_of_inside rfl (Nat.mod_one _) fun i hi => by
    obtain rfl : i = 0 := by omega
    exact h

/-- An access inside a word that holds a byte of the addresses. -/
theorem ok_in_word {size addr a x : ℕ} (hparts : acc.parts = [(size, addr)])
    (haddr : addr % size = 0) (ha : a % w = 0) (hlo : a ≤ addr) (hhi : addr + size ≤ a + w)
    (hx : P x) (hxlo : a ≤ x) (hxhi : x < a + w) : acc.Ok w P := by
  have hword (y : ℕ) (hy : a ≤ y) (hy' : y < a + w) : y / w = a / w := by
    obtain ⟨t, rfl⟩ := Nat.exists_eq_add_of_le hy
    obtain ⟨e, he⟩ := Nat.dvd_of_mod_eq_zero ha
    rw [he, Nat.mul_add_div (by omega), Nat.mul_div_cancel_left _ (by omega),
      Nat.div_eq_of_lt (by omega), Nat.add_zero]
  refine ⟨fun q hq => ?_, fun q hq i hi => ⟨x, hx, ?_⟩,
    fun k d s h => absurd hparts (by rw [h]; simp [parts])⟩ <;>
    obtain rfl : q = (size, addr) := by simpa [hparts] using hq
  · exact haddr
  · dsimp only at hi
    rw [hword x hxlo hxhi, hword (addr + i) (by omega) (by omega)]

/-- An access to a whole word that holds a byte of the addresses. -/
theorem ok_of_word {addr x : ℕ} (hparts : acc.parts = [(w, addr)])
    (ha : addr % w = 0) (hx : P x) (hlo : addr ≤ x) (hhi : x < addr + w) : acc.Ok w P :=
  ok_in_word hparts ha ha le_rfl le_rfl hx hlo hhi

end Access

/-! ## Programs -/

/-- Memory, and the accesses made so far. -/
structure Machine where
  mem : ByteMap
  log : List Access

/-- A program on the machine, without a result where it reaches what its code declares unreachable.
-/
abbrev Exec := StateT Machine Option

/-- The word of `k` bytes at `a`. -/
def load (k a : ℕ) : Exec (BitVec (8 * k)) := fun m =>
  some (m.mem.word k a, { m with log := m.log ++ [.load k a] })

/-- Stores a word at `a`. -/
def store {k : ℕ} (a : ℕ) (w : BitVec (8 * k)) : Exec Unit := fun m =>
  some ((), ⟨m.mem.write a w, m.log ++ [.store k a]⟩)

/-- Copies the `k` bytes at `src` to `dst` in one access. -/
def copyBlock (k dst src : ℕ) : Exec Unit := fun m =>
  some ((), ⟨m.mem.copy dst src k, m.log ++ [.block k dst src]⟩)

/-- A place the code declares unreachable. -/
def unreachable {α : Type} : Exec α := fun _ => none

theorem Exec.bind_run {α β : Type} {p : Exec α} {f : α → Exec β} {m m' : Machine} {r : α}
    (h : p m = some (r, m')) : (p >>= f) m = f r m' := by
  show (p m).bind (fun q => f q.1 q.2) = _
  rw [h]
  rfl

/-! ## Copies -/

/-- The addresses of the destination and the source. -/
def InRanges (d s n x : ℕ) : Prop := (d ≤ x ∧ x < d + n) ∨ (s ≤ x ∧ x < s + n)

/-- A forward copy is right: the destination lies below the source, is the source, or is apart from
it. -/
def Forward (d s n : ℕ) : Prop := d ≤ s ∨ s + n ≤ d

/-- Between two machines the `n` bytes at `s` were copied to `d`, by accesses that are aligned and
keep to the words of `w` bytes that hold a byte of either range. -/
structure Copied (w d s n : ℕ) (m m' : Machine) : Prop where
  mem : m'.mem = m.mem.copy d s n
  log : ∃ new, m'.log = m.log ++ new ∧ ∀ acc ∈ new, acc.Ok w (InRanges d s n)

section Composition

variable {w d s n n₁ n₂ : ℕ} {m m₁ m₂ : Machine}

theorem Copied.nil (w d s : ℕ) (m : Machine) : Copied w d s 0 m m :=
  ⟨(m.mem.copy_zero d s).symm, [], by simp, by simp⟩

/-- Two pieces, the lower one first. -/
theorem Copied.append (h₁ : Copied w d s n₁ m m₁) (h₂ : Copied w (d + n₁) (s + n₁) n₂ m₁ m₂)
    (hf : Forward d s (n₁ + n₂)) : Copied w d s (n₁ + n₂) m m₂ := by
  obtain ⟨new₁, hlog₁, hok₁⟩ := h₁.log
  obtain ⟨new₂, hlog₂, hok₂⟩ := h₂.log
  refine ⟨by rw [h₂.mem, h₁.mem, ByteMap.copy_append hf],
    new₁ ++ new₂, by rw [hlog₂, hlog₁, append_assoc], ?_⟩
  intro acc hacc
  rcases mem_append.mp hacc with h | h
  · exact (hok₁ acc h).mono fun x hx => by unfold InRanges at hx ⊢; omega
  · exact (hok₂ acc h).mono fun x hx => by unfold InRanges at hx ⊢; omega

/-- Two pieces, the higher one first. -/
theorem Copied.prepend (h₂ : Copied w (d + n₁) (s + n₁) n₂ m m₁) (h₁ : Copied w d s n₁ m₁ m₂)
    (hb : s ≤ d) :
    Copied w d s (n₁ + n₂) m m₂ := by
  obtain ⟨new₁, hlog₁, hok₁⟩ := h₁.log
  obtain ⟨new₂, hlog₂, hok₂⟩ := h₂.log
  refine ⟨by rw [h₁.mem, h₂.mem, ByteMap.copy_prepend hb],
    new₂ ++ new₁, by rw [hlog₁, hlog₂, append_assoc], ?_⟩
  intro acc hacc
  rcases mem_append.mp hacc with h | h
  · exact (hok₂ acc h).mono fun x hx => by unfold InRanges at hx ⊢; omega
  · exact (hok₁ acc h).mono fun x hx => by unfold InRanges at hx ⊢; omega

/-- Loads before the copy. -/
theorem Copied.loads {new : List Access} (hok : ∀ acc ∈ new, acc.Ok w (InRanges d s n))
    (h : Copied w d s n { m with log := m.log ++ new } m₁) : Copied w d s n m m₁ := by
  obtain ⟨more, hlog, hmore⟩ := h.log
  refine ⟨h.mem, new ++ more, by rw [hlog, append_assoc], fun acc hacc => ?_⟩
  rcases mem_append.mp hacc with hacc | hacc
  · exact hok acc hacc
  · exact hmore acc hacc

/-- A load before the copy. -/
theorem Copied.load {k a : ℕ} (hok : (Access.load k a).Ok w (InRanges d s n))
    (h : Copied w d s n { m with log := m.log ++ [.load k a] } m₁) : Copied w d s n m m₁ :=
  h.loads fun _ hacc => mem_singleton.mp hacc ▸ hok

theorem Forward.part (h : Forward d s n) {i n' : ℕ} (hi : i + n' ≤ n) : Forward (d + i) (s + i) n' := by
  unfold Forward at h ⊢
  omega

theorem Forward.take (h : Forward d s n) {n' : ℕ} (hn : n' ≤ n) : Forward d s n' := by
  unfold Forward at h ⊢
  omega

/-- On every machine the program returns `r` and has copied the `n` bytes at `s` to `d`. -/
def Copies {α : Type} (w d s n : ℕ) (p : Exec α) (r : α) : Prop :=
  ∀ m, ∃ m', p m = some (r, m') ∧ Copied w d s n m m'

variable {α β : Type} {p : Exec α} {f : α → Exec β} {r : α} {r' : β} {d₂ s₂ : ℕ}

theorem Copies.pure (w d s : ℕ) (r : α) : Copies w d s 0 (pure r) r := fun m => ⟨m, rfl, .nil w d s m⟩

theorem Copies.bind (hp : Copies w d s n₁ p r) (hf : Copies w d₂ s₂ n₂ (f r) r') (hd : d₂ = d + n₁)
    (hs : s₂ = s + n₁) (hn : n = n₁ + n₂) (hfw : Forward d s n) : Copies w d s n (p >>= f) r' := by
  subst hd hs hn
  intro m
  obtain ⟨m₁, hrun₁, h₁⟩ := hp m
  obtain ⟨m₂, hrun₂, h₂⟩ := hf m₁
  exact ⟨m₂, by rw [Exec.bind_run hrun₁, hrun₂], h₁.append h₂ hfw⟩

theorem Copies.seq {q : Exec β} (hp : Copies w d s n₁ p r) (hq : Copies w d₂ s₂ n₂ q r')
    (hd : d₂ = d + n₁)
    (hs : s₂ = s + n₁) (hn : n = n₁ + n₂) (hfw : Forward d s n) : Copies w d s n (p >>= fun _ => q) r' :=
  hp.bind hq hd hs hn hfw

theorem Copies.bind_back (hp : Copies w d₂ s₂ n₂ p r) (hf : Copies w d s n₁ (f r) r') (hd : d₂ = d + n₁)
    (hs : s₂ = s + n₁) (hn : n = n₁ + n₂) (hb : s ≤ d) : Copies w d s n (p >>= f) r' := by
  subst hd hs hn
  intro m
  obtain ⟨m₁, hrun₁, h₁⟩ := hp m
  obtain ⟨m₂, hrun₂, h₂⟩ := hf m₁
  exact ⟨m₂, by rw [Exec.bind_run hrun₁, hrun₂], h₁.prepend h₂ hb⟩

theorem Copies.seq_back {q : Exec β} (hp : Copies w d₂ s₂ n₂ p r) (hq : Copies w d s n₁ q r')
    (hd : d₂ = d + n₁)
    (hs : s₂ = s + n₁) (hn : n = n₁ + n₂) (hb : s ≤ d) : Copies w d s n (p >>= fun _ => q) r' :=
  hp.bind_back hq hd hs hn hb

/-- A last step that only returns something. -/
theorem Copies.bind_pure (hp : Copies w d s n p r) (g : α → β) :
    Copies w d s n (p >>= fun x => Pure.pure (g x)) (g r) := by
  intro m
  obtain ⟨m₁, hrun₁, h₁⟩ := hp m
  exact ⟨m₁, by rw [Exec.bind_run hrun₁]; rfl, h₁⟩

/-- A load and a store of one word copy it. -/
theorem Copies.word {k : ℕ} (hd : d % k = 0) (hs : s % k = 0) :
    Copies w d s k (load k s >>= store d) () := by
  intro m
  refine ⟨_, rfl, ?_, [.load k s, .store k d], by simp, ?_⟩
  · refine ByteMap.write_eq_copy le_rfl le_rfl fun j hj => ?_
    rw [ByteMap.byteOf_word _ _ hj, ByteMap.copy_dest _ hj]
  · intro acc hacc
    simp only [mem_cons, not_mem_nil, or_false] at hacc
    rcases hacc with rfl | rfl
    · exact Access.ok_of_inside rfl hs fun i hi => .inr (by omega)
    · exact Access.ok_of_inside rfl hd fun i hi => .inl (by omega)

/-- A block copy between aligned places that differ. -/
theorem Copies.block {k : ℕ} (hd : d % k = 0) (hs : s % k = 0) (hne : d ≠ s) :
    Copies w d s k (copyBlock k d s) () := by
  intro m
  refine ⟨_, rfl, rfl, [.block k d s], by simp, ?_⟩
  intro acc hacc
  obtain rfl := mem_singleton.mp hacc
  refine ⟨fun q hq => ?_, fun q hq i hi => ?_, fun size dst src h => by cases h; exact hne⟩
  · simp only [Access.parts, mem_cons, not_mem_nil, or_false] at hq
    rcases hq with rfl | rfl
    · exact hd
    · exact hs
  · simp only [Access.parts, mem_cons, not_mem_nil, or_false] at hq
    rcases hq with rfl | rfl
    · exact ⟨d + i, .inl (by dsimp only at hi; omega), rfl⟩
    · exact ⟨s + i, .inr (by dsimp only at hi; omega), rfl⟩

end Composition

/-! ## Filling a range -/

/-- Between two machines the addresses from `lo` to `hi` were filled with what `f` has there. -/
structure Fills (w : ℕ) (P : ℕ → Prop) (f : ByteMap) (lo hi : ℕ) (m m' : Machine) : Prop where
  mem : ∀ x, m'.mem x = if lo ≤ x ∧ x < hi then f x else m.mem x
  log : ∃ new, m'.log = m.log ++ new ∧ ∀ acc ∈ new, acc.Ok w P

section Filling

variable {w : ℕ} {P : ℕ → Prop} {f : ByteMap} {lo mid hi d s n : ℕ} {m m₁ m₂ : Machine}

theorem Fills.nil (w : ℕ) (P : ℕ → Prop) (f : ByteMap) (lo : ℕ) (m : Machine) : Fills w P f lo lo m m :=
  ⟨fun x => by rw [if_neg (by omega)], [], by simp, by simp⟩

theorem Fills.trans (h₁ : Fills w P f lo mid m m₁) (h₂ : Fills w P f mid hi m₁ m₂) (hlo : lo ≤ mid)
    (hhi : mid ≤ hi) :
    Fills w P f lo hi m m₂ := by
  obtain ⟨new₁, hlog₁, hok₁⟩ := h₁.log
  obtain ⟨new₂, hlog₂, hok₂⟩ := h₂.log
  refine ⟨fun x => ?_, new₁ ++ new₂, by rw [hlog₂, hlog₁, append_assoc], fun acc hacc => ?_⟩
  · rw [h₂.mem, h₁.mem]
    split_ifs <;> first | rfl | omega
  · rcases mem_append.mp hacc with h | h
    · exact hok₁ acc h
    · exact hok₂ acc h

theorem Fills.trans_down (h₂ : Fills w P f mid hi m m₁) (h₁ : Fills w P f lo mid m₁ m₂)
    (hlo : lo ≤ mid) (hhi : mid ≤ hi) :
    Fills w P f lo hi m m₂ := by
  obtain ⟨new₁, hlog₁, hok₁⟩ := h₁.log
  obtain ⟨new₂, hlog₂, hok₂⟩ := h₂.log
  refine ⟨fun x => ?_, new₂ ++ new₁, by rw [hlog₁, hlog₂, append_assoc], fun acc hacc => ?_⟩
  · rw [h₁.mem, h₂.mem]
    split_ifs <;> first | rfl | omega
  · rcases mem_append.mp hacc with h | h
    · exact hok₂ acc h
    · exact hok₁ acc h

/-- A store of the word that `f` has there. -/
theorem Fills.store {k a : ℕ} {v : BitVec (8 * k)} (hok : (Access.store k a).Ok w P)
    (hv : ∀ j < k, byteOf v j = f (a + j)) :
    Fills w P f a (a + k) m ⟨m.mem.write a v, m.log ++ [.store k a]⟩ := by
  refine ⟨fun x => ?_, [.store k a], rfl, fun acc hacc => mem_singleton.mp hacc ▸ hok⟩
  show m.mem.write a v x = _
  unfold ByteMap.write
  split_ifs with hx
  · rw [hv (x - a) (by omega), show a + (x - a) = x by omega]
  · rfl

/-- A load before. -/
theorem Fills.load {k a : ℕ} (hok : (Access.load k a).Ok w P)
    (h : Fills w P f lo hi { m with log := m.log ++ [.load k a] } m₁) : Fills w P f lo hi m m₁ := by
  obtain ⟨new, hlog, hnew⟩ := h.log
  refine ⟨h.mem, .load k a :: new, by rw [hlog, append_assoc, singleton_append], fun acc hacc => ?_⟩
  rcases mem_cons.mp hacc with rfl | hacc
  · exact hok
  · exact hnew acc hacc

/-- A range around the destination filled with what the copy leaves there is the copy. -/
theorem Fills.copied (h : Fills w (InRanges d s n) (m.mem.copy d s n) lo hi m m₁) (hlo : lo ≤ d)
    (hhi : d + n ≤ hi) :
    Copied w d s n m m₁ := by
  refine ⟨?_, h.log⟩
  funext x
  rw [h.mem]
  split_ifs with hx
  · rfl
  · rw [ByteMap.copy, if_neg (by omega)]

/-- The addresses from `lo` to `hi` may be accessed, and what is known of memory does not depend on
them. -/
structure Fillable (I : ByteMap → Prop) (P : ℕ → Prop) (lo hi : ℕ) : Prop where
  accessible : ∀ x, lo ≤ x → x < hi → P x
  ignored : ∀ mem mem' : ByteMap, (∀ x, ¬ (lo ≤ x ∧ x < hi) → mem' x = mem x) → I mem → I mem'

/-- On every machine whose memory has `I` the program returns `r` and has filled the addresses from
`lo` to `hi`. -/
def Filling {α : Type} (w : ℕ) (I : ByteMap → Prop) (P : ℕ → Prop) (f : ByteMap) (lo hi : ℕ)
    (p : Exec α) (r : α) : Prop :=
  ∀ m, I m.mem → ∃ m', p m = some (r, m') ∧ Fills w P f lo hi m m'

variable {I : ByteMap → Prop} {α β : Type} {p : Exec α} {g : α → Exec β} {r : α} {r' : β}

theorem Fillable.part (h : Fillable I P lo hi) {lo' hi' : ℕ} (hlo : lo ≤ lo') (hhi : hi' ≤ hi) :
    Fillable I P lo' hi' :=
  ⟨fun x h1 h2 => h.accessible x (by omega) (by omega),
    fun mem mem' hsame => h.ignored mem mem' fun x hx => hsame x (by omega)⟩

theorem Fillable.kept (h : Fillable I P lo hi) (hfills : Fills w P f lo hi m m₁) (hI : I m.mem) :
    I m₁.mem :=
  h.ignored m.mem m₁.mem (fun x hx => by rw [hfills.mem, if_neg hx]) hI

/-- A store inside the range. -/
theorem Fillable.store_ok (h : Fillable I P lo hi) {k a : ℕ} (ha : a % k = 0) (hlo : lo ≤ a)
    (hhi : a + k ≤ hi) :
    (Access.store k a).Ok w P :=
  Access.ok_of_inside rfl ha fun i hi => h.accessible _ (by omega) (by omega)

theorem Filling.pure (lo : ℕ) (r : α) :
    Filling w I P f lo lo (pure r) r := fun m _ => ⟨m, rfl, .nil w P f lo m⟩

theorem Filling.store {k a : ℕ} {v : BitVec (8 * k)} (hok : (Access.store k a).Ok w P)
    (hv : ∀ j < k, byteOf v j = f (a + j)) : Filling w I P f a (a + k) (store a v) () :=
  fun _ _ => ⟨_, rfl, .store hok hv⟩

theorem Filling.bind (hp : Filling w I P f lo mid p r) (hg : Filling w I P f mid hi (g r) r')
    (hfree : Fillable I P lo hi) (hlo : lo ≤ mid) (hhi : mid ≤ hi) :
    Filling w I P f lo hi (p >>= g) r' := by
  intro m hI
  obtain ⟨m₁, hrun₁, h₁⟩ := hp m hI
  obtain ⟨m₂, hrun₂, h₂⟩ := hg m₁ ((hfree.part le_rfl hhi).kept h₁ hI)
  exact ⟨m₂, by rw [Exec.bind_run hrun₁, hrun₂], h₁.trans h₂ hlo hhi⟩

theorem Filling.seq {q : Exec β} (hp : Filling w I P f lo mid p r) (hq : Filling w I P f mid hi q r')
    (hfree : Fillable I P lo hi) (hlo : lo ≤ mid) (hhi : mid ≤ hi) :
    Filling w I P f lo hi (p >>= fun _ => q) r' :=
  hp.bind hq hfree hlo hhi

/-- Two pieces, the higher one first. -/
theorem Filling.seq_down {q : Exec β} (hp : Filling w I P f mid hi p r)
    (hq : Filling w I P f lo mid q r')
    (hfree : Fillable I P lo hi) (hlo : lo ≤ mid) (hhi : mid ≤ hi) :
    Filling w I P f lo hi (p >>= fun _ => q) r' := by
  intro m hI
  obtain ⟨m₁, hrun₁, h₁⟩ := hp m hI
  obtain ⟨m₂, hrun₂, h₂⟩ := hq m₁ ((hfree.part hlo le_rfl).kept h₁ hI)
  exact ⟨m₂, by rw [Exec.bind_run hrun₁, hrun₂], h₁.trans_down h₂ hlo hhi⟩

end Filling

/-! ## Programs that only read -/

/-- On the memory `mem` the program returns `r`, changes nothing, and all its accesses are loads
that are in order. -/
def Inspects {α : Type} (w : ℕ) (P : ℕ → Prop) (mem : ByteMap) (p : Exec α) (r : α) : Prop :=
  ∀ log, ∃ new, p ⟨mem, log⟩ = some (r, ⟨mem, log ++ new⟩) ∧
    ∀ acc ∈ new, acc.Ok w P ∧ ∃ size addr, acc = .load size addr

section Reading

variable {w : ℕ} {P : ℕ → Prop} {mem : ByteMap} {α β : Type} {p : Exec α}
  {g : α → Exec β} {r : α} {r' : β}

theorem Inspects.pure (r : α) :
    Inspects w P mem (pure r) r := fun log => ⟨[], by rw [append_nil]; rfl, by simp⟩

theorem Inspects.load {k a : ℕ} (hok : (Access.load k a).Ok w P) :
    Inspects w P mem (load k a) (mem.word k a) :=
  fun _ => ⟨[.load k a], rfl, fun _ hacc => mem_singleton.mp hacc ▸ ⟨hok, k, a, rfl⟩⟩

theorem Inspects.bind (hp : Inspects w P mem p r) (hg : Inspects w P mem (g r) r') :
    Inspects w P mem (p >>= g) r' := by
  intro log
  obtain ⟨new₁, hrun₁, hok₁⟩ := hp log
  obtain ⟨new₂, hrun₂, hok₂⟩ := hg (log ++ new₁)
  refine ⟨new₁ ++ new₂, by rw [Exec.bind_run hrun₁, hrun₂, append_assoc], fun acc hacc => ?_⟩
  rcases mem_append.mp hacc with h | h
  · exact hok₁ acc h
  · exact hok₂ acc h

end Reading

end Zilkworm.Lib
