/-
# What a builder holds

The entries added to an `MphfBuilder`, each once, whether still under its short key or in the
sidecar: `add` keeps them and appends one, moving a body to the sidecar keeps them.  A short
key in the sidecar has no body in the map (`MphfBuilder.Holds`).
-/
import Zilkworm.Witness.MphfBuilder

namespace Zilkworm.Witness

open List Lib

variable {l : List UInt64}

namespace MphfBuilder

/-- The bodies of keys that have one. -/
def liveOf (body : UInt64 → Bytes) (keys : List UInt64) : List (UInt64 × Bytes) :=
  (keys.filter fun k => body k ≠ []).map fun k => (k, body k)

/-- Clearing the body of one key takes its entry out. -/
theorem liveOf_clear {f g : UInt64 → Bytes} {keys : List UInt64} {key : UInt64} (hn : keys.Nodup)
    (hk : key ∈ keys) (hf : f key ≠ []) (hg : g key = []) (ho : ∀ k, k ≠ key → g k = f k) :
    (liveOf f keys).Perm ((key, f key) :: liveOf g keys) := by
  obtain ⟨l, r, rfl⟩ := append_of_mem hk
  have hl : ∀ k ∈ l, g k = f k := fun k hmem =>
    ho k fun h => disjoint_of_nodup_append hn hmem (h ▸ mem_cons_self)
  have hr : ∀ k ∈ r, g k = f k := fun k hmem =>
    ho k fun h => (nodup_cons.mp (nodup_append.mp hn).2.1).1 (h ▸ hmem)
  have hsame : ∀ l' : List UInt64, (∀ k ∈ l', g k = f k) → liveOf g l' = liveOf f l' := fun l' hl' => by
    rw [liveOf, liveOf, filter_congr fun k hmem => by rw [hl' k hmem]]
    exact map_congr_left fun k hmem => by rw [hl' k (mem_filter.mp hmem).1]
  have happ : ∀ (h : UInt64 → Bytes) (x y : List UInt64), liveOf h (x ++ y) = liveOf h x ++ liveOf h y :=
    fun h x y => by rw [liveOf, filter_append, map_append]; rfl
  have hpos : liveOf f (key :: r) = (key, f key) :: liveOf f r := by
    rw [liveOf, filter_cons_of_pos (by simpa using hf), map_cons]; rfl
  have hneg : liveOf g (key :: r) = liveOf g r := by
    rw [liveOf, filter_cons_of_neg (by simpa using hg)]; rfl
  rw [happ, happ, hpos, hneg, hsame l hl, hsame r hr]
  exact perm_middle

/-- The builder holds the entries added, over the short keys `keys`. -/
structure Holds (b : MphfBuilder) (keys : List UInt64) (added : List (UInt64 × Bytes)) : Prop where
  nodup : keys.Nodup
  known : ∀ k, k ∈ b.unique ↔ k ∈ keys
  perm : (liveOf b.body keys ++ b.collisions).Perm added
  cleared : ∀ e ∈ b.collisions, e.1 ∈ keys ∧ b.body e.1 = []

variable {b : MphfBuilder} {keys : List UInt64} {added : List (UInt64 × Bytes)} {key : UInt64}

/-- Nothing added. -/
theorem holds_empty : ({} : MphfBuilder).Holds [] [] :=
  ⟨nodup_nil, fun k => by simp, Perm.refl _, nofun⟩

theorem body_insert (b : MphfBuilder) (key : UInt64) (x : Bytes) (c : List (UInt64 × Bytes))
    (k : UInt64) :
    (MphfBuilder.mk (b.unique.insert key x) c).body k = if k = key then x else b.body k := by
  unfold body
  split_ifs with h
  · rw [h, AList.lookup_insert, Option.getD_some]
  · rw [AList.lookup_insert_ne h]

theorem toSidecar_of_ne (h : b.body key ≠ []) :
    b.toSidecar key = ⟨b.unique.insert key [], b.collisions ++ [(key, b.body key)]⟩ := by
  unfold body at h
  unfold toSidecar body
  cases hl : b.unique.lookup key with
  | none => rw [hl] at h; exact absurd rfl h
  | some x =>
    cases x with
    | nil => rw [hl] at h; exact absurd rfl h
    | cons x xs => rfl

theorem toSidecar_of_eq (h : b.body key = []) : b.toSidecar key = b := by
  unfold body at h
  unfold toSidecar
  cases hl : b.unique.lookup key with
  | none => rfl
  | some x =>
    rw [hl, Option.getD_some] at h
    rw [h]

theorem toSidecar_body (b : MphfBuilder) (key k : UInt64) :
    (b.toSidecar key).body k = if k = key then [] else b.body k := by
  by_cases h : b.body key = []
  · rw [toSidecar_of_eq h]
    split_ifs with hk
    · rw [hk, h]
    · rfl
  · rw [toSidecar_of_ne h, body_insert]

/-- Moving a body to the sidecar keeps the entries. -/
theorem Holds.toSidecar (h : b.Holds keys added) (hk : key ∈ keys) :
    (b.toSidecar key).Holds keys added := by
  by_cases hb : b.body key = []
  · rwa [toSidecar_of_eq hb]
  · have hbody : ∀ k, (b.toSidecar key).body k = if k = key then [] else b.body k := toSidecar_body b key
    have hlive : (liveOf b.body keys).Perm ((key, b.body key) :: liveOf (b.toSidecar key).body keys) :=
      liveOf_clear h.nodup hk hb (by rw [hbody, if_pos rfl]) fun k hne => by rw [hbody, if_neg hne]
    have hcoll : (b.toSidecar key).collisions =
        b.collisions ++ [(key, b.body key)] := by rw [toSidecar_of_ne hb]
    refine ⟨h.nodup, fun k => ?_, ?_, fun e he => ?_⟩
    · rw [toSidecar_of_ne hb, AList.mem_insert, h.known]
      exact ⟨fun hor => hor.elim (fun heq => heq ▸ hk) id, .inr⟩
    · rw [hcoll]
      refine Perm.trans ?_ ((hlive.append_right b.collisions).symm.trans h.perm)
      exact (perm_append_comm_assoc _ _ _).trans
        ((perm_append_comm.append_left _).trans perm_append_comm)
    · rw [hbody]
      rw [hcoll] at he
      rcases mem_append.mp he with he | he
      · obtain ⟨h1, h2⟩ := h.cleared e he
        exact ⟨h1, by rw [h2, ite_self]⟩
      · obtain rfl := mem_singleton.mp he
        exact ⟨hk, if_pos rfl⟩

/-- **`add`** keeps the entries and appends one. -/
theorem Holds.add (h : b.Holds keys added) {body : Bytes} (hne : body ≠ []) :
    ∃ keys', (b.add key body).Holds keys' (added ++ [(key, body)]) := by
  by_cases hk : key ∈ b.unique
  · have hs := h.toSidecar ((h.known key).mp hk)
    refine ⟨keys, ?_⟩
    rw [MphfBuilder.add, if_pos hk]
    refine ⟨h.nodup, hs.known, ?_, fun e he => ?_⟩
    · have := hs.perm.append_right [(key, body)]
      rwa [append_assoc] at this
    · rcases mem_append.mp he with he | he
      · exact hs.cleared e he
      · obtain rfl := mem_singleton.mp he
        exact ⟨(h.known key).mp hk, (toSidecar_body b key key).trans (if_pos rfl)⟩
  · have hnot : key ∉ keys := fun hmem => hk ((h.known key).mpr hmem)
    have hbody : ∀ k, (b.add key body).body k = if k = key then body else b.body k := fun k => by
      rw [MphfBuilder.add, if_neg hk]
      exact body_insert b key body b.collisions k
    have hlive : (liveOf (b.add key body).body (key :: keys)).Perm
        ((key, body) :: liveOf b.body keys) := by
      refine Perm.of_eq ?_
      rw [liveOf, filter_cons_of_pos (by rw [hbody, if_pos rfl]; simpa using hne), map_cons, hbody,
        if_pos rfl]
      have hother : ∀ k ∈ keys, (b.add key body).body k = b.body k := fun k hmem => by
        rw [hbody, if_neg (ne_of_mem_of_not_mem hmem hnot)]
      rw [liveOf, filter_congr fun k hmem => by rw [hother k hmem]]
      exact congrArg _ (map_congr_left fun k hmem => by rw [hother k (mem_filter.mp hmem).1])
    have hcoll : (b.add key body).collisions = b.collisions := by rw [MphfBuilder.add, if_neg hk]
    refine ⟨key :: keys, nodup_cons.mpr ⟨hnot, h.nodup⟩, fun k => ?_, ?_, fun e he => ?_⟩
    · rw [MphfBuilder.add, if_neg hk, AList.mem_insert, h.known, mem_cons]
    · rw [hcoll]
      refine (hlive.append_right _).trans ?_
      exact ((perm_append_singleton _ _).symm).trans (h.perm.append_right _)
    · rw [hcoll] at he
      obtain ⟨h1, h2⟩ := h.cleared e he
      exact ⟨mem_cons_of_mem key h1, by rw [hbody, if_neg (ne_of_mem_of_not_mem h1 hnot), h2]⟩

/-- The keys in another order. -/
theorem Holds.reorder (h : b.Holds keys added) {keys' : List UInt64} (hp : keys.Perm keys') :
    b.Holds keys' added :=
  ⟨hp.nodup_iff.mp h.nodup, fun k => (h.known k).trans hp.mem_iff,
    ((((hp.filter _).map _).append_right _).symm).trans h.perm,
    fun e he => ⟨hp.mem_iff.mp (h.cleared e he).1, (h.cleared e he).2⟩⟩

theorem Holds.distinctKeys (h : b.Holds keys added) : b.Holds b.distinctKeys added := by
  refine h.reorder ((perm_ext_iff_of_nodup h.nodup ?_).mpr fun k => ?_)
  · exact (perm_insertionSort _ _).nodup_iff.mpr b.unique.keys_nodup
  · rw [← h.known, MphfBuilder.distinctKeys, (perm_insertionSort _ _).mem_iff]
    exact AList.mem_keys

/-- The builder that `add`s bodies under the short form of the keys they start with. -/
def ofBodies (keySize : ℕ) (shortenKey : Bytes → UInt64) (bodies : List Bytes) : MphfBuilder :=
  bodies.foldl (fun b body => b.add (shortenKey (body.take keySize)) body) {}

/-- **A builder holds what was added to it.** -/
theorem ofBodies_holds {keySize : ℕ} {shortenKey : Bytes → UInt64} {bodies : List Bytes}
    (hne : [] ∉ bodies) :
    (ofBodies keySize shortenKey bodies).Holds (ofBodies keySize shortenKey bodies).distinctKeys
      (bodies.map fun body => (shortenKey (body.take keySize), body)) := by
  suffices hrun : ∀ (b : MphfBuilder) (keys : List UInt64) (added : List (UInt64 × Bytes)),
      b.Holds keys added →
      ∃ keys', (bodies.foldl (fun b body => b.add (shortenKey (body.take keySize)) body) b).Holds keys'
        (added ++ bodies.map fun body => (shortenKey (body.take keySize), body)) by
    obtain ⟨keys', h⟩ := hrun {} [] [] holds_empty
    exact h.distinctKeys
  induction bodies with
  | nil => exact fun b keys added h => ⟨keys, by simpa using h⟩
  | cons body bodies ih =>
    intro b keys added h
    rw [mem_cons, not_or] at hne
    obtain ⟨keys', h'⟩ := @Holds.add _ _ _ (shortenKey (body.take keySize)) h _ (Ne.symm hne.1)
    obtain ⟨keys'', h''⟩ := ih hne.2 _ _ _ h'
    exact ⟨keys'', by simpa using h''⟩

/-- Keys moved to the sidecar have no body left, and the others keep theirs. -/
theorem foldl_toSidecar_body (l : List UInt64) (b : MphfBuilder) (k : UInt64) :
    (l.foldl MphfBuilder.toSidecar b).body k = if k ∈ l then [] else b.body k := by
  induction l generalizing b with
  | nil => rfl
  | cons x l ih =>
    rw [foldl_cons, ih, toSidecar_body]
    by_cases hx : k = x <;> by_cases hl : k ∈ l <;> simp [hx, hl]

/-- **Spilled keys moved to the sidecar**: the entries are kept. -/
theorem Holds.spill (h : b.Holds keys added) (hl : ∀ k ∈ l, k ∈ keys) :
    (l.foldl MphfBuilder.toSidecar b).Holds keys added := by
  induction l generalizing b with
  | nil => exact h
  | cons x l ih =>
    exact ih (h.toSidecar (hl x mem_cons_self)) fun k hk => hl k (mem_cons_of_mem x hk)

/-- Moving keys without a body changes nothing. -/
theorem foldl_toSidecar_of_empty (h : ∀ k ∈ l, b.body k = []) :
    l.foldl MphfBuilder.toSidecar b = b := by
  induction l with
  | nil => rfl
  | cons x l ih =>
    rw [foldl_cons, toSidecar_of_eq (h x mem_cons_self)]
    exact ih fun k hk => h k (mem_cons_of_mem x hk)

theorem toSidecar_collisions_le (b : MphfBuilder) (key : UInt64) :
    b.collisions.length ≤ (b.toSidecar key).collisions.length := by
  by_cases h : b.body key = []
  · rw [toSidecar_of_eq h]
  · rw [toSidecar_of_ne h, length_append]
    exact Nat.le_add_right _ _

/-- Moving a key with a body makes the sidecar longer. -/
theorem foldl_toSidecar_collisions_lt (h : ∃ k ∈ l, b.body k ≠ []) :
    b.collisions.length < (l.foldl MphfBuilder.toSidecar b).collisions.length := by
  have hmono : ∀ (l : List UInt64) (b : MphfBuilder),
      b.collisions.length ≤ (l.foldl MphfBuilder.toSidecar b).collisions.length := fun l => by
    induction l with
    | nil => exact fun b => le_rfl
    | cons x l ih => exact fun b => (toSidecar_collisions_le b x).trans (ih _)
  induction l generalizing b with
  | nil => obtain ⟨k, hk, -⟩ := h; cases hk
  | cons x l ih =>
    rw [foldl_cons]
    by_cases hx : b.body x = []
    · obtain ⟨k, hk, hne⟩ := h
      rcases mem_cons.mp hk with rfl | hk
      · exact absurd hx hne
      · rw [toSidecar_of_eq hx]
        exact ih ⟨k, hk, hne⟩
    · refine lt_of_lt_of_le ?_ (hmono l _)
      rw [toSidecar_of_ne hx, length_append]
      exact Nat.lt_succ_self _

end MphfBuilder

end Zilkworm.Witness
