/-
# Patricia tries

A trie over an alphabet of `w` letters with a value at the end of each key.  A chain of single
children is one path, of a leaf or of an extension; a branch has at least two children.  No key is
a prefix of another, so a branch has no value of its own.

A trie is taken apart letter by letter (`child`, the keys behind a first letter) and put together
again (`node`).  A well-formed trie is determined by what it holds, so it can be called the trie of
its map.
-/
import Mathlib.Data.Finset.Lattice.Fold
import Mathlib.Data.Fintype.Basic
import Mathlib.Data.List.FinRange
import Mathlib.Data.List.Infix
import Mathlib.Logic.Function.Basic

namespace Zilkworm.Lib

open List

/-- A compressed trie; `empty` is the trie of no keys, and the absent child of a branch. -/
inductive Patricia (w : ℕ) (V : Type) where
  | empty
  | leaf (path : List (Fin w)) (value : V)
  | ext (path : List (Fin w)) (below : Patricia w V)
  | branch (children : Fin w → Patricia w V)

namespace Patricia

variable {w : ℕ} {V : Type} {t : Patricia w V}

/-- Whether a trie has no keys. -/
def isEmpty : Patricia w V → Bool
  | empty => true
  | _ => false

/-- Whether a trie branches at its root. -/
def isBranch : Patricia w V → Bool
  | branch _ => true
  | _ => false

/-- The value of a key. -/
def lookup : Patricia w V → List (Fin w) → Option V
  | empty, _ => none
  | leaf path value, key => if key = path then some value else none
  | ext path below, key => if path <+: key then lookup below (key.drop path.length) else none
  | branch _, [] => none
  | branch children, a :: key => lookup (children a) key

/-- The trie of the keys behind a first letter. -/
def child : Patricia w V → Fin w → Patricia w V
  | empty, _ => empty
  | leaf [] _, _ => empty
  | leaf (b :: path) value, a => if a = b then leaf path value else empty
  | ext [] _, _ => empty
  | ext (b :: path) below, a => if a = b then if path = [] then below else ext path below else empty
  | branch children, a => children a

/-- The trie of the keys behind a prefix. -/
def sub (t : Patricia w V) (front : List (Fin w)) : Patricia w V := front.foldl child t

/-- A trie with a letter in front of every key. -/
def push (a : Fin w) : Patricia w V → Patricia w V
  | empty => empty
  | leaf path value => leaf (a :: path) value
  | ext path below => ext (a :: path) below
  | branch children => ext [a] (branch children)

/-- A trie with a path in front of every key. -/
def pushAll (path : List (Fin w)) (t : Patricia w V) : Patricia w V := path.foldr push t

/-- The trie with these children; a single one is compressed. -/
def node (children : Fin w → Patricia w V) : Patricia w V :=
  match (finRange w).filter fun a => !(children a).isEmpty with
  | [] => empty
  | [a] => push a (children a)
  | _ => branch children

/-- Compressed as far as can be: an extension leads to a branch, a branch has two children. -/
def WF : Patricia w V → Prop
  | empty => True
  | leaf _ _ => True
  | ext path below => path ≠ [] ∧ below.isBranch ∧ WF below
  | branch children =>
    (∃ a b, a ≠ b ∧ (children a).isEmpty = false ∧ (children b).isEmpty = false) ∧ ∀ a, WF (children a)

/-- The value of one key changed: given, or taken away. -/
def set : (key : List (Fin w)) → Option V → Patricia w V → Patricia w V
  | [], some value, _ => leaf [] value
  | [], none, _ => empty
  | a :: key, value, t => node (Function.update t.child a (set key value (t.child a)))

/-! ## Letter by letter -/

@[simp] theorem sub_nil (t : Patricia w V) : t.sub [] = t := rfl

@[simp] theorem sub_cons (t : Patricia w V) (a : Fin w) (front : List (Fin w)) :
    t.sub (a :: front) = (t.child a).sub front := rfl

theorem sub_append (t : Patricia w V) (front back : List (Fin w)) :
    t.sub (front ++ back) = (t.sub front).sub back := foldl_append

@[simp] theorem pushAll_nil (t : Patricia w V) : pushAll [] t = t := rfl

@[simp] theorem pushAll_cons (a : Fin w) (path : List (Fin w)) (t : Patricia w V) :
    pushAll (a :: path) t = push a (pushAll path t) := rfl

theorem pushAll_append (front back : List (Fin w)) (t : Patricia w V) :
    pushAll (front ++ back) t = pushAll front (pushAll back t) := foldr_append

@[simp] theorem isEmpty_iff : t.isEmpty = true ↔ t = empty := by
  cases t <;> simp [isEmpty]

theorem isEmpty_false_iff : t.isEmpty = false ↔ t ≠ empty := by
  cases t <;> simp [isEmpty]

/-- A key with a first letter is looked up among those behind it. -/
theorem lookup_cons (ht : t.WF) (a : Fin w) (key : List (Fin w)) :
    t.lookup (a :: key) = (t.child a).lookup key := by
  cases t with
  | empty => rfl
  | branch children => rfl
  | leaf path value =>
    cases path with
    | nil => rfl
    | cons b path =>
      rw [child]
      by_cases hab : a = b
      · subst hab
        simp [lookup]
      · simp [lookup, hab]
  | ext path below =>
    cases path with
    | nil => exact absurd rfl ht.1
    | cons b path =>
      rw [child]
      by_cases hab : a = b
      · subst hab
        by_cases hp : path = []
        · subst hp
          simp [lookup]
        · simp [lookup, hp, cons_prefix_cons]
      · simp [lookup, hab, cons_prefix_cons, Ne.symm hab]

/-- The subtree at a letter is canonical again. -/
theorem WF.child (ht : t.WF) (a : Fin w) : (t.child a).WF := by
  cases t with
  | empty => exact trivial
  | branch children => exact ht.2 a
  | leaf path value =>
    cases path with
    | nil => exact trivial
    | cons b path =>
      rw [Patricia.child]
      split <;> exact trivial
  | ext path below =>
    obtain ⟨hpath, hbranch, hbelow⟩ := ht
    cases path with
    | nil => exact absurd rfl hpath
    | cons b path =>
      rw [Patricia.child]
      split_ifs with hab hp
      · exact hbelow
      · exact ⟨hp, hbranch, hbelow⟩
      · exact trivial

theorem WF.sub (ht : t.WF) (front : List (Fin w)) : (t.sub front).WF := by
  induction front generalizing t with
  | nil => exact ht
  | cons a front ih => exact ih (ht.child a)

/-- Looking up a key behind a front is looking up the rest in the subtree there. -/
theorem lookup_sub (ht : t.WF) (front key : List (Fin w)) :
    t.lookup (front ++ key) = (t.sub front).lookup key := by
  induction front generalizing t with
  | nil => rfl
  | cons a front ih =>
    rw [cons_append, lookup_cons ht, ih (ht.child a), sub_cons]

/-! ## What a trie holds -/

/-- A canonical trie that is not empty has a key. -/
theorem WF.exists_key (ht : t.WF) (hne : t ≠ empty) : ∃ key value, t.lookup key = some value := by
  induction t with
  | empty => exact absurd rfl hne
  | leaf path value => exact ⟨path, value, if_pos rfl⟩
  | ext path below ih =>
    obtain ⟨key, value, h⟩ := ih ht.2.2 (by rintro rfl; cases ht.2.1)
    refine ⟨path ++ key, value, ?_⟩
    rw [lookup, if_pos (prefix_append path key), drop_left]
    exact h
  | branch children ih =>
    obtain ⟨⟨a, -, -, ha, -⟩, hall⟩ := ht
    obtain ⟨key, value, h⟩ := ih a (hall a) (isEmpty_false_iff.mp ha)
    exact ⟨a :: key, value, h⟩

/-- A trie without keys is the empty one. -/
theorem WF.eq_empty (ht : t.WF) (h : ∀ key, t.lookup key = none) : t = empty := by
  by_contra hne
  obtain ⟨key, value, hk⟩ := ht.exists_key hne
  rw [h key] at hk
  cases hk

/-- The empty key is alone. -/
theorem WF.eq_leaf_nil (ht : t.WF) {value : V} (h : t.lookup [] = some value) :
    t = leaf [] value := by
  cases t with
  | empty => cases h
  | branch children => cases h
  | leaf path v =>
    rw [lookup] at h
    split at h
    · rename_i hp
      cases h
      rw [← hp]
    · cases h
  | ext path below =>
    rw [lookup, if_neg] at h
    · cases h
    · rw [prefix_nil]
      exact ht.1

theorem child_push (ht : t.WF) (a b : Fin w) :
    (push a t).child b = if b = a then t else empty := by
  cases t with
  | empty => rw [push, child, ite_self]
  | leaf path value => rfl
  | ext path below => rw [push, child, if_neg ht.1]
  | branch children => rw [push, child, if_pos rfl]

theorem WF.push (ht : t.WF) (a : Fin w) : (Patricia.push a t).WF := by
  cases t with
  | empty => exact trivial
  | leaf path value => exact trivial
  | ext path below => exact ⟨cons_ne_nil _ _, ht.2⟩
  | branch children => exact ⟨cons_ne_nil _ _, rfl, ht⟩

theorem lookup_push_nil (a : Fin w) (t : Patricia w V) : (push a t).lookup [] = none := by
  cases t with
  | empty => rfl
  | leaf path value => rfl
  | ext path below => rw [push, lookup, if_neg (by rw [prefix_nil]; exact cons_ne_nil _ _)]
  | branch children => rw [push, lookup, if_neg (by rw [prefix_nil]; exact cons_ne_nil _ _)]

/-- The letters with keys behind them. -/
theorem mem_letters {children : Fin w → Patricia w V} {a : Fin w} :
    (a ∈ (finRange w).filter fun a => !(children a).isEmpty) ↔ children a ≠ empty := by
  rw [mem_filter, Bool.not_eq_true', isEmpty_false_iff]
  exact and_iff_right (mem_finRange a)

/-- **Putting a trie together.**  The trie made of its children is well formed, holds no empty key,
and has those children. -/
theorem node_spec {children : Fin w → Patricia w V} (h : ∀ a, (children a).WF) :
    (node children).WF ∧ (node children).lookup [] = none ∧
      ∀ a, (node children).child a = children a := by
  have hmem := fun a => @mem_letters w V children a
  have hnodup := (nodup_finRange w).filter fun a => !(children a).isEmpty
  unfold node
  split
  · rename_i hnone
    refine ⟨trivial, rfl, fun a => ?_⟩
    by_contra hne
    exact absurd ((hmem a).mpr (Ne.symm hne)) (by rw [hnone]; exact not_mem_nil)
  · rename_i b hone
    refine ⟨(h b).push b, lookup_push_nil b _, fun a => ?_⟩
    rw [child_push (h b)]
    split
    · rename_i hab
      rw [hab]
    · rename_i hab
      by_contra hne
      have := (hmem a).mpr (Ne.symm hne)
      rw [hone, mem_singleton] at this
      exact hab this
  · rename_i hnil hone
    refine ⟨⟨?_, h⟩, rfl, fun a => rfl⟩
    rcases hl : (finRange w).filter fun a => !(children a).isEmpty with _ | ⟨a, _ | ⟨b, l⟩⟩
    · exact absurd hl hnil
    · exact absurd hl (hone a)
    · rw [hl] at hnodup hmem
      refine ⟨a, b, ?_, isEmpty_false_iff.mpr ((hmem a).mp mem_cons_self),
        isEmpty_false_iff.mpr ((hmem b).mp (mem_cons_of_mem a mem_cons_self))⟩
      rintro rfl
      exact (nodup_cons.mp hnodup).1 mem_cons_self

/-- A branch is what its children make. -/
theorem WF.eq_branch (ht : t.WF) {a b : Fin w} (hab : a ≠ b) (ha : t.child a ≠ empty)
    (hb : t.child b ≠ empty) : t = branch t.child := by
  cases t with
  | empty => exact absurd rfl ha
  | branch children => rfl
  | leaf path value =>
    cases path with
    | nil => exact absurd rfl ha
    | cons c path =>
      rw [Patricia.child, Ne, ite_eq_right_iff, Classical.not_imp] at ha hb
      exact absurd (ha.1.trans hb.1.symm) hab
  | ext path below =>
    cases path with
    | nil => exact absurd rfl ht.1
    | cons c path =>
      rw [Patricia.child, Ne, ite_eq_right_iff, Classical.not_imp] at ha hb
      exact absurd (ha.1.trans hb.1.symm) hab

/-- A trie whose keys all start with one letter is that letter in front of the rest. -/
theorem WF.eq_push (ht : t.WF) {a : Fin w} (hnil : t.lookup [] = none)
    (hone : ∀ b, b ≠ a → t.child b = empty) : t = Patricia.push a (t.child a) := by
  cases t with
  | empty => rfl
  | branch children =>
    obtain ⟨⟨b, c, hbc, hb, hc⟩, -⟩ := ht
    by_cases hba : b = a
    · exact absurd (hone c fun hca => hbc (hba.trans hca.symm)) (isEmpty_false_iff.mp hc)
    · exact absurd (hone b hba) (isEmpty_false_iff.mp hb)
  | leaf path value =>
    cases path with
    | nil => cases hnil
    | cons b path =>
      by_cases hba : b = a
      · subst hba
        rw [Patricia.child, if_pos rfl]
        rfl
      · have := hone b hba
        rw [Patricia.child, if_pos rfl] at this
        cases this
  | ext path below =>
    obtain ⟨hpath, hbranch, hbelow⟩ := ht
    cases path with
    | nil => exact absurd rfl hpath
    | cons b path =>
      by_cases hba : b = a
      · subst hba
        rw [Patricia.child, if_pos rfl]
        split
        · rename_i hp
          subst hp
          cases below with
          | branch children => rfl
          | _ => cases hbranch
        · rfl
      · have := hone b hba
        rw [Patricia.child, if_pos rfl] at this
        split at this
        · rw [this] at hbranch
          cases hbranch
        · cases this

/-- A trie without the empty key is determined by its children. -/
theorem WF.eq_of_child {t t' : Patricia w V} (ht : t.WF) (ht' : t'.WF) (hnil : t.lookup [] = none)
    (hnil' : t'.lookup [] = none) (h : ∀ a, t.child a = t'.child a) : t = t' := by
  by_cases htwo : ∃ a b, a ≠ b ∧ t.child a ≠ empty ∧ t.child b ≠ empty
  · obtain ⟨a, b, hab, ha, hb⟩ := htwo
    rw [ht.eq_branch hab ha hb, ht'.eq_branch hab (h a ▸ ha) (h b ▸ hb), funext h]
  · push Not at htwo
    by_cases hsome : ∃ a, t.child a ≠ empty
    · obtain ⟨a, ha⟩ := hsome
      have hone : ∀ b, b ≠ a → t.child b = empty := fun b hba => htwo a b (Ne.symm hba) ha
      rw [ht.eq_push hnil hone, ht'.eq_push hnil' fun b hba => h b ▸ hone b hba, h a]
    · push Not at hsome
      have hempty : ∀ {s : Patricia w V}, s.WF → s.lookup [] = none → (∀ a, s.child a = empty) →
          s = empty := by
        intro s hs hn hc
        refine hs.eq_empty fun key => ?_
        cases key with
        | nil => exact hn
        | cons a key => rw [lookup_cons hs, hc a, lookup]
      rw [hempty ht hnil hsome, hempty ht' hnil' fun a => h a ▸ hsome a]

/-- The keys of a trie have bounded length. -/
theorem exists_bound (t : Patricia w V) : ∃ n, ∀ key value, t.lookup key = some value →
    key.length ≤ n := by
  induction t with
  | empty => exact ⟨0, fun key value h => by cases h⟩
  | leaf path value =>
    refine ⟨path.length, fun key v h => ?_⟩
    rw [lookup] at h
    split at h
    · rename_i hk
      rw [hk]
    · cases h
  | ext path below ih =>
    obtain ⟨n, hn⟩ := ih
    refine ⟨path.length + n, fun key v h => ?_⟩
    rw [lookup] at h
    split at h
    · have := hn _ v h
      rw [length_drop] at this
      omega
    · cases h
  | branch children ih =>
    choose n hn using ih
    refine ⟨Finset.univ.sup n + 1, fun key v h => ?_⟩
    cases key with
    | nil => cases h
    | cons a key =>
      have hle : n a ≤ Finset.univ.sup n := Finset.le_sup (Finset.mem_univ a)
      have := hn a key v h
      rw [length_cons]
      omega

/-- **A well-formed trie is determined by what it holds.** -/
theorem WF.unique {t t' : Patricia w V} (ht : t.WF) (ht' : t'.WF)
    (h : ∀ key, t.lookup key = t'.lookup key) :
    t = t' := by
  obtain ⟨n, hn⟩ := t.exists_bound
  induction n generalizing t t' with
  | zero =>
    rcases hnil : t.lookup [] with _ | value
    · have hnone : ∀ key, t.lookup key = none := by
        intro key
        rcases hk : t.lookup key with _ | v
        · rfl
        · obtain rfl := length_eq_zero_iff.mp (Nat.le_zero.mp (hn key v hk))
          rw [hnil] at hk
          cases hk
      rw [ht.eq_empty hnone, ht'.eq_empty fun key => (h key).symm.trans (hnone key)]
    · rw [ht.eq_leaf_nil hnil, ht'.eq_leaf_nil ((h []).symm.trans hnil)]
  | succ n ih =>
    rcases hnil : t.lookup [] with _ | value
    · refine ht.eq_of_child ht' hnil ((h []).symm.trans hnil) fun a =>
        ih (ht.child a) (ht'.child a) ?_ ?_
      · intro key
        rw [← lookup_cons ht, ← lookup_cons ht', h]
      · intro key v hk
        rw [← lookup_cons ht] at hk
        exact Nat.le_of_succ_le_succ (hn (a :: key) v hk)
    · rw [ht.eq_leaf_nil hnil, ht'.eq_leaf_nil ((h []).symm.trans hnil)]

/-! ## One key changed -/

/-- Setting a key, or removing it, keeps the trie canonical. -/
theorem WF.set (ht : t.WF) (key : List (Fin w)) (value : Option V) :
    (Patricia.set key value t).WF := by
  induction key generalizing t with
  | nil => cases value <;> exact trivial
  | cons a key ih =>
    refine (node_spec fun b => ?_).1
    by_cases hb : b = a
    · subst hb
      rw [Function.update_self]
      exact ih (ht.child b)
    · rw [Function.update_of_ne hb]
      exact ht.child b

/-- **What a trie holds after a change**: the other keys are as before, if none of them is a prefix
of the changed one, or it of them. -/
theorem lookup_set (ht : t.WF) {key : List (Fin w)} {value : Option V}
    (hfree : ∀ key' v, t.lookup key' = some v → (key <+: key' ∨ key' <+: key) → key' = key)
    (key' : List (Fin w)) :
    (set key value t).lookup key' = if key' = key then value else t.lookup key' := by
  induction key generalizing t key' with
  | nil =>
    have hother : key' ≠ [] → t.lookup key' = none := by
      intro hne
      rcases hk : t.lookup key' with _ | v
      · rfl
      · exact absurd (hfree key' v hk (.inl nil_prefix)) hne
    cases value with
    | none =>
      rw [set, lookup]
      split
      · rfl
      · rename_i hne
        exact (hother hne).symm
    | some v =>
      rw [set, lookup]
      split
      · rfl
      · rename_i hne
        exact (hother hne).symm
  | cons a key ih =>
    have hwf : ∀ b, (Function.update t.child a (set key value (t.child a)) b).WF := by
      intro b
      by_cases hb : b = a
      · subst hb
        rw [Function.update_self]
        exact (ht.child b).set key value
      · rw [Function.update_of_ne hb]
        exact ht.child b
    obtain ⟨hnode, hnil, hchild⟩ := node_spec hwf
    rw [set]
    cases key' with
    | nil =>
      rw [hnil, if_neg (cons_ne_nil a key).symm]
      rcases hk : t.lookup [] with _ | v
      · rfl
      · exact absurd (hfree [] v hk (.inr nil_prefix)).symm (cons_ne_nil _ _)
    | cons b key' =>
      rw [lookup_cons hnode, hchild]
      by_cases hb : b = a
      · subst hb
        rw [Function.update_self, lookup_cons ht, ih (ht.child b)]
        · simp
        · intro k v hk hp
          rw [← lookup_cons ht] at hk
          have := hfree (b :: k) v hk (by simpa [cons_prefix_cons] using hp)
          simpa using this
      · rw [Function.update_of_ne hb, lookup_cons ht, if_neg fun h => hb (List.cons.inj h).1]

end Patricia

end Zilkworm.Lib
