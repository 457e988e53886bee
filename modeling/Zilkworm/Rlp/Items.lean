/-
# RLP items

A canonical byte string is read as a sequence of items in one way only: an item is a string or a
list with its payload, its encoding is never the beginning of another item's, and reading the next
item is the inverse of writing one.  Readers that look at the same bytes in different ways are
compared on the items.
-/
import Zilkworm.Rlp.Complete

namespace Zilkworm.Rlp

open List Lib

variable {rest src : Bytes}

/-- A string or a list with its payload; the payload's length fits a header. -/
structure Item where
  list : Bool
  data : Bytes
  fits : data.length < 2 ^ 64
  deriving DecidableEq

namespace Item

/-- The bytes of an item. -/
def encode (it : Item) : Bytes := if it.list then encodeList it.data else encodeBytes it.data

theorem nil_fits : ([] : Bytes).length < 2 ^ 64 := by decide

/-- The empty string. -/
def empty : Item := ⟨false, [], nil_fits⟩

/-- An item is a byte that needs no header, or a header and its payload. -/
theorem encode_cases (it : Item) :
    (∃ b, b < kEmptyStringCode ∧ it.list = false ∧ it.data = [b] ∧ it.encode = [b]) ∨
      it.encode = encodeHeader ⟨it.list, it.data.length⟩ ++ it.data := by
  obtain ⟨_ | _, data, hfits⟩ := it
  · unfold encode encodeBytes
    dsimp only
    rw [if_neg Bool.false_ne_true]
    split
    · rename_i b
      split
      · rename_i hb
        exact .inl ⟨b, hb, rfl, rfl, rfl⟩
      · exact .inr rfl
    · exact .inr rfl
  · exact .inr rfl

@[simp] theorem encode_empty : empty.encode = [kEmptyStringCode] := rfl

end Item

/-- The first item, and what follows it. -/
def nextItem (src : Bytes) : Option (Item × Bytes) :=
  match hd : decodeHeader src with
  | .ok (h, rest) =>
    some (⟨h.list, rest.take h.payloadLength, by
      have := decodeHeader_lt hd
      rw [length_take]
      omega⟩, rest.drop h.payloadLength)
  | .error _ => none

/-- A step of a reader, `n` times. -/
def scan {α : Type} (step : Bytes → Option (α × Bytes)) : (n : ℕ) → Bytes → Option (List α × Bytes)
  | 0, src => some ([], src)
  | n + 1, src => do
    let (a, src) ← step src
    let (as, src) ← scan step n src
    return (a :: as, src)

theorem decodeHeader_encode (it : Item) (rest : Bytes) :
    decodeHeader (it.encode ++ rest) = .ok (⟨it.list, it.data.length⟩, it.data ++ rest) := by
  obtain ⟨_ | _, data, hfits⟩ := it
  · exact decodeHeader_encodeBytes rest hfits
  · exact decodeHeader_encodeList rest hfits

theorem nextItem_encode (it : Item) (rest : Bytes) : nextItem (it.encode ++ rest) = some (it, rest) := by
  have hdec := decodeHeader_encode it rest
  unfold nextItem
  split
  case h_1 h rest' hd =>
    rw [hdec] at hd
    cases hd
    simp only [take_left', drop_left']
  case h_2 e hd =>
    rw [hdec] at hd
    cases hd

theorem nextItem_of_header {h : Header} (hd : decodeHeader src = .ok (h, rest)) :
    ∃ it : Item, it.list = h.list ∧ it.data = rest.take h.payloadLength ∧
      it.data.length = h.payloadLength ∧ nextItem src = some (it, rest.drop h.payloadLength) := by
  have hle := (decodeHeader_spec hd).1
  have hlt := decodeHeader_lt hd
  refine ⟨⟨h.list, rest.take h.payloadLength, by rw [length_take]; omega⟩, rfl, rfl, ?_, ?_⟩
  · rw [length_take]
    omega
  · unfold nextItem
    split
    case h_1 h' rest' hd' =>
      rw [hd] at hd'
      cases hd'
      rfl
    case h_2 e hd' =>
      rw [hd] at hd'
      cases hd'

/-- **Reading the next item inverts writing it.** -/
theorem nextItem_eq_some {it : Item} :
    nextItem src = some (it, rest) ↔ src = it.encode ++ rest := by
  constructor
  · intro hn
    rcases hd : decodeHeader src with e | ⟨h, body⟩
    · unfold nextItem at hn
      split at hn
      case h_1 h' rest' hd' =>
        rw [hd] at hd'
        cases hd'
      case h_2 => cases hn
    · obtain ⟨it', hlist, hdata, -, hn'⟩ := nextItem_of_header hd
      rw [hn'] at hn
      cases hn
      unfold Item.encode
      rw [hlist, hdata]
      split
      case isTrue hl =>
        obtain ⟨hle, hsrc⟩ := decodeHeader_list hd hl
        rw [encodeList, length_take_of_le hle, append_assoc, take_append_drop]
        exact hsrc
      case isFalse hl => exact decodeHeader_string hd (by simpa using hl)
  · rintro rfl
    exact nextItem_encode it rest

theorem Item.encode_ne_nil (it : Item) : it.encode ≠ [] := by
  intro hnil
  have hdec := decodeHeader_encode it []
  rw [hnil] at hdec
  cases hdec

section Scan

variable {α : Type} {step : Bytes → Option (α × Bytes)} {read : Item → Option α}

/-- **A reader of items reads a sequence of items**: what holds of one step holds of all. -/
theorem scan_eq_some (hstep : ∀ {src rest a}, step src = some (a, rest) ↔
      ∃ it, src = it.encode ++ rest ∧ read it = some a) {n : ℕ} {as : List α} :
    scan step n src = some (as, rest) ↔
      ∃ its : List Item, its.length = n ∧ src = (its.map Item.encode).flatten ++ rest ∧
        its.mapM read = some as := by
  induction n generalizing src as with
  | zero =>
    constructor
    · intro h
      cases h
      exact ⟨[], rfl, rfl, rfl⟩
    · rintro ⟨its, hlen, rfl, has⟩
      rw [length_eq_zero_iff] at hlen
      subst hlen
      cases has
      rfl
  | succ n ih =>
    constructor
    · intro h
      obtain ⟨⟨a, mid⟩, ha, h⟩ := Option.bind_eq_some_iff.mp h
      obtain ⟨⟨as', last⟩, has, h⟩ := Option.bind_eq_some_iff.mp h
      cases h
      obtain ⟨it, rfl, hit⟩ := hstep.mp ha
      obtain ⟨its, hlen, rfl, hits⟩ := ih.mp has
      refine ⟨it :: its, by rw [length_cons, hlen], ?_, ?_⟩
      · rw [map_cons, flatten_cons, append_assoc]
      · rw [mapM_cons, hit, hits]
        rfl
    · rintro ⟨its, hlen, rfl, has⟩
      cases its with
      | nil => cases hlen
      | cons it its =>
        rw [mapM_cons] at has
        obtain ⟨a, ha, has⟩ := Option.bind_eq_some_iff.mp has
        obtain ⟨as', has', h⟩ := Option.bind_eq_some_iff.mp has
        cases h
        have htail := ih.mpr ⟨its, Nat.succ.inj hlen, rfl, has'⟩
        rw [map_cons, flatten_cons, append_assoc]
        exact Option.bind_eq_some_iff.mpr ⟨_, hstep.mpr ⟨it, rfl, ha⟩,
          Option.bind_eq_some_iff.mpr ⟨_, htail, rfl⟩⟩

end Scan

/-- A sequence of items is read in one way only. -/
theorem items_unique {its its' : List Item} {rest' : Bytes} (hlen : its.length = its'.length)
    (h : (its.map Item.encode).flatten ++ rest = (its'.map Item.encode).flatten ++ rest') :
    its = its' ∧ rest = rest' := by
  induction its generalizing its' with
  | nil =>
    obtain rfl : its' = [] := length_eq_zero_iff.mp hlen.symm
    exact ⟨rfl, h⟩
  | cons it its ih =>
    cases its' with
    | nil => cases hlen
    | cons it' its' =>
      simp only [map_cons, flatten_cons, append_assoc] at h
      have hnext := nextItem_encode it ((its.map Item.encode).flatten ++ rest)
      rw [h, nextItem_encode, Option.some.injEq, Prod.mk.injEq] at hnext
      obtain ⟨rfl, htail⟩ := hnext
      obtain ⟨rfl, hrest⟩ := ih (Nat.succ.inj hlen) htail.symm
      exact ⟨rfl, hrest⟩

end Zilkworm.Rlp
