/-
# SSZ framing

`core/common_zz/ssz_read.hpp`: the bounds-checked reads of the stateless-input decoders.  A
container's variable-size fields are cut at the offsets its fixed part holds; a list of byte
lists at the offsets it starts with.  Offsets are 32-bit words and a size is cast to one, so
sizes are taken modulo `2 ^ 32` where the source casts them.
-/
import Zilkworm.Lib.Bytes

namespace Zilkworm.Ssz

open Lib

/-- A size cast to `uint32_t`. -/
def castU32 (n : ℕ) : ℕ := n % 2 ^ 32

/-- The pieces between consecutive offsets, each in order and in bounds. -/
def cutAt (body : Bytes) : List ℕ → Option (List Bytes)
  | a :: b :: rest =>
    if b < a ∨ body.length < b then none
    else (cutAt body (b :: rest)).map (slice body a (b - a) :: ·)
  | _ => some []

/-- `split_variable`. -/
def splitVariable (body : Bytes) (fixedSize : ℕ) (offsetPos : List ℕ) : Option (List Bytes) :=
  if body.length < fixedSize then none
  else
    let offs := offsetPos.map (u32At body)
    if offs.head? ≠ some fixedSize then none
    else cutAt body (offs ++ [castU32 body.length])

/-- `byte_list_count`. -/
def byteListCount (blob : Bytes) (countCap : ℕ) : Option ℕ :=
  if blob = [] then some 0
  else if blob.length < 4 then none
  else
    let first := u32At blob 0
    if first < 4 ∨ first % 4 ≠ 0 ∨ blob.length < first then none
    else if countCap < first / 4 then none
    else some (first / 4)

/-- The loop of `for_each_byte_list` from element `i` on: the elements delivered, and whether it
ran to the end. -/
def byteLists (blob : Bytes) (elemCap n : ℕ) : (left off : ℕ) → List Bytes × Bool
  | 0, _ => ([], true)
  | left + 1, off =>
    let i := n - (left + 1)
    let next := if i + 1 < n then u32At blob ((i + 1) * 4) else castU32 blob.length
    if next < off ∨ blob.length < next then ([], false)
    else if elemCap < next - off then ([], false)
    else
      let (rest, ok) := byteLists blob elemCap n left next
      (slice blob off (next - off) :: rest, ok)

/-- `for_each_byte_list`: elements before a violation are delivered. -/
def forEachByteList (blob : Bytes) (elemCap countCap : ℕ) : List Bytes × Bool :=
  match byteListCount blob countCap with
  | none => ([], false)
  | some n => byteLists blob elemCap n n (n * 4)

/-- `decode_byte_lists`. -/
def decodeByteLists (blob : Bytes) (elemCap countCap : ℕ) : Option (List Bytes) :=
  let (items, ok) := forEachByteList blob elemCap countCap
  if ok then some items else none

/-- `split_fixed_items`. -/
def splitFixedItems (blob : Bytes) (itemSize : ℕ) : Option (List Bytes) :=
  if blob.length % itemSize ≠ 0 then none
  else some ((List.range (blob.length / itemSize)).map fun i => slice blob (i * itemSize) itemSize)

end Zilkworm.Ssz
