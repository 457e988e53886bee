/-
# BLOCKHASH and the walk it keeps

`get_block_hash` of either backend walks back from the block that asks: an ancestor's hash is the
parent hash of its child, and each child is the header keyed by the hash the one after it names.  A
block asks again and again, so the walk is kept.  `DirectState` keeps as much as was asked for and
knows the block it is for by the first hash; `HashState` walks as far as it can at once and keeps
the block's number and parent hash beside the walk.

Here both are compared with a walk made afresh through the headers held at that moment.
`DirectState` always answers like it.  `HashState::insert_header` empties the walk but leaves the
number and the parent hash, so the block that asked last is answered from the empty walk.
-/
import Zilkworm.Lib.Walk
import Zilkworm.State.HashBackend
import Zilkworm.State.DirectBackend

namespace Zilkworm.State

open List Lib Rlp Zilkworm.Types

/-! ## The walk made afresh -/

/-- The parent hash of the header held under a hash. -/
def parentOf (headers : HashMap BlockHeader) (hash : Bytes32) : Option Bytes32 :=
  (headers.lookup hash).map (·.parentHash)

/-- How far block `n` lies below the parent of the block `header` heads. -/
def depthOf (header : BlockHeader) (n : U64) : ℕ := (header.number - 1 - n).toNat

/-- **The fresh walk**: the hash of block `n` as the headers held lead to it from `header`. -/
def freshWalk (headers : HashMap BlockHeader) (header : BlockHeader) (n : U64) : Option Bytes32 :=
  walk (parentOf headers) (depthOf header n) header.parentHash

/-- A call of the two functions that use the headers. -/
inductive HeaderCall where
  | insertHeader (header : BlockHeader)
  | getBlockHash (header : BlockHeader) (n : U64)

section Calls

variable (keccak256 : Bytes → Bytes32) {σ : Type} [ActiveState keccak256 σ]

/-- A property of a state and a question to it holds at each call of `get_block_hash` for a block
below the one that asks. -/
def AtEachCall (P : σ → BlockHeader → U64 → Prop) : List HeaderCall → σ → Prop
  | [], _ => True
  | .insertHeader h :: calls, s => AtEachCall P calls (ActiveState.insertHeader keccak256 h s)
  | .getBlockHash h n :: calls, s =>
    (n < h.number → P s h n) ∧ AtEachCall P calls (ActiveState.getBlockHash keccak256 h n s).2

variable {keccak256}

/-- An invariant of both calls gives what follows from it at each question. -/
theorem AtEachCall.of_inv {Inv : σ → Prop} {P : σ → BlockHeader → U64 → Prop}
    (hinsert : ∀ h s, Inv s → Inv (ActiveState.insertHeader keccak256 h s))
    (hask : ∀ h n s, Inv s → Inv (ActiveState.getBlockHash keccak256 h n s).2)
    (hP : ∀ h n s, Inv s → n < h.number → P s h n) (calls : List HeaderCall) {s : σ} (hs : Inv s) :
    AtEachCall keccak256 P calls s := by
  induction calls generalizing s with
  | nil => trivial
  | cons call calls ih =>
    cases call with
    | insertHeader h => exact ih (hinsert h s hs)
    | getBlockHash h n => exact ⟨hP h n s hs, ih (hask h n s hs)⟩

theorem AtEachCall.iff {P Q : σ → BlockHeader → U64 → Prop} {calls : List HeaderCall} {s : σ}
    (h : AtEachCall keccak256 (fun s header n => P s header n ↔ Q s header n) calls s) :
    AtEachCall keccak256 P calls s ↔ AtEachCall keccak256 Q calls s := by
  induction calls generalizing s with
  | nil => exact Iff.rfl
  | cons call calls ih =>
    cases call with
    | insertHeader header => exact ih h
    | getBlockHash header n => exact and_congr (forall_congr' h.1) (ih h.2)

end Calls

/-! ## `DirectState` -/

namespace DirectState

/-- What a fresh walk answers; where the header of block `n` itself is required, it must be held. -/
def freshBlockHash (s : DirectState) (header : BlockHeader) (n : U64) : Option Bytes32 :=
  (freshWalk s.headers header n).filter fun hash => s.requireBlockHashHeaders = false ∨ hash ∈ s.headers

/-- **A question is answered as by a fresh walk**: its hash, or zero with `ancestor_missing()` set.
-/
def AnswersAfresh (s : DirectState) (header : BlockHeader) (n : U64) : Prop :=
  (s.getBlockHash header n).1 = (s.freshBlockHash header n).getD zeroBytes32 ∧
    (s.getBlockHash header n).2.ancestorMissing =
      (s.ancestorMissing || (s.freshBlockHash header n).isNone)

/-- What is kept is a walk through the headers held, and ends where it is said to. -/
structure MemoOk (s : DirectState) : Prop where
  isWalk : IsWalk (parentOf s.headers) s.ancestors
  ends : s.ancestorsEnd = true →
    ∀ h : s.ancestors ≠ [], parentOf s.headers (s.ancestors.getLast h) = none

variable {s : DirectState} {header : BlockHeader}

theorem MemoOk.of_nil (h : s.ancestors = []) : s.MemoOk where
  isWalk := by rw [h]; exact isChain_nil
  ends := fun _ hne => absurd h hne

theorem MemoOk.startWalk (h : s.MemoOk) :
    (s.startWalk header).MemoOk ∧ ∃ l number e, s.startWalk header =
      { s with ancestors := header.parentHash :: l, ancestorsNumber := number, ancestorsEnd := e } := by
  unfold DirectState.startWalk
  split
  · exact ⟨⟨isChain_singleton _, nofun⟩, [], header.number, false, rfl⟩
  · next hkept =>
    simp only [not_or, not_not] at hkept
    obtain ⟨-, -, hhead⟩ := hkept
    refine ⟨h, s.ancestors.tail, s.ancestorsNumber, s.ancestorsEnd, ?_⟩
    rw [← eq_cons_of_mem_head? hhead]

/-- **The loop keeps the walk**, and finds the hashes missing or meets its end. -/
theorem MemoOk.extendWalk {a : Bytes32} (missing : ℕ) {s : DirectState} {l : List Bytes32}
    (h : s.MemoOk) (hs : s.ancestors = a :: l) :
    ∃ l' e, (extendWalk missing s).2 = { s with ancestors := a :: l', ancestorsEnd := e } ∧
      (extendWalk missing s).2.MemoOk ∧
      ((extendWalk missing s).1 = true → l'.length = l.length + missing) ∧
      ((extendWalk missing s).1 = false → e = true ∧ l.length ≤ l'.length ∧
        l'.length < l.length + missing) := by
  induction missing generalizing s l with
  | zero => exact ⟨l, s.ancestorsEnd, by rw [← hs]; rfl, h, fun _ => rfl, fun hf => Bool.noConfusion hf⟩
  | succ missing ih =>
    have hlast : s.ancestors.getLastD zeroBytes32 = s.ancestors.getLast (by simp [hs]) := by
      rw [getLastD_eq_getLast?, getLast?_eq_some_getLast, Option.getD_some]
    rw [DirectState.extendWalk]
    split
    · next hnone =>
      -- the walk ends here, as was known or as the lookup says
      have hend : parentOf s.headers (s.ancestors.getLast (by simp [hs])) = none := by
        split at hnone
        · next he => exact h.ends he _
        · rw [parentOf, ← hlast, hnone, Option.map_none]
      refine ⟨l, true, by rw [← hs], ⟨h.isWalk, fun _ _ => hend⟩, fun hf => Bool.noConfusion hf,
        fun _ => ?_⟩
      exact ⟨rfl, le_rfl, by omega⟩
    · next child hsome =>
      have hopen : s.ancestorsEnd = false := by
        cases he : s.ancestorsEnd
        · rfl
        · simp [he] at hsome
      have hnext : parentOf s.headers (s.ancestors.getLast (by simp [hs])) = some child.parentHash := by
        simp only [hopen, Bool.false_eq_true, if_false] at hsome
        rw [parentOf, ← hlast, hsome, Option.map_some]
      obtain ⟨l', e, heq, hok, hfound, hmiss⟩ :=
        @ih { s with ancestors := s.ancestors ++ [child.parentHash] } (l ++ [child.parentHash])
          ⟨h.isWalk.concat _ hnext, fun he => by rw [hopen] at he; cases he⟩ (by simp [hs])
      refine ⟨l', e, heq, hok, fun hf => ?_, fun hf => ⟨(hmiss hf).1, ?_⟩⟩
      · have := hfound hf
        simp only [length_append, length_singleton] at this
        omega
      · have := (hmiss hf).2
        simp only [length_append, length_singleton] at this
        exact ⟨by omega, by omega⟩

/-- The state `t` after the loop of a question to `s`: the walk reaches block `n`, or ends before.
-/
structure Walked (s : DirectState) (header : BlockHeader) (n : U64) (found : Bool) (t : DirectState) :
    Prop where
  memo : t.MemoOk
  frame : t.headers = s.headers ∧ t.ancestorMissing = s.ancestorMissing ∧
    t.requireBlockHashHeaders = s.requireBlockHashHeaders
  walked : ∃ l, t.ancestors = header.parentHash :: l ∧ (found = true → depthOf header n ≤ l.length) ∧
    (found = false → t.ancestorsEnd = true ∧ l.length < depthOf header n)

theorem MemoOk.walked (h : s.MemoOk) (header : BlockHeader) (n : U64) :
    let r := DirectState.extendWalk (depthOf header n + 1 - (s.startWalk header).ancestors.length)
      (s.startWalk header)
    Walked s header n r.1 r.2 := by
  obtain ⟨hstart, l, number, e, hl⟩ := @MemoOk.startWalk s header h
  have hlen : (s.startWalk header).ancestors.length = l.length + 1 := by rw [hl]; rfl
  obtain ⟨l', e', heq, hok, hfound, hmiss⟩ :=
    hstart.extendWalk (depthOf header n + 1 - (s.startWalk header).ancestors.length)
      (show (s.startWalk header).ancestors = header.parentHash :: l by rw [hl])
  refine ⟨hok, ?_, l', ?_, fun hf => ?_, fun hf => ?_⟩
  · rw [heq, hl]
    exact ⟨rfl, rfl, rfl⟩
  · rw [heq]
  · have := hfound hf
    omega
  · have := hmiss hf
    rw [heq]
    exact ⟨this.1, by omega⟩

variable {n : U64} {t : DirectState}

/-- Where the loop found the hash, it is the fresh walk's. -/
theorem Walked.found (h : Walked s header n true t) :
    freshWalk s.headers header n = some (t.ancestors.getD (depthOf header n) zeroBytes32) := by
  obtain ⟨l, hl, hfound, -⟩ := h.walked
  have hwalk := h.memo.isWalk
  have hlt : depthOf header n < (header.parentHash :: l).length := Nat.lt_succ_of_le (hfound rfl)
  rw [hl, h.frame.1] at hwalk
  rw [freshWalk, walk_eq_getElem? hwalk hlt, hl, getD_eq_getElem?_getD,
    getElem?_eq_getElem hlt, Option.getD_some]

/-- Where it did not, the fresh walk fails. -/
theorem Walked.missing (h : Walked s header n false t) : freshWalk s.headers header n = none := by
  obtain ⟨l, hl, -, hmiss⟩ := h.walked
  obtain ⟨he, hlt⟩ := hmiss rfl
  have hwalk := h.memo.isWalk
  have hend := h.memo.ends he (by simp [hl])
  simp only [hl, h.frame.1] at hwalk hend
  rw [freshWalk, walk_eq_none hwalk hend (Nat.succ_le_of_lt hlt)]

/-- **Every question is answered as by a fresh walk**, and the walk kept stays one. -/
theorem MemoOk.answers (h : s.MemoOk) (hn : n < header.number) :
    s.AnswersAfresh header n ∧ (s.getBlockHash header n).2.MemoOk := by
  have hw := h.walked header n
  rw [AnswersAfresh, DirectState.getBlockHash, if_neg (BitVec.not_le.mpr hn), freshBlockHash]
  dsimp only at hw ⊢
  rw [show (header.number - 1 - n).toNat = depthOf header n from rfl]
  generalize DirectState.extendWalk _ _ = r at hw ⊢
  obtain ⟨found, t⟩ := r
  have hframe := hw.frame
  cases found with
  | false =>
    rw [if_pos rfl, hw.missing]
    exact ⟨⟨rfl, by simp⟩, hw.memo.isWalk, hw.memo.ends⟩
  | true =>
    rw [if_neg (by simp), hw.found]
    split
    · next hreq =>
      rw [hframe.1, hframe.2.2] at hreq
      rw [Option.filter_some_neg (by simpa using hreq)]
      exact ⟨⟨rfl, by simp⟩, hw.memo.isWalk, hw.memo.ends⟩
    · next hreq =>
      rw [hframe.1, hframe.2.2, not_and_or, not_not] at hreq
      rw [Option.filter_some_pos (by simpa using hreq)]
      exact ⟨⟨rfl, by simpa using hframe.2.1⟩, hw.memo⟩

theorem MemoOk.getBlockHash (h : s.MemoOk) : (s.getBlockHash header n).2.MemoOk := by
  by_cases hn : n < header.number
  · exact (h.answers hn).2
  · rw [DirectState.getBlockHash, if_pos (BitVec.not_lt.mp hn)]
    exact h

end DirectState

/-! ## `HashState` -/

namespace HashState

/-- What a fresh walk answers: block `n` is in reach and its header held. -/
def freshBlockHash (s : HashState) (header : BlockHeader) (n : U64) : Option Bytes32 :=
  if depthOf header n < kBlockHashDepth then
    (freshWalk s.headers header n).filter fun hash => hash ∈ s.headers
  else none

/-- **A question is answered as by a fresh walk**: its hash, or zero with `ancestor_missing()` set
and an unconfirmed read counted. -/
def AnswersAfresh (s : HashState) (header : BlockHeader) (n : U64) : Prop :=
  (s.getBlockHash header n).1 = (s.freshBlockHash header n).getD zeroBytes32 ∧
    (s.getBlockHash header n).2.ancestorMissing =
      (s.ancestorMissing || (s.freshBlockHash header n).isNone) ∧
    (s.getBlockHash header n).2.unconfirmedReadCount =
      s.unconfirmedReadCount + if (s.freshBlockHash header n).isNone then 1 else 0

/-- The walk kept is for the block that asks, and an `insert_header` has emptied it. -/
def Emptied (s : HashState) (header : BlockHeader) : Prop :=
  s.ancestorsNumber = header.number ∧ s.ancestorsAnchor = header.parentHash ∧ s.ancestors = []

/-- What is kept is empty, or all of the walk from the anchor. -/
def MemoOk (s : HashState) : Prop :=
  s.ancestors = [] ∨ s.ancestors = heldAncestors s.headers kBlockHashDepth s.ancestorsAnchor

/-- **The loop keeps the hashes of a fresh walk** whose headers are held. -/
theorem heldAncestors_getElem? (headers : HashMap BlockHeader) (reach depth : ℕ) (hash : Bytes32) :
    (heldAncestors headers reach hash)[depth]? =
      if depth < reach then (walk (parentOf headers) depth hash).filter (fun h => h ∈ headers)
      else none := by
  induction reach generalizing depth hash with
  | zero => rfl
  | succ reach ih =>
    rw [heldAncestors]
    cases hl : headers.lookup hash with
    | none =>
      have hout : hash ∉ headers := AList.lookup_eq_none.mp hl
      cases depth with
      | zero => simp [walk, Option.filter, hout]
      | succ depth => simp [walk, parentOf, hl]
    | some child =>
      have hheld : hash ∈ headers := AList.lookup_isSome.mp (by rw [hl]; rfl)
      cases depth with
      | zero => simp [walk, Option.filter, hheld]
      | succ depth => simp [walk, parentOf, hl, ih]

variable {s : HashState} {header : BlockHeader} {n : U64}

theorem MemoOk.startWalk (h : s.MemoOk) : (s.startWalk header).MemoOk := by
  unfold HashState.startWalk
  split
  · exact .inr rfl
  · exact h

theorem startWalk_frame : (s.startWalk header).ancestorMissing = s.ancestorMissing ∧
    (s.startWalk header).unconfirmedReadCount = s.unconfirmedReadCount := by
  unfold HashState.startWalk
  split
  · exact ⟨rfl, rfl⟩
  · exact ⟨rfl, rfl⟩

/-- A question that does not meet an emptied walk is answered from the whole walk. -/
theorem startWalk_ancestors (h : s.MemoOk) (hkey : ¬ s.Emptied header) :
    (s.startWalk header).ancestors = heldAncestors s.headers kBlockHashDepth header.parentHash := by
  unfold HashState.startWalk
  split
  · rfl
  · next hkept =>
    simp only [not_or, not_not] at hkept
    obtain ⟨hnumber, hanchor⟩ := hkept
    rcases h with hnil | hwhole
    · exact absurd ⟨hnumber, hanchor, hnil⟩ hkey
    · rw [hwhole, hanchor]

theorem MemoOk.getBlockHash (h : s.MemoOk) : (s.getBlockHash header n).2.MemoOk := by
  unfold HashState.getBlockHash
  split
  · exact h
  · have hstart : (s.startWalk header).MemoOk := h.startWalk
    dsimp only
    split
    · exact hstart
    · exact hstart

/-- **A question is answered as by a fresh walk**, except from a walk that was emptied where the
headers held lead to block `n`. -/
theorem MemoOk.answersAfresh_iff (h : s.MemoOk) (hn : n < header.number) :
    s.AnswersAfresh header n ↔ (s.Emptied header → s.freshBlockHash header n = none) := by
  rw [AnswersAfresh, HashState.getBlockHash, if_neg (BitVec.not_le.mpr hn)]
  dsimp only
  rw [show (header.number - 1 - n).toNat = depthOf header n from rfl]
  by_cases hkey : s.Emptied header
  · obtain ⟨hnumber, hanchor, hnil⟩ := id hkey
    have hstart : s.startWalk header = s := by simp [HashState.startWalk, hnumber, hanchor]
    rw [hstart, hnil, getElem?_nil]
    cases hfresh : s.freshBlockHash header n with
    | none => simp [countUnconfirmed]
    | some hash => simp [hkey, countUnconfirmed]
  · have hfresh : (s.startWalk header).ancestors[depthOf header n]? = s.freshBlockHash header n := by
      rw [startWalk_ancestors h hkey, heldAncestors_getElem?]
      rfl
    rw [hfresh]
    have hframe := @startWalk_frame s header
    cases hf : s.freshBlockHash header n with
    | none => simp [countUnconfirmed, hframe]
    | some hash => simp [hkey, hframe]

end HashState

/-! ## Runs of calls -/

/-- **The walk kept does not show**, for every interleaving of `insert_header` and `get_block_hash`
from a state that keeps no walk yet: `DirectState` answers every question like a fresh walk, and
`HashState` does at each question exactly where no question for the block that asked last follows
an `insert_header` to a hash the headers held lead to. -/
theorem getBlockHash_afresh_iff (keccak256 : Bytes → Bytes32) (calls : List HeaderCall)
    (d : DirectState) (h : HashState) (hd : d.ancestors = []) (hh : h.ancestors = []) :
    AtEachCall keccak256 DirectState.AnswersAfresh calls d ∧
      (AtEachCall keccak256 HashState.AnswersAfresh calls h ↔
        AtEachCall keccak256
          (fun s header n => s.Emptied header → s.freshBlockHash header n = none) calls h) := by
  constructor
  · refine AtEachCall.of_inv (fun header s _ => DirectState.MemoOk.of_nil rfl) ?_ ?_ calls
      (DirectState.MemoOk.of_nil hd)
    · intro header n s hs
      exact hs.getBlockHash
    · intro header n s hs hn
      exact (hs.answers hn).1
  · have hstart : h.MemoOk := .inl hh
    refine AtEachCall.iff (AtEachCall.of_inv (fun header s _ => ?_) ?_ ?_ calls hstart)
    · exact .inl rfl
    · intro header n s hs
      exact hs.getBlockHash
    · intro header n s hs hn
      exact hs.answersAfresh_iff hn

/-- The header of no block, its parent's hash and number zero. -/
def blankHeader : BlockHeader := {}

/-- Keccak-256 on the one string hashed here, the blank header. -/
def blankKeccak (b : Bytes) : Bytes32 :=
  if b = blankHeader.encode then
    Bytes32.ofNat 0xc3bd2d00745c03048a5616146a96f5ff78e54efb9e5b04af208cdaff6f3830ee
  else zeroBytes32

/-- The child of the blank header. -/
def blankChild : BlockHeader := { parentHash := blankHeader.hash blankKeccak, number := 1 }

/-- The parent's header arrives, and the block asks for its hash twice. -/
def blankCalls : List HeaderCall :=
  [.insertHeader blankHeader, .getBlockHash blankChild 0, .getBlockHash blankChild 0]

/-- Both backends answer the block with the hash, the second time out of their memos. -/
theorem getBlockHash_afresh_child :
    AtEachCall blankKeccak DirectState.AnswersAfresh blankCalls
        { witness := .empty, records := fun _ => Account.absent zeroAddress } ∧
      AtEachCall blankKeccak HashState.AnswersAfresh blankCalls {} := by
  obtain ⟨hd, hh⟩ := getBlockHash_afresh_iff blankKeccak blankCalls
    { witness := .empty, records := fun _ => Account.absent zeroAddress } {} rfl rfl
  refine ⟨hd, hh.mpr ⟨fun _ hempty => ?_, fun _ hempty => ?_, trivial⟩⟩
  -- the walk of a new state is for no block, and the walk for this one is not empty
  · exact absurd hempty.1 (by decide)
  · exact absurd hempty.2 (by decide +kernel)

/-- **A header that arrives after the question does not help**: the block asks for its parent's
hash, the header arrives, and `HashState` still answers zero where the header now held leads. -/
theorem hashState_getBlockHash_forgets :
    let s := (({} : HashState).getBlockHash blankChild 0).2.insertHeader blankKeccak blankHeader
    s.freshBlockHash blankChild 0 = some (blankHeader.hash blankKeccak) ∧
      (s.getBlockHash blankChild 0).1 = zeroBytes32 ∧
      ¬ AtEachCall blankKeccak HashState.AnswersAfresh
        [.getBlockHash blankChild 0, .insertHeader blankHeader, .getBlockHash blankChild 0] {} := by
  refine ⟨by decide +kernel, by decide +kernel, fun h => ?_⟩
  have hlast := (h.2.1 (by decide)).2.2
  revert hlast
  decide +kernel

end Zilkworm.State
