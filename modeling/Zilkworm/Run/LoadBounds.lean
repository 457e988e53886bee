/-
# Loading a hostile bundle

`load_flat_bundle` (`core/types_zz/flat_bundle.cpp`) once more, on the level its bounds are
about: the views it returns as places in the blob, the memory it asks for and the rounds of its
loops.  Without its meter and its places it is the loader of `Run.FlatBundle`.

Every cursor walk ends where its section does, since each round consumes a byte.  Two requests
are made out of counts that nothing has checked: `block_rlps.reserve(n_blocks)`, which throws for
a count no vector can have, and `node_verified_.assign(..)` over the `data_size` of a node store
without keys, whose sections `validate_mphf` does not look at.
-/
import Zilkworm.Run.Envelope
import Zilkworm.Types.DecodeCost

namespace Zilkworm.Run

open List Lib Lib.Metered Rlp Zilkworm.Types Witness State

variable (sz : ElementSizes) (blob : Bytes) (sectionEnd : ℕ)

variable {pos : ℕ} {s : Section}

/-! ## Places -/

/-- The bytes of a view. -/
def Span.bytes (s : Span) (blob : Bytes) : Bytes := slice blob s.off s.size

/-- Views in ascending order, none sharing a byte with another, between `lo` and `hi`. -/
def Ordered (hi : ℕ) : (lo : ℕ) → List Span → Prop
  | lo, [] => lo ≤ hi
  | lo, s :: spans => lo ≤ s.off ∧ Ordered hi (s.off + s.size) spans

namespace Ordered

variable {lo mid hi : ℕ} {spans more : List Span}

theorem le (h : Ordered hi lo spans) : lo ≤ hi := by
  induction spans generalizing lo with
  | nil => exact h
  | cons s spans ih =>
    have := ih h.2
    have := h.1
    omega

theorem mono {lo' : ℕ} (h : Ordered hi lo spans) (hlo : lo' ≤ lo) : Ordered hi lo' spans := by
  cases spans with
  | nil => exact hlo.trans h
  | cons s spans => exact ⟨hlo.trans h.1, h.2⟩

theorem widen {hi' : ℕ} (h : Ordered hi lo spans) (hhi : hi ≤ hi') : Ordered hi' lo spans := by
  induction spans generalizing lo with
  | nil => exact Nat.le_trans h hhi
  | cons s spans ih => exact ⟨h.1, ih h.2⟩

theorem append (h : Ordered mid lo spans) (h' : Ordered hi mid more) :
    Ordered hi lo (spans ++ more) := by
  induction spans generalizing lo with
  | nil => exact h'.mono h
  | cons s spans ih => exact ⟨h.1, ih h.2⟩

/-- Every view lies between the bounds. -/
theorem mem (h : Ordered hi lo spans) : ∀ s ∈ spans, lo ≤ s.off ∧ s.off + s.size ≤ hi := by
  induction spans generalizing lo with
  | nil => simp
  | cons s spans ih =>
    intro x hx
    rcases mem_cons.mp hx with rfl | hx
    · exact ⟨h.1, h.2.le⟩
    · have := ih h.2 x hx
      have := h.1
      omega

/-- No two views share a byte. -/
theorem pairwise (h : Ordered hi lo spans) :
    spans.Pairwise fun a b => Apart a.off a.size b.off b.size := by
  induction spans generalizing lo with
  | nil => exact .nil
  | cons s spans ih => exact .cons (fun x hx => .inl (h.2.mem x hx).1) (ih h.2)

end Ordered

/-! ## The walks -/

/-- `splitBlocks` with the places of the blocks. -/
def splitBlocksM : (n cursor : ℕ) → Metered String (List Span × ℕ)
  | 0, cursor => pure ([], cursor)
  | n + 1, cursor => do
    round
    lift (rejectIf (sectionEnd ≤ cursor) "load_flat_bundle: blocks cursor past section end")
    let v := slice blob cursor (sectionEnd - cursor)
    match decodeHeader v with
    | .error _ => lift (.error "load_flat_bundle: block outer header")
    | .ok (outer, rest) =>
      lift (rejectIf (outer.list = false) "load_flat_bundle: block outer header")
      let total := outer.payloadLength + (v.length - rest.length)
      lift (rejectIf (sectionEnd < cursor + total) "load_flat_bundle: block overruns section")
      let p ← splitBlocksM n (align8 (cursor + total))
      return (⟨cursor, total⟩ :: p.1, p.2)

/-- The hash list of an engine record behind its block hash and its count. -/
def Span.hashes (s : Span) : Span := ⟨s.off + 40, s.size - 40⟩

/-- The engine record at a place. -/
def Span.engineRecord (s : Span) (blob : Bytes) : BlockEngineRecord :=
  ⟨FixedBytes.load 32 (slice blob s.off 32), s.hashes.bytes blob⟩

/-- `readEngineRecords` with the places of the records. -/
def readEngineRecordsM :
    Bytes → (pos : ℕ) → Metered String (List (Option Span))
  | [], _ => pure []
  | flag :: flags, pos => do
    round
    if flag &&& kBlockFlagEngineRecord = 0 then
      let recs ← readEngineRecordsM flags pos
      return none :: recs
    else
      lift (rejectIf (sectionEnd < pos ∨ sectionEnd - pos < 40)
        "load_flat_bundle: engine record overruns section")
      let n := u64At blob (pos + 32)
      lift (rejectIf ((sectionEnd - (pos + 40)) / 32 < n)
        "load_flat_bundle: engine record overruns section")
      let recs ← readEngineRecordsM flags (pos + 40 + n * 32)
      return some ⟨pos, 40 + n * 32⟩ :: recs

/-- The ancestors section as it is read, with the places of the headers' encodings. -/
structure AncestorViews where
  headers : List BlockHeader := []
  spans : List Span := []
  wellFormed : Bool := true

/-- The entry at `pos` of a list that ends at `listEnd`, and where the next one starts. -/
def ancestorEntry (listEnd pos : ℕ) : Except String (Span × ℕ) :=
  let lv := slice blob pos (listEnd - pos)
  match decodeHeader lv with
  | .error _ => .error "load_flat_bundle: bad ancestor entry"
  | .ok (eh, rest) => do
    rejectIf (rest.length < eh.payloadLength) "load_flat_bundle: bad ancestor entry"
    let headerLen := lv.length - rest.length
    return (if eh.list then ⟨pos, headerLen + eh.payloadLength⟩ else ⟨pos + headerLen, eh.payloadLength⟩,
      pos + headerLen + eh.payloadLength)

/-- An entry that decodes pushes its view and its header. -/
def AncestorViews.add (a : AncestorViews) (entry : Span) : AncestorViews :=
  match decodeBlockHeader .prohibit (entry.bytes blob) with
  | .error _ => { a with wellFormed := false }
  | .ok (header, _) => { a with headers := a.headers ++ [header], spans := a.spans ++ [entry] }

/-- What an entry asks for: its copy, and the pushes of one that decodes. -/
def entryMemory (entry : Span) : ℕ :=
  entry.size + if (decodeBlockHeader .prohibit (entry.bytes blob)).isOk
    then 4 * (sz.byteView + sz.blockHeader) else 0

/-- The entries of the list's payload, which ends at `listEnd`. -/
def readAncestorEntriesM (listEnd : ℕ) :
    (fuel pos : ℕ) → AncestorViews → Metered String AncestorViews
  | 0, pos, a =>
    if listEnd ≤ pos then pure a
    else lift (.error "load_flat_bundle: bad ancestor entry")
  | fuel + 1, pos, a =>
    if listEnd ≤ pos then pure a
    else do
      round
      let (entry, next) ← lift (ancestorEntry blob listEnd pos)
      request (entryMemory sz blob entry)
      readAncestorEntriesM listEnd fuel next (a.add blob entry)

/-- The ancestors section. -/
def readAncestorsM (s : Section) : Metered String AncestorViews :=
  if s.size = 0 then pure {}
  else
    match decodeHeader (s.bytes blob) with
    | .ok (⟨true, payloadLength⟩, rest) =>
      let start := s.endOff - rest.length
      readAncestorEntriesM sz blob (start + payloadLength) payloadLength start {}
    | _ => pure { wellFormed := false }

/-! ## The loader -/

/-- Why a bundle did not load.  `reserve` throws `std::length_error` for more than a vector can
hold; a request that the heap has no room for throws `std::bad_alloc`, which ends the program where
it leaves the `noexcept` constructor of `DirectState`. -/
inductive LoadFault where
  | rejected (text : String)
  | aborted (text : String)
  | lengthError
  | badAlloc
  deriving Repr, DecidableEq

/-- The same fault without the exceptions. -/
def LoadError.fault : LoadError → LoadFault
  | .rejected text => .rejected text
  | .aborted text => .aborted text

/-- `std::vector::reserve` of `n` items of `size` bytes, on a 64-bit host. -/
def reserveItems (size n : ℕ) : Metered LoadFault Unit :=
  if 2 ^ 63 ≤ n * size then lift (.error .lengthError) else request (n * size)

/-- Where the views of a loaded bundle lie in its blob. -/
structure BundleViews where
  blocks : List Span
  flags : Option Span
  engineRecords : List (Option Span)
  ancestors : List Span
  directState : Span
  nodeStore : Span
  network : Span
  deriving Repr, DecidableEq

/-- The place of a section. -/
def Section.span (s : Section) : Span := ⟨s.off, s.size⟩

/-- The bytes of a view that may be absent. -/
def viewBytes (s : Option Span) : Bytes := (s.map (·.bytes blob)).getD []

/-- `readBlocks` with the places of what it reads. -/
def readBlocksM (s : Section) :
    Metered LoadFault (List Span × Option Span × List (Option Span)) := do
  lift (rejectIf (s.size < 8) (.rejected "load_flat_bundle: blocks section too small"))
  reserveItems sz.byteView (u64At blob s.off)
  let p ← (splitBlocksM blob s.endOff (u64At blob s.off) (s.off + 8)).mapError .rejected
  let flags : Option Span :=
    if p.1 ≠ [] ∧ p.2 + p.1.length ≤ s.endOff then some ⟨p.2, p.1.length⟩ else none
  if (viewBytes blob flags).any fun f => f &&& kBlockFlagEngineRecord ≠ 0 then do
    request (p.1.length * sz.engineRecord)
    let recs ← (readEngineRecordsM blob s.endOff (viewBytes blob flags)
      (align8 (p.2 + (viewBytes blob flags).length))).mapError .rejected
    return (p.1, flags, recs)
  else return (p.1, flags, [])

/-- What the loader reads of the sections before it builds the `DirectState`, with the places of the
views: `readSections` with its meter. -/
def readSectionsM (hdr : FlatBundleHeader) :
    Metered LoadFault (Block × (List Span × Option Span × List (Option Span)) × AncestorViews) := do
  let genesis ← (decodeBlockM sz .prohibit (hdr.genesis.bytes blob)).mapError fun _ =>
    LoadFault.rejected "load_flat_bundle: genesis decode"
  let blocks ← readBlocksM sz blob hdr.blocks
  let ancestors ← (readAncestorsM sz blob hdr.ancestors).mapError LoadFault.rejected
  return (genesis.1, blocks, ancestors)

/-- What the constructor of `DirectState` asks for: the bits of `node_verified_` for a node store,
and the room of `reserve_block_maps_`. -/
def directStateMemory (blockMaps : ℕ) (nodeStore : Bytes) : ℕ :=
  (if nodeStore = [] then 0
    else 4 * (((MphfMap.reset nodeStore 0).hdr.dataSize / 8 + 31) / 32)) + blockMaps

/-- The rounds of a walk over the slots of a map and over its sidecar; without keys there is none.
-/
def walkRounds (m : MphfMap) : ℕ := if m.hdr.nKeys = 0 then 0 else m.hdr.nKeys + m.nCollisions

/-- The rounds of the layout checks that the constructor of `DirectState` passes: the map of the
accounts is walked by `validate_mphf` and by `check_entry`, the code store and the node store once.
-/
def directStateRounds (direct nodeStore : Bytes) : ℕ :=
  let m := PreStateMeta.read direct
  (if 0 < m.nAccounts then 2 * walkRounds (MphfMap.reset direct m.prestateOffset) else 0) +
  (if m.codeStoreSize = 0 then 0 else walkRounds (MphfMap.reset direct m.codeStoreOffset)) +
  (if nodeStore = [] then 0 else walkRounds (MphfMap.reset nodeStore 0))

/-- `load_flat_bundle`, with its meter and the places of its views; `blockMaps` is the room
`reserve_block_maps_` asks for, a constant of the build. -/
def loadFlatBundleM (blockMaps addr : ℕ) (blob : Bytes) :
    Metered LoadFault (FlatBundle × BundleViews) := do
  let hdr ← lift ((checkSections blob).mapError LoadFault.rejected)
  let (genesis, (blocks, flags, recs), anc) ← readSectionsM sz blob hdr
  let nodeStore := hdr.nodeStore.bytes blob
  let direct ← lift ((loadPreState (addr + hdr.directState.off) (hdr.directState.bytes blob)).mapError
    LoadError.fault)
  lift ((validateNodestoreLayout (addr + hdr.nodeStore.off) nodeStore).mapError LoadFault.aborted)
  spend (directStateMemory blockMaps nodeStore)
    (directStateRounds (hdr.directState.bytes blob) nodeStore)
  return ({
    blobSize := hdr.bundleSize
    genesis := genesis
    blockRlps := blocks.map (·.bytes blob)
    blockFlags := viewBytes blob flags
    engineRecords := recs.map fun r => r.map (·.engineRecord blob)
    ancestors := anc.headers
    ancestorRlps := anc.spans.map (·.bytes blob)
    ancestorsWellFormed := anc.wellFormed
    direct := direct
    nodeStore := nodeStore
    network := hdr.network.bytes blob },
    { blocks := blocks
      flags := flags
      engineRecords := recs
      ancestors := anc.spans
      directState := hdr.directState.span
      nodeStore := hdr.nodeStore.span
      network := hdr.network.span })

/-- `load_flat_bundle` with `heap` bytes to ask for.  The guests' allocators take nothing back, so
the first request past that fails and ends the loading. -/
def loadOnHeap (blockMaps heap addr : ℕ) (blob : Bytes) :
    Except LoadFault (FlatBundle × BundleViews) :=
  let m := loadFlatBundleM sz blockMaps addr blob
  if heap < m.memory then .error .badAlloc else m.result

/-! ## The walk over the blocks -/

theorem decodeHeader_pos {src rest : Bytes} {h : Header} (hd : decodeHeader src = .ok (h, rest)) :
    rest.length ≤ src.length ∧ 0 < h.payloadLength + (src.length - rest.length) := by
  have hs := decodeHeader_shrinking hd
  have hk := decodeHeader_skip hd
  omega

theorem splitBlocksM_result (sectionEnd n cursor : ℕ) :
    ((splitBlocksM blob sectionEnd n cursor).result.map fun p => (p.1.map (·.bytes blob), p.2)) =
      splitBlocks blob sectionEnd n cursor := by
  induction n generalizing cursor with
  | zero => rfl
  | succ n ih =>
    unfold splitBlocksM splitBlocks
    rw [round_bind_result]
    refine bind_result_map rfl fun _ _ => ?_
    dsimp only
    rcases decodeHeader (slice blob cursor (sectionEnd - cursor)) with e | ⟨outer, rest⟩
    · rfl
    refine bind_result_map rfl fun _ _ => bind_result_map rfl fun _ _ => ?_
    rw [bind_result, ← ih]
    rcases (splitBlocksM blob sectionEnd n _).result with e | ⟨spans, c⟩ <;> rfl

/-- Each round but the last goes forward, so there are no more of them than bytes. -/
theorem splitBlocksM_cost (sectionEnd n cursor : ℕ) :
    (splitBlocksM blob sectionEnd n cursor).cost ≤ sectionEnd - cursor + 1 := by
  induction n generalizing cursor with
  | zero => simp [splitBlocksM]
  | succ n ih =>
    unfold splitBlocksM
    rw [round_bind_cost, Nat.add_comm]
    refine Nat.add_le_add_right (bind_cost_le_of_lift fun _ hpast => ?_) 1
    have hlt : cursor < sectionEnd := by simpa using hpast
    dsimp only
    rcases hd : decodeHeader (slice blob cursor (sectionEnd - cursor)) with e | ⟨outer, rest⟩
    · simp
    refine bind_cost_le_of_lift fun _ _ => bind_cost_le_of_lift fun _ _ => ?_
    have hpos := (decodeHeader_pos hd).2
    have hle := le_align8 (cursor + (outer.payloadLength +
      ((slice blob cursor (sectionEnd - cursor)).length - rest.length)))
    refine (bind_cost_le_add (ih _) fun _ _ => (pure_cost _).le).trans ?_
    omega

/-- The blocks found lie one behind the other, in the section, and the walk ends behind them. -/
theorem splitBlocksM_ordered {blob : Bytes} {sectionEnd n cursor c : ℕ} {spans : List Span}
    (h : (splitBlocksM blob sectionEnd n cursor).result = .ok (spans, c)) :
    spans.length = n ∧ Ordered c cursor spans ∧
      ∀ lo, lo ≤ cursor → lo ≤ sectionEnd → Ordered sectionEnd lo spans := by
  induction n generalizing cursor spans with
  | zero =>
    obtain ⟨rfl, rfl⟩ := Prod.mk.inj (Except.ok.inj h)
    exact ⟨rfl, le_rfl, fun lo _ hlo => hlo⟩
  | succ n ih =>
    unfold splitBlocksM at h
    rw [round_bind_result, bind_result] at h
    obtain ⟨_, -, h⟩ := bind_eq_ok.mp h
    dsimp only at h
    rcases hd : decodeHeader (slice blob cursor (sectionEnd - cursor)) with e | ⟨outer, rest⟩
    · rw [hd] at h
      cases h
    rw [hd] at h
    dsimp only at h
    simp only [bind_result] at h
    obtain ⟨_, -, h⟩ := bind_eq_ok.mp h
    obtain ⟨_, hover, h⟩ := bind_eq_ok.mp h
    obtain ⟨⟨spans', c'⟩, hrec, h⟩ := bind_eq_ok.mp h
    obtain ⟨rfl, rfl⟩ := Prod.mk.inj (Except.ok.inj h)
    obtain ⟨hlen, hc, hin⟩ := ih hrec
    have hle := le_align8 (cursor + (outer.payloadLength +
      ((slice blob cursor (sectionEnd - cursor)).length - rest.length)))
    have hend : cursor + (outer.payloadLength +
        ((slice blob cursor (sectionEnd - cursor)).length - rest.length)) ≤
        sectionEnd := by simpa using hover
    exact ⟨by simp [hlen], ⟨le_rfl, hc.mono hle⟩, fun lo hlo _ => ⟨hlo, hin _ hle hend⟩⟩

/-! ## The walk over the engine records -/

theorem readEngineRecordsM_result (flags : Bytes) (pos : ℕ) :
    ((readEngineRecordsM blob sectionEnd flags pos).result.map fun recs =>
        recs.map fun r => r.map (·.engineRecord blob)) =
      readEngineRecords blob sectionEnd flags pos := by
  induction flags generalizing pos with
  | nil => rfl
  | cons flag flags ih =>
    unfold readEngineRecordsM readEngineRecords
    rw [round_bind_result]
    split
    · rw [bind_result, ← ih]
      rcases (readEngineRecordsM blob sectionEnd flags pos).result with e | recs <;> rfl
    · refine bind_result_map rfl fun _ _ => bind_result_map rfl fun _ _ => ?_
      rw [bind_result, ← ih]
      rcases (readEngineRecordsM blob sectionEnd flags _).result with e | recs
      · rfl
      · simp [Except.map, bind, Except.bind, pure, Except.pure, Span.engineRecord,
          Span.hashes, Span.bytes]

theorem readEngineRecordsM_cost (flags : Bytes) (pos : ℕ) :
    (readEngineRecordsM blob sectionEnd flags pos).cost ≤ flags.length := by
  induction flags generalizing pos with
  | nil => simp [readEngineRecordsM]
  | cons flag flags ih =>
    have hrest : ∀ (pos : ℕ) (f : List (Option Span) → List (Option Span)),
        (readEngineRecordsM blob sectionEnd flags pos >>= fun recs => pure (f recs)).cost ≤
        flags.length :=
      fun pos f => bind_cost_le_add (ih pos) fun _ _ => (pure_cost _).le
    unfold readEngineRecordsM
    rw [round_bind_cost, length_cons, Nat.add_comm]
    refine Nat.add_le_add_right ?_ 1
    split
    · exact hrest pos _
    · exact bind_cost_le_of_lift fun _ _ => bind_cost_le_of_lift fun _ _ => hrest _ _

/-- The records found lie one behind the other, in the section. -/
theorem readEngineRecordsM_ordered {blob flags : Bytes} {sectionEnd lo : ℕ}
    {recs : List (Option Span)}
    (h : (readEngineRecordsM blob sectionEnd flags pos).result = .ok recs) (hlo : lo ≤ pos)
    (hend : lo ≤ sectionEnd) : Ordered sectionEnd lo (recs.filterMap id) := by
  induction flags generalizing pos lo recs with
  | nil =>
    obtain rfl := Except.ok.inj h
    exact hend
  | cons flag flags ih =>
    unfold readEngineRecordsM at h
    rw [round_bind_result] at h
    split at h
    · rw [bind_result] at h
      obtain ⟨recs', hrec, h⟩ := bind_eq_ok.mp h
      obtain rfl := Except.ok.inj h
      show Ordered sectionEnd lo (recs'.filterMap id)
      exact ih hrec hlo hend
    · simp only [bind_result, lift_result] at h
      obtain ⟨_, hroom, h⟩ := bind_eq_ok.mp h
      obtain ⟨_, hn, h⟩ := bind_eq_ok.mp h
      obtain ⟨recs', hrec, h⟩ := bind_eq_ok.mp h
      obtain rfl := Except.ok.inj h
      simp only [rejectIf_eq_ok, not_or, not_lt] at hroom hn
      refine ⟨hlo, ih hrec (by dsimp only; omega) (by dsimp only; omega)⟩

/-! ## The walk over the ancestors -/

/-- What was read with its places dropped. -/
def AncestorViews.plain (a : AncestorViews) : Ancestors :=
  ⟨a.headers, a.spans.map (·.bytes blob), a.wellFormed⟩

/-- A header is read off the front. -/
theorem decodeHeader_rest {src rest : Bytes} {h : Header} (hd : decodeHeader src = .ok (h, rest)) :
    rest = src.drop (src.length - rest.length) := by
  obtain ⟨-, ⟨-, rfl, -⟩ | ⟨hsrc, -⟩⟩ := decodeHeader_spec hd
  · simp
  · have hlen := congrArg List.length hsrc
    rw [length_append] at hlen
    rw [show src.length - rest.length = (encodeHeader h).length by omega, hsrc, drop_left]

theorem AncestorViews.plain_add (a : AncestorViews) (entry : Span) :
    (a.add blob entry).plain blob = (a.plain blob).add (entry.bytes blob) := by
  unfold AncestorViews.add Ancestors.add
  cases decodeBlockHeader .prohibit (entry.bytes blob) with
  | error e => rfl
  | ok p => simp [AncestorViews.plain]

section Entries

variable (sz : ElementSizes) {blob : Bytes} {listEnd : ℕ} (hblob : listEnd ≤ blob.length)

include hblob

/-- An entry that starts before the end of the list lies in it and takes a byte of it. -/
theorem ancestorEntry_inside {next : ℕ} {entry : Span} (hpos : pos < listEnd)
    (h : ancestorEntry blob listEnd pos = .ok (entry, next)) :
    pos ≤ entry.off ∧ entry.off + entry.size ≤ next ∧ pos < next ∧ next ≤ listEnd := by
  have hlen : (slice blob pos (listEnd - pos)).length = listEnd - pos := slice_length_of_le (by omega)
  unfold ancestorEntry at h
  dsimp only at h
  rcases hd : decodeHeader (slice blob pos (listEnd - pos)) with e | ⟨eh, rest⟩
  · rw [hd] at h
    cases h
  rw [hd, hlen] at h
  obtain ⟨_, -, h⟩ := bind_eq_ok.mp h
  obtain ⟨rfl, rfl⟩ := Prod.mk.inj (Except.ok.inj h)
  obtain ⟨hle, hone⟩ := decodeHeader_pos hd
  have hpay := (decodeHeader_spec hd).1
  rw [hlen] at hle hone
  split <;> dsimp only <;> omega

/-- One round of the loader's walk, as places. -/
theorem readAncestorEntries_slice (hpos : pos < listEnd) (fuel : ℕ) (a : Ancestors) :
    readAncestorEntries (fuel + 1) (slice blob pos (listEnd - pos)) a =
      (ancestorEntry blob listEnd pos).bind fun p =>
        readAncestorEntries fuel (slice blob p.2 (listEnd - p.2)) (a.add (p.1.bytes blob)) := by
  have hlen : (slice blob pos (listEnd - pos)).length = listEnd - pos := slice_length_of_le (by omega)
  obtain ⟨x, xs, hx⟩ := exists_cons_of_ne_nil (ne_nil_of_length_pos (hlen.symm ▸ Nat.sub_pos_of_lt hpos))
  rw [hx, readAncestorEntries, ← hx]
  on_goal 2 => exact cons_ne_nil x xs
  unfold ancestorEntry
  dsimp only
  rcases hd : decodeHeader (slice blob pos (listEnd - pos)) with e | ⟨eh, rest⟩
  · rfl
  obtain ⟨hle, -⟩ := decodeHeader_pos hd
  have hpay := (decodeHeader_spec hd).1
  rw [hlen] at hle
  have hr : rest = slice blob (pos + (listEnd - pos - rest.length)) rest.length := by
    conv_lhs => rw [decodeHeader_rest hd, hlen, slice_drop]
    congr 1
    omega
  have hentry : (if eh.list then (slice blob pos (listEnd - pos)).take
        (listEnd - pos - rest.length + eh.payloadLength) else rest.take eh.payloadLength) =
      (if eh.list then (⟨pos, listEnd - pos - rest.length + eh.payloadLength⟩ : Span)
        else ⟨pos + (listEnd - pos - rest.length), eh.payloadLength⟩).bytes blob := by
    split
    · exact slice_take blob (by omega)
    · conv_lhs => rw [hr]
      exact slice_take blob hpay
  have hnext : rest.drop eh.payloadLength =
      slice blob (pos + (listEnd - pos - rest.length) + eh.payloadLength)
        (listEnd - (pos + (listEnd - pos - rest.length) + eh.payloadLength)) := by
    conv_lhs => rw [hr]
    rw [slice_drop]
    congr 1
    omega
  dsimp only
  rw [hlen, hentry, hnext, rejectIf, if_neg (by omega)]
  rfl

theorem readAncestorEntriesM_result (fuel pos : ℕ) (a : AncestorViews) :
    (readAncestorEntriesM sz blob listEnd fuel pos a).result.map (·.plain blob) =
      readAncestorEntries fuel (slice blob pos (listEnd - pos)) (a.plain blob) := by
  induction fuel generalizing pos a with
  | zero =>
    unfold readAncestorEntriesM
    split
    · rw [show listEnd - pos = 0 by omega]
      rfl
    · obtain ⟨x, xs, hx⟩ := exists_cons_of_ne_nil (ne_nil_of_length_pos
        (show 0 < (slice blob pos (listEnd - pos)).length by rw [slice_length_of_le] <;> omega))
      rw [hx]
      rfl
  | succ fuel ih =>
    unfold readAncestorEntriesM
    split
    · rw [show listEnd - pos = 0 by omega]
      rfl
    · rw [round_bind_result, readAncestorEntries_slice hblob (by omega)]
      refine bind_result_map rfl fun p _ => ?_
      rw [request_bind_result, ih, AncestorViews.plain_add]

/-- Each round consumes a byte of the list, which pays for the round, the copy and the two pushes.
-/
theorem readAncestorEntriesM_cost (fuel pos : ℕ) (a : AncestorViews) :
    (readAncestorEntriesM sz blob listEnd fuel pos a).cost ≤
      (4 * (sz.byteView + sz.blockHeader) + 2) * (listEnd - pos) := by
  induction fuel generalizing pos a with
  | zero =>
    unfold readAncestorEntriesM
    split <;> simp
  | succ fuel ih =>
    unfold readAncestorEntriesM
    split
    · simp
    have hmem (entry : Span) : entryMemory sz blob entry ≤
        entry.size + 4 * (sz.byteView + sz.blockHeader) := by
      unfold entryMemory
      split <;> omega
    generalize 4 * (sz.byteView + sz.blockHeader) = k at hmem ih ⊢
    have hone : (k + 2) * 1 ≤ (k + 2) * (listEnd - pos) := Nat.mul_le_mul_left _ (by omega)
    have hstep : (lift (ancestorEntry blob listEnd pos) >>= fun p => do
        request (entryMemory sz blob p.1)
        readAncestorEntriesM sz blob listEnd fuel p.2 (a.add blob p.1)).cost ≤
        (k + 2) * (listEnd - pos) - 1 := by
      refine bind_cost_le_of_lift fun p hp => ?_
      obtain ⟨hoff, hsize, hnext, hend⟩ := ancestorEntry_inside hblob (by omega) hp
      have hrest := ih p.2 (a.add blob p.1)
      -- the entry takes `d` bytes of the list
      obtain ⟨d, hd⟩ : ∃ d, p.2 = pos + d := ⟨p.2 - pos, by omega⟩
      have hpaid : (k + 2) * (listEnd - pos) = (k + 2) * (listEnd - p.2) + (k + 1) * d + d := by
        rw [show listEnd - pos = (listEnd - p.2) + d by omega]
        ring
      have hd1 : (k + 1) * 1 ≤ (k + 1) * d := Nat.mul_le_mul_left _ (by omega)
      have := hmem p.1
      rw [request_bind_cost]
      omega
    rw [round_bind_cost]
    exact (Nat.add_le_add_left hstep 1).trans (by omega)

theorem readAncestorEntriesM_inside {lo : ℕ} (fuel pos : ℕ) {a a' : AncestorViews} (hlo : lo ≤ pos)
    (ha : ∀ s ∈ a.spans, lo ≤ s.off ∧ s.off + s.size ≤ listEnd)
    (h : (readAncestorEntriesM sz blob listEnd fuel pos a).result = .ok a') :
    ∀ s ∈ a'.spans, lo ≤ s.off ∧ s.off + s.size ≤ listEnd := by
  induction fuel generalizing pos a with
  | zero =>
    unfold readAncestorEntriesM at h
    split at h
    · obtain rfl := Except.ok.inj h
      exact ha
    · cases h
  | succ fuel ih =>
    unfold readAncestorEntriesM at h
    split at h
    · obtain rfl := Except.ok.inj h
      exact ha
    rw [round_bind_result, bind_result] at h
    obtain ⟨⟨entry, next⟩, hentry, h⟩ := bind_eq_ok.mp h
    obtain ⟨hoff, hsize, hnext, hend⟩ := ancestorEntry_inside hblob (by omega) hentry
    rw [request_bind_result] at h
    refine ih next (by omega) (fun s hs => ?_) h
    unfold AncestorViews.add at hs
    split at hs
    · exact ha s hs
    · rcases mem_append.mp hs with hs | hs
      · exact ha s hs
      · obtain rfl := mem_singleton.mp hs
        omega

end Entries

/-- **The ancestors section**: the walk reads what the loader reads, its views lie in the section,
and the section pays for it. -/
theorem readAncestorsM_spec {blob : Bytes} (hblob : s.endOff ≤ blob.length) :
    (readAncestorsM sz blob s).result.map (·.plain blob) = readAncestors (s.bytes blob) ∧
    (readAncestorsM sz blob s).cost ≤ (4 * (sz.byteView + sz.blockHeader) + 2) * s.size ∧
    ∀ a, (readAncestorsM sz blob s).result = .ok a →
      ∀ v ∈ a.spans, s.off ≤ v.off ∧ v.off + v.size ≤ s.endOff := by
  have hlen : (s.bytes blob).length = s.size := slice_length_of_le hblob
  unfold readAncestorsM readAncestors
  by_cases hzero : s.size = 0
  · have hnil : s.bytes blob = [] := length_eq_zero_iff.mp (hlen.trans hzero)
    rw [if_pos hzero, if_pos hnil]
    refine ⟨rfl, by simp, fun a ha => ?_⟩
    obtain rfl := Except.ok.inj ha
    simp
  have hne : s.bytes blob ≠ [] := fun h => hzero (by rw [← hlen, h]; rfl)
  rw [if_neg hzero, if_neg hne]
  rcases hd : decodeHeader (s.bytes blob) with e | ⟨⟨_ | _, payloadLength⟩, rest⟩
  · refine ⟨rfl, by simp, fun a ha => ?_⟩
    obtain rfl := Except.ok.inj ha
    simp
  · refine ⟨rfl, by simp, fun a ha => ?_⟩
    obtain rfl := Except.ok.inj ha
    simp
  · have hpay : payloadLength ≤ rest.length := (decodeHeader_spec hd).1
    have hrest : rest.length ≤ s.size := hlen ▸ decodeHeader_shrinking hd
    have hend : s.endOff = s.off + s.size := rfl
    have hinside : s.endOff - rest.length + payloadLength ≤ blob.length := by omega
    have hlist : rest.take payloadLength =
        slice blob (s.endOff - rest.length)
          (s.endOff - rest.length + payloadLength - (s.endOff - rest.length)) := by
      conv_lhs => rw [decodeHeader_rest hd, hlen]
      rw [Section.bytes, slice_drop, slice_take _ (by omega)]
      congr 1 <;> omega
    dsimp only
    refine ⟨?_, ?_, fun a ha v hv => ?_⟩
    · rw [readAncestorEntriesM_result sz hinside, hlist, slice_length_of_le (by omega),
        Nat.add_sub_cancel_left]
      rfl
    · refine (readAncestorEntriesM_cost sz hinside _ _ _).trans (Nat.mul_le_mul_left _ ?_)
      omega
    · have := readAncestorEntriesM_inside sz hinside _ _ (show s.off ≤ s.endOff - rest.length by omega)
        (by simp) ha v hv
      omega

/-! ## The blocks section -/

/-- The views of a blocks section. -/
def blockViews (p : List Span × Option Span × List (Option Span)) : List Span :=
  p.1 ++ p.2.1.toList ++ p.2.2.filterMap id

/-- **The blocks section**: its views lie in it behind the count, none sharing a byte with
another. -/
theorem readBlocksM_ordered {sz : ElementSizes} {blob : Bytes} (hblob : s.endOff ≤ blob.length)
    {p : List Span × Option Span × List (Option Span)} (h : (readBlocksM sz blob s).result = .ok p)
    :
    Ordered s.endOff (s.off + 8) (blockViews p) := by
  unfold readBlocksM at h
  simp only [bind_result, lift_result, mapError_result] at h
  obtain ⟨_, hsize, h⟩ := bind_eq_ok.mp h
  obtain ⟨_, -, h⟩ := bind_eq_ok.mp h
  obtain ⟨⟨blocks, c⟩, hblocks, h⟩ := bind_eq_ok.mp h
  have hsize' : 8 ≤ s.size := by simpa using hsize
  have hend : s.endOff = s.off + s.size := rfl
  obtain ⟨hn, hc, hin⟩ := splitBlocksM_ordered (mapError_eq_ok.mp hblocks)
  dsimp only at h
  -- with flags the blocks end before them; without them there are no records either
  by_cases hflags : blocks ≠ [] ∧ c + blocks.length ≤ s.endOff
  · have hfront : Ordered (c + blocks.length) (s.off + 8) (blocks ++ [⟨c, blocks.length⟩]) :=
      hc.append (show Ordered _ c [_] from ⟨le_rfl, le_rfl⟩)
    rw [if_pos hflags] at h
    split at h
    · rw [request_bind_result, bind_result] at h
      obtain ⟨recs, hrecs, h⟩ := bind_eq_ok.mp h
      obtain rfl := Except.ok.inj h
      refine hfront.append (readEngineRecordsM_ordered (mapError_eq_ok.mp hrecs) ?_ hflags.2)
      have hlen : (slice blob c blocks.length).length = blocks.length := slice_length_of_le (by omega)
      refine (Nat.add_le_add_left (Nat.le_of_eq ?_) c).trans (le_align8 _)
      exact hlen.symm
    · obtain rfl := Except.ok.inj h
      simpa [blockViews] using hfront.widen hflags.2
  · rw [if_neg hflags] at h
    split at h
    · rename_i hany
      simp [viewBytes] at hany
    · obtain rfl := Except.ok.inj h
      simpa [blockViews] using hin _ le_rfl (by omega)

/-- What the reader of the blocks section costs: the room for as many blocks as it says it has, if
it gets to them, and what its bytes pay for. -/
theorem readBlocksM_cost {blob : Bytes} {room : ℕ} (hblob : s.endOff ≤ blob.length)
    (hroom : 8 ≤ s.size → u64At blob s.off * sz.byteView ≤ room) :
    (readBlocksM sz blob s).cost ≤ room + (sz.engineRecord + 2) * s.size + 1 := by
  have hend : s.endOff = s.off + s.size := rfl
  unfold readBlocksM
  refine bind_cost_le_of_lift fun _ hsize => ?_
  have hsize' : 8 ≤ s.size := by simpa using hsize
  have hreserve : (reserveItems sz.byteView (u64At blob s.off)).cost ≤ room := by
    unfold reserveItems
    split
    · simp
    · simpa using hroom hsize'
  rw [Nat.add_assoc]
  refine bind_cost_le_add hreserve fun _ _ => ?_
  have hwalk := splitBlocksM_cost blob s.endOff (u64At blob s.off) (s.off + 8)
  have hwalk' : ((splitBlocksM blob s.endOff (u64At blob s.off) (s.off + 8)).mapError
      LoadFault.rejected).cost ≤ s.size + 1 := by
    rw [mapError_cost]
    omega
  rw [show (sz.engineRecord + 2) * s.size + 1 = (s.size + 1) + (sz.engineRecord + 1) * s.size by ring]
  refine bind_cost_le_add hwalk' ?_
  rintro ⟨blocks, c⟩ hblocks
  have hc : s.off + 8 ≤ c := (splitBlocksM_ordered (mapError_eq_ok.mp hblocks)).2.1.le
  dsimp only
  -- only flags that are there ask for records, and then there are no more blocks than bytes
  by_cases hflags : blocks ≠ [] ∧ c + blocks.length ≤ s.endOff
  · rw [if_pos hflags]
    have hlen : (viewBytes blob (some ⟨c, blocks.length⟩)).length = blocks.length :=
      slice_length_of_le (show c + blocks.length ≤ blob.length by omega)
    have hroom : (sz.engineRecord + 1) * blocks.length ≤ (sz.engineRecord + 1) * s.size :=
      Nat.mul_le_mul_left _ (by omega)
    split
    · have hrecs := readEngineRecordsM_cost blob s.endOff (viewBytes blob (some ⟨c, blocks.length⟩))
        (align8 (c + (viewBytes blob (some ⟨c, blocks.length⟩)).length))
      rw [request_bind_cost]
      refine (Nat.add_le_add_left (bind_cost_le_add (a := blocks.length) (b := 0)
        (by rw [mapError_cost]; omega) fun _ _ => (pure_cost _).le) _).trans ?_
      rw [Nat.mul_comm blocks.length]
      rw [Nat.add_mul, Nat.one_mul] at hroom
      omega
    · simp
  · rw [if_neg hflags]
    split
    · rename_i hany
      simp [viewBytes] at hany
    · simp

/-- The reader of the blocks section without its places. -/
theorem readBlocksM_result (s : Section)
    (hcount : 8 ≤ s.size → u64At blob s.off * sz.byteView < 2 ^ 63) :
    ((readBlocksM sz blob s).result.map fun p =>
        (p.1.map (·.bytes blob), viewBytes blob p.2.1, p.2.2.map fun r => r.map (·.engineRecord blob))) =
      (readBlocks blob s).mapError LoadFault.rejected := by
  have hblocks := splitBlocksM_result blob s.endOff (u64At blob s.off) (s.off + 8)
  unfold readBlocksM readBlocks
  by_cases hsize : s.size < 8
  · simp [rejectIf, hsize, bind, Except.bind, Except.map, Except.mapError, Metered.bind]
  have hreserve : (reserveItems sz.byteView (u64At blob s.off)).result = .ok () := by
    have := hcount (by omega)
    unfold reserveItems
    rw [if_neg (by omega)]
    rfl
  have hok : rejectIf (s.size < 8) "load_flat_bundle: blocks section too small" =
      .ok () := by simp [hsize]
  have hok' : rejectIf (s.size < 8) (LoadFault.rejected "load_flat_bundle: blocks section too small") =
      .ok () := by simp [hsize]
  simp only [bind_result, lift_result, mapError_result, hok, hok', hreserve, ← hblocks]
  rcases (splitBlocksM blob s.endOff (u64At blob s.off) (s.off + 8)).result with e | ⟨blocks, c⟩
  · rfl
  simp only [Except.map, Except.mapError, bind, Except.bind]
  have hnil : blocks.map (·.bytes blob) ≠ [] ↔ blocks ≠ [] := by simp
  have hflags : viewBytes blob (if blocks ≠ [] ∧ c + blocks.length ≤ s.endOff
        then some ⟨c, blocks.length⟩ else none) =
      if blocks.map (·.bytes blob) ≠ [] ∧ c + (blocks.map (·.bytes blob)).length ≤ s.endOff
        then slice blob c (blocks.map (·.bytes blob)).length else [] := by
    rw [length_map]
    simp only [hnil]
    split <;> rfl
  rw [← hflags]
  generalize hf : (if blocks ≠ [] ∧ c + blocks.length ≤ s.endOff then some ⟨c, blocks.length⟩
    else (none : Option Span)) = flags
  by_cases hany : (viewBytes blob flags).any fun f => f &&& kBlockFlagEngineRecord ≠ 0
  · have hrecs := readEngineRecordsM_result blob s.endOff (viewBytes blob flags)
      (align8 (c + (viewBytes blob flags).length))
    rw [if_pos hany, if_pos hany, ← hrecs]
    simp only [Metered.bind, request, mapError]
    rcases (readEngineRecordsM blob s.endOff (viewBytes blob flags)
      (align8 (c + (viewBytes blob flags).length))).result with e | recs <;> rfl
  · rw [if_neg hany, if_neg hany]
    rfl

/-! ## The loader's bounds -/

/-- What one byte of a bundle pays for, if its counts are within `K` times its bytes. -/
def loadRate (blockMaps K : ℕ) : ℕ :=
  sz.rate + (K + sz.engineRecord + 2) + (4 * (sz.byteView + sz.blockHeader) + 2) + (blockMaps + K + 10)

/-- The bytes of the views of as many blocks as the blocks section says it has. -/
def claimedRoom (hdr : FlatBundleHeader) : ℕ :=
  u64At blob hdr.blocks.off * sz.byteView

/-- The loader gets to the block count: the header is checked, the genesis block decodes, and the
blocks section has a count. -/
def ReachesBlocks (hdr : FlatBundleHeader) : Prop :=
  checkSections blob = .ok hdr ∧ (decodeBlock .prohibit (hdr.genesis.bytes blob)).isOk ∧
    8 ≤ hdr.blocks.size

/-- The loader gets to the constructor of `DirectState`: the sections before it are all read. -/
def ReachesState (hdr : FlatBundleHeader) : Prop :=
  checkSections blob = .ok hdr ∧ (readSections blob hdr).isOk

/-- **Counts within `K` times the blob's bytes**: a bundle whose block count is looked at has room
for the views of so many blocks, which a vector can hold, and one whose node store is looked at says
that it has no more data. -/
structure CountsWithin (sz : ElementSizes) (K : ℕ) (blob : Bytes) : Prop where
  blocks (hdr : FlatBundleHeader) : ReachesBlocks blob hdr →
    claimedRoom sz blob hdr < 2 ^ 63 ∧ claimedRoom sz blob hdr ≤ K * blob.length
  nodeStore (hdr : FlatBundleHeader) : ReachesState blob hdr → hdr.nodeStore.bytes blob ≠ [] →
    (MphfMap.reset (hdr.nodeStore.bytes blob) 0).hdr.dataSize ≤ K * blob.length

/-- The sections of the pre-state and of the node store pass the layout checks that abort, if the
loader looks at them. -/
def LayoutsPass (addr : ℕ) (blob : Bytes) : Prop :=
  ∀ hdr, checkSections blob = .ok hdr →
    validatePrestateLayout (addr + hdr.directState.off) (hdr.directState.bytes blob) = .ok () ∧
    validateNodestoreLayout (addr + hdr.nodeStore.off) (hdr.nodeStore.bytes blob) = .ok ()

/-- **The views of a loaded bundle**: each lies in the section it belongs to and in the blob, and
those of the blocks section share no byte. -/
structure BundleViews.Inside (v : BundleViews) (hdr : FlatBundleHeader) (blob : Bytes) : Prop where
  sections : ∀ s ∈ hdr.sections, s.1.endOff ≤ blob.length
  blocks : ∀ s ∈ blockViews (v.blocks, v.flags, v.engineRecords),
    hdr.blocks.off + 8 ≤ s.off ∧ s.off + s.size ≤ hdr.blocks.endOff
  disjoint : (blockViews (v.blocks, v.flags, v.engineRecords)).Pairwise fun a b =>
    Apart a.off a.size b.off b.size
  ancestors : ∀ s ∈ v.ancestors, hdr.ancestors.off ≤ s.off ∧ s.off + s.size ≤ hdr.ancestors.endOff
  directState : v.directState = hdr.directState.span
  nodeStore : v.nodeStore = hdr.nodeStore.span
  network : v.network = hdr.network.span

/-- The bundle's byte strings are the bytes at its views. -/
structure BundleViews.Show (v : BundleViews) (blob : Bytes) (fb : FlatBundle) : Prop where
  blocks : fb.blockRlps = v.blocks.map (·.bytes blob)
  flags : fb.blockFlags = viewBytes blob v.flags
  engineRecords : fb.engineRecords = v.engineRecords.map fun r => r.map (·.engineRecord blob)
  ancestors : fb.ancestorRlps = v.ancestors.map (·.bytes blob)
  network : fb.network = v.network.bytes blob

/-- A section inside the blob is no longer than it. -/
theorem bytes_length_le {blob : Bytes} (h : s.endOff ≤ blob.length) :
    s.size ≤ blob.length ∧ (s.bytes blob).length ≤ blob.length := by
  have : s.endOff = s.off + s.size := rfl
  rw [Section.bytes, slice_length_of_le h]
  omega

/-- What was read of the sections, its places dropped. -/
def plainSections (p : Block × (List Span × Option Span × List (Option Span)) × AncestorViews) :
    Block × (List Bytes × Bytes × List (Option BlockEngineRecord)) × Ancestors :=
  (p.1, (p.2.1.1.map (·.bytes blob), viewBytes blob p.2.1.2.1,
    p.2.1.2.2.map fun r => r.map (·.engineRecord blob)), p.2.2.plain blob)

section Sections

variable (sz : ElementSizes) {blob : Bytes} {hdr : FlatBundleHeader}
  (hsec : ∀ s ∈ hdr.sections, s.1.endOff ≤ blob.length)

include hsec

/-- **The sections without their places**, unless the exception is thrown: each reader fails with
the text of the plain one, or returns the places of what that returns. -/
theorem readSectionsM_result (hcount : (decodeBlock .prohibit (hdr.genesis.bytes blob)).isOk →
      8 ≤ hdr.blocks.size → claimedRoom sz blob hdr < 2 ^ 63) :
    (readSectionsM sz blob hdr).result.map (plainSections blob) =
      (readSections blob hdr).mapError LoadFault.rejected := by
  have hancestors := (readAncestorsM_spec sz
    (hsec (hdr.ancestors, "ancestors") (by simp [FlatBundleHeader.sections]))).1
  unfold readSectionsM readSections
  simp only [bind_result, mapError_result, decodeBlockM_result]
  rcases hgen : decodeBlock .prohibit (hdr.genesis.bytes blob) with e | ⟨genesis, left⟩
  · rfl
  have hblocks := readBlocksM_result sz blob hdr.blocks (hcount (by rw [hgen]; rfl))
  simp only [bind, Except.bind, Except.mapError]
  rcases map_eq_mapError hblocks with ⟨e, hb, hm⟩ | ⟨p, hm, hb⟩ <;> rw [hb, hm]
  · rfl
  rw [← hancestors]
  rcases (readAncestorsM sz blob hdr.ancestors).result with e' | a <;> rfl

/-- **What the sections cost**: each pays at its own rate, but for the room that the block count
asks for. -/
theorem readSectionsM_cost {room : ℕ} (hroom : (decodeBlock .prohibit (hdr.genesis.bytes blob)).isOk →
      8 ≤ hdr.blocks.size → claimedRoom sz blob hdr ≤ room) :
    (readSectionsM sz blob hdr).cost ≤ sz.rate * blob.length +
      ((room + (sz.engineRecord + 2) * blob.length + 1) +
        (4 * (sz.byteView + sz.blockHeader) + 2) * blob.length) := by
  simp only [FlatBundleHeader.sections, mem_cons, not_mem_nil, or_false, forall_eq_or_imp,
    forall_eq] at hsec
  obtain ⟨hgen, hblk, hanc, -⟩ := hsec
  unfold readSectionsM
  refine bind_cost_le_add ?_ fun genesis hgenesis => bind_cost_le_add ?_ fun _ _ =>
    bind_cost_le_add (b := 0) ?_ fun _ _ => (pure_cost _).le
  · rw [mapError_cost]
    exact (decodeBlockM_frugal sz .prohibit (hdr.genesis.bytes blob)).total.trans
      (Nat.mul_le_mul_left _ (bytes_length_le hgen).2)
  · have hok : (decodeBlock .prohibit (hdr.genesis.bytes blob)).isOk := by
      rw [mapError_result, decodeBlockM_result] at hgenesis
      rw [mapError_eq_ok.mp hgenesis]
      rfl
    refine (readBlocksM_cost sz hblk (hroom hok)).trans ?_
    have := Nat.mul_le_mul_left (sz.engineRecord + 2) (bytes_length_le hblk).1
    omega
  · exact (readAncestorsM_spec sz hanc).2.1.trans (Nat.mul_le_mul_left _ (bytes_length_le hanc).1)

end Sections

/-- A map whose layout passes is walked in no more rounds than twice its bytes. -/
theorem walkRounds_le {keySize keyOffset regionOff regionSize magic : ℕ} {b : Bytes}
    (h : validateMphf keySize keyOffset b regionOff regionSize magic = .ok ()) (hr : regionSize ≠ 0) :
    walkRounds (MphfMap.reset b regionOff) ≤ 2 * b.length := by
  unfold walkRounds
  split
  · omega
  · rename_i hkeys
    have hl := validateMphf_layout h hr hkeys
    have hregion := hl.region
    have hslots := hl.slots
    have hcols := hl.collisions
    have hend := hl.dataEnd
    unfold MphfMap.nCollisions mphfCollisionSize
    omega

theorem directStateRounds_le {addr addr' : ℕ} {direct nodeStore : Bytes}
    (hpre : validatePrestateLayout addr direct = .ok ())
    (hns : validateNodestoreLayout addr' nodeStore = .ok ()) :
    directStateRounds direct nodeStore ≤ 6 * direct.length + 2 * nodeStore.length := by
  have haddr : 0 < (PreStateMeta.read direct).nAccounts →
      walkRounds (MphfMap.reset direct (PreStateMeta.read direct).prestateOffset) ≤
        2 * direct.length := by
    intro hpos
    simp only [validatePrestateLayout, validateAddrMap, hpos, if_true, bind_eq_ok,
      rejectIf_eq_ok] at hpre
    obtain ⟨_, -, _, -, _, -, _, -, _, -, _, -, _, ⟨_, hempty, _, hmap, -⟩, -⟩ := hpre
    exact walkRounds_le hmap (by omega)
  have hcode : (PreStateMeta.read direct).codeStoreSize ≠ 0 →
      walkRounds (MphfMap.reset direct (PreStateMeta.read direct).codeStoreOffset) ≤
        2 * direct.length := by
    intro hpos
    simp only [validatePrestateLayout, bind_eq_ok] at hpre
    obtain ⟨_, -, _, -, _, -, _, -, _, -, _, -, _, -, _, hmap, -⟩ := hpre
    exact walkRounds_le hmap hpos
  have hnode : (if nodeStore = [] then 0 else walkRounds (MphfMap.reset nodeStore 0)) ≤
      2 * nodeStore.length := by
    unfold validateNodestoreLayout at hns
    split
    · omega
    · rename_i hne
      rw [if_neg hne] at hns
      simp only [bind_eq_ok] at hns
      obtain ⟨_, -, _, -, hmap⟩ := hns
      exact walkRounds_le hmap fun h0 => hne (length_eq_zero_iff.mp h0)
  refine Nat.add_le_add ?_ hnode
  split_ifs <;> omega

/-- What the constructor of `DirectState` costs: the claimed data pays for the bits, the sections
for the rounds. -/
theorem directState_cost (blockMaps : ℕ) {addr addr' K : ℕ} {direct nodeStore blob : Bytes}
    (hpre : validatePrestateLayout addr direct = .ok ())
    (hnode : validateNodestoreLayout addr' nodeStore = .ok ())
    (hdir : direct.length ≤ blob.length) (hns : nodeStore.length ≤ blob.length)
    (hcount : nodeStore ≠ [] → (MphfMap.reset nodeStore 0).hdr.dataSize ≤ K * blob.length) :
    directStateMemory blockMaps nodeStore + directStateRounds direct nodeStore ≤
      K * blob.length + 4 + blockMaps + 8 * blob.length := by
  have hrounds := directStateRounds_le hpre hnode
  unfold directStateMemory
  split
  · omega
  · rename_i hne
    have := hcount hne
    omega

/-- **What loading costs**, of a bundle whose counts are within `K` times its bytes. -/
theorem loadFlatBundleM_cost {sz : ElementSizes} (blockMaps addr : ℕ) {K : ℕ} {blob : Bytes}
    (hcount : CountsWithin sz K blob) :
    (loadFlatBundleM sz blockMaps addr blob).cost ≤ loadRate sz blockMaps K * blob.length := by
  unfold loadFlatBundleM
  refine bind_cost_le_of_lift fun hdr hhdr => ?_
  have hcheck := mapError_eq_ok.mp hhdr
  obtain ⟨-, h56, hsec⟩ := checkSections_spec hcheck
  have hread := readSectionsM_cost sz hsec fun hgen hsize =>
    (hcount.blocks hdr ⟨hcheck, hgen, hsize⟩).2
  have hresult := readSectionsM_result sz hsec fun hgen hsize =>
    (hcount.blocks hdr ⟨hcheck, hgen, hsize⟩).1
  have hsum : sz.rate * blob.length + ((K * blob.length + (sz.engineRecord + 2) * blob.length + 1) +
      (4 * (sz.byteView + sz.blockHeader) + 2) * blob.length) +
      (K * blob.length + 4 + blockMaps + 8 * blob.length) ≤ loadRate sz blockMaps K * blob.length := by
    simp only [flatBundleHeaderSize] at h56
    have hmaps : blockMaps * 1 ≤ blockMaps * blob.length := Nat.mul_le_mul_left _ (by omega)
    unfold loadRate
    simp only [Nat.add_mul]
    omega
  refine (bind_cost_le_add hread fun p hp => ?_).trans hsum
  have hreach : ReachesState blob hdr := by
    rw [hp] at hresult
    exact ⟨hcheck, by rw [mapError_eq_ok.mp hresult.symm]; rfl⟩
  refine bind_cost_le_of_lift fun _ hpre => bind_cost_le_of_lift fun _ hnode => ?_
  rw [spend_bind_cost]
  exact directState_cost blockMaps (loadPreState_layout (mapError_eq_ok.mp hpre))
    (mapError_eq_ok.mp hnode)
    (bytes_length_le (hsec (_, "direct_state") (by simp [FlatBundleHeader.sections]))).2
    (bytes_length_le (hsec (_, "node_store") (by simp [FlatBundleHeader.sections]))).2
    (hcount.nodeStore hdr hreach)

/-- **Without its meter and its places the loader is the loader**, unless the exception is thrown.
-/
theorem loadFlatBundleM_result {sz : ElementSizes} (blockMaps addr : ℕ) {K : ℕ} {blob : Bytes}
    (hcount : CountsWithin sz K blob) :
    (loadFlatBundleM sz blockMaps addr blob).result.map (·.1) =
      (loadFlatBundle addr blob).mapError LoadError.fault := by
  unfold loadFlatBundleM loadFlatBundle
  simp only [bind_result, lift_result]
  rcases hcheck : checkSections blob with e | hdr
  · rfl
  have hread := readSectionsM_result sz (checkSections_spec hcheck).2.2 fun hgen hsize =>
    (hcount.blocks hdr ⟨hcheck, hgen, hsize⟩).1
  simp only [bind, Except.bind, Except.mapError]
  rcases map_eq_mapError hread with ⟨e, hs, hm⟩ | ⟨⟨genesis, ⟨blocks, flags, recs⟩, anc⟩, hm, hs⟩ <;>
    rw [hs, hm]
  · rfl
  simp only [Except.map]
  rcases loadPreState (addr + hdr.directState.off) (hdr.directState.bytes blob) with e | direct
  · rfl
  rcases validateNodestoreLayout (addr + hdr.nodeStore.off) (hdr.nodeStore.bytes blob) with e | u <;> rfl

theorem loadFlatBundleM_inside {sz : ElementSizes} {blockMaps addr : ℕ} {blob : Bytes} {fb : FlatBundle}
    {v : BundleViews} (h : (loadFlatBundleM sz blockMaps addr blob).result = .ok (fb, v)) :
    v.Inside (.read blob) blob ∧ v.Show blob fb := by
  unfold loadFlatBundleM readSectionsM at h
  simp only [bind_result, lift_result, mapError_result, bind_eq_ok] at h
  obtain ⟨hdr, hcheck, ⟨g, ⟨blocks, flags, recs⟩, a⟩, ⟨_, -, _, hblocks, _, ha, hret⟩, direct, -, _,
    -, _, -, h⟩ := h
  cases hret
  have hcheck := mapError_eq_ok.mp hcheck
  obtain ⟨rfl, -, hsec⟩ := checkSections_spec hcheck
  obtain ⟨rfl, rfl⟩ := Prod.mk.inj (Except.ok.inj h)
  have hordered := readBlocksM_ordered (hsec (_, "blocks") (by simp [FlatBundleHeader.sections])) hblocks
  refine ⟨⟨hsec, hordered.mem, hordered.pairwise, ?_, rfl, rfl, rfl⟩, rfl, rfl, rfl, rfl, rfl⟩
  exact (readAncestorsM_spec sz (hsec (_, "ancestors") (by simp [FlatBundleHeader.sections]))).2.2 a
    (mapError_eq_ok.mp ha)

/-- A bundle whose layouts pass aborts nothing. -/
theorem loadFlatBundle_not_aborted {addr : ℕ} {blob : Bytes} (h : LayoutsPass addr blob)
    (text : String) :
    loadFlatBundle addr blob ≠ .error (.aborted text) := by
  intro he
  unfold loadFlatBundle at he
  rcases hcheck : checkSections blob with e | hdr
  · rw [hcheck] at he
    cases he
  obtain ⟨hpre, hns⟩ := h hdr hcheck
  rw [hcheck] at he
  simp only [Except.mapError, bind, Except.bind] at he
  split at he
  · rename_i hread
    split at hread
    · cases hread
      cases he
    · cases hread
  · rw [loadPreState_of_valid hpre, hns] at he
    cases he

/-- **Loading a bundle as the loader promises, at rate `K`**: `K` times the blob's bytes are enough
for its memory and its rounds, and with such a heap it rejects the bundle with a text, or returns
views that lie inside their sections and apart from each other. -/
structure LoadsWithin (sz : ElementSizes) (blockMaps K addr : ℕ) (blob : Bytes) : Prop where
  memory : (loadFlatBundleM sz blockMaps addr blob).memory ≤ K * blob.length
  rounds : (loadFlatBundleM sz blockMaps addr blob).rounds ≤ K * blob.length
  outcome : ∀ heap, K * blob.length ≤ heap →
    (∃ text, loadOnHeap sz blockMaps heap addr blob = .error (.rejected text) ∧
      loadFlatBundle addr blob = .error (.rejected text)) ∨
    ∃ fb v, loadOnHeap sz blockMaps heap addr blob = .ok (fb, v) ∧ loadFlatBundle addr blob = .ok fb ∧
      v.Inside (.read blob) blob ∧ v.Show blob fb

section Bounds

variable {sz : ElementSizes} {blockMaps K addr : ℕ} {blob : Bytes} (hlayout : LayoutsPass addr blob)

include hlayout

/-- Bounded counts are enough. -/
theorem CountsWithin.loads (h : CountsWithin sz K blob) :
    LoadsWithin sz blockMaps (loadRate sz blockMaps K) addr blob := by
  have hcost := loadFlatBundleM_cost blockMaps addr h
  have hresult := loadFlatBundleM_result blockMaps addr h
  have hmem : (loadFlatBundleM sz blockMaps addr blob).memory ≤ loadRate sz blockMaps K * blob.length :=
    (Nat.le_add_right _ _).trans hcost
  refine ⟨hmem, (Nat.le_add_left _ _).trans hcost, fun heap hheap => ?_⟩
  unfold loadOnHeap
  dsimp only
  rw [if_neg (by omega)]
  rcases map_eq_mapError hresult with ⟨text | text, hl, hm⟩ | ⟨⟨fb, v⟩, hm, hl⟩
  · exact .inl ⟨text, hm, hl⟩
  · exact absurd hl (loadFlatBundle_not_aborted hlayout text)
  · exact .inr ⟨fb, v, hm, hl, loadFlatBundleM_inside hm⟩

end Bounds

namespace Sample

end Sample

end Zilkworm.Run
