/-
# Bundles as chains

What the loop of `run_one_bundle` does in one round, said once: it passes over a block that
was expected to be invalid, which is the bundle's last, or it accepts one that was not.  From that
an invariant of the whole loop follows: the blocks a bundle adds to a run are those it carries
without the flag, they form a chain, the first stands on a header the bundle carries, and the public
values are those of its ends.
-/
import Zilkworm.Execution.Invariant
import Zilkworm.Run.Envelope
import Mathlib.Data.BitVec
import Mathlib.Data.List.Chain

namespace Zilkworm.Run

open List Lib Rlp Zilkworm.Types Witness State Chain Protocol Execution

variable {i : ℕ} {block : Block} {r r' : BundleRun} {blockRlp : Bytes}

/-! ## Root checks -/

section CheckRoot

variable {keccak256 : Bytes → Bytes32} {stale : UInt8} {header : BlockHeader} {rev : Revision}
  {t : StateTransition} {s : DirectState}

theorem recache_headers (addr : Address) : (recache keccak256 s addr).headers = s.headers := by
  unfold recache
  cases s.readAccount addr with
  | none => rfl
  | some pa => exact DirectState.storeAccount_headers

theorem settleRoot_headers : (settleRoot keccak256 rev s).headers = s.headers := by
  unfold settleRoot
  refine (DirectState.foldl_headers _ (fun s addr => ?_) _ (clearAbsentReads s)).trans rfl
  split
  · rfl
  · exact recache_headers addr

theorem checkRoot_headers : (checkRoot keccak256 stale header rev t s).2.2.headers = s.headers := by
  unfold checkRoot
  cases checkedUpdates keccak256 stale s with
  | error text => rfl
  | ok updates =>
    cases s.readHeader (header.number - 1) header.parentHash with
    | none => rfl
    | some parent => exact settleRoot_headers

theorem checkRootNewBlock_headers : (checkRootNewBlock keccak256 header s).2.headers = s.headers := by
  unfold checkRootNewBlock
  dsimp only
  have hfold := DirectState.foldl_headers (recache keccak256) (fun s a => recache_headers a)
    (s.changedAddressesJournal.filter fun addr => !s.isDeleted addr) s
  split_ifs
  · rfl
  · exact hfold
  · exact hfold

/-- The public values `check_root` leaves: those it was given, or those with an anchor. -/
theorem checkRoot_transition :
    (checkRoot keccak256 stale header rev t s).2.1 = t ∨
      ∃ root, (checkRoot keccak256 stale header rev t s).2.1 = t.anchor root := by
  unfold checkRoot
  cases checkedUpdates keccak256 stale s with
  | error text => exact .inl rfl
  | ok updates =>
    cases s.readHeader (header.number - 1) header.parentHash with
    | none => exact .inl rfl
    | some parent => exact .inr ⟨parent.stateRoot, rfl⟩

/-- A root that checks is anchored at the parent's. -/
theorem checkRoot_ok (h : (checkRoot keccak256 stale header rev t s).1 = .ok ()) :
    ∃ parent, s.readHeader (header.number - 1) header.parentHash = some parent ∧
      (checkRoot keccak256 stale header rev t s).2.1 = t.anchor parent.stateRoot := by
  unfold checkRoot at h ⊢
  rcases hu : checkedUpdates keccak256 stale s with text | updates
  · rw [hu] at h
    cases h
  rcases hp : s.readHeader (header.number - 1) header.parentHash with _ | parent
  · rw [hu, hp] at h
    cases h
  · exact ⟨parent, rfl, rfl⟩

end CheckRoot

/-! ## One round -/

/-- A run that has no anchor has none in its public values. -/
def StateTransition.Clean (t : StateTransition) : Prop :=
  t.preRootSet = false → t.preStateRoot = zeroBytes32

/-- The public values a block leaves that was accepted on top of `parent`. -/
def StateTransition.accept (keccak256 : Bytes → Bytes32) (first : Bool) (parent header : BlockHeader)
    (t : StateTransition) : StateTransition :=
  { (if first then t.anchor parent.stateRoot else t) with
    postStateRoot := header.stateRoot
    blockHash := header.hash keccak256 }

/-- The header a state holds under a hash. -/
def held (s : DirectState) (hash : Bytes32) : Option BlockHeader := s.headers.lookup hash

theorem held_insertHeader (keccak256 : Bytes → Bytes32) (h : BlockHeader) (s : DirectState)
    (k : Bytes32) :
    held (s.insertHeader keccak256 h) k = if h.hash keccak256 = k then some h else held s k :=
  @LawfulHeaders.insertHeader keccak256 DirectState _ _ h s 0 k

theorem held_insertBlock (host : Host) (checkStateRoot : Bool) (config : ChainConfig) (block : Block)
    (s : DirectState) :
    held (insertBlock host checkStateRoot config block s).2 = held s :=
  congrFun (insertBlock_readHeader host checkStateRoot config block s) 0

section Round

variable (host : Host) (config : ChainConfig) (bundle : FlatBundle)

/-- A round that passes over a block: it was expected to be invalid, is the bundle's last, and
leaves no trace. -/
structure RoundRejected (i : ℕ) (r r' : BundleRun) : Prop where
  flagged : bundle.expectInvalid i = true
  last : bundle.blockRlps.length ≤ i + 1
  accepted : r'.accepted = r.accepted
  cumulativeGas : r'.cumulativeGas = r.cumulativeGas
  transition : r'.transition = r.transition
  headers : held r'.direct = held r.direct

/-- What a root check and the bookkeeping behind it do for an accepted block. -/
structure Settled (block : Block) (parent : BlockHeader) (r r' : BundleRun) : Prop where
  parentHeld : held r.direct block.header.parentHash = some parent
  accepted : r'.accepted = r.accepted ++ [block]
  cumulativeGas : r'.cumulativeGas = r.cumulativeGas + block.header.gasUsed
  firstRootCheck : r'.firstRootCheck = false
  transition : r'.transition =
    r.transition.accept host.keccak256 r.firstRootCheck parent block.header
  headers : ∀ k, held r'.direct k =
    if block.header.hash host.keccak256 = k then some block.header else held r.direct k

/-- A round that accepts a block, on top of a header the state holds. -/
structure RoundAccepted (i : ℕ) (blockRlp : Bytes) (block : Block) (parent : BlockHeader)
    (r r' : BundleRun) : Prop extends Settled host block parent r r' where
  unflagged : bundle.expectInvalid i = false
  decoded : decodeChecked host config bundle i blockRlp = .ok block
  inserted : (insertBlock host false config block r.direct.resetWitnessIncomplete).1 = .ok ()
  linked : r.firstRootCheck = false → block.header.parentHash = r.transition.blockHash

end Round

section Loop

variable {host : Host} {m : Machine} {config : ChainConfig} {bundle : FlatBundle}

/-- The rollback of a rejected block's anchor gives the values from before it. -/
theorem StateTransition.Clean.rollback {t t' : StateTransition} (hc : t.Clean)
    (ht : t' = t ∨ ∃ root, t' = t.anchor root) :
    (if t.preRootSet then t' else { t' with preRootSet := false, preStateRoot := zeroBytes32 }) = t := by
  obtain ⟨pre, post, hash, chain, set⟩ := t
  cases set with
  | true =>
    rcases ht with rfl | ⟨root, rfl⟩ <;> rfl
  | false =>
    obtain rfl : pre = zeroBytes32 := hc rfl
    rcases ht with rfl | ⟨root, rfl⟩ <;> rfl

/-- What `settleBlock` leaves of a block that ran. -/
theorem settleBlock_cases {expectInvalid : Bool}
    (h : settleBlock host m config bundle i expectInvalid block r = .ok r')
    (hc : r.transition.Clean) (hparent : ∃ p, held r.direct block.header.parentHash = some p) :
    (expectInvalid = true ∧ r'.accepted = r.accepted ∧ r'.cumulativeGas = r.cumulativeGas ∧
      r'.transition = r.transition ∧ held r'.direct = held r.direct) ∨
    (expectInvalid = false ∧ ∃ parent, Settled host block parent r r') := by
  obtain ⟨p₀, hp₀⟩ := hparent
  -- the outcome of either check, with what it leaves of the values and the headers
  obtain ⟨out, hout, hheaders, htrans, hok⟩ :
      ∃ out : Except String Unit × StateTransition × DirectState,
        out = (if r.firstRootCheck then
            checkRoot host.keccak256 m.stale block.header
              (config.revision block.header.number block.header.timestamp) r.transition r.direct
          else
            ((checkRootNewBlock host.keccak256 block.header r.direct).1, r.transition,
              (checkRootNewBlock host.keccak256 block.header r.direct).2)) ∧
        out.2.2.headers = r.direct.headers ∧
        (out.2.1 = r.transition ∨ ∃ root, out.2.1 = r.transition.anchor root) ∧
        (out.1 = .ok () → ∃ parent, held r.direct block.header.parentHash = some parent ∧
          out.2.1 = if r.firstRootCheck then r.transition.anchor parent.stateRoot
            else r.transition) := by
    refine ⟨_, rfl, ?_⟩
    cases r.firstRootCheck with
    | true => exact ⟨checkRoot_headers, checkRoot_transition, checkRoot_ok⟩
    | false => exact ⟨checkRootNewBlock_headers, .inl rfl, fun _ => ⟨p₀, hp₀, rfl⟩⟩
  unfold settleBlock at h
  dsimp only at h
  rw [← hout] at h
  obtain ⟨ok, t, s⟩ := out
  dsimp only at h hheaders htrans hok
  have hheld : held s = held r.direct := funext fun k => congrArg (AList.lookup k) hheaders
  cases ok with
  | error text =>
    dsimp only at h
    rw [hc.rollback htrans] at h
    split_ifs at h with he
    obtain rfl := Except.ok.inj h
    exact .inl ⟨he, rfl, rfl, rfl, hheld⟩
  | ok u =>
    dsimp only at h
    split_ifs at h with hwhole he
    obtain rfl := Except.ok.inj h
    obtain ⟨parent, hp, ht⟩ := hok rfl
    refine .inr ⟨by simpa using he, parent, hp, rfl, rfl, rfl, ?_, fun k => ?_⟩
    · unfold StateTransition.accept
      rw [← ht]
    · rw [held_insertHeader, hheld]

/-- **What one round of `run_one_bundle` can do.** -/
theorem runBlock_cases (hc : r.transition.Clean)
    (h : runBlock host m config bundle i blockRlp r = .ok r') :
    RoundRejected bundle i r r' ∨
      ∃ block parent, RoundAccepted host config bundle i blockRlp block parent r r' := by
  unfold runBlock at h
  dsimp only at h
  by_cases hlast : bundle.expectInvalid i = true ∧ i + 1 < bundle.blockRlps.length
  · rw [if_pos hlast] at h
    cases h
  rw [if_neg hlast] at h
  -- a block passed over was expected to be invalid, so it is the last
  have hend : bundle.expectInvalid i = true → bundle.blockRlps.length ≤ i + 1 := by
    intro he
    by_contra hlt
    exact hlast ⟨he, by omega⟩
  have hrej : ∀ {q : BundleRun} {reason : RunError},
      q.reject (bundle.expectInvalid i) reason = .ok r' →
      q.accepted = r.accepted → q.cumulativeGas = r.cumulativeGas → q.transition = r.transition →
      held q.direct = held r.direct → RoundRejected bundle i r r' := by
    intro q reason hq ha hg ht hh
    unfold BundleRun.reject at hq
    split_ifs at hq with he
    obtain rfl := Except.ok.inj hq
    exact ⟨he, hend he, ha, hg, ht, hh⟩
  rcases hv : (if i = 0 then witnessHeadersValid host.keccak256 bundle else .ok ()) with text | u
  · rw [hv] at h
    exact .inl (hrej h rfl rfl rfl rfl)
  rw [hv] at h
  rcases hd : decodeChecked host config bundle i blockRlp with text | block
  · rw [hd] at h
    exact .inl (hrej h rfl rfl rfl rfl)
  rw [hd] at h
  dsimp only at h
  unfold executeChecked at h
  dsimp only at h
  have hheld : held (insertBlock host false config block r.direct.resetWitnessIncomplete).2 =
      held r.direct := held_insertBlock host false config block _
  by_cases hmissing : (insertBlock host false config block
      r.direct.resetWitnessIncomplete).2.witnessIncomplete = true ∨
      (insertBlock host false config block r.direct.resetWitnessIncomplete).2.ancestorMissing = true
  · rw [if_pos hmissing] at h
    exact .inl (hrej h rfl rfl rfl hheld)
  rw [if_neg hmissing] at h
  rcases hins : (insertBlock host false config block r.direct.resetWitnessIncomplete).1 with e | u
  · rw [hins] at h
    exact .inl (hrej h rfl rfl rfl hheld)
  rw [hins] at h
  dsimp only at h
  split_ifs at h with hlink
  obtain ⟨-, parent₀, hparent₀⟩ := insertBlock_parent hins
  have hex : ∃ p, held (insertBlock host false config block
      r.direct.resetWitnessIncomplete).2 block.header.parentHash = some p := by
    rw [hheld]
    exact ⟨parent₀, hparent₀⟩
  rcases settleBlock_cases h hc hex with ⟨he, ha, hg, ht, hh⟩ | ⟨he, parent, hs⟩
  · exact .inl ⟨he, hend he, ha, hg, ht, hh.trans hheld⟩
  · refine .inr ⟨block, parent, ⟨?_, hs.accepted, hs.cumulativeGas, hs.firstRootCheck,
      hs.transition, fun k => ?_⟩, he, hd, hins, ?_⟩
    · rw [← hheld]
      exact hs.parentHeld
    · rw [hs.headers k, hheld]
    · intro hf
      by_contra hne
      exact hlink ⟨hf, hne⟩

end Loop

/-! ## The loop over the blocks -/

section Invariant

variable (host : Host) (config : ChainConfig) (bundle : FlatBundle)

/-- The second block extends the first. -/
def Extends (keccak256 : Bytes → Bytes32) (a b : Block) : Prop :=
  b.header.parentHash = a.header.hash keccak256

instance (keccak256 : Bytes → Bytes32) (a b : Block) : Decidable (Extends keccak256 a b) :=
  inferInstanceAs (Decidable (_ = _))

/-- The headers a bundle carries from the start. -/
def FlatBundle.headers : List BlockHeader := bundle.genesis.header :: bundle.ancestors

/-- The blocks among `rlps`, the first ones of a bundle, that are not flagged as invalid, as far as
they decode. -/
def FlatBundle.expectedAmong (rlps : List Bytes) : List Block :=
  rlps.zipIdx.filterMap fun e =>
    if bundle.expectInvalid e.2 then none else (decodeBlock .prohibit e.1).toOption.map Prod.fst

/-- The blocks a bundle carries that are expected to be valid. -/
def FlatBundle.expectedBlocks : List Block := bundle.expectedAmong bundle.blockRlps

/-- The public values after some blocks of a bundle, when they were `t₀` before it. -/
structure BundleValues (t₀ : StateTransition) (accepted : List Block) (t : StateTransition) : Prop where
  chainId : t.chainId = t₀.chainId
  untouched : accepted = [] → t = t₀
  last : ∀ b, accepted.getLast? = some b →
    t.postStateRoot = b.header.stateRoot ∧ t.blockHash = b.header.hash host.keccak256
  anchor : ∀ b, accepted.head? = some b → t.preRootSet = true ∧
    ∃ p ∈ bundle.headers, p.hash host.keccak256 = b.header.parentHash ∧
      t.preStateRoot = (t₀.anchor p.stateRoot).preStateRoot

/-- **The invariant of the loop of `run_one_bundle`**, before block `i`. -/
structure BundleInv (t₀ : StateTransition) (i : ℕ) (r : BundleRun) : Prop where
  /-- The header store holds the bundle's headers and those of its accepted blocks, by hash. -/
  held : ∀ k h, Run.held r.direct k = some h →
    h.hash host.keccak256 = k ∧ h ∈ bundle.headers ++ r.accepted.map Block.header
  accepted : r.accepted = bundle.expectedAmong (bundle.blockRlps.take i)
  chained : r.accepted.IsChain (Extends host.keccak256)
  decoded : ∀ b ∈ r.accepted, ∃ j blockRlp, bundle.blockRlps[j]? = some blockRlp ∧
    decodeChecked host config bundle j blockRlp = .ok b
  inserted : ∀ b ∈ r.accepted, ∃ s : DirectState, (insertBlock host false config b s).1 = .ok ()
  gas : r.cumulativeGas = (r.accepted.map fun b => b.header.gasUsed).sum
  values : BundleValues host bundle t₀ r.accepted r.transition
  first : i < bundle.blockRlps.length → r.firstRootCheck = r.accepted.isEmpty

end Invariant

section Loop

variable {host : Host} {m : Machine} {config : ChainConfig} {bundle : FlatBundle}
  {t₀ : StateTransition}

/-- A run is clean as long as the one before its bundle was. -/
theorem BundleValues.clean {accepted : List Block} {t : StateTransition} (h₀ : t₀.Clean)
    (h : BundleValues host bundle t₀ accepted t) : t.Clean := by
  cases accepted with
  | nil =>
    rw [h.untouched rfl]
    exact h₀
  | cons b bs =>
    intro hset
    rw [(h.anchor b rfl).1] at hset
    cases hset

/-- The public values of one more accepted block. -/
theorem BundleValues.accept {accepted : List Block} {t : StateTransition} {first : Bool}
    {parent : BlockHeader} (h : BundleValues host bundle t₀ accepted t)
    (hfirst : first = accepted.isEmpty)
    (hp : accepted = [] → parent ∈ bundle.headers ∧ parent.hash host.keccak256 = block.header.parentHash)
    :
    BundleValues host bundle t₀ (accepted ++ [block])
      (t.accept host.keccak256 first parent block.header) := by
  cases accepted with
  | nil =>
    -- the first block of the bundle, which anchors the run if nothing has
    obtain rfl := h.untouched rfl
    obtain ⟨hmem, hhash⟩ := hp rfl
    subst hfirst
    have hanchor : (t.accept host.keccak256 true parent block.header).chainId = t.chainId ∧
        (t.accept host.keccak256 true parent block.header).preRootSet = true ∧
        (t.accept host.keccak256 true parent block.header).preStateRoot =
          (t.anchor parent.stateRoot).preStateRoot := by
      unfold StateTransition.accept StateTransition.anchor
      cases hset : t.preRootSet <;> simp [hset]
    refine ⟨hanchor.1, by simp, ?_, ?_⟩
    · intro b hb
      obtain rfl : block = b := by simpa using hb
      exact ⟨rfl, rfl⟩
    · intro b hb
      obtain rfl : block = b := by simpa using hb
      exact ⟨hanchor.2.1, parent, hmem, hhash, hanchor.2.2⟩
  | cons b₀ bs =>
    subst hfirst
    refine ⟨h.chainId, by simp, ?_, ?_⟩
    · intro b hb
      obtain rfl : block = b := by
        rw [getLast?_append] at hb
        simpa using hb
      exact ⟨rfl, rfl⟩
    · intro b hb
      exact h.anchor b (by simpa using hb)

/-- The block `i` of a bundle among those expected to be valid. -/
theorem expectedAmong_succ (hi : bundle.blockRlps[i]? = some blockRlp) :
    bundle.expectedAmong (bundle.blockRlps.take (i + 1)) =
      bundle.expectedAmong (bundle.blockRlps.take i) ++ (if bundle.expectInvalid i then none
        else (decodeBlock .prohibit blockRlp).toOption.map Prod.fst).toList := by
  obtain ⟨hlen, -⟩ := List.getElem?_eq_some_iff.mp hi
  unfold FlatBundle.expectedAmong
  rw [take_add_one, hi, zipIdx_append, filterMap_append, length_take, Nat.min_eq_left hlen.le]
  congr 1
  rw [Option.toList_some, zipIdx_singleton, Nat.zero_add, filterMap_cons, filterMap_nil]
  split <;> rename_i h <;> rw [h] <;> rfl

/-- A block that passes the checks before it is the one its bytes decode to. -/
theorem decodeChecked_decodes (h : decodeChecked host config bundle i blockRlp = .ok block) :
    (decodeBlock .prohibit blockRlp).toOption.map Prod.fst = some block := by
  unfold decodeChecked at h
  split at h
  · cases h
  rename_i b rest hb
  rw [hb]
  obtain ⟨-, -, h⟩ := bind_eq_ok.mp h
  split at h
  · cases h
  · obtain rfl := Except.ok.inj h
    rfl

/-- The step of the invariant. -/
theorem BundleInv.step (h₀ : t₀.Clean) (hinv : BundleInv host config bundle t₀ i r)
    (hi : bundle.blockRlps[i]? = some blockRlp)
    (h : runBlock host m config bundle i blockRlp r = .ok r') :
    BundleInv host config bundle t₀ (i + 1) r' := by
  rcases runBlock_cases (hinv.values.clean h₀) h with hrej | ⟨block, parent, hacc⟩
  · refine ⟨?_, ?_, ?_, ?_, ?_, ?_, ?_, ?_⟩
    · rw [hrej.headers, hrej.accepted]
      exact hinv.held
    · rw [hrej.accepted, hinv.accepted, expectedAmong_succ hi, hrej.flagged]
      exact (append_nil _).symm
    · rw [hrej.accepted]
      exact hinv.chained
    · rw [hrej.accepted]
      exact hinv.decoded
    · rw [hrej.accepted]
      exact hinv.inserted
    · rw [hrej.cumulativeGas, hrej.accepted]
      exact hinv.gas
    · rw [hrej.accepted, hrej.transition]
      exact hinv.values
    · intro hlt
      exact absurd hrej.last (by omega)
  · obtain ⟨hlen, -⟩ := List.getElem?_eq_some_iff.mp hi
    have hfirst := hinv.first hlen
    obtain ⟨hphash, hpmem⟩ := hinv.held _ _ hacc.parentHeld
    refine ⟨?_, ?_, ?_, ?_, ?_, ?_, ?_, ?_⟩
    · intro k h hk
      rw [hacc.headers k] at hk
      split_ifs at hk with heq
      · obtain rfl := Option.some.inj hk
        refine ⟨heq, ?_⟩
        rw [hacc.accepted]
        simp
      · obtain ⟨hkey, hmem⟩ := hinv.held k h hk
        rw [hacc.accepted, map_append, ← append_assoc]
        exact ⟨hkey, mem_append_left _ hmem⟩
    · rw [expectedAmong_succ hi, hacc.unflagged, decodeChecked_decodes hacc.decoded, hacc.accepted,
        hinv.accepted]
      rfl
    · rw [hacc.accepted, isChain_append]
      refine ⟨hinv.chained, List.IsChain.singleton _, ?_⟩
      intro last hlast b hb
      obtain rfl : block = b := by simpa using hb
      have hne : r.firstRootCheck = false := by
        rw [hfirst]
        cases hr : r.accepted with
        | nil => simp [hr] at hlast
        | cons => rfl
      exact (hacc.linked hne).trans (hinv.values.last last hlast).2
    · rw [hacc.accepted]
      intro b hb
      rcases mem_append.mp hb with hb | hb
      · exact hinv.decoded b hb
      · obtain rfl := mem_singleton.mp hb
        exact ⟨i, blockRlp, hi, hacc.decoded⟩
    · rw [hacc.accepted]
      intro b hb
      rcases mem_append.mp hb with hb | hb
      · exact hinv.inserted b hb
      · obtain rfl := mem_singleton.mp hb
        exact ⟨_, hacc.inserted⟩
    · rw [hacc.cumulativeGas, hacc.accepted, hinv.gas]
      simp
    · rw [hacc.accepted, hacc.transition]
      refine hinv.values.accept hfirst fun hnil => ⟨?_, hphash⟩
      simpa [hnil] using hpmem
    · intro _
      rw [hacc.firstRootCheck, hacc.accepted]
      simp

/-- The invariant along the whole loop. -/
theorem BundleInv.run (h₀ : t₀.Clean) {bs : List Bytes} (hinv : BundleInv host config bundle t₀ i r)
    (hbs : bundle.blockRlps.drop i = bs) (h : runBlocks host m config bundle i bs r = .ok r') :
    BundleInv host config bundle t₀ (i + bs.length) r' := by
  induction bs generalizing i r with
  | nil =>
    obtain rfl := Except.ok.inj h
    exact hinv
  | cons b bs ih =>
    unfold runBlocks at h
    obtain ⟨r₁, hr₁, h⟩ := bind_eq_ok.mp h
    have hi : bundle.blockRlps[i]? = some b := by
      rw [← head?_drop, hbs]
      rfl
    have hdrop : bundle.blockRlps.drop (i + 1) = bs := by
      rw [← tail_drop, hbs]
      rfl
    have := ih (hinv.step h₀ hi hr₁) hdrop h
    rwa [length_cons, Nat.add_comm bs.length 1, ← Nat.add_assoc]

/-- The headers of the state a bundle starts from. -/
theorem held_startState {blob : Bytes} {k : Bytes32} {h : BlockHeader}
    (hk : held (startState host bundle blob) k = some h) :
    h.hash host.keccak256 = k ∧ h ∈ bundle.headers := by
  have hfold : ∀ (l : List BlockHeader) (s : DirectState),
      held (l.foldl (fun s h => s.insertHeader host.keccak256 h) s) k = some h →
      (h.hash host.keccak256 = k ∧ h ∈ l) ∨ held s k = some h := by
    intro l
    induction l with
    | nil => intro s hs; exact .inr hs
    | cons a l ih =>
      intro s hs
      rcases ih _ hs with ⟨hh, hmem⟩ | hs
      · exact .inl ⟨hh, mem_cons_of_mem a hmem⟩
      · rw [held_insertHeader] at hs
        split_ifs at hs with heq
        · obtain rfl := Option.some.inj hs
          exact .inl ⟨heq, mem_cons_self⟩
        · exact .inr hs
  unfold startState at hk
  dsimp only at hk
  rw [held_insertHeader] at hk
  split_ifs at hk with heq
  · obtain rfl := Option.some.inj hk
    exact ⟨heq, mem_cons_self⟩
  · rcases hfold bundle.ancestors (DirectState.ofBlob bundle.direct blob bundle.nodeStore) hk with
      ⟨hh, hmem⟩ | hempty
    · exact ⟨hh, mem_cons_of_mem _ hmem⟩
    · cases hempty

/-- **A bundle is a chain.**  What `run_one_bundle` leaves when it goes through. -/
theorem runOneBundle_inv {t : StateTransition} (ht : t.Clean)
    (h : runOneBundle host m bundle t = .ok (config, r)) :
    findNetwork bundle.network = some config ∧
    BundleInv host config bundle { t with chainId := config.chainId } bundle.blockRlps.length r := by
  unfold runOneBundle at h
  rcases hs : sanitize host.keccak256 (m.verified bundle.direct) bundle.direct with e | blob
  · rw [hs] at h
    cases h
  rw [hs] at h
  rcases hn : findNetwork bundle.network with _ | c
  · rw [hn] at h
    cases h
  rw [hn] at h
  dsimp only at h
  obtain ⟨r', hr', hret⟩ := bind_eq_ok.mp h
  obtain ⟨rfl, rfl⟩ := Prod.mk.inj (pure_eq_ok.mp hret)
  refine ⟨rfl, ?_⟩
  have hclean : StateTransition.Clean { t with chainId := c.chainId } := ht
  have hstart : BundleInv host c bundle { t with chainId := c.chainId } 0
      { direct := startState host bundle blob, transition := { t with chainId := c.chainId } } := by
    refine ⟨?_, rfl, List.IsChain.nil, by simp, by simp, rfl, ⟨rfl, fun _ => rfl, by simp, by simp⟩,
      fun _ => rfl⟩
    intro k h hk
    obtain ⟨hh, hmem⟩ := held_startState hk
    exact ⟨hh, mem_append_left _ hmem⟩
  have := hstart.run hclean (by simp) hr'
  rwa [Nat.zero_add] at this

end Loop

end Zilkworm.Run
