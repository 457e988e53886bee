/-
# The public values of a run

The bundles of an envelope are independent chains, and their values go into one set of public
values: the pre-state root is the one the first accepted block stands on, the post-state root
and the block hash are those of the last accepted block, the chain id is the last bundle's,
and the gas is the sum over all accepted blocks.  An envelope of one bundle is described by
its values as one chain; with more bundles, only each of them is.
-/
import Zilkworm.Run.ChainRun

namespace Zilkworm.Run

open List Lib Rlp Zilkworm.Types Witness State Chain Protocol Execution

/-- The blocks a run accepted, in run order. -/
def acceptedBlocks (bundles : List BundleTrace) : List Block := bundles.flatMap BundleTrace.accepted

/-- The bundle the first accepted block is in. -/
def anchorBundle (bundles : List BundleTrace) : Option BundleTrace :=
  bundles.find? fun b => !b.accepted.isEmpty

/-- **What a bundle of a run is**: the blocks it carries that are not flagged as invalid, each
accepted under the configuration of the bundle's network.  The first stands on a header of the
bundle, and each other block on the one before it. -/
structure BundleTrace.IsChainOf (host : Host) (b : BundleTrace) : Prop where
  config : findNetwork b.bundle.network = some b.config
  carried : b.accepted = b.bundle.expectedBlocks
  chained : b.accepted.IsChain (Extends host.keccak256)
  decoded : ∀ block ∈ b.accepted, ∃ j blockRlp, b.bundle.blockRlps[j]? = some blockRlp ∧
    decodeChecked host b.config b.bundle j blockRlp = .ok block
  inserted : ∀ block ∈ b.accepted,
    ∃ s : DirectState, (insertBlock host false b.config block s).1 = .ok ()
  parent : ∀ first, b.accepted.head? = some first → ∃ p ∈ b.bundle.headers,
    p.hash host.keccak256 = first.header.parentHash

/-- The public values of a run that accepted a block. -/
structure Committed (host : Host) (bundles : List BundleTrace) (t : StateTransition) : Prop where
  /-- The pre-state root is the state root of the header that the first block's parent hash names,
  one of the headers of its bundle. -/
  anchor : ∃ b first p, anchorBundle bundles = some b ∧ b.accepted.head? = some first ∧
    p ∈ b.bundle.headers ∧ p.hash host.keccak256 = first.header.parentHash ∧
    t.preStateRoot = p.stateRoot
  last : ∃ b, (acceptedBlocks bundles).getLast? = some b ∧
    t.postStateRoot = b.header.stateRoot ∧ t.blockHash = b.header.hash host.keccak256

/-- The invariant of the loop of `run_mfbd`. -/
structure RunInv (host : Host) (run : MfbdRun) : Prop where
  chains : ∀ b ∈ run.bundles, b.IsChainOf host
  chainId : ∀ b, run.bundles.getLast? = some b → run.transition.chainId = b.config.chainId
  gas : run.cumulativeGas = ((acceptedBlocks run.bundles).map fun b => b.header.gasUsed).sum
  unset : run.transition.preRootSet = (acceptedBlocks run.bundles != [])
  clean : run.transition.Clean
  committed : acceptedBlocks run.bundles ≠ [] → Committed host run.bundles run.transition

theorem acceptedBlocks_append (bundles : List BundleTrace) (b : BundleTrace) :
    acceptedBlocks (bundles ++ [b]) = acceptedBlocks bundles ++ b.accepted := by
  simp [acceptedBlocks]

/-- Without accepted blocks no bundle is the first to have one. -/
theorem anchorBundle_eq_none {bundles : List BundleTrace} (h : acceptedBlocks bundles = []) :
    anchorBundle bundles = none := by
  unfold anchorBundle
  rw [find?_eq_none]
  intro b hb
  have := flatMap_eq_nil_iff.mp h b hb
  simp [this]

/-- The public values after one more bundle. -/
theorem Committed.append {host : Host} {bundles : List BundleTrace} {b : BundleTrace}
    {t t' : StateTransition} (hset : t.preRootSet = (acceptedBlocks bundles != []))
    (h : acceptedBlocks bundles ≠ [] → Committed host bundles t)
    (hv : BundleValues host b.bundle { t with chainId := b.config.chainId } b.accepted t')
    (hne : acceptedBlocks (bundles ++ [b]) ≠ []) : Committed host (bundles ++ [b]) t' := by
  have hfind : anchorBundle (bundles ++ [b]) =
      (anchorBundle bundles).or (if b.accepted.isEmpty then none else some b) := by
    unfold anchorBundle
    rw [find?_append]
    by_cases he : b.accepted.isEmpty = true <;> simp [List.find?, he]
  rw [acceptedBlocks_append] at hne
  cases hb : b.accepted with
  | nil =>
    -- a bundle that adds no block leaves the values as they were
    have hne' : acceptedBlocks bundles ≠ [] := by simpa [hb] using hne
    rw [hv.untouched hb]
    obtain ⟨⟨a, first, p, ha, hf, hp, hh, hroot⟩, ⟨last, hlast, hpost, hhash⟩⟩ := h hne'
    refine ⟨⟨a, first, p, ?_, hf, hp, hh, hroot⟩, ⟨last, ?_, hpost, hhash⟩⟩
    · rw [hfind, ha]
      rfl
    · rw [acceptedBlocks_append, hb, append_nil]
      exact hlast
  | cons first bs =>
    obtain ⟨last, hlast⟩ : ∃ last, b.accepted.getLast? = some last :=
      ⟨_, getLast?_eq_some_getLast (by rw [hb]; simp)⟩
    have hend : (acceptedBlocks (bundles ++ [b])).getLast? = some last := by
      rw [acceptedBlocks_append, getLast?_append, hlast]
      rfl
    refine ⟨?_, ⟨last, hend, hv.last last hlast⟩⟩
    obtain ⟨-, p, hp, hh, hroot⟩ := hv.anchor first (by rw [hb]; rfl)
    by_cases hnil : acceptedBlocks bundles = []
    · have hunset : t.preRootSet = false := by rw [hset, hnil]; rfl
      refine ⟨b, first, p, ?_, by rw [hb]; rfl, hp, hh, ?_⟩
      · rw [hfind, anchorBundle_eq_none hnil, hb]
        rfl
      · rw [hroot]
        unfold StateTransition.anchor
        simp [hunset]
    · have hisset : t.preRootSet = true := by
        rw [hset]
        simpa using hnil
      obtain ⟨a, first', p', ha, hf, hp', hh', hroot'⟩ := (h hnil).anchor
      refine ⟨a, first', p', ?_, hf, hp', hh', ?_⟩
      · rw [hfind, ha]
        rfl
      · rw [hroot]
        unfold StateTransition.anchor
        simp [hisset, hroot']

/-- The step of the invariant: one more bundle. -/
theorem RunInv.step {host : Host} {m : Machine} {envelope : Bytes} {run run' : MfbdRun}
    (hinv : RunInv host run) (h : runBundle host m envelope run = .ok run') : RunInv host run' := by
  rcases runBundle_cases host m envelope run with ⟨e, he, -⟩ | ⟨fb, config, r, hok, hr, -, -⟩
  · rw [he] at h
    cases h
  rw [hok] at h
  obtain rfl := Except.ok.inj h
  obtain ⟨hnet, hb⟩ := runOneBundle_inv hinv.clean hr
  set b : BundleTrace := ⟨run.cursor, fb, config, r.accepted⟩ with hbdef
  have hvalues : BundleValues host b.bundle { run.transition with chainId := b.config.chainId }
      b.accepted r.transition := hb.values
  refine ⟨?_, ?_, ?_, ?_, ?_, ?_⟩
  · intro b' hb'
    rcases mem_append.mp hb' with hb' | hb'
    · exact hinv.chains b' hb'
    · obtain rfl := mem_singleton.mp hb'
      refine ⟨hnet, ?_, hb.chained, hb.decoded, hb.inserted, fun first hfirst => ?_⟩
      · exact hb.accepted.trans (by rw [take_length]; rfl)
      · obtain ⟨-, p, hp, hh, -⟩ := hvalues.anchor first hfirst
        exact ⟨p, hp, hh⟩
  · intro b' hb'
    obtain rfl : b = b' := by simpa using hb'
    exact hvalues.chainId
  · show run.cumulativeGas + r.cumulativeGas = _
    rw [acceptedBlocks_append, hinv.gas, hb.gas, map_append, sum_append]
  · show r.transition.preRootSet = (acceptedBlocks (run.bundles ++ [b]) != [])
    rw [acceptedBlocks_append]
    cases hacc : r.accepted with
    | nil =>
      rw [hvalues.untouched hacc]
      simpa [hbdef, hacc] using hinv.unset
    | cons first bs =>
      rw [(hvalues.anchor first (by simp [hbdef, hacc])).1]
      simp [hbdef, hacc]
  · have hclean : StateTransition.Clean { run.transition with chainId := b.config.chainId } := hinv.clean
    exact hvalues.clean hclean
  · exact Committed.append hinv.unset hinv.committed hvalues

/-- The invariant along the whole loop. -/
theorem RunInv.run {host : Host} {m : Machine} {envelope : Bytes} {n : ℕ} {run run' : MfbdRun}
    (hinv : RunInv host run) (h : runBundles host m envelope n run = .ok run') : RunInv host run' := by
  induction n generalizing run with
  | zero =>
    obtain rfl := Except.ok.inj h
    exact hinv
  | succ n ih =>
    unfold runBundles at h
    obtain ⟨run₁, h₁, h⟩ := bind_eq_ok.mp h
    exact ih (hinv.step h₁) h

/-- A loop that ends early does not finish the run. -/
theorem runBundles_error {host : Host} {m : Machine} {envelope : Bytes} {n : ℕ} {run : MfbdRun}
    {e : Outcome × MfbdRun} (h : runBundles host m envelope n run = .error e) (gas : U64) :
    e.1 ≠ .finished gas := by
  induction n generalizing run with
  | zero => cases h
  | succ n ih =>
    unfold runBundles at h
    rcases runBundle_cases host m envelope run with ⟨e', he', hne, -⟩ | ⟨fb, config, r, hok, -⟩
    · rw [he'] at h
      obtain rfl := Except.error.inj h
      exact hne gas
    · rw [hok] at h
      exact ih h

/-- A run that finishes keeps the invariant, and returns the gas it counted unless it skipped. -/
theorem runMfbd_finished {host : Host} {m : Machine} {envelope : Bytes} {gas : U64} {run : MfbdRun}
    (h : runMfbd host m envelope = (.finished gas, run)) :
    RunInv host run ∧ (run.bundles ≠ [] → gas = run.cumulativeGas) := by
  unfold runMfbd at h
  split_ifs at h with hsize hversion
  · cases (Prod.mk.inj h).1
  · cases (Prod.mk.inj h).1
  dsimp only at h
  rcases hr : runBundles host m envelope (u64At envelope 8) {} with e | run'
  · rw [hr] at h
    have h : e = (.finished gas, run) := h
    exact absurd (congrArg Prod.fst h) (runBundles_error hr gas)
  · rw [hr] at h
    obtain ⟨hgas, rfl⟩ := Prod.mk.inj h
    have hstart : RunInv host {} :=
      ⟨by simp, by simp, rfl, rfl, fun _ => rfl, fun hne => absurd rfl hne⟩
    refine ⟨hstart.run hr, fun hne => ?_⟩
    by_cases hn : u64At envelope 8 = 0
    · rw [hn] at hr
      obtain rfl := Except.ok.inj hr
      exact absurd rfl hne
    · rw [if_neg hn] at hgas
      exact (Outcome.finished.inj hgas).symm

/-- **The public values of an envelope.**  On every run that finishes with an accepted block: each
bundle is a chain of blocks run under its network's configuration; the pre-state root is the state
root of the header the first accepted block names as its parent; post-state root and block hash
are the last accepted block's; the chain id is the last bundle's; and the gas is the sum of the
accepted headers' in 64 bits. -/
theorem runMfbd_publicValues (host : Host) (m : Machine) (envelope : Bytes) (gas : U64) (run : MfbdRun)
    (h : runMfbd host m envelope = (.finished gas, run)) (hacc : acceptedBlocks run.bundles ≠ []) :
    (∀ b ∈ run.bundles, b.IsChainOf host) ∧
    Committed host run.bundles run.transition ∧
    (∃ b, run.bundles.getLast? = some b ∧ run.transition.chainId = b.config.chainId) ∧
    gas = ((acceptedBlocks run.bundles).map fun b => b.header.gasUsed).sum := by
  obtain ⟨hinv, hgas⟩ := runMfbd_finished h
  have hne : run.bundles ≠ [] := by
    intro hnil
    rw [hnil] at hacc
    exact hacc rfl
  refine ⟨hinv.chains, hinv.committed hacc, ?_, ?_⟩
  · exact ⟨_, getLast?_eq_some_getLast hne, hinv.chainId _ (getLast?_eq_some_getLast hne)⟩
  · rw [hgas hne, hinv.gas]

namespace Sample

/-- A bundle of two blocks, and one of the first of them again. -/
def chains : Bytes := envelope 2 (bundle [child 1, grandchild] ++ bundle [child 1])

/-- The same bundle twice. -/
def twoBundles : Bytes := envelope 2 (bundle [child 1] ++ bundle [child 1])

end Sample

/-- The values of an envelope with two bundles, of two blocks and of one. -/
theorem runMfbd_chains_publicValues :
    (runMfbd Sample.host {} Sample.chains).1 = .finished 0 ∧
    Committed Sample.host (runMfbd Sample.host {} Sample.chains).2.bundles
      (runMfbd Sample.host {} Sample.chains).2.transition := by
  obtain ⟨hfin, hacc⟩ : (runMfbd Sample.host {} Sample.chains).1 = .finished 0 ∧
      (acceptedBlocks (runMfbd Sample.host {} Sample.chains).2.bundles).length = 3 := by
    decide +kernel
  have hpair : ∀ x : Outcome × MfbdRun, x.1 = .finished 0 → x = (.finished 0, x.2) := by
    rintro ⟨_, _⟩ rfl
    rfl
  refine ⟨hfin, (runMfbd_publicValues Sample.host {} Sample.chains 0
    (runMfbd Sample.host {} Sample.chains).2 (hpair _ hfin) ?_).2.1⟩
  intro hnil
  rw [hnil] at hacc
  cases hacc

/-- **Two bundles need not make one chain**: a run over the same bundle twice finishes, and its
second block does not extend its first. -/
theorem runMfbd_twoBundles_not_chain :
    (runMfbd Sample.host {} Sample.twoBundles).1 = .finished 0 ∧
    (acceptedBlocks (runMfbd Sample.host {} Sample.twoBundles).2.bundles).length = 2 ∧
    ¬ (acceptedBlocks (runMfbd Sample.host {} Sample.twoBundles).2.bundles).IsChain
      (Extends Sample.host.keccak256) := by
  decide +kernel

end Zilkworm.Run
