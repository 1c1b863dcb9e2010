/-
What the checks of a proposal let through.

* `processProposal_accept_iff` — a proposal is accepted if its first transaction is a commit that passes
  on its own and the wrapped handler accepts the rest.

Main results: `proposal_bound_iff`, `fabricated_commit_accepted`, `proposal_resized`,
`proposal_accepted_iff`.

`validateExtendedCommitAgainstLastCommit` is not called by any handler: the commit that a proposer injects
is checked against nothing that the proposer does not choose.
-/
import PerpDex.PriceFeed

namespace PerpDex.Oracle

open Arith

/-! ### A commit on its own -/

def totalPower (ext : ExtendedCommitInfo) : ℤ := (ext.votes.map fun v => v.validator.power).sum

def committedPower (ext : ExtendedCommitInfo) : ℤ :=
  ((committedVotes ext).map fun v => v.validator.power).sum

/-- A vote without a negative power, and with a signature if it commits to an extension. -/
structure VoteOk (v : ExtendedVoteInfo) : Prop where
  power : 0 ≤ v.validator.power
  signed : v.blockIdFlag = .commit → v.voteExtension ≠ [] → v.extensionSignature ≠ []

theorem wrap64_mul_wrap64 (k a : ℤ) : wrap64 (k * wrap64 a) = wrap64 (k * a) := by
  rw [wrap64, wrap64, wrap64, Int.mul_bmod_bmod]

theorem sumPowers_ok_iff {i : ℕ} {total committed : ℤ} {vs : List ExtendedVoteInfo} {r : ℤ × ℤ} :
    sumPowers i (wrap64 total) (wrap64 committed) vs = .ok r ↔ (∀ v ∈ vs, VoteOk v) ∧
      r = (wrap64 (total + (vs.map fun v => v.validator.power).sum),
        wrap64 (committed + ((vs.filter fun v => decide (v.blockIdFlag = .commit)).map
          fun v => v.validator.power).sum)) := by
  induction vs generalizing i total committed with
  | nil =>
    simp only [sumPowers, List.not_mem_nil, false_implies, implies_true, true_and, List.map_nil,
      List.filter_nil, List.sum_nil, add_zero]
    exact ⟨fun h => (Except.ok.inj h).symm, fun h => by rw [h]; rfl⟩
  | cons v vs ih =>
    rw [sumPowers]
    by_cases hneg : v.validator.power < 0
    · rw [if_pos hneg]
      constructor
      · intro h
        cases h
      · intro h
        exact absurd (h.1 v List.mem_cons_self).power (not_le.mpr hneg)
    · rw [if_neg hneg]
      dsimp only
      rw [wrap64_wrap64_add, wrap64_wrap64_add, List.forall_mem_cons, List.map_cons, List.sum_cons]
      by_cases hcommit : v.blockIdFlag = .commit
      · rw [if_neg (not_not.mpr hcommit), List.filter_cons_of_pos (by simpa using hcommit),
          List.map_cons, List.sum_cons]
        by_cases hsigned : v.voteExtension ≠ [] ∧ v.extensionSignature = []
        · rw [if_pos hsigned]
          constructor
          · intro h
            cases h
          · intro h
            exact absurd hsigned.2 (h.1.1.signed hcommit hsigned.1)
        · rw [if_neg hsigned, ih, add_assoc, add_assoc]
          have hv : VoteOk v := ⟨not_lt.mp hneg, fun _ hve hsig => hsigned ⟨hve, hsig⟩⟩
          simp only [hv, true_and]
      · rw [if_pos hcommit, List.filter_cons_of_neg (by simpa using hcommit), ih, add_assoc]
        have hv : VoteOk v := ⟨not_lt.mp hneg, fun hc => absurd hc hcommit⟩
        simp only [hv, true_and]

/-- **A commit passes on its own** if its votes are in order and the words of its powers are those of
a majority of two thirds, or of an empty set. -/
theorem validateExtendedCommit_ok_iff (ext : ExtendedCommitInfo) :
    validateExtendedCommit ext = .ok () ↔ (∀ v ∈ ext.votes, VoteOk v) ∧
      (wrap64 (totalPower ext) = 0 ∨ wrap64 (2 * totalPower ext) < wrap64 (3 * committedPower ext)) := by
  have hzero : wrap64 0 = 0 := by decide
  have hsum := fun r => @sumPowers_ok_iff 0 0 0 ext.votes r
  rw [hzero] at hsum
  simp only [zero_add] at hsum
  have hend : ∀ r : ℤ × ℤ, r = (wrap64 (totalPower ext), wrap64 (committedPower ext)) →
      ((if r.1 = 0 then pure () else if wrap64 (3 * r.2) ≤ wrap64 (2 * r.1) then
        throw (s!"insufficient committed voting power: {r.2}/{r.1} (need > 2/3)")
        else pure () : Except String Unit) = .ok () ↔
      (wrap64 (totalPower ext) = 0 ∨
        wrap64 (2 * totalPower ext) < wrap64 (3 * committedPower ext))) := by
    rintro r rfl
    dsimp only
    rw [wrap64_mul_wrap64, wrap64_mul_wrap64]
    by_cases hnone : wrap64 (totalPower ext) = 0
    · rw [if_pos hnone]
      simp only [hnone, true_or, iff_true]
      rfl
    · rw [if_neg hnone]
      by_cases hless : wrap64 (3 * committedPower ext) ≤ wrap64 (2 * totalPower ext)
      · rw [if_pos hless]
        simp only [hnone, not_lt.mpr hless, or_self, iff_false]
        intro h
        cases h
      · rw [if_neg hless]
        simp only [not_le.mp hless, or_true, iff_true]
        rfl
  constructor
  · intro h
    cases hrun : sumPowers 0 0 0 ext.votes with
    | error e =>
      rw [validateExtendedCommit, hrun] at h
      cases h
    | ok r =>
      rw [validateExtendedCommit, hrun] at h
      obtain ⟨hvotes, hr⟩ := (hsum r).mp hrun
      exact ⟨hvotes, (hend r hr).mp h⟩
  · rintro ⟨hvotes, hmajority⟩
    have hrun := (hsum (wrap64 (totalPower ext), wrap64 (committedPower ext))).mpr ⟨hvotes, rfl⟩
    rw [validateExtendedCommit, hrun]
    exact (hend _ rfl).mpr hmajority

theorem committedPower_le {ext : ExtendedCommitInfo} (hvotes : ∀ v ∈ ext.votes, VoteOk v) :
    0 ≤ committedPower ext ∧ committedPower ext ≤ totalPower ext := by
  rw [committedPower, committedVotes, totalPower]
  generalize ext.votes = vs at hvotes ⊢
  induction vs with
  | nil => simp
  | cons v vs ih =>
    obtain ⟨hv, hvs⟩ := List.forall_mem_cons.mp hvotes
    obtain ⟨hlow, hhigh⟩ := ih hvs
    have hpower := hv.power
    rw [List.filter_cons, List.map_cons, List.sum_cons]
    split
    · rw [List.map_cons, List.sum_cons]
      omega
    · omega

theorem majority_of_lt {ext : ExtendedCommitInfo} (hvotes : ∀ v ∈ ext.votes, VoteOk v)
    (hbound : 3 * totalPower ext < 2 ^ 63) (hmajority : 2 * totalPower ext < 3 * committedPower ext) :
    wrap64 (2 * totalPower ext) < wrap64 (3 * committedPower ext) := by
  obtain ⟨hlow, hhigh⟩ := committedPower_le hvotes
  rw [wrap64_of_mem (by omega) (by omega), wrap64_of_mem (by omega) (by omega)]
  exact hmajority

/-! ### A commit against the last one -/

/-- The validators of the commit with their powers and flags are those of the last commit. -/
def Binds (ext : ExtendedCommitInfo) (last : CommitInfo) : Prop :=
  ext.votes.map (fun v => (v.validator, v.blockIdFlag))
    = last.votes.map fun v => (v.validator, v.blockIdFlag)

theorem validateVotes_ok_iff {i : ℕ} {evs : List ExtendedVoteInfo} {lvs : List VoteInfo}
    (hlen : evs.length = lvs.length) :
    validateVotes i evs lvs = .ok () ↔ evs.map (fun v => (v.validator, v.blockIdFlag))
      = lvs.map fun v => (v.validator, v.blockIdFlag) := by
  induction evs generalizing i lvs with
  | nil =>
    obtain rfl := List.length_eq_zero_iff.mp hlen.symm
    exact ⟨fun _ => rfl, fun _ => rfl⟩
  | cons ev evs ih =>
    cases lvs with
    | nil => cases hlen
    | cons lv lvs =>
      have hrest := ih (i := i + 1) (Nat.succ.inj hlen)
      rw [validateVotes]
      rw [List.map_cons, List.map_cons, List.cons.injEq, Prod.mk.injEq]
      have hvalidator : ev.validator = lv.validator ↔
          ev.validator.address = lv.validator.address ∧ ev.validator.power = lv.validator.power := by
        rcases ev.validator with ⟨a, p⟩
        rcases lv.validator with ⟨a', p'⟩
        simp
      rw [hvalidator]
      by_cases haddr : ev.validator.address = lv.validator.address
      · by_cases hpower : ev.validator.power = lv.validator.power
        · by_cases hflag : ev.blockIdFlag = lv.blockIdFlag
          · simp only [haddr, hpower, hflag, ne_eq, not_true_eq_false, if_false, and_self, true_and]
            exact hrest
          · simp only [haddr, hpower, hflag, ne_eq, not_true_eq_false, not_false_eq_true, if_false,
              if_true, and_false, false_and, iff_false]
            intro h
            cases h
        · simp only [haddr, hpower, ne_eq, not_true_eq_false, not_false_eq_true, if_false, if_true,
            and_false, false_and, iff_false]
          intro h
          cases h
      · simp only [haddr, ne_eq, not_false_eq_true, if_true, false_and, iff_false]
        intro h
        cases h

/-- **A commit passes against the last one** if it is bound to it and of the same round. -/
theorem validateAgainst_ok_iff (ext : ExtendedCommitInfo) (last : CommitInfo) :
    validateExtendedCommitAgainstLastCommit ext last = .ok () ↔
      ext.round = last.round ∧ Binds ext last := by
  rw [validateExtendedCommitAgainstLastCommit]
  by_cases hround : ext.round = last.round
  · rw [if_neg (not_not.mpr hround)]
    by_cases hlen : ext.votes.length = last.votes.length
    · rw [if_neg (not_not.mpr hlen), validateVotes_ok_iff hlen]
      simp only [hround, true_and]
      rfl
    · rw [if_pos hlen]
      constructor
      · intro h
        cases h
      · rintro ⟨-, hbinds⟩
        have := congrArg List.length hbinds
        rw [List.length_map, List.length_map] at this
        exact absurd this hlen
  · rw [if_pos hround]
    simp only [hround, false_and, iff_false]
    intro h
    cases h

/-! ### Proposals -/

/-- What the handler asks of a commit. -/
structure CommitOk (ext : ExtendedCommitInfo) : Prop where
  round : 0 ≤ ext.round
  votes : ∀ v ∈ ext.votes, VoteOk v
  majority : wrap64 (totalPower ext) = 0 ∨
    wrap64 (2 * totalPower ext) < wrap64 (3 * committedPower ext)

variable {h : VoteExtensionHandler} {ctx : Context} {process : ProcessProposalHandler}

theorem processProposal_accept_iff {req : RequestProcessProposal}
    (henabled : veEnabled ctx req.height = true) :
    processProposal h process ctx req = (.accept, none) ↔ ∃ tx rest ext, req.txs = tx :: rest ∧
      h.ecCodec.decode tx = .ok ext ∧ CommitOk ext ∧
      process ctx { req with txs := rest } = (.accept, none) := by
  rw [processProposal, if_neg (by rw [henabled]; decide)]
  cases htxs : req.txs with
  | nil => simp
  | cons tx rest =>
    cases hdecode : h.ecCodec.decode tx with
    | error e => simp [hdecode]
    | ok ext =>
      have hcommit : CommitOk ext ↔ ¬ ext.round < 0 ∧ validateExtendedCommit ext = .ok () := by
        rw [validateExtendedCommit_ok_iff, not_lt]
        exact ⟨fun hok => ⟨hok.round, hok.votes, hok.majority⟩, fun hok => ⟨hok.1, hok.2.1, hok.2.2⟩⟩
      constructor
      · intro hrun
        dsimp only at hrun
        rw [hdecode] at hrun
        dsimp only at hrun
        split at hrun
        · cases hrun
        · rename_i hround
          split at hrun
          · cases hrun
          · rename_i hvalid
            split at hrun
            · cases hrun
            · rename_i hprocess
              cases hrun
              exact ⟨tx, rest, ext, rfl, hdecode, hcommit.mpr ⟨hround, hvalid⟩, hprocess⟩
      · rintro ⟨tx', rest', ext', htx, hdecode', hok, hrest⟩
        obtain ⟨rfl, rfl⟩ := List.cons.inj htx
        cases hdecode.symm.trans hdecode'
        obtain ⟨hround, hvalid⟩ := hcommit.mp hok
        dsimp only
        rw [hdecode]
        dsimp only
        rw [if_neg hround, hvalid]
        dsimp only
        rw [hrest]

/-- **When an accepted commit is the one of the block.**  It lists the validators of the last commit,
with their powers and flags, exactly when it would pass the check against the last commit that the
handler leaves out, rounds aside. -/
theorem proposal_bound_iff {req : RequestProcessProposal}
    (henabled : veEnabled ctx req.height = true)
    (haccept : processProposal h process ctx req = (.accept, none)) :
    ∃ tx rest ext, req.txs = tx :: rest ∧ h.ecCodec.decode tx = .ok ext ∧
      (Binds ext req.proposedLastCommit ↔ validateExtendedCommitAgainstLastCommit
        { ext with round := req.proposedLastCommit.round } req.proposedLastCommit = .ok ()) := by
  obtain ⟨tx, rest, ext, htxs, hdecode, -, -⟩ := (processProposal_accept_iff henabled).mp haccept
  refine ⟨tx, rest, ext, htxs, hdecode, ?_⟩
  rw [validateAgainst_ok_iff]
  exact ⟨fun hbinds => ⟨rfl, hbinds⟩, fun hboth => hboth.2⟩

/-- A codec for one value. -/
def onlyCodec {α : Type} [DecidableEq α] (x : α) (b : Bytes) : Codec α where
  encode y := if y = x then .ok b else .error "unknown value"
  decode c := if c = b then .ok x else .error "unknown bytes"

theorem onlyCodec_roundTrips {α : Type} [DecidableEq α] (x : α) (b : Bytes) :
    (onlyCodec x b).RoundTrips := by
  intro y c henc
  simp only [onlyCodec] at henc ⊢
  split at henc
  · rename_i hy
    rw [if_pos (Except.ok.inj henc).symm, hy]
  · cases henc

def lastCommit : CommitInfo where
  votes := [{ validator := ⟨[1], 10⟩ }, { validator := ⟨[2], 10⟩ }, { validator := ⟨[3], 10⟩ }]

/-- Their votes, with extensions. -/
def seenCommit : ExtendedCommitInfo where
  votes := lastCommit.votes.map fun v =>
    { validator := v.validator, voteExtension := [5], extensionSignature := [6] }

/-- A vote of somebody who is no validator. -/
def fabricatedCommit : ExtendedCommitInfo where
  votes := [{ validator := ⟨[9], 1⟩, voteExtension := [5], extensionSignature := [6] }]

/-- A handler that can read one commit, and extensions that name a price of one. -/
def handlerFor (ext : ExtendedCommitInfo) (b : Bytes) : VoteExtensionHandler where
  veCodec := onlyCodec { prices := [{ marketIndex := 0, indexPrice := 1, markPrice := 1 }] } [5]
  ecCodec := onlyCodec ext b

def enabledContext : Context where
  voteExtensionsEnableHeight := some 1

def proposalOf (txs : List Bytes) : RequestProcessProposal where
  height := 10
  txs := txs
  proposedLastCommit := lastCommit

/-- The commit that was seen passes. -/
theorem proposal_bound_seen :
    let h := handlerFor seenCommit [7]
    processProposal h (fun _ _ => (.accept, none)) enabledContext (proposalOf [[7]]) = (.accept, none) ∧
      ∃ tx rest ext, [[7]] = tx :: rest ∧ h.ecCodec.decode tx = .ok ext ∧
        (Binds ext lastCommit ↔ validateExtendedCommitAgainstLastCommit
          { ext with round := lastCommit.round } lastCommit = .ok ()) := by
  intro h
  have haccept : processProposal h (fun _ _ => (.accept, none)) enabledContext (proposalOf [[7]])
      = (.accept, none) := by decide +kernel
  have henabled : veEnabled enabledContext (proposalOf [[7]]).height = true := by decide
  exact ⟨haccept, proposal_bound_iff henabled haccept⟩

/-- **A commit that nobody voted for is accepted**, and sets the price. -/
theorem fabricated_commit_accepted :
    let h := handlerFor fabricatedCommit [7]
    h.ecCodec.RoundTrips ∧
      processProposal h (fun _ _ => (.accept, none)) enabledContext (proposalOf [[7]])
        = (.accept, none) ∧
      h.ecCodec.decode [7] = .ok fabricatedCommit ∧ ¬ Binds fabricatedCommit lastCommit ∧
      ((preBlocker h enabledContext 0 10 [[7]] (sampledMarkets h.veCodec fabricatedCommit)
        Table.empty).get 0).map OraclePrice.markPrice = some 1 := by
  intro h
  refine ⟨onlyCodec_roundTrips _ _, by decide +kernel, by decide, ?_, by decide +kernel⟩
  unfold Binds
  decide

/-! ### What a proposer prepares -/

def totalBytes (txs : List Bytes) : ℤ := (txs.map fun tx => (tx.length : ℤ)).sum

/-- What is kept of a list of transactions for which there is so much room. -/
structure Kept (room : ℤ) (kept txs : List Bytes) : Prop where
  isPrefix : kept <+: txs
  size : totalBytes kept ≤ room
  maximal : kept = txs ∨ ∃ tx, kept ++ [tx] <+: txs ∧ room < totalBytes (kept ++ [tx])

theorem injectLoop_kept {maxSizeBytes consumed : ℤ} (h : consumed ≤ maxSizeBytes) (txs : List Bytes) :
    Kept (maxSizeBytes - consumed) (injectLoop maxSizeBytes false consumed txs) txs := by
  induction txs generalizing consumed with
  | nil => exact ⟨List.prefix_rfl, sub_nonneg.mpr h, .inl rfl⟩
  | cons tx txs ih =>
    rw [injectLoop]
    split
    · rename_i hlarge
      refine ⟨List.nil_prefix, sub_nonneg.mpr h, .inr ⟨tx, ⟨txs, rfl⟩, ?_⟩⟩
      simp only [totalBytes, List.nil_append, List.map_cons, List.map_nil, List.sum_singleton]
      omega
    · rename_i hsmall
      have hrest := ih (not_lt.mp hsmall)
      have hcons : ∀ l, totalBytes (tx :: l) = tx.length + totalBytes l := fun l => List.sum_cons
      refine ⟨List.cons_prefix_cons.mpr ⟨rfl, hrest.isPrefix⟩, ?_, ?_⟩
      · have hsize := hrest.size
        rw [hcons]
        omega
      · refine hrest.maximal.imp (congrArg _) fun ⟨next, hnext, hlarge⟩ => ⟨next, ?_, ?_⟩
        · exact List.cons_prefix_cons.mpr ⟨rfl, hnext⟩
        · rw [List.cons_append, hcons]
          omega

/-- The transactions of the application, without the commit if that is in front. -/
def withoutCommit (appTxs : List Bytes) (injectTx : Bytes) : List Bytes :=
  if appTxs.head? = some injectTx then appTxs.tail else appTxs

theorem injectAndResize_kept {appTxs : List Bytes} {injectTx : Bytes} {maxSizeBytes : ℤ}
    (hfits : (injectTx.length : ℤ) ≤ maxSizeBytes) :
    ∃ rest, injectAndResize appTxs injectTx maxSizeBytes = injectTx :: rest ∧
      Kept (maxSizeBytes - injectTx.length) rest (withoutCommit appTxs injectTx) := by
  rw [injectAndResize, withoutCommit]
  by_cases hhead : appTxs.head? = some injectTx
  · rw [if_pos hhead, if_pos hhead]
    obtain ⟨txs, rfl⟩ := List.head?_eq_some_iff.mp hhead
    refine ⟨_, rfl, ?_⟩
    rw [zero_add]
    exact injectLoop_kept hfits txs
  · rw [if_neg hhead, if_neg hhead, if_pos hfits]
    exact ⟨_, rfl, injectLoop_kept hfits appTxs⟩

theorem withoutCommit_sublist (appTxs : List Bytes) (injectTx : Bytes) :
    (withoutCommit appTxs injectTx).Sublist appTxs := by
  unfold withoutCommit
  split
  · exact List.tail_sublist _
  · exact List.Sublist.refl _

/-- **Resizing a proposal.**  If the commit fits, it comes first, and then a prefix of the
application's transactions, less a commit in front of them; all together they fit; and they are all of
the application's transactions, or the next one would not fit. -/
theorem proposal_resized (appTxs : List Bytes) (injectTx : Bytes) (maxSizeBytes : ℤ)
    (hfits : (injectTx.length : ℤ) ≤ maxSizeBytes) :
    ∃ rest, injectAndResize appTxs injectTx maxSizeBytes = injectTx :: rest ∧
      rest <+: withoutCommit appTxs injectTx ∧ totalBytes (injectTx :: rest) ≤ maxSizeBytes ∧
      (rest = withoutCommit appTxs injectTx ∨
        ∃ tx, rest ++ [tx] <+: withoutCommit appTxs injectTx ∧
          maxSizeBytes < totalBytes (injectTx :: (rest ++ [tx]))) := by
  obtain ⟨rest, heq, hkept⟩ := @injectAndResize_kept appTxs injectTx maxSizeBytes hfits
  have hcons : ∀ l, totalBytes (injectTx :: l) = injectTx.length + totalBytes l :=
    fun l => List.sum_cons
  refine ⟨rest, heq, hkept.isPrefix, ?_, ?_⟩
  · have hsize := hkept.size
    rw [hcons]
    omega
  · refine hkept.maximal.imp_right fun ⟨tx, hnext, hlarge⟩ => ⟨tx, hnext, ?_⟩
    rw [hcons]
    omega

/-- Five bytes have room for a commit of two and one of two transactions of two bytes. -/
theorem proposal_resized_one_of_two :
    (([7, 7] : Bytes).length : ℤ) ≤ 5 ∧ ∃ rest,
      injectAndResize [[1, 2], [3, 4]] [7, 7] 5 = [7, 7] :: rest ∧
      totalBytes ([7, 7] :: rest) ≤ 5 := by
  obtain ⟨rest, heq, -, hsize, -⟩ := proposal_resized [[1, 2], [3, 4]] [7, 7] 5 (by decide)
  exact ⟨by decide, rest, heq, hsize⟩

/-- The commit is injected: it can be encoded, and leaves room for something. -/
def Injected (h : VoteExtensionHandler) (req : RequestPrepareProposal) : Prop :=
  ∃ b, h.ecCodec.encode req.localLastCommit = .ok b ∧ (b.length : ℤ) < req.maxTxBytes

variable {prepare : PrepareProposalHandler}

theorem prepareProposal_ok {req : RequestPrepareProposal} {txs : List Bytes}
    (henabled : veEnabled ctx req.height = true)
    (hprepare : prepareProposal h prepare ctx req = .ok txs) :
    (∃ b rest req' appTxs, h.ecCodec.encode req.localLastCommit = .ok b ∧
        (b.length : ℤ) < req.maxTxBytes ∧ prepare ctx req' = .ok appTxs ∧ rest.Sublist appTxs ∧
        txs = b :: rest) ∨
      ¬ Injected h req ∧ prepare ctx req = .ok txs := by
  rw [prepareProposal, if_neg (by rw [henabled]; decide)] at hprepare
  cases hencode : h.ecCodec.encode req.localLastCommit with
  | error e =>
    rw [hencode] at hprepare
    refine Or.inr ⟨?_, hprepare⟩
    rintro ⟨b, hb, -⟩
    rw [hencode] at hb
    cases hb
  | ok b =>
    rw [hencode] at hprepare
    dsimp only at hprepare
    split at hprepare
    · rename_i hsize
      refine Or.inr ⟨?_, hprepare⟩
      rintro ⟨b', hb, hlt⟩
      rw [hencode] at hb
      cases hb
      omega
    · rename_i hsize
      left
      cases happ : prepare ctx { req with maxTxBytes := req.maxTxBytes - (b.length : ℤ) } with
      | error e =>
        rw [happ] at hprepare
        cases hprepare
      | ok appTxs =>
        rw [happ] at hprepare
        have hfits : (b.length : ℤ) ≤ req.maxTxBytes - b.length + b.length := by omega
        obtain ⟨rest, heq, hkept⟩ := @injectAndResize_kept appTxs b _ hfits
        refine ⟨b, rest, _, appTxs, rfl, by omega, happ, ?_, ?_⟩
        · exact hkept.isPrefix.sublist.trans (withoutCommit_sublist appTxs b)
        rw [← heq]
        exact (Except.ok.inj hprepare).symm

/-- **When what a proposer prepares is accepted.**  If the codec round-trips and the wrapped handler
accepts what the other one has chosen, a node in the same state accepts the proposal exactly if the
commit was injected and is in order, or, if it was not injected, the first transaction of the
application happens to be such a commit. -/
theorem proposal_accepted_iff {req : RequestPrepareProposal} {txs : List Bytes} {last : CommitInfo}
    (henabled : veEnabled ctx req.height = true) (hcodec : h.ecCodec.RoundTrips)
    (hdefault : ∀ req' appTxs, prepare ctx req' = .ok appTxs → ∀ l : List Bytes, l.Sublist appTxs →
      process ctx { height := req.height, txs := l, proposedLastCommit := last } = (.accept, none))
    (hprepare : prepareProposal h prepare ctx req = .ok txs) :
    processProposal h process ctx
        { height := req.height, txs := txs, proposedLastCommit := last } = (.accept, none) ↔
      Injected h req ∧ CommitOk req.localLastCommit ∨
        ¬ Injected h req ∧ ∃ tx rest ext, prepare ctx req = .ok (tx :: rest) ∧
          h.ecCodec.decode tx = .ok ext ∧ CommitOk ext := by
  rw [processProposal_accept_iff henabled]
  rcases prepareProposal_ok henabled hprepare with
    ⟨b, rest, req', appTxs, hencode, hsize, happ, hsub, rfl⟩ | ⟨hnot, happ⟩
  · have hinjected : Injected h req := ⟨b, hencode, hsize⟩
    have hdecode := hcodec _ _ hencode
    constructor
    · rintro ⟨tx, rest', ext, htxs, hdecode', hok, -⟩
      obtain ⟨rfl, rfl⟩ := List.cons.inj htxs
      cases hdecode.symm.trans hdecode'
      exact Or.inl ⟨hinjected, hok⟩
    · rintro (⟨-, hok⟩ | ⟨hnot, -⟩)
      · exact ⟨b, rest, _, rfl, hdecode, hok, hdefault req' appTxs happ rest hsub⟩
      · exact absurd hinjected hnot
  · constructor
    · rintro ⟨tx, rest, ext, htxs, hdecode, hok, -⟩
      dsimp only at htxs
      rw [htxs] at happ
      exact Or.inr ⟨hnot, tx, rest, ext, happ, hdecode, hok⟩
    · rintro (⟨hinjected, -⟩ | ⟨-, tx, rest, ext, happ', hdecode, hok⟩)
      · exact absurd hinjected hnot
      · cases happ.symm.trans happ'
        exact ⟨tx, rest, ext, rfl, hdecode, hok,
          hdefault req _ happ rest (List.sublist_cons_self tx rest)⟩

/-- A proposer that has seen three commits, with a given room for transactions. -/
def prepareRequest (maxTxBytes : ℤ) : RequestPrepareProposal where
  height := 10
  maxTxBytes := maxTxBytes
  localLastCommit := seenCommit

/-- With room for more than the commit, the proposal is accepted. -/
theorem proposal_accepted_room :
    let h := handlerFor seenCommit [7]
    prepareProposal h (fun _ _ => .ok []) enabledContext (prepareRequest 2) = .ok [[7]] ∧
      processProposal h (fun _ _ => (.accept, none)) enabledContext
        { height := 10, txs := [[7]], proposedLastCommit := lastCommit } = (.accept, none) := by
  intro h
  have hprepare : prepareProposal h (fun _ _ => .ok []) enabledContext (prepareRequest 2)
      = .ok [[7]] := by decide +kernel
  have hvotes : ∀ v ∈ seenCommit.votes, VoteOk v := by
    intro v hv
    simp only [seenCommit, lastCommit, List.map_cons, List.map_nil, List.mem_cons,
      List.not_mem_nil, or_false] at hv
    rcases hv with rfl | rfl | rfl
    · exact ⟨by decide, fun _ _ => by decide⟩
    · exact ⟨by decide, fun _ _ => by decide⟩
    · exact ⟨by decide, fun _ _ => by decide⟩
  have hok : CommitOk seenCommit :=
    ⟨by decide, hvotes, Or.inr (majority_of_lt hvotes (by decide) (by decide))⟩
  refine ⟨hprepare, ?_⟩
  have hinjected : Injected h (prepareRequest 2) := ⟨[7], by decide, by decide⟩
  have henabled : veEnabled enabledContext (prepareRequest 2).height = true := by decide
  exact (proposal_accepted_iff henabled (onlyCodec_roundTrips _ _) (fun _ _ _ _ _ => rfl)
    hprepare).mpr (Or.inl ⟨hinjected, hok⟩)

/-- **A proposal without the commit is rejected.**  The commit takes all the room there is, so that the
proposer leaves it out; every node in the same state rejects the block. -/
theorem oversize_commit_rejected :
    let h := handlerFor seenCommit [7]
    h.ecCodec.RoundTrips ∧ 2 * totalPower seenCommit < 3 * committedPower seenCommit ∧
      prepareProposal h (fun _ _ => .ok []) enabledContext (prepareRequest 1) = .ok [] ∧
      processProposal h (fun _ _ => (.accept, none)) enabledContext
        { height := 10, txs := [], proposedLastCommit := lastCommit } = (.reject, none) := by
  intro h
  exact ⟨onlyCodec_roundTrips _ _, by decide, by decide +kernel, by decide +kernel⟩

end PerpDex.Oracle
