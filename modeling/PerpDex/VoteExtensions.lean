/-
Vote extensions and block proposals (`x/oracle/keeper/voteext.go`, `x/oracle/abci/ve/validate.go` and
`x/oracle/abci/codec/codec.go`).

* `validateExtendedCommit`, `validateExtendedCommitAgainstLastCommit` — the two checks of a commit;
* `extendVote`, `verifyVoteExtension` — what a validator says, and what it accepts from others;
* `prepareProposal`, `processProposal` — the first transaction of a block is the commit that its proposer
  has seen.

The generated wire format, the compression and the handlers that are wrapped are parameters.  Powers are
64-bit words: their sums and products wrap.
-/
import PerpDex.Arith
import Mathlib.Data.List.Basic

namespace PerpDex.Oracle

open Arith

abbrev Bytes : Type := List UInt8

/-! ### Commits -/

structure Validator where
  address : Bytes
  power : ℤ
deriving DecidableEq, Repr

/-- How a validator voted.  The wire format also carries numbers without a meaning. -/
inductive BlockIdFlag
  | unknown
  | absent
  | commit
  | nilVote
  | unrecognized (n : ℤ)
deriving DecidableEq, Repr

structure ExtendedVoteInfo where
  validator : Validator
  voteExtension : Bytes := []
  extensionSignature : Bytes := []
  blockIdFlag : BlockIdFlag := .commit
deriving DecidableEq, Repr

structure ExtendedCommitInfo where
  round : ℤ := 0
  votes : List ExtendedVoteInfo := []
deriving DecidableEq, Repr

structure VoteInfo where
  validator : Validator
  blockIdFlag : BlockIdFlag := .commit
deriving DecidableEq, Repr

structure CommitInfo where
  round : ℤ := 0
  votes : List VoteInfo := []
deriving DecidableEq, Repr

structure MarketPrice where
  marketIndex : ℕ
  indexPrice : ℕ
  markPrice : ℕ
deriving DecidableEq, Repr

structure OracleVote where
  prices : List MarketPrice := []
  submittedAtHeight : ℤ := 0
deriving DecidableEq, Repr

/-! ### Codecs -/

structure Codec (α : Type) where
  encode : α → Except String Bytes
  decode : Bytes → Except String α

/-- What is encoded is decoded to the same value. -/
def Codec.RoundTrips {α : Type} (c : Codec α) : Prop :=
  ∀ x b, c.encode x = .ok b → c.decode b = .ok x

/-- The marshalled value, where no bytes are the empty value. -/
def rawCodec {α : Type} (name : String) (empty : α) (wire : Codec α) : Codec α where
  encode x := match wire.encode x with
    | .ok b => .ok b
    | .error e => .error s!"oracle codec: marshal {name}: {e}"
  decode b := if b = [] then .ok empty else match wire.decode b with
    | .ok x => .ok x
    | .error e => .error s!"oracle codec: unmarshal {name}: {e}"

/-- Another codec inside a compressed frame. -/
def zstdCodec {α : Type} (encodeAll : Bytes → Bytes) (decodeAll : Bytes → Except String Bytes)
    (empty : α) (inner : Codec α) : Codec α where
  encode x := match inner.encode x with
    | .ok raw => .ok (encodeAll raw)
    | .error e => .error e
  decode b := if b = [] then .ok empty else match decodeAll b with
    | .ok raw => inner.decode raw
    | .error e => .error s!"zstd decode: {e}"

theorem rawCodec_roundTrips {α : Type} {name : String} {empty : α} {wire : Codec α}
    (hwire : wire.RoundTrips) (hempty : wire.decode [] = .ok empty) :
    (rawCodec name empty wire).RoundTrips := by
  intro x b h
  have henc : wire.encode x = .ok b := by
    simp only [rawCodec] at h
    split at h
    · rename_i b' hb
      rw [hb, Except.ok.inj h]
    · cases h
  have hdec := hwire x b henc
  simp only [rawCodec]
  split
  · rename_i hb
    rw [hb, hempty] at hdec
    exact hdec
  · rw [hdec]

theorem zstdCodec_roundTrips {α : Type} {encodeAll : Bytes → Bytes}
    {decodeAll : Bytes → Except String Bytes} {empty : α} {inner : Codec α}
    (hinner : inner.RoundTrips) (hempty : inner.decode [] = .ok empty)
    (hframe : ∀ raw, decodeAll (encodeAll raw) = .ok raw) (hnil : ∀ raw, encodeAll raw = [] → raw = []) :
    (zstdCodec encodeAll decodeAll empty inner).RoundTrips := by
  intro x b h
  simp only [zstdCodec] at h
  split at h
  · rename_i raw hraw
    cases h
    have hdec := hinner x raw hraw
    simp only [zstdCodec]
    split
    · rename_i hb
      rw [hnil raw hb, hempty] at hdec
      exact hdec
    · rw [hframe]
      exact hdec
  · cases h

/-! ### Checks of a commit -/

/-- The votes against those of the last commit, one by one from the given place on. -/
def validateVotes : ℕ → List ExtendedVoteInfo → List VoteInfo → Except String Unit
  | i, ev :: evs, lv :: lvs => do
    let evPower := ev.validator.power
    let lvPower := lv.validator.power
    if ev.validator.address ≠ lv.validator.address then
      throw s!"vote {i} validator address mismatch"
    else if evPower ≠ lvPower then
      throw s!"vote {i} voting power mismatch ({evPower} != {lvPower})"
    else if ev.blockIdFlag ≠ lv.blockIdFlag then
      throw s!"vote {i} block_id_flag mismatch"
    else validateVotes (i + 1) evs lvs
  | _, _, _ => return ()

def validateExtendedCommitAgainstLastCommit (ext : ExtendedCommitInfo) (last : CommitInfo) :
    Except String Unit := do
  let extRound := ext.round
  let lastRound := last.round
  let extLen := ext.votes.length
  let lastLen := last.votes.length
  if extRound ≠ lastRound then
    throw s!"extended commit round {extRound} != last commit round {lastRound}"
  else if extLen ≠ lastLen then
    throw s!"extended commit has {extLen} votes, last commit has {lastLen}"
  else validateVotes 0 ext.votes last.votes

/-- The power of the votes from the given place on, and of those among them that commit, on top of
the sums before it. -/
def sumPowers : ℕ → ℤ → ℤ → List ExtendedVoteInfo → Except String (ℤ × ℤ)
  | _, total, committed, [] => return (total, committed)
  | i, total, committed, v :: vs =>
    if v.validator.power < 0 then throw s!"vote {i} has negative voting power"
    else
      let total := wrap64 (total + v.validator.power)
      if v.blockIdFlag ≠ .commit then sumPowers (i + 1) total committed vs
      else
        let committed := wrap64 (committed + v.validator.power)
        if v.voteExtension ≠ [] ∧ v.extensionSignature = [] then
          throw s!"vote {i} has VE bytes but no signature"
        else sumPowers (i + 1) total committed vs

def validateExtendedCommit (ext : ExtendedCommitInfo) : Except String Unit := do
  let (total, committed) ← sumPowers 0 0 0 ext.votes
  -- an empty validator set has nothing to validate
  if total = 0 then return ()
  else if wrap64 (3 * committed) ≤ wrap64 (2 * total) then
    throw s!"insufficient committed voting power: {committed}/{total} (need > 2/3)"
  else return ()

/-! ### Handlers -/

structure Params where
  maxAgeMs : ℤ := 60000
  markPriceEmaAlpha : ℕ := 2000
  minVotingPowerRatio : ℕ := 6667
  deviationThresholdBps : ℕ := 500
  voteExtensionEnabled : Bool := true
deriving DecidableEq, Repr

/-- The stored parameters, and the height from which the consensus engine asks for vote extensions.
Both may be missing. -/
structure Context where
  params : Option Params := some {}
  voteExtensionsEnableHeight : Option ℤ := none

structure VoteExtensionHandler where
  veCodec : Codec OracleVote
  ecCodec : Codec ExtendedCommitInfo

def veEnabled (ctx : Context) (height : ℤ) : Bool :=
  match ctx.params, ctx.voteExtensionsEnableHeight with
  | some params, some enable => params.voteExtensionEnabled && decide (enable ≠ 0 ∧ enable < height)
  | _, _ => false

/-- Prices of the local daemon, as the extension of a vote; an empty one if anything fails. -/
def extendVote (h : VoteExtensionHandler) (ctx : Context) (fetched : Except String (List MarketPrice))
    (height : ℤ) : Bytes :=
  if veEnabled ctx height = false then []
  else match fetched with
  | .error _ => []
  | .ok prices =>
    let filtered := prices.filter fun p => decide (¬ (p.indexPrice = 0 ∨ p.markPrice = 0))
    match h.veCodec.encode { prices := filtered, submittedAtHeight := height } with
    | .error _ => []
    | .ok b => b

inductive Status
  | accept
  | reject
deriving DecidableEq, Repr

/-- Prices one after the other, with the markets before them. -/
def verifyPrices : List ℕ → List MarketPrice → Status
  | _, [] => .accept
  | seen, p :: ps =>
    if p.indexPrice = 0 ∨ p.markPrice = 0 then .reject
    else if p.marketIndex ∈ seen then .reject
    else verifyPrices (p.marketIndex :: seen) ps

def verifyVoteExtension (h : VoteExtensionHandler) (ctx : Context) (height : ℤ)
    (voteExtension : Bytes) : Status :=
  if veEnabled ctx height = false then if voteExtension = [] then .accept else .reject
  else if voteExtension = [] then .accept
  else match h.veCodec.decode voteExtension with
  | .error _ => .reject
  | .ok v => if v.submittedAtHeight ≠ height then .reject else verifyPrices [] v.prices

structure RequestPrepareProposal where
  height : ℤ
  maxTxBytes : ℤ
  txs : List Bytes := []
  localLastCommit : ExtendedCommitInfo

structure RequestProcessProposal where
  height : ℤ
  txs : List Bytes
  proposedLastCommit : CommitInfo

/-- A wrapped handler that fills a block. -/
abbrev PrepareProposalHandler : Type :=
  Context → RequestPrepareProposal → Except String (List Bytes)

/-- A wrapped handler that checks a block; it may return an error beside its answer. -/
abbrev ProcessProposalHandler : Type :=
  Context → RequestProcessProposal → Status × Option String

/-- The rest of the transactions that fit; the first one does in any case if it is the commit. -/
def injectLoop (maxSizeBytes : ℤ) : Bool → ℤ → List Bytes → List Bytes
  | _, _, [] => []
  | true, consumedBytes, tx :: txs =>
    tx :: injectLoop maxSizeBytes false (consumedBytes + tx.length) txs
  | false, consumedBytes, tx :: txs =>
    let consumedBytes := consumedBytes + tx.length
    if maxSizeBytes < consumedBytes then [] else tx :: injectLoop maxSizeBytes false consumedBytes txs

def injectAndResize (appTxs : List Bytes) (injectTx : Bytes) (maxSizeBytes : ℤ) : List Bytes :=
  if appTxs.head? = some injectTx then injectLoop maxSizeBytes true 0 appTxs
  else if (injectTx.length : ℤ) ≤ maxSizeBytes then
    injectTx :: injectLoop maxSizeBytes false injectTx.length appTxs
  else injectLoop maxSizeBytes false 0 appTxs

def prepareProposal (h : VoteExtensionHandler) (defaultHandler : PrepareProposalHandler)
    (ctx : Context) (req : RequestPrepareProposal) : Except String (List Bytes) :=
  if veEnabled ctx req.height = false then defaultHandler ctx req
  else match h.ecCodec.encode req.localLastCommit with
  | .error _ => defaultHandler ctx req
  | .ok extInfoBz =>
    let injectedSize : ℤ := extInfoBz.length
    if req.maxTxBytes ≤ injectedSize then defaultHandler ctx req
    else do
      let req := { req with maxTxBytes := req.maxTxBytes - injectedSize }
      let txs ← defaultHandler ctx req
      return injectAndResize txs extInfoBz (req.maxTxBytes + injectedSize)

def processProposal (h : VoteExtensionHandler) (defaultHandler : ProcessProposalHandler)
    (ctx : Context) (req : RequestProcessProposal) : Status × Option String :=
  if veEnabled ctx req.height = false then defaultHandler ctx req
  else match req.txs with
  | [] => (.reject, none)
  | extInfoBz :: rest => match h.ecCodec.decode extInfoBz with
    | .error _ => (.reject, none)
    | .ok extInfo =>
      if extInfo.round < 0 then (.reject, none)
      else match validateExtendedCommit extInfo with
        | .error _ => (.reject, none)
        | .ok () =>
          -- the wrapped handler would not understand the commit
          match defaultHandler ctx { req with txs := rest } with
          | (_, some err) => (.reject, some err)
          | (status, none) => (status, none)

end PerpDex.Oracle
