import PerpDex.KVStore
import PerpDex.Txn
import PerpDex.Types
import PerpDex.Arith
import PerpDex.PositionMath
import PerpDex.Account
import PerpDex.Market
import PerpDex.Funding
import PerpDex.Market
import PerpDex.Risk
import PerpDex.AccountMsgs
import PerpDex.Engine
import PerpDex.EngineSpec
import PerpDex.OpenInterest
import PerpDex.Takeover
import PerpDex.Liquidation
import PerpDex.ForcedFills
import PerpDex.Absorption
import PerpDex.PublicPool
import PerpDex.Orderbook
import PerpDex.Matching
import PerpDex.MatchingMsgs
import PerpDex.BookCore
import PerpDex.BookEffects
import PerpDex.Sweep
import PerpDex.BookSystem
import PerpDex.BookRun
import PerpDex.Funds
import PerpDex.Solvency
import PerpDex.LiquidationFee
import PerpDex.PrefixLedger
import PerpDex.ReduceOnly
import PerpDex.FundingLedger
import PerpDex.Priority
import PerpDex.Hooks
import PerpDex.BookFrame
import PerpDex.ClosedMarket
import PerpDex.Desk
import PerpDex.OrderLedger
import PerpDex.SecondaryIndex
import PerpDex.IndexEffects
import PerpDex.OrderIndexes
import PerpDex.PageEffects
import PerpDex.MarketExpiry
import PerpDex.AccountAdmin
import PerpDex.Chain
import PerpDex.AccountIndexes
import PerpDex.PositionRuns
import PerpDex.FundingRounding
import PerpDex.PoolShares
import PerpDex.ShareSupply
import PerpDex.PriceFeed
import PerpDex.Proposals
import PerpDex.BookPages
import PerpDex.BookRep
import PerpDex.DeskBook
import PerpDex.GenesisRoundTrip
import PerpDex.RestingOrders
import PerpDex.UncrossedBook
import PerpDex.MakerFaults
import PerpDex.ZeroPrice
import PerpDex.IsolatedMargin
import PerpDex.InterestCap
import PerpDex.LoopProgress
import PerpDex.Execution
import PerpDex.CleanSlate
import PerpDex.TriggerGate
import PerpDex.SpotLedger
import PerpDex.SpotSolvency
import PerpDex.SpotLocks
import PerpDex.Depth
import PerpDex.FundingRate
import PerpDex.ImpactPrice
import PerpDex.MarkPrice
import PerpDex.ExactRuns
import PerpDex.MarkRuns
import PerpDex.Median
import PerpDex.OracleMedians
import PerpDex.OracleOrder
import PerpDex.ExpiryViews
import PerpDex.PoolValue
import PerpDex.MarketExit
import PerpDex.Deleveraging
import PerpDex.PriceDaemon
import PerpDex.PriceIngestion
import PerpDex.VotingPower
import PerpDex.OracleRuns
import PerpDex.OrderLifecycle
