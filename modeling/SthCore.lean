import SthCore.Chain.Depth
import SthCore.Chain.EarlierSlot
import SthCore.Chain.LiveAudit
import SthCore.Chain.Registry
import SthCore.Chain.SecondKeys
import SthCore.Chain.Stored
import SthCore.Chain.Timestamps
import SthCore.Chain.Touched
import SthCore.Chain.Votes
import SthCore.Delegate.Lookups
import SthCore.Delegate.Selection
import SthCore.Finality.Slashing
import SthCore.Finality.Watchdog
import SthCore.Mempool.Contiguous
import SthCore.P2p.Commands
import SthCore.P2p.Follow
import SthCore.P2p.Subscription
import SthCore.Chain.Missed
import SthCore.Chain.OpenOrders
import SthCore.Mempool.Outflow
import SthCore.Delegate.Guard
import SthCore.Delegate.Shuffle
import SthCore.Lib.Collected
import SthCore.Lib.Schedule
import SthCore.Lib.Spacing
import SthCore.Mempool.AntiSpam
import SthCore.NodePool
import SthCore.P2p.AddrBook
import SthCore.Supply
import SthCore.Crypto.Unambiguous
import SthCore.Api.FeeDays
import SthCore.Chain.FeeDays
import SthCore.Api.Listings
import SthCore.Chain.Listings
import SthCore.Crypto.StrictDer
import SthCore.Dates
import SthCore.Lib.Tally
import SthCore.Lib.Window
import SthCore.Mempool.PeerLimits
import SthCore.P2p.RelayGuard
import SthCore.Chain.OrderBooks
import SthCore.Chain.Returned
import SthCore.Finality.Gossip
import SthCore.Snapshot.Resume
import SthCore.Chain.Stacked
import SthCore.Chain.Rewritten
import SthCore.Lib.Grouping
import SthCore.Snapshot.Dump
import SthCore.Snapshot.MessagePack
import SthCore.Snapshot.Roundtrip
import SthCore.Lib.Turns
import SthCore.P2p.Forks
import SthCore.Finality.Agreement
import SthCore.P2p.AddrEntries
