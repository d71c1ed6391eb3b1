import Hollow.Crdt.ClockRun
import Hollow.Store.Edits
import Hollow.Store.Reactions
import Hollow.Store.GapRepair
import Hollow.Store.DmPaging
import Hollow.Store.ChannelPaging
import Hollow.Relay.JoinLocks
import Hollow.Mls.RateCap
import Hollow.Identity.Join
import Hollow.Identity.Flood
import Hollow.Relay.RosterBook
import Hollow.Crdt.Access
import Hollow.Crdt.Record
import Hollow.Crdt.Shut
import Hollow.Messages.Payload
import Hollow.Vault.Reconstruct
import Hollow.Relay.PaceRun
import Hollow.Session.Delivery
import Hollow.Files.Resume
import Hollow.Files.Receive
import Hollow.Mls.OwnTallies
import Hollow.Mls.Honest
import Hollow.Social.Blocks
import Hollow.Vault.Repair
import Hollow.Crdt.Canonicalize
import Hollow.Crdt.Republish
import Hollow.Mls.Standing
import Hollow.Identity.Steady
import Hollow.Crdt.Ranks
import Hollow.Forwarder.Simulcast
import Hollow.Frames.Replay
import Hollow.Vault.Placement
import Hollow.Vault.Replicas
import Hollow.Media.WebpStrip
import Hollow.Store.SenderPages
import Hollow.Identity.Attempts
import Hollow.Pack.Verify
import Hollow.Mls.PastSaved
import Hollow.Relay.Ladder
import Hollow.Relay.LockTable
import Hollow.Relay.Reports
import Hollow.Relay.KillRuns
import Hollow.Relay.Fanout
import Hollow.Session.Book
import Hollow.Session.Table
import Hollow.Files.Relay
import Hollow.Files.RelayFair
