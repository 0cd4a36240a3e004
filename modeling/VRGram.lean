import VRGram.Lib.Maps
import VRGram.Lib.Strings
import VRGram.Lib.Base32Hex
import VRGram.Lib.Base64Std
import VRGram.Encoding.Chunk
import VRGram.Encoding.Labels
import VRGram.Lib.Machine
import VRGram.Store.ChunkStore
import VRGram.Store.Accounting
import VRGram.Store.Mailbox
import VRGram.Relay.Server
import VRGram.Store.Ordering
import VRGram.Client.Dns
import VRGram.Client.Engine
import VRGram.Relay.Parcel
import VRGram.Client.Transport
import VRGram.Client.Polling
import VRGram.Encoding.Reassembly
import VRGram.Client.SendParallel
import VRGram.Client.Holdings
import VRGram.Client.Federation
import VRGram.Crypto.Message
import VRGram.Lib.Json
import VRGram.Daemon.Groups
import VRGram.Lib.Paths
import VRGram.Daemon.Receive
import VRGram.Daemon.Send
import VRGram.Daemon.Attribution
import VRGram.Daemon.GroupDelivery
import VRGram.Daemon.Epochs
import VRGram.Daemon.Revocation
import VRGram.Client.Listing
import VRGram.Client.Naming
import VRGram.Client.Offers
import VRGram.Crypto.Invite
import VRGram.Daemon.Arrival
import VRGram.Daemon.Peers
import VRGram.Daemon.Text
import VRGram.Daemon.Auth
import VRGram.Media.Transfer
import VRGram.Daemon.Media
import VRGram.Daemon.Cancellation
import VRGram.Daemon.Settlement
import VRGram.Daemon.Upload
import VRGram.App.RelaysFile
import VRGram.Client.RelaySet
import VRGram.Daemon.Addressing
import VRGram.Daemon.Queue
import VRGram.Daemon.Membership
import VRGram.Daemon.PeersFile
import VRGram.Daemon.Rekeying
import VRGram.Lib.JsonText
import VRGram.Daemon.Agreement
import VRGram.Daemon.MediaFormat
import VRGram.Encoding.Placement
import VRGram.Store.Completion
import VRGram.Lib.Expiring
import VRGram.Store.LastWriter
import VRGram.Client.Delivery
import VRGram.Client.Fetching
import VRGram.Daemon.FanOut
import VRGram.Lib.Sorting
import VRGram.App.ChatList
import VRGram.Lib.Rewriting
import VRGram.App.ChatStart
import VRGram.Lib.Utf8
import VRGram.App.MessagePoll
import VRGram.App.MediaScan
import VRGram.Store.Quota
import VRGram.Crypto.Signing
import VRGram.Lib.Trim
import VRGram.Crypto.Identity
import VRGram.Lib.Metering
import VRGram.RateLimit.TokenBucket
import VRGram.RateLimit.IPRateLimiter
import VRGram.Daemon.Invitations
import VRGram.Daemon.PeerFiles
import VRGram.Lib.JsonScan
import VRGram.Lib.JsonObject
import VRGram.Daemon.Handshake
import VRGram.Daemon.ProfileUpdates
import VRGram.Client.Compatibility
import VRGram.App.ChatOps
import VRGram.Daemon.Progress
import VRGram.Encoding.Checksum
import VRGram.Lib.Hex
import VRGram.Lib.OpenFiles
import VRGram.Relay.MediaServer
import VRGram.Relay.MediaFiles
import VRGram.Relay.MediaDownloads
import VRGram.Relay.MediaAccess
import VRGram.Lib.JsonWrite
import VRGram.Lib.JsonDoc
import VRGram.Lib.JsonExtend
import VRGram.Lib.JsonMap
import VRGram.Daemon.StateFiles
import VRGram.Lib.HostPort
import VRGram.Media.TcpTransport
import VRGram.Daemon.MediaMarshal
import VRGram.Daemon.MediaDelivery
import VRGram.Client.Liveness
import VRGram.Daemon.Correspondence
import VRGram.Daemon.Startup
import VRGram.Client.Capacity
import VRGram.Daemon.Settings
import VRGram.App.Bubbles
