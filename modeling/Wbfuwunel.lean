import Wbfuwunel.Api.CatchUpRuns
import Wbfuwunel.Api.DeviceItems
import Wbfuwunel.Api.Drafts
import Wbfuwunel.Api.Federation
import Wbfuwunel.Api.InviteEntries
import Wbfuwunel.Api.InviteRuns
import Wbfuwunel.Api.RoomEvent
import Wbfuwunel.Api.SubscribeAck
import Wbfuwunel.Connections.SlotRuns
import Wbfuwunel.Core.CounterRuns
import Wbfuwunel.Core.Intersection
import Wbfuwunel.Core.MutexMap
import Wbfuwunel.DeviceVersions.KeysHash
import Wbfuwunel.DeviceVersions.RoomVersionRuns
import Wbfuwunel.KeyBackups.Sessions
import Wbfuwunel.Media.UploadCrash
import Wbfuwunel.Media.UploadQuota
import Wbfuwunel.MediaRefs.CollectRuns
import Wbfuwunel.MediaRefs.HolderTables
import Wbfuwunel.OAuth.AuthCodes
import Wbfuwunel.Registration.Tokens
import Wbfuwunel.Rendezvous.Sessions
import Wbfuwunel.Rooms.Aliases
import Wbfuwunel.Rooms.AuthChainRuns
import Wbfuwunel.Rooms.Extremities
import Wbfuwunel.Rooms.NumberingRuns
import Wbfuwunel.Rooms.Pdus
import Wbfuwunel.Rooms.StateCompressor
import Wbfuwunel.Rooms.ThreadRuns
import Wbfuwunel.Sending.EduWatermark
import Wbfuwunel.Sending.SenderRuns
import Wbfuwunel.SlidingSync.Ranges
import Wbfuwunel.StateRes.TopologicalSort
import Wbfuwunel.Streams.PackQueue
import Wbfuwunel.Streams.Teardown
import Wbfuwunel.Users.KeySupply
import Wbfuwunel.Users.OneTimeKeyRuns
import Wbfuwunel.Users.RefreshTokens
import Wbfuwunel.Wire.PackSafety
