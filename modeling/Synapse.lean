import Synapse.Client.CanvasEngine
import Synapse.Client.CursorFeed
import Synapse.Client.CursorLayer
import Synapse.Client.ExternalStore
import Synapse.Client.Fingers
import Synapse.Client.FrameScheduler
import Synapse.Client.FreshJoin
import Synapse.Client.Painting
import Synapse.Client.Pointer
import Synapse.Client.RecentBoards
import Synapse.Client.ResyncNumbers
import Synapse.Client.Segments
import Synapse.Client.Session
import Synapse.Client.Throttle
import Synapse.Client.Viewport
import Synapse.Client.ViewportRuns
import Synapse.Custody.Basic
import Synapse.Domain
import Synapse.Floating.Format
import Synapse.Gateway.Actions
import Synapse.Gateway.AuthGuard
import Synapse.Gateway.Authorised
import Synapse.Gateway.Guard
import Synapse.Gateway.InvalidEvents
import Synapse.Gateway.Membership
import Synapse.Gateway.PayloadToken
import Synapse.Gateway.Transport
import Synapse.Http.JoinRoute
import Synapse.Http.JoinTokens
import Synapse.Inet.Text
import Synapse.Live.OrderedSet
import Synapse.Metering.Clock
import Synapse.Metering.Spacing
import Synapse.Metering.TokenBucket
import Synapse.Middleware.ClockSteps
import Synapse.Middleware.HttpRateLimiter
import Synapse.Middleware.RateLimiter
import Synapse.Observability.InternalAddress
import Synapse.Observability.MetricsAccess
import Synapse.Observability.Readiness
import Synapse.Observability.RollingRate
import Synapse.Presence.Colors
import Synapse.Presence.Expiry
import Synapse.Presence.Ghosts
import Synapse.Presence.Handlers
import Synapse.Presence.Index
import Synapse.Presence.Leaks
import Synapse.Presence.Roster
import Synapse.Presence.Service
import Synapse.Presence.Store
import Synapse.Presence.Sweep
import Synapse.Recency.Basic
import Synapse.Repaint.Incremental
import Synapse.Reservation.Basic
import Synapse.Room.AtMostOnce
import Synapse.Room.Authorship
import Synapse.Room.Clear
import Synapse.Room.Convergence
import Synapse.Room.Drawn
import Synapse.Room.Inversion
import Synapse.Room.Model
import Synapse.Room.Order
import Synapse.Room.Provenance
import Synapse.Room.Reconnect
import Synapse.Room.Resumption
import Synapse.Room.Screened
import Synapse.Room.Screens
import Synapse.Room.Supply
import Synapse.Room.Traffic
import Synapse.Server.Shutdown
import Synapse.Sql.Insert
import Synapse.Sql.Session
import Synapse.Store.Database
import Synapse.Store.DeleteThrough
import Synapse.Store.InsertBatch
import Synapse.Store.OneBoard
import Synapse.Store.Repository
import Synapse.Store.RoundTrip
import Synapse.Store.StrokeTable
import Synapse.Stroke.Account
import Synapse.Stroke.Baseline
import Synapse.Stroke.Boards
import Synapse.Stroke.BufferOrder
import Synapse.Stroke.Cluster
import Synapse.Stroke.Compaction
import Synapse.Stroke.ConsistentCut
import Synapse.Stroke.Crash
import Synapse.Stroke.Deployment
import Synapse.Stroke.Effect
import Synapse.Stroke.Exclusion
import Synapse.Stroke.Flush
import Synapse.Stroke.Footprint
import Synapse.Stroke.Healing
import Synapse.Stroke.Health
import Synapse.Stroke.History
import Synapse.Stroke.Inversion
import Synapse.Stroke.Ledger
import Synapse.Stroke.Overtaking
import Synapse.Stroke.Progress
import Synapse.Stroke.Recovery
import Synapse.Stroke.Replies
import Synapse.Stroke.Restore
import Synapse.Stroke.Retries
import Synapse.Stroke.Sequencing
import Synapse.Stroke.Service
import Synapse.Stroke.Settling
import Synapse.Stroke.Step
import Synapse.Stroke.Timers
import Synapse.Table.Cells
import Synapse.Table.Keyed
import Synapse.Table.Lookup
import Synapse.Transition.Along
import Synapse.Transition.Due
import Synapse.Transition.Earlier
import Synapse.Transition.Inevitable
import Synapse.Transition.Machine
import Synapse.Window.Ring
import Synapse.Wire.Json
import Synapse.Wire.JsonText
import Synapse.Wire.Schemas
