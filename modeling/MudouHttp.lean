import MudouHttp.Reactor.Accepting
import MudouHttp.Reactor.Channel
import MudouHttp.Reactor.BufferQueue
import MudouHttp.Reactor.LoopTasks
import MudouHttp.Reactor.Releases
import MudouHttp.Reactor.Sending
import MudouHttp.Reactor.Setup
import MudouHttp.Reactor.Shutdown
import MudouHttp.Reactor.Teardown
import MudouHttp.Timer.HeapOrder
import MudouHttp.Timer.IdleTimeouts
import MudouHttp.Timer.TimerIds
import MudouHttp.Http.Reading
import MudouHttp.Http.LoopRefinement
import MudouHttp.Http.Site
import MudouHttp.Http.Splitting
import MudouHttp.Http.Pages
import MudouHttp.Http.Closing
import MudouHttp.Http.Confinement
import MudouHttp.Http.FirstLine
import MudouHttp.Http.Forms
import MudouHttp.Http.Framing
import MudouHttp.Http.HeaderLines
import MudouHttp.Http.HeaderNames
import MudouHttp.Http.LogTexts
import MudouHttp.Http.Pipelining
import MudouHttp.Http.TextBounds
import MudouHttp.Http.Truncation
import MudouHttp.Logger.LogFac
import MudouHttp.Logger.Wakeups
import MudouHttp.Mysql.Handles
import MudouHttp.Mysql.LocalTexts
import MudouHttp.Mysql.Logins
import MudouHttp.Pool.Counters
import MudouHttp.Pool.NullHeads
import MudouHttp.Pool.SpanRuns
import MudouHttp.Reactor.BlockOwners
import MudouHttp.Pool.Frames
import MudouHttp.Reactor.PoolCallers
