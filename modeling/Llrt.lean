import Llrt.Abort.OneShot
import Llrt.AsyncHooks.Hooks
import Llrt.Buffer.ByteLength
import Llrt.ChildProcess.Reports
import Llrt.Clone.Sharing
import Llrt.Dns.Cache
import Llrt.Events.Notifications
import Llrt.Fetch.BodyProgress
import Llrt.Fetch.CollectAgrees
import Llrt.Fetch.Credentials
import Llrt.Fetch.DataUrls
import Llrt.Fetch.FormDataRoundTrip
import Llrt.Fetch.HeadersInit
import Llrt.Fetch.RequestMembers
import Llrt.Fetch.RequestRuns
import Llrt.Fetch.ResponseRuns
import Llrt.Fs.Positional
import Llrt.Fs.ReadDir
import Llrt.Intl.PatternFormatter
import Llrt.Json.Circularity
import Llrt.Json.Hooks
import Llrt.Logging.Circular
import Llrt.Modules.NodeModules
import Llrt.Modules.PackageExports
import Llrt.Modules.Require
import Llrt.Path.Normalize
import Llrt.Runtime.Runs
import Llrt.Stream.BufferAccounting
import Llrt.Stream.BufferClear
import Llrt.Stream.Runs
import Llrt.Stream.WritableRuns
import Llrt.StreamWeb.Pipe
import Llrt.StreamWeb.Transform.IdentityRuns
import Llrt.TestRunner.CircularBuffer
import Llrt.TestRunner.Running
import Llrt.TestRunner.SocketClient
import Llrt.TestRunner.TestServer
import Llrt.Text.Chunks
import Llrt.Text.StringDecoderEnd
import Llrt.Timers.PollOrder
import Llrt.Timers.Runs
import Llrt.Url.FileUrls
import Llrt.Utils.ReuseList
import Llrt.Xml.Faithful
import Llrt.Xml.Serializer
