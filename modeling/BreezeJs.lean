import BreezeJs.Library.Transition
import BreezeJs.Library.Counting
import BreezeJs.EventLoop.Model
import BreezeJs.EventLoop.Steps
import BreezeJs.EventLoop.Accounting
import BreezeJs.EventLoop.Conservation
import BreezeJs.EventLoop.Counter
import BreezeJs.EventLoop.Wakeup
import BreezeJs.EventLoop.Shutdown
import BreezeJs.Runtime.ClassId
import BreezeJs.Runtime.Lifetime
import BreezeJs.Runtime.StaleTask
import BreezeJs.Binding.ThreadConfinement
import BreezeJs.Binding.ExceptionTransparency
import BreezeJs.Std.TimerClearing
import BreezeJs.Std.TimerSchedule
import BreezeJs.Library.Backtrack
import BreezeJs.Std.QueryCodec
import BreezeJs.Std.UrlPattern
import BreezeJs.Std.Url
import BreezeJs.Std.UrlFixpoint
import BreezeJs.Std.UrlParams
import BreezeJs.Std.SearchParams
import BreezeJs.Binding.LazySettlement
import BreezeJs.Library.Bits
import BreezeJs.Std.Base64
import BreezeJs.Std.TimerClock
import BreezeJs.Std.UrlAccess
import BreezeJs.Std.UrlWellFormed
import BreezeJs.Std.UrlSetters
import BreezeJs.Binding.JsString
import BreezeJs.Binding.Variant
import BreezeJs.Std.Fetch
import BreezeJs.Std.FileTree
import BreezeJs.Std.ReadDir
import BreezeJs.Library.Association
import BreezeJs.Std.Headers
import BreezeJs.Std.Base64Groups
import BreezeJs.Std.QueryReading
import BreezeJs.Std.ParamsCalls
import BreezeJs.Std.UrlDefined
import BreezeJs.Std.UrlOrigin
import BreezeJs.Std.Blob
import BreezeJs.Std.FetchSelection
import BreezeJs.Runtime.WatchFolder
import BreezeJs.Std.ReadFile
import BreezeJs.Library.Rounding
import BreezeJs.Binding.Tuple
import BreezeJs.Binding.RefBalance
import BreezeJs.Library.UpToError
import BreezeJs.Std.Disk
import BreezeJs.Std.WriteFile
import BreezeJs.Binding.Utf8Decode
import BreezeJs.Binding.Atom
import BreezeJs.Binding.StringMap
import BreezeJs.Library.Prefixes
import BreezeJs.Binding.PropertyHeap
import BreezeJs.Binding.ModuleExports
import BreezeJs.Binding.NamespaceTree
import BreezeJs.Binding.ExportResolution
import BreezeJs.Library.Custody
import BreezeJs.Runtime.PlatformThread
import BreezeJs.FileWatch.Destroy
import BreezeJs.FileWatch.Reload
import BreezeJs.Engine.GcFree
import BreezeJs.EventLoop.Progress
import BreezeJs.Regexp.Language
import BreezeJs.Engine.TypedArraySort
