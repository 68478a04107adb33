import NgxKeyval.Library.Machine
import NgxKeyval.Library.KeyedList
import NgxKeyval.Library.GrowArray
import NgxKeyval.Shm.Store
import NgxKeyval.Shm.Map
import NgxKeyval.Shm.PlainCore
import NgxKeyval.Shm.Refinement
import NgxKeyval.Conf.Defs
import NgxKeyval.Conf.Zone
import NgxKeyval.Conf.Variable
import NgxKeyval.Conf.PlainConf
import NgxKeyval.Template.Expand
import NgxKeyval.Template.Correct
import NgxKeyval.Redis.Store
import NgxKeyval.Store.Ops
import NgxKeyval.Store.Entry
import NgxKeyval.Redis.Server
import NgxKeyval.Redis.Session
import NgxKeyval.Redis.Failure
import NgxKeyval.Conf.Directives
import NgxKeyval.Conf.Records
import NgxKeyval.Conf.Served
import NgxKeyval.Library.Separator
import NgxKeyval.Redis.Working
import NgxKeyval.Redis.Isolation
import NgxKeyval.Conf.Captured
import NgxKeyval.Redis.Connections
import NgxKeyval.Redis.OneConnection
import NgxKeyval.Module.Handlers
import NgxKeyval.Module.Backends
import NgxKeyval.Library.Cache
import NgxKeyval.Module.Slots
import NgxKeyval.Module.Chained
import NgxKeyval.Shm.Segment
import NgxKeyval.Shm.Slab
import NgxKeyval.Shm.Reload
import NgxKeyval.Library.Ledger
import NgxKeyval.Redis.Release
import NgxKeyval.Redis.Database
import NgxKeyval.Conf.Grammar
import NgxKeyval.Conf.Names
import NgxKeyval.Conf.RedisGrammar
import NgxKeyval.Shm.Deadline
import NgxKeyval.Template.Bounds
import NgxKeyval.Conf.Rejected
import NgxKeyval.Library.Concurrent
import NgxKeyval.Library.Lock
import NgxKeyval.Library.Last
import NgxKeyval.Library.Timed
import NgxKeyval.Library.Unreliable
import NgxKeyval.Redis.Wire
import NgxKeyval.Redis.Net
import NgxKeyval.Shm.History
import NgxKeyval.Shm.Locked
import NgxKeyval.System.Tables
import NgxKeyval.System.Stores
import NgxKeyval.System.Nginx
import NgxKeyval.System.Places
import NgxKeyval.Conf.Contexts
import NgxKeyval.System.Configured
import NgxKeyval.System.Faults
import NgxKeyval.Module.Evaluation
import NgxKeyval.Module.Circular
import NgxKeyval.Library.Form
import NgxKeyval.Template.Unambiguous
import NgxKeyval.Conf.WellFormed
import NgxKeyval.Template.Stepwise
import NgxKeyval.System.Program
import NgxKeyval.System.Interpreter
import NgxKeyval.System.Current
import NgxKeyval.System.Single
