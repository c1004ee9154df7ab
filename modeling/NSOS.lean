import NSOS.Console.Redraw
import NSOS.Console.Syslog
import NSOS.Kmt.Braces
import NSOS.Memory.Overrun
import NSOS.Memory.Safety
import NSOS.Nslibc.Strings
import NSOS.Sched.Context
import NSOS.Sched.Signal
import NSOS.Spin.AnyOrder
import NSOS.Spin.Restored
import NSOS.Vfs.Append
import NSOS.Vfs.ByteArray
import NSOS.Vfs.Descriptors
import NSOS.Vfs.Dropping
import NSOS.Vfs.Emptying
import NSOS.Vfs.Failing
import NSOS.Vfs.Garbage
import NSOS.Vfs.Granted
import NSOS.Vfs.Linear
import NSOS.Vfs.Making
import NSOS.Vfs.Newest
import NSOS.Vfs.Permission
import NSOS.Vfs.Position
import NSOS.Vfs.ProcText
import NSOS.Vfs.Random
import NSOS.Vfs.Refused
import NSOS.Vfs.Returning
import NSOS.Vfs.Separate
import NSOS.Vfs.Stale
import NSOS.Vfs.Tracing
import NSOS.Vfs.Truncate
