import Jackfruit.Attribution
import Jackfruit.DeadEntries
import Jackfruit.Enforcement
import Jackfruit.ExitStatus
import Jackfruit.FailedStart
import Jackfruit.Inheritance
import Jackfruit.KillTarget
import Jackfruit.LogDrain
import Jackfruit.LogsOutput
import Jackfruit.ModuleLife
import Jackfruit.OneSupervisor
import Jackfruit.OutputProgress
import Jackfruit.PsOutput
import Jackfruit.PsTable
import Jackfruit.Registry
import Jackfruit.RequestProgress
import Jackfruit.Resources
import Jackfruit.Rootfs
import Jackfruit.Shutdown
import Jackfruit.SoftLimit
import Jackfruit.StopRefusal
import Jackfruit.StopTarget
import Jackfruit.TypedCommands
import Jackfruit.Unterminated
