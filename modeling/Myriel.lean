import Myriel.AsyncLogStop
import Myriel.WorkersOwnership
import Myriel.WorkersTermination
import Myriel.RunLoopExceptions
import Myriel.LifecycleFailure
import Myriel.ConfigLoad
import Myriel.ConfigHistory
import Myriel.ConfigStrings
import Myriel.LoggerRoot
import Myriel.LogPattern
import Myriel.AsyncLogPool
import Myriel.RunStepsReady
import Myriel.TaskOrder
import Myriel.ContextsPointer
import Myriel.ContextsCoroutine
import Myriel.ContextsFibers
import Myriel.ConfigLocksCycle
import Myriel.LexicalReject
import Myriel.ConfigAtomic
import Myriel.LexicalBool
import Myriel.LoggerFile
import Myriel.LogEscape
import Myriel.ConfigGraph
import Myriel.ConfigCase
import Myriel.ConfigLookup
import Myriel.ConfigListeners
import Myriel.LogFormat
import Myriel.LoggerThreadsAlone
import Myriel.ConfigDump
import Myriel.TaskWaiting
import Myriel.WorkersTurns
import Myriel.RunStepsWorkers
import Myriel.RunLoopSteps
import Myriel.LogCompose
import Myriel.ProcessLocks
