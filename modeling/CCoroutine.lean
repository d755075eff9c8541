import CCoroutine.Asm.Faithful
import CCoroutine.Backend.Agreement
import CCoroutine.Completion.RoundRobin
import CCoroutine.Completion.Work
import CCoroutine.Safety.Capacity
import CCoroutine.Safety.Lifecycle
import CCoroutine.Safety.Nesting
import CCoroutine.Scheduler.Fields
import CCoroutine.Temporal.Await
import CCoroutine.Temporal.Allocator
import CCoroutine.Temporal.Leftovers
import CCoroutine.Temporal.Deadlock
import CCoroutine.Safety.Heap
import CCoroutine.Clients.Barrier.Tests
import CCoroutine.Clients.Barrier.Once
import CCoroutine.Clients.Pipeline
import CCoroutine.Clients.Generator
import CCoroutine.Clients.Stress
import CCoroutine.Clients.Semaphore
import CCoroutine.Clients.PingPong
import CCoroutine.Clients.Timers.Termination
