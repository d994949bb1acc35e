import ConcurrencyInAction.Interleaving
import ConcurrencyInAction.Atomic
import ConcurrencyInAction.AtomicStack
import ConcurrencyInAction.LockFree.Stack
import ConcurrencyInAction.LockFree.SplitCount.Basic
import ConcurrencyInAction.LockFree.SplitCount.Invariant
import ConcurrencyInAction.LockFree.SplitCount.Safety
import ConcurrencyInAction.LockFree.SplitCount.Linearizable
import ConcurrencyInAction.LockFree.Hazard
import ConcurrencyInAction.LockFree.Gc.Basic
import ConcurrencyInAction.LockFree.Gc.Invariant
import ConcurrencyInAction.LockFree.Gc.Safety
import ConcurrencyInAction.HierarchicalMutex
import ConcurrencyInAction.LockBased.LookupTable
import ConcurrencyInAction.LockBased.Queue
import ConcurrencyInAction.LockFree.HazardOwner
import ConcurrencyInAction.LockFree.ReclaimList
import ConcurrencyInAction.QuickSort.Sequential
import ConcurrencyInAction.ParallelForEach
import ConcurrencyInAction.LockBased.List.Basic
import ConcurrencyInAction.LockBased.List.Invariant
import ConcurrencyInAction.LockBased.List.View
import ConcurrencyInAction.QuickSort.Sorter
import ConcurrencyInAction.Atomics.Memory
import ConcurrencyInAction.Atomics.Litmus
import ConcurrencyInAction.Atomics.Orderings
import ConcurrencyInAction.Atomics.Transitive
import ConcurrencyInAction.Atomics.SynchronizeWith
import ConcurrencyInAction.Atomics.Spinlock
import ConcurrencyInAction.LockBased.Monitor
import ConcurrencyInAction.LockBased.DataSharing
import ConcurrencyInAction.LockBased.ConditionQueue
import ConcurrencyInAction.Atomics.DoubleChecked
