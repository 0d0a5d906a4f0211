import MallocSim.L1Encoding.Header
import MallocSim.L1Encoding.Memory
import MallocSim.L2Machine.State
import MallocSim.L2Machine.FreeLists
import MallocSim.L2Machine.Allocator
import MallocSim.L2Machine.Checker
import MallocSim.L2Machine.Calls
import MallocSim.L3Heap.Layout
import MallocSim.L3Heap.Chains
import MallocSim.L3Heap.ListOps
import MallocSim.L3Heap.Invariant
import MallocSim.L3Heap.ListSpec
import MallocSim.L3Heap.Blocks
import MallocSim.L3Heap.Merge
import MallocSim.L3Heap.FreeListState
import MallocSim.L4Api.Grow
import MallocSim.L4Api.Free
import MallocSim.L4Api.Extend
import MallocSim.L4Api.FindFit
import MallocSim.L4Api.Malloc
import MallocSim.L4Api.Payload
import MallocSim.L4Api.Checkheap
import MallocSim.L4Api.Reuse
import MallocSim.L5Client.Spec
import MallocSim.L5Client.Refine
import MallocSim.L5Client.Reachable
import MallocSim.L5Client.Live
import MallocSim.L5Client.Lockstep
import MallocSim.L5Client.RoundTrip
import MallocSim.L5Client.Canonical
import MallocSim.L5Client.Runs
import MallocSim.L5Client.Region
import MallocSim.Bugs.RoundUpWrap
import MallocSim.Bugs.CheckheapRejects
import MallocSim.Bugs.CheckheapUnsound
import MallocSim.Bugs.SplitMiniAssert
