import DistributedSystems.MCertiKOS.Scheduler
import DistributedSystems.MCertiKOS.Fs.Transactions
import DistributedSystems.ShardedKv.Cluster
import DistributedSystems.ShardedKv.Processes
import DistributedSystems.Dsml.DeviceOwnership
import DistributedSystems.Dsml.CommStatus
import DistributedSystems.Dsml.Streams
import DistributedSystems.Dsml.MemoryRange
import DistributedSystems.MCertiKOS.Fs.Allocation
import DistributedSystems.MCertiKOS.Fs.References
import DistributedSystems.MCertiKOS.Fs.BufferSupply
import DistributedSystems.MCertiKOS.ContainerIds
import DistributedSystems.ShardedKv.Stress
import DistributedSystems.VideoRec.Fallback
import DistributedSystems.MCertiKOS.QueueLists
import DistributedSystems.MCertiKOS.AllocTable
import DistributedSystems.MCertiKOS.MemoryMap
import DistributedSystems.MCertiKOS.Fs.FileWrite
import DistributedSystems.MCertiKOS.ElfLoad
import DistributedSystems.Raft.ConflictHint
import DistributedSystems.Raft.Repair
import DistributedSystems.ShardedKv.ShardCopy
import DistributedSystems.ShardedKv.Ttl
import DistributedSystems.MCertiKOS.FormatScan
import DistributedSystems.VideoRec.Recommendation
import DistributedSystems.MCertiKOS.Spinlock
