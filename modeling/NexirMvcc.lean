import NexirMvcc.GcSafety
import NexirMvcc.GcLimits
import NexirMvcc.GcBudgets
import NexirMvcc.Intents
import NexirMvcc.Conflicts
import NexirMvcc.Ledger
import NexirMvcc.BatchOrder
import NexirMvcc.GcSequences
import NexirMvcc.KeyPlan
import NexirMvcc.LatePlans
import NexirMvcc.Guards
import NexirMvcc.KeyIndex
import NexirMvcc.PrefixScan
import NexirMvcc.Codec
import NexirMvcc.CodecWidth
import NexirMvcc.CodecOrder
import NexirMvcc.Adapters
import NexirMvcc.LoadSim
import NexirMvcc.CommittedOnly
import NexirMvcc.Schedules
import NexirMvcc.BatchErrors
import NexirMvcc.DirectPath
import NexirMvcc.Exclusion
import NexirMvcc.Increments
import NexirMvcc.Work
import NexirMvcc.Contract
