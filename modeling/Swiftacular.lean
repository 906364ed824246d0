import Swiftacular.ArrivalOrder
import Swiftacular.SwiftOrder
import Swiftacular.FileAgreement
import Swiftacular.NameClocks
import Swiftacular.ProtectedKeys
import Swiftacular.UnreadableNames
import Swiftacular.StoreRefinement
import Swiftacular.LiveAddresses
import Swiftacular.CrashSweep
import Swiftacular.DeviceEngine
import Swiftacular.FailedHandOver
import Swiftacular.ChunkedWrites
import Swiftacular.OwnBytes
import Swiftacular.ServedVersions
import Swiftacular.MetadataReads
import Swiftacular.StoredInput
import Swiftacular.DecisionOrder
import Swiftacular.OneHolder
import Swiftacular.SyncedCalls
import Swiftacular.DurableAnswers
import Swiftacular.Tombstones
import Swiftacular.CommandOptions
import Swiftacular.HelperTools
import Swiftacular.XattrMetadata
import Swiftacular.DeviceReads
import Swiftacular.LogGrowth
import Swiftacular.Lifetimes
import Swiftacular.NeverStuck
import Swiftacular.SuffixDigests
