import DarwinNotes.Dyld.SlideInfo.Sliding
import DarwinNotes.CF.Sort.SortIndexes
import DarwinNotes.Objc.Initialize.Protocol
import DarwinNotes.Objc.MethodCache.Messenger
import DarwinNotes.Objc.Weak.Runs
import DarwinNotes.Objc.Weak.Zeroing
import DarwinNotes.Objc.Autorelease.Refinement
import DarwinNotes.Objc.Layout.RoundTrip
import DarwinNotes.Objc.MethodLists.Bulk
import DarwinNotes.Objc.MethodLists.Categories
import DarwinNotes.Objc.Property.RoundTrip
import DarwinNotes.Objc.MapTable.Refinement
import DarwinNotes.Objc.Refcount.Equivalence
import DarwinNotes.Objc.CustomFlags.Soundness
import DarwinNotes.CF.Array.Runs
import DarwinNotes.CF.BinaryPlist.Hostile
import DarwinNotes.CF.BurstTrie.Calls
import DarwinNotes.Xnu.Locks.Deadlock
import DarwinNotes.CF.BinaryHeap.Runs
import DarwinNotes.YYCache.MemoryCache.Runs
import DarwinNotes.Dyld.Rebase.Runs
import DarwinNotes.Xnu.Bpf.Chains
import DarwinNotes.CF.Array.Search
import DarwinNotes.Objc.Ivars
import DarwinNotes.Objc.Sync.Failures
import DarwinNotes.GNUstep.IndexSet
import DarwinNotes.Objc.SwiftNames
import DarwinNotes.Objc.ClassTree.Subtree
import DarwinNotes.Xnu.PrioritySort
import DarwinNotes.GNUstep.TimSort
import DarwinNotes.GNUstep.Decimal.Compare
import DarwinNotes.CF.PropertyList
