import Xbpf.Tracing.Format
import Xbpf.Tracing.RoundTrip
import Xbpf.Tracing.Truncation
import Xbpf.Tracing.Arrival
import Xbpf.Files.Path
import Xbpf.Tracing.Callsite
import Xbpf.Runs.Machine
import Xbpf.Tracing.Emit
import Xbpf.Tracing.PerCpu
import Xbpf.Tracing.Trace
import Xbpf.Tracing.Nesting
import Xbpf.Tracing.Loss
import Xbpf.Tracing.Filtering
import Xbpf.Channels.Bounded
import Xbpf.Collections.Error
import Xbpf.Collections.RingBuf
import Xbpf.Tracing.TryInit
import Xbpf.Maps.Bounded
import Xbpf.Collections.HashMap
import Xbpf.Collections.HashMapModel
import Xbpf.Files.FileSystem
import Xbpf.Files.Resolution
import Xbpf.Runs.Fallible
import Xbpf.Build.Builder
import Xbpf.Build.OutDir
import Xbpf.Build.Artifacts
import Xbpf.Build.Progress
import Xbpf.Build.Rebuild
import Xbpf.Tracing.Recovery
import Xbpf.Runs.Interleaving
import Xbpf.Collections.Client
import Xbpf.Collections.Interference
import Xbpf.Collections.MapCore
import Xbpf.Collections.Batch
import Xbpf.Collections.Views
import Xbpf.Collections.Clear
import Xbpf.Build.Objects
import Xbpf.Build.Placement
import Xbpf.Files.Stays
import Xbpf.Build.Names
import Xbpf.Files.Glob
import Xbpf.Build.Discovery
import Xbpf.Tracing.SharedPrefix
import Xbpf.Maps.Interning
import Xbpf.Tracing.Metadata
import Xbpf.Collections.PodTypes
import Xbpf.Collections.Dropping
import Xbpf.Build.KernelBtf
import Xbpf.Build.Containment
import Xbpf.Build.Headers
import Xbpf.Build.Recursion
import Xbpf.Channels.Reservations
import Xbpf.Tracing.Submission
import Xbpf.Tracing.Lifetime
import Xbpf.Tracing.Delivery
import Xbpf.Preprocessor.Options
import Xbpf.Build.ClangArgs
import Xbpf.Build.Agreement
import Xbpf.Tracing.StrLen
import Xbpf.Scopes.Registry
import Xbpf.Tracing.Registry
import Xbpf.Tracing.Programs
import Xbpf.Runs.Linear
import Xbpf.Collections.Linearization
import Xbpf.Collections.Election
import Xbpf.Files.Kinds
import Xbpf.Build.Merging
import Xbpf.Build.Reexport
import Xbpf.Build.Workspace
import Xbpf.Build.Repetition
import Xbpf.Build.Compilation
import Xbpf.Collections.Opening
import Xbpf.Files.Descents
import Xbpf.Build.Dangling
import Xbpf.Build.Inclusion
