import Moon.Support.BTreeMap
import Moon.Support.Str
import Moon.Support.Utf8
import Moon.Hasher.TargetHasher
import Moon.Hasher.MergeOrder
import Moon.Hasher.Serialization
import Moon.Hasher.Digest
import Moon.Hasher.TaskCalls
import Moon.Vcs.TouchedFiles
import Moon.Vcs.Git
import Moon.Vcs.Status
import Moon.Vcs.Diff
import Moon.Vcs.Hashes
import Moon.Vcs.CommandCache
import Moon.Vcs.Provenance
import Moon.Vcs.CallsFinish
import Moon.Vcs.Session
import Moon.Glob.Patterns
import Moon.Glob.IsGlob
import Moon.Glob.Normalize
