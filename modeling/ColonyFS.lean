import ColonyFS.Api.ExactFlush
import ColonyFS.Api.FlatFile
import ColonyFS.Cache.Calls
import ColonyFS.Fuse.DhtTask
import ColonyFS.Fuse.PartialWrite
import ColonyFS.Xmlrpc.Harmony
import ColonyFS.Intercom.Retrieve
import ColonyFS.Intercom.Deposit
import ColonyFS.Intercom.LastFlush
import ColonyFS.Intercom.DepositFailure
import ColonyFS.Fuse.Namespace
import ColonyFS.Fuse.RenameTree
import ColonyFS.Fuse.Deleted
import ColonyFS.Fuse.CleanChunks
import ColonyFS.Fuse.Discovery
import ColonyFS.Fuse.Escapes
import ColonyFS.Fuse.Failures
import ColonyFS.Fuse.Zeros
import ColonyFS.Fuse.Reuse
import ColonyFS.Api.RoundTrip
import ColonyFS.Fuse.FlushPermits
import ColonyFS.Fuse.LinkCount
import ColonyFS.Intercom.Join
import ColonyFS.Intercom.Channel
import ColonyFS.Storage.Deposits
import ColonyFS.Storage.Confined
import ColonyFS.Intercom.StaysUp
import ColonyFS.Intercom.UserHarmony
import ColonyFS.Cache.FlushKey
import ColonyFS.Api.IndexMap
import ColonyFS.Api.Aliasing
import ColonyFS.Xmlrpc.RoundTrip
import ColonyFS.Fuse.Removal
import ColonyFS.Fuse.Links
import ColonyFS.Fuse.Lengths
import ColonyFS.Storage.Database
import ColonyFS.Cache.ChunkLocation
import ColonyFS.Storage.Representation
import ColonyFS.Fuse.Refinement
import ColonyFS.Fuse.Collisions
import ColonyFS.Fuse.Contents
import ColonyFS.Fuse.SharedFile
import ColonyFS.Xmlrpc.Retry
import ColonyFS.Intercom.Progress
