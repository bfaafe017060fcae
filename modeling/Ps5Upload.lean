import Ps5Upload.Ava1.C2cRecord
import Ps5Upload.Ava1.Pins.Pool
import Ps5Upload.Ava1.Relay.Delivery
import Ps5Upload.Ava1.Sevenz.Pass
import Ps5Upload.Ava1.Space
import Ps5Upload.Ava1.Upload.Reports
import Ps5Upload.Ava1.ZipStored.ReadBack
import Ps5Upload.Client.QueueLeader
import Ps5Upload.Client.UploadQueue.Order
import Ps5Upload.Client.UploadQueue.Retry
import Ps5Upload.Core.SaveArchive.Flatten
import Ps5Upload.Core.SaveArchive.RoundTrip
import Ps5Upload.Core.SaveArchive.Strict
import Ps5Upload.Engine.Collection.SetRuns
import Ps5Upload.Engine.Collection.SplitApart
import Ps5Upload.Engine.Collection.Undone
import Ps5Upload.Engine.ImageBuild.Resume
import Ps5Upload.Engine.ImageBuild.Verify
import Ps5Upload.Engine.LinkLz4.Sniff
import Ps5Upload.Engine.LinkLz4.Unpacks
import Ps5Upload.Engine.MeshDrive.Agreement
import Ps5Upload.Engine.MeshDrive.ConflictCopies
import Ps5Upload.Engine.MeshDrive.DocUpdate
import Ps5Upload.Engine.MeshDrive.KeepsEdits
import Ps5Upload.Engine.QueueApi.HoldLine
import Ps5Upload.Engine.QueueApi.Reruns
import Ps5Upload.Engine.QueueApi.Secrets
import Ps5Upload.Fpkg.AmprPack.Glob
import Ps5Upload.Fpkg.AmprPack.Lz4
import Ps5Upload.Fpkg.AmprPack.Reader
import Ps5Upload.Fpkg.Exfat.LongPaths
import Ps5Upload.Fpkg.Inner.BlockSource
import Ps5Upload.Fpkg.Inner.Dirents
import Ps5Upload.Fpkg.Kraken.HuffTable
import Ps5Upload.Fpkg.KrakenImage.PlanBlocks
import Ps5Upload.Fpkg.KrakenImage.Total
import Ps5Upload.Fpkg.Naps.Sound
import Ps5Upload.Fpkg.Pfsc.RoundTrip
import Ps5Upload.Fpkg.Pipeline.Held
import Ps5Upload.Fpkg.PlayGo.Written
import Ps5Upload.Payload.FsJobs.Chmod
import Ps5Upload.Payload.FsJobs.Delete
import Ps5Upload.Payload.IndexGlob
import Ps5Upload.Payload.Mesh.Devices
import Ps5Upload.Payload.Mesh.Locks
import Ps5Upload.Payload.PathJob
import Ps5Upload.Payload.Smb.Complete
