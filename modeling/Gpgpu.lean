import Gpgpu.Lib.Memory
import Gpgpu.Lib.Links
import Gpgpu.Lib.Dyadic
import Gpgpu.Lib.Rows
import Gpgpu.Lib.Runs
import Gpgpu.Lib.Words
import Gpgpu.Lib.Buffers
import Gpgpu.Buddy
import Gpgpu.BuddyNodes
import Gpgpu.BuddyTiles
import Gpgpu.BuddyLists
import Gpgpu.BuddyRefine
import Gpgpu.BuddyLaws
import Gpgpu.Slab
import Gpgpu.SlabLists
import Gpgpu.SlabRefine
import Gpgpu.Context
import Gpgpu.Pool
import Gpgpu.PoolRefine
import Gpgpu.PoolLaws
import Gpgpu.KvCache
import Gpgpu.KvLaws
import Gpgpu.Weights
import Gpgpu.WeightLaws
import Gpgpu.Kernels
import Gpgpu.Device
import Gpgpu.Transformer
import Gpgpu.Reference
import Gpgpu.Desk
import Gpgpu.DeskOps
import Gpgpu.DeskAttention
import Gpgpu.DeskLayer
import Gpgpu.InitLaws
import Gpgpu.SetupLaws
import Gpgpu.LifeLaws
import Gpgpu.DecodeLaws
import Gpgpu.TensorLaws
import Gpgpu.Lib.Strided
import Gpgpu.Dump
import Gpgpu.DumpLaws
import Gpgpu.Driver
import Gpgpu.DriverLaws
import Gpgpu.Ops
import Gpgpu.Frame
import Gpgpu.StepFrame
import Gpgpu.Infer
import Gpgpu.InferLaws
import Gpgpu.Stage
import Gpgpu.KvProtocol
import Gpgpu.IdleLaws
import Gpgpu.AcceptLaws
import Gpgpu.RetryLaws
import Gpgpu.Lib.Cells
import Gpgpu.Core
import Gpgpu.Sources
import Gpgpu.Warp
import Gpgpu.Formats
import Gpgpu.Converge
import Gpgpu.Solo
import Gpgpu.Straight
import Gpgpu.LaunchLaws
import Gpgpu.GemmLaws
import Gpgpu.PvLaws
import Gpgpu.RopeLaws
import Gpgpu.ElementLaws
import Gpgpu.BuddyTrace
import Gpgpu.Lib.Decimal
import Gpgpu.TokenFile
import Gpgpu.TokenLaws
import Gpgpu.Probe
import Gpgpu.RmsLaws
import Gpgpu.SoftmaxLaws
import Gpgpu.ArgmaxValue
import Gpgpu.AttentionLaws
import Gpgpu.MachineLaws
import Gpgpu.GreedyLaws
import Gpgpu.CleanupLaws
import Gpgpu.StoreLaws
import Gpgpu.CheckpointLaws
import Gpgpu.StackLaws
import Gpgpu.StuckLaws
import Gpgpu.FullLaws
