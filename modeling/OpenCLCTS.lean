import OpenCLCTS.Lib.System
import OpenCLCTS.Lib.Threads
import OpenCLCTS.Lib.Mutex
import OpenCLCTS.Harness.ThreadPool.Model
import OpenCLCTS.Harness.ThreadPool.Moves
import OpenCLCTS.Harness.ThreadPool.Locks
import OpenCLCTS.Lib.Dispenser
import OpenCLCTS.Harness.ThreadPool.Running
import OpenCLCTS.Harness.ThreadPool.Ledger
import OpenCLCTS.Harness.ThreadPool.Calls
import OpenCLCTS.Harness.ThreadPool.Results
import OpenCLCTS.Harness.ThreadPool.Wakeup
import OpenCLCTS.Harness.ThreadPool.Launch
import OpenCLCTS.Harness.ThreadPool.LaunchAll
import OpenCLCTS.Harness.TestRunner
import OpenCLCTS.Harness.CommandLine
import OpenCLCTS.Harness.ExplicitTypes
import OpenCLCTS.Harness.IntegerConversion
import OpenCLCTS.Harness.MT19937
import OpenCLCTS.Harness.RandomInRange
import OpenCLCTS.C11Atomics.Fence.Model
import OpenCLCTS.C11Atomics.Fence.SeqCst
import OpenCLCTS.C11Atomics.Fence.ReleaseAcquire
import OpenCLCTS.Lib.Distinct
import OpenCLCTS.C11Atomics.Exchange
import OpenCLCTS.C11Atomics.Flag
import OpenCLCTS.C11Atomics.FetchOp.Call
import OpenCLCTS.Lib.Updates
import OpenCLCTS.C11Atomics.FetchOp.Tests
import OpenCLCTS.C11Atomics.FetchOp.Expected
import OpenCLCTS.C11Atomics.BitIsolation
import OpenCLCTS.Lib.Loops
import OpenCLCTS.Lib.Signals
import OpenCLCTS.Subgroups.IFP.Model
import OpenCLCTS.Subgroups.IFP.Generate
import OpenCLCTS.Subgroups.IFP.Run
import OpenCLCTS.Subgroups.IFP.Progress
import OpenCLCTS.Conversions.Barrier.Model
import OpenCLCTS.Conversions.Barrier.Safety
import OpenCLCTS.Conversions.Barrier.Deadlock
import OpenCLCTS.Conversions.Coverage
import OpenCLCTS.Harness.KernelCache
import OpenCLCTS.Images.Formats
import OpenCLCTS.Lib.Layout
import OpenCLCTS.Images.Copy
import OpenCLCTS.Images.ReadPixel
import OpenCLCTS.Images.Codec
import OpenCLCTS.Images.Addressing
import OpenCLCTS.Images.Sampling
import OpenCLCTS.Images.Scanlines
import OpenCLCTS.Images.Verifiers
import OpenCLCTS.Images.CopyFill
import OpenCLCTS.Images.Rounding
import OpenCLCTS.Lib.Fields
import OpenCLCTS.Images.PackFloat
import OpenCLCTS.Images.WriteCheck
import OpenCLCTS.Lib.FloatFormat
import OpenCLCTS.Images.Escape
import OpenCLCTS.IntegerOps.Arithmetic
import OpenCLCTS.IntegerOps.Verify
import OpenCLCTS.Lib.Blocks
import OpenCLCTS.NonUniformWorkGroup.Expected
import OpenCLCTS.Harness.FloatConversion
import OpenCLCTS.Images.MaxSizes
import OpenCLCTS.Images.IntegerPack
import OpenCLCTS.Harness.UlpError
import OpenCLCTS.Images.PackError
import OpenCLCTS.C11Atomics.ExchangeVerdict
import OpenCLCTS.IntegerOps.MadSat
import OpenCLCTS.Lib.Traced
import OpenCLCTS.Subgroups.WorkGroups
import OpenCLCTS.Subgroups.WorkItem
import OpenCLCTS.Lib.Bitset
import OpenCLCTS.Subgroups.Ballot
import OpenCLCTS.Subgroups.Verifiers
import OpenCLCTS.Subgroups.Generators
import OpenCLCTS.Subgroups.Arithmetic
import OpenCLCTS.Subgroups.Scans
import OpenCLCTS.Subgroups.ScanInputs
import OpenCLCTS.Harness.CustomParam
import OpenCLCTS.Harness.IgnoreList
import OpenCLCTS.IntegerOps.Saturate
import OpenCLCTS.IntegerOps.DivideAssign
import OpenCLCTS.IntegerOps.DotProduct
import OpenCLCTS.IntegerOps.ExtendedBitOps
import OpenCLCTS.Conversions.CheckResult
import OpenCLCTS.Conversions.ThreeComponents
import OpenCLCTS.Half.StoreJobs
import OpenCLCTS.Lib.FloatOrder
import OpenCLCTS.Conversions.Fplib
import OpenCLCTS.Lib.RoundingMode
import OpenCLCTS.Conversions.ConvSat
import OpenCLCTS.Conversions.ClampRanges
import OpenCLCTS.MathBruteForce.UnaryFloat
import OpenCLCTS.Images.RandomData
import OpenCLCTS.Lib.FloatEncode
import OpenCLCTS.Images.ReadCheck
import OpenCLCTS.Images.ReadCoords
import OpenCLCTS.MathBruteForce.SpecialValues
import OpenCLCTS.Lib.FloatExtended
import OpenCLCTS.Printf.VerifyOutput
import OpenCLCTS.MathBruteForce.NextAfter
import OpenCLCTS.Lib.Significand
import OpenCLCTS.MathBruteForce.Fma
import OpenCLCTS.MathBruteForce.Fmal
import OpenCLCTS.Lib.FloatFlags
import OpenCLCTS.MathBruteForce.Remquo
import OpenCLCTS.IntegerOps.BitCounts
import OpenCLCTS.MathBruteForce.Frexp
import OpenCLCTS.Basic.BufferRect
import OpenCLCTS.Pipes.ReadWrite
import OpenCLCTS.Select.References
import OpenCLCTS.ThreadDimensions.Maximums
import OpenCLCTS.ThreadDimensions.RunTest
import OpenCLCTS.Images.Padding
import OpenCLCTS.Relationals.Orders
import OpenCLCTS.Relationals.ShuffleKernel
import OpenCLCTS.Relationals.ShuffleReferences
import OpenCLCTS.Relationals.Shuffles
import OpenCLCTS.Lib.Chains
import OpenCLCTS.Lib.Places
import OpenCLCTS.Lib.Work
import OpenCLCTS.SVM.HashTable
import OpenCLCTS.Atomics.AddIndex
import OpenCLCTS.Atomics.AddIndexBin
import OpenCLCTS.DeviceExecution.NestedBlocks
import OpenCLCTS.Lib.Alone
import OpenCLCTS.SVM.FindTargets
import OpenCLCTS.SVM.HashTableRuns
import OpenCLCTS.SVM.LinkedLists
import OpenCLCTS.SVM.LinkedListsCreate
import OpenCLCTS.SVM.SharedAddressSpace
