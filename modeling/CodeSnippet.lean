import CodeSnippet.RpcPairing
import CodeSnippet.RpcBounds
import CodeSnippet.RpcChecksum
import CodeSnippet.SmcClients
import CodeSnippet.CompleteUafFree
import CodeSnippet.WorkTest
import CodeSnippet.WorkSetup
import CodeSnippet.CpuhpHotplug
import CodeSnippet.CpufreqPolicy
import CodeSnippet.FreqQosHandle
import CodeSnippet.RsaDemo
import CodeSnippet.ConfigComments
import CodeSnippet.ConvertConserves
import CodeSnippet.ExpressionRoundTrip
import CodeSnippet.PostfixHistory
import CodeSnippet.FindSort
import CodeSnippet.LinkStack
import CodeSnippet.SeqList
import CodeSnippet.BracketMatch
import CodeSnippet.ListReverse
import CodeSnippet.ConfigColumns
import CodeSnippet.FreqQosWrite
import CodeSnippet.FpgaReports
import CodeSnippet.FpgaReads
import CodeSnippet.BitreeInit
import CodeSnippet.PowerExpression
import CodeSnippet.ProcessTask
import CodeSnippet.GetopLossless
import CodeSnippet.DuplicateByCount
import CodeSnippet.DuplicateInArray
import CodeSnippet.FindInMatrix
import CodeSnippet.HexNumeral
import CodeSnippet.MatrixMultiplication
import CodeSnippet.MergeArray
import CodeSnippet.PartitionSplits
import CodeSnippet.PathLen
import CodeSnippet.BitreeHeap
import CodeSnippet.ChainOwned
import CodeSnippet.DevfreqQos
import CodeSnippet.EchoLockstep
import CodeSnippet.ExpressionHeap
import CodeSnippet.FindSortHeap
import CodeSnippet.ListLifetime
import CodeSnippet.Netlink
import CodeSnippet.UdpEcho
import CodeSnippet.PciResource
import CodeSnippet.UnbondTest
import CodeSnippet.UnbondUnload
import CodeSnippet.IpmitoolLog
import CodeSnippet.ByteOrder
import CodeSnippet.RpcAddress
import CodeSnippet.CpuhpModule
