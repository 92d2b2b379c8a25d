import KanekFoundations.Lib.CInt
import KanekFoundations.Lib.ShiftRegister
import KanekFoundations.Lib.Runs
import KanekFoundations.Lib.Chains
import KanekFoundations.Lib.Exec
import KanekFoundations.Lib.Heap
import KanekFoundations.Crc.Crc32c
import KanekFoundations.Crc.Crc32cProofs
import KanekFoundations.Map.Bitmap
import KanekFoundations.Map.ByteProofs
import KanekFoundations.Map.SetExtent
import KanekFoundations.Map.CountProofs
import KanekFoundations.Map.FindProofs
import KanekFoundations.Map.RangeProofs
import KanekFoundations.Map.Extents
import KanekFoundations.Map.Allocator
import KanekFoundations.Dict.Dict
import KanekFoundations.Dict.DictProofs
import KanekFoundations.Dict.Ownership
import KanekFoundations.Dict.Growth
import KanekFoundations.Cfg.Lexer
import KanekFoundations.Cfg.Var
import KanekFoundations.Cfg.Parser
import KanekFoundations.Cfg.Graph
import KanekFoundations.Cfg.Grammar
import KanekFoundations.Cfg.GrammarProofs
import KanekFoundations.Cfg.Concat
import KanekFoundations.Cfg.LineProofs
import KanekFoundations.Cfg.Printed
import KanekFoundations.Cfg.Denote
import KanekFoundations.Cfg.AtomProofs
import KanekFoundations.Cfg.ProgramProofs
import KanekFoundations.Cfg.Content
import KanekFoundations.Cfg.CommentProofs
import KanekFoundations.Cfg.Reports
import KanekFoundations.Cfg.Operands
import KanekFoundations.Lib.Ring
import KanekFoundations.Links.Links
import KanekFoundations.Links.Family
import KanekFoundations.Ta.Ta
import KanekFoundations.Ta.Ledger
import KanekFoundations.Ta.TaProofs
import KanekFoundations.Ta.SizeProofs
import KanekFoundations.Map.SetProofs
import KanekFoundations.Map.CountExact
import KanekFoundations.Map.FindWindow
import KanekFoundations.Map.FindLarge
import KanekFoundations.Dict.Nodes
import KanekFoundations.Dict.NodeProofs
import KanekFoundations.Dict.EachProofs
import KanekFoundations.Hash.Hash
import KanekFoundations.Hash.HashProofs
import KanekFoundations.Cfg.ReportProofs
import KanekFoundations.Cfg.Literals
import KanekFoundations.Cfg.Physical
import KanekFoundations.Cfg.Texts
import KanekFoundations.Cfg.Buffer
import KanekFoundations.Cfg.Append
import KanekFoundations.Cfg.Places
import KanekFoundations.Cfg.Failures
import KanekFoundations.Links.Reparent
import KanekFoundations.Cfg.Arrays
import KanekFoundations.Dump.Dumphex
import KanekFoundations.Lib.Log
import KanekFoundations.Dump.DumphexProofs
import KanekFoundations.Dict.NodeOpProofs
import KanekFoundations.Dict.NodeRuns
import KanekFoundations.Krand.Krand64
import KanekFoundations.Hash.Xxh
import KanekFoundations.Hash.XxhProofs
import KanekFoundations.Lib.Syndrome
import KanekFoundations.Crc.FlipProofs
import KanekFoundations.Cfg.Spacing
import KanekFoundations.Cfg.Spelled
import KanekFoundations.Cfg.Show
import KanekFoundations.Cfg.Reload
import KanekFoundations.Cfg.Inlining
