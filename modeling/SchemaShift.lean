import SchemaShift.Column.Encoding
import SchemaShift.LogSettings
import SchemaShift.Proofs.AbsentTable
import SchemaShift.Proofs.ArrangedTrace
import SchemaShift.Proofs.Batching
import SchemaShift.Proofs.ChunkStore
import SchemaShift.Proofs.CleanTrace
import SchemaShift.Proofs.CommittedForm
import SchemaShift.Proofs.ConsumedTrail
import SchemaShift.Proofs.CreationOrder
import SchemaShift.Proofs.CycleMarks
import SchemaShift.Proofs.DeclarationOrder
import SchemaShift.Proofs.ExactRank
import SchemaShift.Proofs.Expansion
import SchemaShift.Proofs.ForeignKeys
import SchemaShift.Proofs.ForeignNames
import SchemaShift.Proofs.FreshNames
import SchemaShift.Proofs.KeyByKey
import SchemaShift.Proofs.PendingWindow
import SchemaShift.Proofs.RankingCalls
import SchemaShift.Proofs.Rewording
import SchemaShift.Proofs.SharedPool
import SchemaShift.Proofs.SortedMarks
import SchemaShift.Proofs.TypeIndex
import SchemaShift.Proofs.Unlinking
import SchemaShift.Session
import SchemaShift.Settings.Document
