import Beellama.Ports.KvCellsResidue
import Beellama.Ports.KvTailRestore
import Beellama.Ports.KvTailBatch
import Beellama.Ports.KvGroup
import Beellama.Ports.KvCacheTables
import Beellama.Ports.SamplerPenalties
import Beellama.Ports.KqMaskTail
import Beellama.Ports.KvarnRestore
import Beellama.Ports.KvarnRollback
import Beellama.Ports.BatchOrder
import Beellama.Ports.ReasoningBudget
import Beellama.Ports.ServerSessions
import Beellama.Ports.RecurrentRestore
import Beellama.Ports.RecurrentRollback
import Beellama.Ports.MemoryRemoval
import Beellama.Ports.Dsv4Copies
import Beellama.Ports.Dsv4Restore
import Beellama.Ports.Dsv4Rollback
import Beellama.Ports.ServerTokensPos
import Beellama.Ports.ServerCancel
import Beellama.Ports.ServerResponse
import Beellama.Ports.VocabTokenize
import Beellama.Ports.KvTailSwaUnion
import Beellama.Ports.KvarnTile
import Beellama.Ports.KvarnTailIo
import Beellama.Ports.KvTailCoverage
import Beellama.Ports.KvFindSlot
import Beellama.Ports.GrammarBounds
import Beellama.Ports.GrammarUtf8
import Beellama.Ports.BatchKeepTail
import Beellama.Ports.ServerLoopGuard
import Beellama.Ports.NgramCacheMerge
import Beellama.Ports.SchemaIntExact
import Beellama.Ports.SchemaNotStrings
import Beellama.Ports.SchemaRefs
import Beellama.Ports.SamplerDry
import Beellama.Ports.ServerStopWords
import Beellama.Ports.VocabNormalize
import Beellama.Ports.VocabRwkv
