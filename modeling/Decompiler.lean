import Decompiler.Main
import Decompiler.Proofs.Analysis
import Decompiler.Proofs.CachedCode
import Decompiler.Proofs.ClosingMarks
import Decompiler.Proofs.CompletedNames
import Decompiler.Proofs.ConditionGroups
import Decompiler.Proofs.DroppedGotos
import Decompiler.Proofs.EndlessLoops
import Decompiler.Proofs.EquivalentLoops
import Decompiler.Proofs.FlowKept
import Decompiler.Proofs.GotoPlaces
import Decompiler.Proofs.HistoryFile
import Decompiler.Proofs.LoadedConstants
import Decompiler.Proofs.NestKept
import Decompiler.Proofs.NestingTables
import Decompiler.Proofs.PathsReordered
import Decompiler.Proofs.QuotedTexts
import Decompiler.Proofs.ReachableCode
import Decompiler.Proofs.RecordedPlaces
import Decompiler.Proofs.SectionQueries
import Decompiler.Proofs.ShownTargets
import Decompiler.Proofs.StructuringEnds
import Decompiler.Proofs.SymbolRecords
import Decompiler.Proofs.SymbolTables
import Decompiler.Proofs.SyscallNotes
import Decompiler.Proofs.TypedLines
import Decompiler.Proofs.WordDumps
import Decompiler.Session.UserColors
import Decompiler.Text.Inspect
