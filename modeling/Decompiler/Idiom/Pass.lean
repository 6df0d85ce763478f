import Decompiler.Idiom.Fusion
import Decompiler.Idiom.Guards
import Decompiler.Idiom.LoadImmediate
import Decompiler.Idiom.LocalVariables
import Decompiler.Idiom.Syscall
import Decompiler.Idiom.Tints
/-!
# Passes over a tree

Every architecture has its own passes, which run in a fixed order after a tree has been built. A
pass changes the tree, the marks or the notes; if it fails, what it changed before stays.
-/

namespace Decompiler

/-- The passes that recognise what instructions stand for. -/
inductive Pass where
  | fuse
  | declareLocals
  | markGuards
  | noteSyscalls
  | groupConditions
  | loadImmediates
  | tintTargets
  deriving DecidableEq, Repr

/-- What passes change. -/
structure Treatment where
  tree : List Node
  marks : Marks
  notes : Syscall.Notes

/-- The passes of an architecture in their order. Colours come last and only if they are shown. -/
def Arch.passes : Arch → List Pass
  | x86 => [.fuse, .declareLocals, .markGuards, .noteSyscalls]
  | arm => [.groupConditions, .fuse]
  | mips => [.loadImmediates]

namespace Pass

def run (arch : Arch) (symbols : Symbols) (succs : Edges) (t : Treatment) : Pass → Edited Treatment
  | fuse =>
    (arch.fuse t.tree).map fun r =>
      { t with tree := r.1, marks := { t.marks with fused := unite t.marks.fused r.2 } }
  | declareLocals =>
    .done { t with marks := { t.marks with locals := branchDeclareLocals t.marks.locals t.tree } }
  | markGuards =>
    (t.marks.locals.markGuards symbols t.tree).map fun l =>
      { t with marks := { t.marks with locals := l } }
  | noteSyscalls => (Syscall.noteBranch t.notes t.tree).map fun notes => { t with notes }
  | groupConditions => (Arm.groupConditions t.tree).map fun tree => { t with tree }
  | loadImmediates => (Mips.loadBranch t.tree).map fun tree => { t with tree }
  | tintTargets => (branchTintTargets arch succs t.marks t.tree).map fun marks => { t with marks }

/-- Runs passes one after the other. -/
def runAll (arch : Arch) (symbols : Symbols) (succs : Edges) (t : Treatment) :
    List Pass → Edited Treatment
  | [] => .done t
  | p :: rest => (p.run arch symbols succs t).next (runAll arch symbols succs · rest)

end Pass

end Decompiler
