import MibCorpus.Draft.Basic
import MibCorpus.Source.BaseModule

/-!
# Linking

Every import of a symbol is bound to the module it comes from. Whether the symbol is there is
checked only when all modules are linked, so a module may import from one that is registered after
it.
-/

namespace MibCorpus.Draft

/-- An import whose symbol is yet to be looked for in its source. -/
structure ImportCheck where
  module : ModuleId
  source : ModuleId
  symbol : String
  span : Span

/-- The linking of one module in progress: the draft, the pairs of symbol and source met so far, the
sources reported as missing, and the checks to make in the end. -/
structure LinkState where
  draft : Draft
  seen : List (String × String)
  absent : List String
  checks : List ImportCheck

/-- Links an import that is not of a macro. A repeated import is reported and otherwise ignored. -/
def linkImport (m : RegisteredModule) (st : LinkState) (i : Import) : LinkState :=
  let location := Location.inModule m.file m.id i.span
  if (i.symbol, i.source) ∈ st.seen then
    let severity := st.draft.policy.duplicateImports.severity
    let finding := Finding.duplicateImport i.symbol i.source
    { st with draft := st.draft.record { finding.toProblem location with severity } }
  else
    let d := match st.seen.lookup i.symbol with
      | some other => st.draft.report (.ambiguousImport i.symbol other i.source) location
      | none => st.draft
    let source := d.scope.module? i.source
    let isNewlyAbsent := source.isNone && !st.absent.contains i.source
    let d := if isNewlyAbsent then d.report (.missingSource i.source) location else d
    let (symbol, mib) := d.mib.intern i.symbol
    let (sourceName, mib) := mib.intern i.source
    let d := { d with
      scope := d.scope.bindImport m.id i.symbol source
      mib := mib.addImport m.id ⟨symbol, sourceName, source, i.span⟩ }
    { draft := d
      seen := st.seen ++ [(i.symbol, i.source)]
      absent := if isNewlyAbsent then i.source :: st.absent else st.absent
      checks := match source with
        | some s => st.checks ++ [⟨m.id, s, i.symbol, i.span⟩]
        | none => st.checks }

/-- Links the imports of a module. -/
def linkModule (dc : Draft × List ImportCheck) (m : RegisteredModule) :
    Draft × List ImportCheck :=
  let imports := m.source.imports.filter (!·.isMacro)
  let st := imports.foldl (linkImport m) ⟨dc.1, [], [], dc.2⟩
  (st.draft, st.checks)

/-- Reports an import whose symbol is neither visible in its source nor an intrinsic root. -/
def checkImport (d : Draft) (c : ImportCheck) : Draft :=
  let satisfied :=
    d.scope.resolve c.source c.symbol != .notFound || (intrinsicRoot? c.symbol).isSome
  if satisfied then d
  else
    d.report (.unresolvedImport c.symbol (d.mib.moduleName c.source))
      (.inModule (d.fileOf c.module) c.module c.span)

/-- Links the imports of all modules. -/
def link (d : Draft) : Draft :=
  let (d, checks) := d.modules.foldl linkModule (d, [])
  checks.foldl checkImport d

end MibCorpus.Draft
