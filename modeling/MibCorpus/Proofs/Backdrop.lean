import MibCorpus.Proofs.Run

/-!
# What the phases leave alone

Typing and OID values list no import and add no node to the tree, and linking adds none either. So
the tree of a run is built on nothing, and the imports that linking listed stay.
-/

namespace MibCorpus

/-- The tree of a model. -/
structure Canopy where
  nodes : Array OidNode
  roots : List NodeId
  oidIndex : Table Oid NodeId

/-- The tree of a model. -/
def Mib.canopy (mib : Mib) : Canopy := ⟨mib.nodes, mib.roots, mib.oidIndex⟩

/-- The part of a model that neither typing nor OID values touch: the tree and the imports of the
modules. -/
structure Backdrop where
  canopy : Canopy
  imports : Array (List ImportEntry)

/-- The part of a model that neither typing nor OID values touch. -/
def Mib.backdrop (mib : Mib) : Backdrop := ⟨mib.canopy, mib.modules.map (·.imports)⟩

/-- Interning leaves the backdrop alone. -/
@[simp]
lemma Mib.backdrop_intern (mib : Mib) (s : String) : (mib.intern s).2.backdrop = mib.backdrop := rfl

/-- So does interning a text that may be missing. -/
@[simp]
lemma Mib.backdrop_intern? (mib : Mib) (s? : Option String) :
    (mib.intern? s?).2.backdrop = mib.backdrop := by
  cases s? <;> rfl

/-- Adding a type node leaves all but the types alone. -/
@[simp]
lemma Mib.backdrop_addType (mib : Mib) (m : ModuleId) (shape : TypeShape) :
    (mib.addType m shape).2.backdrop = mib.backdrop := by
  have imports := map_modify_of_keeps (g := ModuleEntry.imports)
    (f := fun e => { e with types := e.types ++ [⟨mib.types.size⟩] }) mib.modules m.index
    fun _ => rfl
  exact congrArg (Backdrop.mk mib.canopy) imports

/-- Changing a type node leaves all but the types alone. -/
@[simp]
lemma Mib.backdrop_modifyType (mib : Mib) (t : TypeId) (f : TypeNode → TypeNode) :
    (mib.modifyType t f).backdrop = mib.backdrop := rfl

/-- A change of an assignment that keeps the backdrop does so in the model. -/
@[simp]
lemma Mib.backdrop_modifyAssignment (mib : Mib) (a : AssignmentId) (f : Assignment → Assignment) :
    (mib.modifyAssignment a f).backdrop = mib.backdrop := rfl

/-! ## Typing -/

namespace Lowering

/-- The backdrop of the draft. -/
def backdrop (l : Lowering) : Backdrop := l.draft.mib.backdrop

/-- Interning in the course of lowering leaves the backdrop alone. -/
@[simp]
lemma backdrop_intern (l : Lowering) (s : String) : (l.intern s).2.backdrop = l.backdrop := rfl

/-- So does adding a node. -/
@[simp]
lemma backdrop_addNode (l : Lowering) (o : TypeOwner) (shape : TypeShape) :
    (l.addNode o shape).2.backdrop = l.backdrop :=
  Mib.backdrop_addType _ _ _

/-- So does changing a node. -/
@[simp]
lemma backdrop_modifyNode (l : Lowering) (t : TypeId) (f : TypeNode → TypeNode) :
    (l.modifyNode t f).backdrop = l.backdrop := rfl

/-- So does adding a reference. -/
@[simp]
lemma backdrop_addReference (l : Lowering) (o : TypeOwner) (qualifier : Option String)
    (symbol : String) : (l.addReference o qualifier symbol).2.backdrop = l.backdrop :=
  ((Mib.backdrop_addType _ _ _).trans (Mib.backdrop_intern? _ _)).trans (Mib.backdrop_intern _ _)

/-- So does naming values. -/
@[simp]
lemma backdrop_nameValues (l : Lowering) (items : List (String × Int)) :
    (l.nameValues items).2.backdrop = l.backdrop := by
  induction items generalizing l with
  | nil => rfl
  | cons item items ih => exact ih _

/-- So does constraining a type, where problems may be reported. -/
@[simp]
lemma backdrop_constrain (l : Lowering) (o : TypeOwner) (t : TypeId) (c : WrittenConstraint) :
    (l.constrain o t c).backdrop = l.backdrop :=
  foldl_keeps (fun d : Draft => d.mib.backdrop) (by intros; rfl) _ _

mutual

/-- Lowering a SYNTAX leaves the backdrop alone. -/
lemma backdrop_lower (o : TypeOwner) :
    ∀ (s : TypeSyntax) (l : Lowering), (lower o s l).2.backdrop = l.backdrop
  | .named _, _ | .qualified .., _ => by simp only [lower, backdrop_addReference]
  | .integer, _ | .octetString, _ | .objectIdentifier, _ => by simp only [lower, backdrop_addNode]
  | .enumeration _, _ | .bits _, _ => by
    simp only [lower, backdrop_addNode, backdrop_nameValues]
  | .constrained base _, l => by
    simp only [lower, backdrop_constrain, backdrop_lower o base l]
  | .sequence fields, l | .choice fields, l => by
    simp only [lower, backdrop_addNode, backdrop_lowerFields o fields l]
  | .sequenceOf element, l => by
    simp only [lower, backdrop_addNode, backdrop_lower o element l]

/-- Lowering fields leaves the backdrop alone. -/
lemma backdrop_lowerFields (o : TypeOwner) :
    ∀ (fields : List (String × TypeSyntax)) (l : Lowering),
      (lowerFields o fields l).2.backdrop = l.backdrop
  | [], _ => rfl
  | (_, body) :: rest, l => by
    simp only [lowerFields, backdrop_lowerFields o rest, backdrop_intern, backdrop_lower o body l]

end

/-- Lowering a definition leaves the backdrop alone. -/
lemma backdrop_lowerDefinition (l : Lowering) (o : TypeOwner) (x : Definition) :
    (l.lowerDefinition o x).backdrop = l.backdrop := by
  unfold lowerDefinition
  cases x.clauses with
  | type body _ _ => exact backdrop_lower o body l
  | objectType body _ _ _ => exact backdrop_lower o body l
  | textualConvention body hint? status =>
    have wrapped : ((lower o body l).2.wrapConvention o (lower o body l).1 hint? status).2.backdrop
        = (lower o body l).2.backdrop :=
      (backdrop_addNode _ _ _).trans (Mib.backdrop_intern? _ _)
    exact wrapped.trans (backdrop_lower o body l)
  | _ => rfl

/-- Lowering leaves the backdrop alone. -/
lemma backdrop_lowerAll (d : Draft) : (lowerAll d).backdrop = d.mib.backdrop :=
  foldl_keeps backdrop (fun l _ => backdrop_lowerDefinition l _ _) _ _

end Lowering

namespace Draft

variable {d : Draft}

/-- Sweeps leave alone what carrying out a decision leaves alone. -/
lemma backdrop_run {α β : Type} (rule : SweepRule α β)
    (keeps : ∀ d x y, (rule.apply d x y).mib.backdrop = d.mib.backdrop) (xs : List α) (d : Draft)
    (r : Recorder) : (rule.run 0 xs d r).2.1.mib.backdrop = d.mib.backdrop := by
  refine rule.run_invariant (P := fun _ d' => d'.mib.backdrop = d.mib.backdrop)
    (fun xs d' h => ?_) 0 r rfl
  exact (foldl_keeps (fun d : Draft => d.mib.backdrop) (by intros; exact keeps _ _ _) _ _).trans h

/-- Typing leaves the backdrop alone. -/
theorem backdrop_resolveTypes (d : Draft) (r : Recorder) :
    (d.resolveTypes r).1.mib.backdrop = d.mib.backdrop := by
  have swept := backdrop_run referenceRule (fun _ _ _ => rfl) (Lowering.lowerAll d).references
    (Lowering.lowerAll d).draft r
  have settled : ∀ (pending : List PendingReference) (d : Draft) (r : Recorder),
      (settleLeftReferences pending d r).1.mib.backdrop = d.mib.backdrop := by
    intro pending d r
    refine foldl_keeps (fun dr : Draft × Recorder => dr.1.mib.backdrop) (fun dr x => ?_) _ _
    obtain ⟨p, verdict⟩ := x
    cases verdict <;> rfl
  exact ((settled _ _ _).trans swept).trans (Lowering.backdrop_lowerAll d)

/-- OID values leave the backdrop alone. -/
theorem backdrop_resolveOids (d : Draft) (r : Recorder) :
    (d.resolveOids r).1.mib.backdrop = d.mib.backdrop := by
  have defects : d.reportOidDefects.mib.backdrop = d.mib.backdrop :=
    foldl_keeps (fun d : Draft => d.mib.backdrop) (by intros; rfl) _ _
  have swept := backdrop_run oidRule (fun _ _ _ => rfl) d.oidEntries d.reportOidDefects r
  have settled : ∀ (remaining : List OidEntry) (d : Draft),
      (settleLeftOids remaining d).mib.backdrop = d.mib.backdrop :=
    fun _ _ => foldl_keeps (fun d : Draft => d.mib.backdrop) (by intros; rfl) _ _
  exact ((settled _ _).trans swept).trans defects

/-! ## Linking -/

/-- Recording problems leaves the tree and all above the assignments alone. -/
lemma canopy_recordAll (d : Draft) (ps : List Problem) :
    (d.recordAll ps).mib.canopy = d.mib.canopy := by
  rw [recordAll_eq]
  rfl

/-- So does linking an import. -/
lemma canopy_linkImport (m : RegisteredModule) (st : LinkState) (i : Import) :
    (linkImport m st i).draft.mib.canopy = st.draft.mib.canopy := by
  by_cases h : (i.symbol, i.source) ∈ st.seen
  · rw [linkImport_seen m st i h]
    rfl
  · rw [linkImport_new m st i h]
    exact canopy_recordAll st.draft _

/-- Linking leaves the tree alone. -/
theorem canopy_link (d : Draft) : d.link.mib.canopy = d.mib.canopy := by
  have modules : ∀ (ms : List RegisteredModule) (dc : Draft × List ImportCheck),
      (ms.foldl linkModule dc).1.mib.canopy = dc.1.mib.canopy :=
    foldl_keeps (fun dc : Draft × List ImportCheck => dc.1.mib.canopy) fun dc m =>
      foldl_keeps (fun st : LinkState => st.draft.mib.canopy) (canopy_linkImport m) _ _
  rw [link_eq_recordAll, canopy_recordAll]
  exact modules _ _

/-- Before the last phase of a run there is no tree. -/
lemma canopy_of_register (policy : Policy) (files : List ParsedFile) (r types oids : Recorder) :
    (((((Draft.new policy).register files r).1.link.resolveTypes types).1.resolveOids
      oids).1).mib.canopy = ⟨#[], [], .empty⟩ := by
  have registered := (registers_register (Draft.new policy) files r).prospects
  refine (congrArg Backdrop.canopy ((backdrop_resolveOids _ _).trans
    (backdrop_resolveTypes _ _))).trans ((canopy_link _).trans ?_)
  exact congrArg (fun s => Canopy.mk s.nodes s.roots s.oidIndex) registered

/-- The last phase of a run builds its tree on nothing. -/
theorem exists_finalized (p : Pipeline) (files : List ParsedFile) :
    ∃ linked types oids, Stages linked types oids (p.resolve files).1 ∧
      linked.policy = p.policy ∧
      ((linked.resolveTypes types).1.resolveOids oids).1.mib.canopy = ⟨#[], [], .empty⟩ ∧
      (p.resolve files).1 = ((linked.resolveTypes types).1.resolveOids oids).1.finalize := by
  have registered := (registers_register (Draft.new p.policy) files
    ((p.enter .symbolRegistration).recorder.emit .info (.phaseStart .registration))).prospects
  refine ⟨_, _, _, stages_of_register p.policy files _ _ _, ?_, canopy_of_register _ _ _ _ _, rfl⟩
  exact (policy_of_registry (linked_link _).links.continues.registry).trans
    (congrArg Prospects.policy registered)

end Draft

end MibCorpus
