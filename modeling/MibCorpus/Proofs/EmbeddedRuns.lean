import MibCorpus.Proofs.EmbeddedOutcomes
import MibCorpus.Proofs.OwnDefinitions

/-!
# Embedded runs

From embedded drafts that are linked, typing and OID values decide the same about every definition
that both keep, and they say the same about it.
-/

namespace MibCorpus.Draft

variable {σ : Renaming} {d d' : Draft}

/-- Settling the types and the OIDs continues the draft. -/
lemma Untyped.continues_settled (h : d.Untyped) (types oids : Recorder) :
    Continues d (d.settled types oids) :=
  (h.continues _).trans (h.oidsPending types).continues

/-- What is registered for a corpus stays. -/
lemma continues_decided (policy : Policy) (fs : List ParsedFile) (r types oids : Recorder) :
    Continues ((Draft.new policy).register fs r).1 (decided policy fs r types oids) :=
  (linked_link _).links.continues.trans
    ((stages_of_register policy fs r types oids).untyped.continues_settled types oids)

/-- The modules of a run are the registered ones to its end. -/
lemma sources_decided (policy : Policy) (fs : List ParsedFile) (r types oids : Recorder) :
    (decided policy fs r types oids).sources = registeredSources policy fs :=
  (sources_of_registry (continues_decided policy fs r types oids).registry).trans
    (accounts_register policy fs r).sources

/-- Typing leaves out what was left out before. -/
lemma Untyped.included_resolveTypes (h : d.Untyped) (r : Recorder) :
    (d.resolveTypes r).1.included = d.included := by
  have c := h.continues r
  rw [included, included, definitions_of_registry c.registry]
  refine List.filter_congr fun x hx => ?_
  have hx := mem_definitions.1 hx
  rw [isIncluded_iff h.definitions h.fresh hx, (h.oidsPending r).isIncluded_iff (by
    rwa [owner?_of_registry c.registry]), isRefused_of_registry c.registry]

/-- What is said about a definition after linking, round by round. -/
def said (d : Draft) (types oids : Recorder) :
    List (OwnedDefinition → List (ProblemKind × Severity × String)) :=
  [saidOfRanges, d.saidOfReferences types, saidOfOidDefect,
    (d.resolveTypes types).1.saidOfLeftOid oids]

/-- What is reported after linking. -/
lemma Untyped.notices_settled (h : d.Untyped) (types oids : Recorder) :
    (d.settled types oids).notices =
      d.notices ++ (d.said types oids).flatMap (noticesAbout d.included) := by
  rw [settled, (h.oidsPending types).notices_resolveOids, h.notices_resolveTypes,
    h.included_resolveTypes]
  simp [said]

/-- What is reported about definitions after linking. -/
lemma Untyped.contents_settled (h : d.Untyped) (types oids : Recorder) :
    (d.settled types oids).contents =
      d.contents ++ ((d.said types oids).flatMap (noticesAbout d.included)).map Prod.snd := by
  have all := congrArg (List.map Prod.snd) (h.notices_settled types oids)
  rw [List.map_append, notices, notices, List.map_map, List.map_map] at all
  exact all

/-- What is told round by round is the same if every round tells the same. -/
lemma flatMap_eq_of_forall₂ {α β γ : Type} {R : α → β → Prop} {f : α → List γ} {g : β → List γ}
    {as : List α} {bs : List β} (h : List.Forall₂ R as bs) (same : ∀ a b, R a b → g b = f a) :
    bs.flatMap g = as.flatMap f := by
  induction h with
  | nil => rfl
  | cons head _ ih => rw [List.flatMap_cons, List.flatMap_cons, same _ _ head, ih]

/-- The same is said about a definition that is kept. -/
lemma EmbedsLinked.said (h : EmbedsLinked σ d d') (types types' oids oids' : Recorder) :
    List.Forall₂ (fun s s' => ∀ x ∈ d.included, s' (renamed σ x) = s x) (d.said types oids)
      (d'.said types' oids') := by
  obtain ⟨τ, nodes⟩ := h.exists_embedsNodes
  refine .cons (fun x _ => saidOfRanges_renamed x) (.cons (fun x hx => ?_)
    (.cons (fun x _ => saidOfOidDefect_renamed x) (.cons (fun x hx => ?_) .nil)))
  · exact nodes.saidOfReferences types types' hx
  · rw [← h.untyped.included_resolveTypes types] at hx
    exact (nodes.embedsTyped types types').saidOfLeftOid oids oids' hx

/-- What is said about the definitions that are kept is the same, and comes in the same order. -/
lemma EmbedsLinked.contents_said (h : EmbedsLinked σ d d') (types types' oids oids' : Recorder) :
    ((d'.said types' oids').flatMap (noticesAbout (d.included.map (renamed σ)))).map Prod.snd =
      ((d.said types oids).flatMap (noticesAbout d.included)).map Prod.snd := by
  rw [List.map_flatMap, List.map_flatMap]
  refine flatMap_eq_of_forall₂ (h.said types types' oids oids') fun s s' same => ?_
  rw [noticesAbout, noticesAbout, List.flatMap_map, List.map_flatMap, List.map_flatMap]
  refine List.flatMap_congr fun x hx => ?_
  rw [same x hx, List.map_map, List.map_map]
  rfl

/-- The same is decided about a definition that is kept. -/
theorem EmbedsLinked.exists_view (h : EmbedsLinked σ d d') (types types' oids oids' : Recorder) :
    ∃ τ : Equiv.Perm TypeId, ∀ i, d.Kept i →
      ((d'.settled types' oids').mib.assignment? (σ.assignment i)).map Assignment.view =
        ((d.settled types oids).mib.assignment? i).map fun a => σ.view τ a.view := by
  obtain ⟨τ, nodes⟩ := h.exists_embedsNodes
  refine ⟨τ, fun i hi => (nodes.embedsTyped types types').assignment?_resolveOids oids oids' ?_⟩
  exact (kept_of_registry
    (h.untyped.continues _).registry).2 hi

/-- Linking keeps embedded drafts linked that were registered into nothing. -/
lemma Embeds.embedsLinked (h : Embeds σ d d') (bare : d.scope.imports = .empty)
    (bare' : d'.scope.imports = .empty) (untyped : d.link.Untyped) (untyped' : d'.link.Untyped) :
    EmbedsLinked σ d.link d'.link where
  embeds := h.link
  scope := by
    rw [hasModule_of_registry (linked_link d).links.continues.registry]
    exact h.scope_link bare bare'
  untyped := untyped
  untyped' := untyped'

end MibCorpus.Draft
