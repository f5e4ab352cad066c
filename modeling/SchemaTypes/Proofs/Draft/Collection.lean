import SchemaTypes.Proofs.Draft.Walk

/-!
# What draft propagation collects

`collectDrafts` walks the tree of every root, one after the other, and decides
at the end which trees count.  `collectDrafts_exact` says that this is exact:
the conflicts are those of the roots that another root composes, each listed
once, what can be drafted are the entities of the trees whose root is in no
conflict, and each composition that leaves every service is warned of once.
-/

namespace SchemaTypes

namespace Model

/-! ## What there is to find -/

/-- The tree of a root has a composition to another entity that is marked as
the root of a tree. -/
def DraftConflict (m : Model) (root target : String) : Prop :=
  m.RootsDraft root ∧ target ≠ root ∧
    ∃ owner element d, m.InDraftTree root owner ∧ m.Composes owner element target d ∧
      m.inService target = true ∧ draftMark? d = some true

/-- The tree of a root has a composition that leaves every service. -/
def LeavesService (m : Model) (c : Crossing) : Prop :=
  m.RootsDraft c.root ∧ m.InDraftTree c.root c.owner ∧
    ∃ d, m.Composes c.owner c.element c.target d ∧ m.inService c.target = false

/-! ## Roots -/

theorem isDraftRoot_iff {m : Model} {name : String} {d : Definition} :
    m.isDraftRoot name d = true ↔
      d.kind = some .entity ∧ draftMark? d = some true ∧ m.inService name = true := by
  have hmark : d.noteIsTrue Definition.draftNote = true ↔ draftMark? d = some true := by
    simp only [Definition.noteIsTrue, draftMark?]
    cases d.note? Definition.draftNote with
    | none => simp
    | some v => simp [Json.Value.isTrue]
  simp only [isDraftRoot, Definition.isKind, Bool.and_eq_true, beq_iff_eq, hmark, and_assoc]

theorem mem_draftRoots_iff {m : Model} {root : String} :
    root ∈ m.draftRoots ↔ m.RootsDraft root := by
  simp only [draftRoots, List.mem_map, List.mem_filter]
  constructor
  · rintro ⟨⟨name, d⟩, ⟨hmem, hroot⟩, rfl⟩
    exact ⟨d, find?_eq_some_iff.mpr hmem, isDraftRoot_iff.mp hroot⟩
  · rintro ⟨d, hd, hroot⟩
    exact ⟨(root, d), ⟨find?_eq_some_iff.mp hd, isDraftRoot_iff.mpr hroot⟩, rfl⟩

theorem draftRoots_nodup (m : Model) : m.draftRoots.Nodup :=
  m.distinct.sublist (List.filter_sublist.map _)

/-! ## One tree -/

/-- A finished tree holds what it should. -/
structure DraftTreeExact (m : Model) (t : DraftTree) : Prop where
  root : m.RootsDraft t.root
  visited_nodup : t.visited.Nodup
  reported_nodup : t.reported.Nodup
  mem_visited : ∀ name, name ∈ t.visited ↔ m.InDraftTree t.root name
  mem_reported : ∀ target, target ∈ t.reported ↔ m.DraftConflict t.root target

/-- The compositions of a tree that leave every service. -/
def treeCrossings (m : Model) (t : DraftTree) : List Crossing :=
  t.visited.flatMap fun owner => (m.occurrences owner).filterMap (m.crossing? t.root)

/-- What the walk from a root adds to the findings. -/
theorem visitDraft_root_exact {m : Model} {root : String} (hr : m.RootsDraft root)
    (findings : DraftFindings) {t : DraftTree}
    (ht : m.visitDraft m.definitions.length root { root, findings } = t) :
    t.root = root ∧ m.DraftTreeExact t ∧
      t.findings.conflicts = findings.conflicts ++
        t.reported.reverse.map (DraftTree.conflictMessage t.root) ∧
      t.findings.conflicting = t.reported ++ findings.conflicting ∧
      (Diagnostic.warnings t.findings.diagnostics).Perm
        (Diagnostic.warnings findings.diagnostics ++
          (m.treeCrossings t).map Crossing.warning) := by
  obtain ⟨new, more, log, hw, hnew, hmore, hmem, hperm⟩ := visitDraft_root hr findings
  rw [ht] at hw
  have hroot : t.root = root := hw.root
  have hvisited : t.visited = new := hw.visited.trans (List.append_nil new)
  have hreported : t.reported = more := hw.reported.trans (List.append_nil more)
  refine ⟨hroot, ⟨?_, ?_, ?_, ?_, ?_⟩, ?_, ?_, ?_⟩
  · rw [hroot]
    exact hr
  · rw [hvisited]
    exact hnew
  · rw [hreported]
    exact hmore
  · intro name
    rw [hvisited, hroot]
    exact hmem name
  · intro target
    rw [hw.reports, hroot]
    constructor
    · rintro (hnone | ⟨hne, o, ho, hh⟩)
      · cases hnone
      · rw [hperm.mem_iff, List.mem_flatMap] at ho
        obtain ⟨owner, howner, ho⟩ := ho
        obtain ⟨d, hc, hd, hin, hmark⟩ := heading_eq_marked.mp hh
        exact ⟨hr, hne, owner, o.name, d, (hmem owner).mp howner,
          composes_iff.mpr ⟨o, ho, rfl, hc, hd⟩, hin, hmark⟩
    · rintro ⟨_, hne, owner, element, d, howner, hcomp, hin, hmark⟩
      obtain ⟨o, ho, _, hc, hd⟩ := composes_iff.mp hcomp
      refine Or.inr ⟨hne, o, ?_, heading_eq_marked.mpr ⟨d, hc, hd, hin, hmark⟩⟩
      rw [hperm.mem_iff, List.mem_flatMap]
      exact ⟨owner, (hmem owner).mpr howner, ho⟩
  · rw [hw.conflicts, hreported, hroot]
  · rw [hw.conflicting, hreported]
  · rw [hw.warnings, treeCrossings, hvisited, hroot, ← List.filterMap_flatMap]
    exact ((hperm.filterMap _).map _).append_left _

/-! ## All trees -/

/-- What walking all trees adds to the findings. -/
theorem draftTrees_exact {m : Model} :
    ∀ (roots : List String) (findings : DraftFindings) {trees : List DraftTree}
      {findings' : DraftFindings}, (∀ root ∈ roots, m.RootsDraft root) →
      m.draftTrees roots findings = (trees, findings') →
      trees.map (·.root) = roots ∧ (∀ t ∈ trees, m.DraftTreeExact t) ∧
        findings'.conflicts = findings.conflicts ++
          trees.flatMap (fun t => t.reported.reverse.map (DraftTree.conflictMessage t.root)) ∧
        (∀ name, name ∈ findings'.conflicting ↔
          name ∈ findings.conflicting ∨ ∃ t ∈ trees, name ∈ t.reported) ∧
        (Diagnostic.warnings findings'.diagnostics).Perm
          (Diagnostic.warnings findings.diagnostics ++
            (trees.flatMap m.treeCrossings).map Crossing.warning)
  | [], findings, trees, findings', _, h => by
    cases h
    simp
  | root :: rest, findings, trees, findings', hroots, h => by
    simp only [draftTrees] at h
    cases h
    have hr := hroots root List.mem_cons_self
    obtain ⟨hroot, hexact, hconf, hconfl, hwarn⟩ := visitDraft_root_exact hr findings rfl
    obtain ⟨hroots', hexacts, hconf', hconfl', hwarn'⟩ :=
      draftTrees_exact rest _ (fun r hr => hroots r (List.mem_cons_of_mem _ hr)) rfl
    refine ⟨?_, ?_, ?_, ?_, ?_⟩
    · rw [List.map_cons, hroot, hroots']
    · intro t ht
      rcases List.mem_cons.mp ht with rfl | ht
      · exact hexact
      · exact hexacts t ht
    · rw [hconf', hconf, List.flatMap_cons, List.append_assoc]
    · intro name
      rw [hconfl', hconfl, List.mem_append]
      simp only [List.mem_cons, exists_eq_or_imp]
      tauto
    · rw [List.flatMap_cons, List.map_append, ← List.append_assoc]
      exact hwarn'.trans (hwarn.append_right _)

/-- The finished trees of all roots. -/
structure DraftTreesExact (m : Model) (trees : List DraftTree) : Prop where
  roots : trees.map (·.root) = m.draftRoots
  exact : ∀ t ∈ trees, m.DraftTreeExact t

namespace DraftTreesExact

variable {m : Model} {trees : List DraftTree}

theorem tree_of_root (h : m.DraftTreesExact trees) {root : String} (hr : m.RootsDraft root) :
    ∃ t ∈ trees, t.root = root := by
  rw [← mem_draftRoots_iff, ← h.roots, List.mem_map] at hr
  exact hr

/-- What the trees list under their root is listed once. -/
theorem nodup_flatMap {α : Type} (h : m.DraftTreesExact trees) {list : DraftTree → List α}
    (rootOf : α → String) (hlist : ∀ t ∈ trees, (list t).Nodup)
    (hroot : ∀ t, ∀ a ∈ list t, rootOf a = t.root) : (trees.flatMap list).Nodup := by
  have hd := m.draftRoots_nodup
  rw [← h.roots, List.nodup_iff_pairwise_ne, List.pairwise_map] at hd
  rw [List.nodup_flatMap]
  refine ⟨hlist, hd.imp ?_⟩
  intro t t' hne a ha ha'
  exact hne ((hroot t a ha).symm.trans (hroot t' a ha'))

end DraftTreesExact

/-! ## Conflicts -/

/-- The conflicts of trees, as pairs of the root and the root it composes. -/
def treeConflicts (trees : List DraftTree) : List (String × String) :=
  trees.flatMap fun t => t.reported.reverse.map fun target => (t.root, target)

theorem treeConflicts_nodup {m : Model} {trees : List DraftTree} (h : m.DraftTreesExact trees) :
    (treeConflicts trees).Nodup := by
  refine h.nodup_flatMap Prod.fst ?_ (by simp)
  intro t ht
  refine (List.nodup_reverse.mpr (h.exact t ht).reported_nodup).map ?_
  intro a b hab
  exact (Prod.mk.inj hab).2

theorem mem_treeConflicts {m : Model} {trees : List DraftTree} (h : m.DraftTreesExact trees)
    {root target : String} : (root, target) ∈ treeConflicts trees ↔ m.DraftConflict root target := by
  simp only [treeConflicts, List.mem_flatMap, List.mem_map, List.mem_reverse, Prod.mk.injEq]
  constructor
  · rintro ⟨t, ht, other, hother, rfl, rfl⟩
    exact ((h.exact t ht).mem_reported other).mp hother
  · intro hc
    obtain ⟨t, ht, rfl⟩ := h.tree_of_root hc.1
    exact ⟨t, ht, target, ((h.exact t ht).mem_reported target).mpr hc, rfl, rfl⟩

/-! ## Compositions that leave the services -/

theorem occurrences_pairwise (m : Model) (owner : String) :
    (m.occurrences owner).Pairwise fun o o' => o.name ≠ o'.name := by
  simp only [occurrences]
  cases m.find? owner with
  | none => exact List.Pairwise.nil
  | some d =>
    have hd := m.names_allElements_nodup d
    rw [Table.names, List.nodup_iff_pairwise_ne, List.pairwise_map] at hd
    rw [List.pairwise_map]
    exact hd

theorem treeCrossings_nodup {m : Model} {t : DraftTree} (h : t.visited.Nodup) :
    (m.treeCrossings t).Nodup := by
  rw [treeCrossings, List.nodup_flatMap]
  constructor
  · intro owner _
    rw [List.nodup_iff_pairwise_ne]
    refine (m.occurrences_pairwise owner).filterMap _ ?_
    rintro o o' hne c hc c' hc' rfl
    obtain ⟨_, _, he, _⟩ := crossing?_eq_some.mp hc
    obtain ⟨_, _, he', _⟩ := crossing?_eq_some.mp hc'
    exact hne (he.symm.trans he')
  · rw [List.nodup_iff_pairwise_ne] at h
    refine h.imp ?_
    intro owner owner' hne c hc hc'
    obtain ⟨o, ho, hc⟩ := List.mem_filterMap.mp hc
    obtain ⟨o', ho', hc'⟩ := List.mem_filterMap.mp hc'
    obtain ⟨_, howner, _, _⟩ := crossing?_eq_some.mp hc
    obtain ⟨_, howner', _, _⟩ := crossing?_eq_some.mp hc'
    rw [(mem_occurrences_iff.mp ho).1] at howner
    rw [(mem_occurrences_iff.mp ho').1] at howner'
    exact hne (howner.symm.trans howner')

theorem mem_treeCrossings {m : Model} {t : DraftTree} (ht : m.DraftTreeExact t) {c : Crossing} :
    c ∈ m.treeCrossings t ↔ c.root = t.root ∧ m.LeavesService c := by
  simp only [treeCrossings, List.mem_flatMap, List.mem_filterMap]
  constructor
  · rintro ⟨owner, howner, o, ho, hc⟩
    obtain ⟨hroot, hown, helem, hh⟩ := crossing?_eq_some.mp hc
    obtain ⟨d, htarget, hd, hout⟩ := heading_eq_outside.mp hh
    rw [(mem_occurrences_iff.mp ho).1] at hown
    refine ⟨hroot, ?_, ?_, d, ?_, hout⟩
    · rw [hroot]
      exact ht.root
    · rw [hroot, hown]
      exact (ht.mem_visited owner).mp howner
    · rw [hown, helem]
      exact composes_iff.mpr ⟨o, ho, rfl, htarget, hd⟩
  · rintro ⟨hroot, _, hin, d, hcomp, hout⟩
    obtain ⟨o, ho, hname, htarget, hd⟩ := composes_iff.mp hcomp
    rw [hroot] at hin
    refine ⟨c.owner, (ht.mem_visited c.owner).mpr hin, o, ho, crossing?_eq_some.mpr ?_⟩
    exact ⟨hroot, (mem_occurrences_iff.mp ho).1.symm, hname.symm,
      heading_eq_outside.mpr ⟨d, htarget, hd, hout⟩⟩

theorem crossings_nodup {m : Model} {trees : List DraftTree} (h : m.DraftTreesExact trees) :
    (trees.flatMap m.treeCrossings).Nodup := by
  refine h.nodup_flatMap Crossing.root
    (fun t ht => treeCrossings_nodup (h.exact t ht).visited_nodup) ?_
  intro t c hc
  simp only [treeCrossings, List.mem_flatMap, List.mem_filterMap] at hc
  obtain ⟨_, _, _, _, hc⟩ := hc
  exact (crossing?_eq_some.mp hc).1

theorem mem_crossings {m : Model} {trees : List DraftTree} (h : m.DraftTreesExact trees)
    {c : Crossing} : c ∈ trees.flatMap m.treeCrossings ↔ m.LeavesService c := by
  rw [List.mem_flatMap]
  constructor
  · rintro ⟨t, ht, hc⟩
    exact ((mem_treeCrossings (h.exact t ht)).mp hc).2
  · intro hc
    obtain ⟨t, ht, hroot⟩ := h.tree_of_root hc.1
    exact ⟨t, ht, (mem_treeCrossings (h.exact t ht)).mpr ⟨hroot.symm, hc⟩⟩

/-! ## What can be drafted -/

theorem mem_insertName {name other : String} {names : List String} :
    other ∈ DraftCollection.insertName name names ↔ other = name ∨ other ∈ names := by
  induction names with
  | nil => simp [DraftCollection.insertName]
  | cons n rest ih =>
    simp only [DraftCollection.insertName]
    split
    · next h =>
      subst h
      simp
    · split
      · simp
      · rw [List.mem_cons, ih, List.mem_cons]
        tauto

theorem mem_ascending {name : String} {names : List String} :
    name ∈ DraftCollection.ascending names ↔ name ∈ names := by
  induction names with
  | nil => rfl
  | cons n rest ih =>
    rw [DraftCollection.ascending, List.foldr_cons, mem_insertName, List.mem_cons]
    exact or_congr_right ih

/-- The entities of the trees whose root no tree reports. -/
theorem mem_keptTrees {m : Model} {trees : List DraftTree} (h : m.DraftTreesExact trees)
    {conflicting : List String}
    (hc : ∀ name, name ∈ conflicting ↔ ∃ t ∈ trees, name ∈ t.reported) {name : String} :
    name ∈ (trees.filter fun tree => !conflicting.contains tree.root).flatMap (·.visited) ↔
      ∃ root, m.RootsDraft root ∧ (∀ other, ¬ m.DraftConflict other root) ∧
        m.InDraftTree root name := by
  have hfree : ∀ root, (!conflicting.contains root) = true ↔
      ∀ other, ¬ m.DraftConflict other root := by
    intro root
    simp only [List.contains_eq_mem, Bool.not_eq_true', decide_eq_false_iff_not, hc]
    constructor
    · intro hnone other hother
      obtain ⟨t, ht, rfl⟩ := h.tree_of_root hother.1
      exact hnone ⟨t, ht, ((h.exact t ht).mem_reported root).mpr hother⟩
    · rintro hnone ⟨t, ht, hrep⟩
      exact hnone t.root (((h.exact t ht).mem_reported root).mp hrep)
  simp only [List.mem_flatMap, List.mem_filter, hfree]
  constructor
  · rintro ⟨t, ⟨ht, hkept⟩, hname⟩
    exact ⟨t.root, (h.exact t ht).root, hkept, ((h.exact t ht).mem_visited name).mp hname⟩
  · rintro ⟨root, hr, hkept, hin⟩
    obtain ⟨t, ht, rfl⟩ := h.tree_of_root hr
    exact ⟨t, ⟨ht, hkept⟩, ((h.exact t ht).mem_visited name).mpr hin⟩

/-! ## The collection -/

/-- Draft propagation is exact.  The walks end, also along cycles: allowing
them more levels changes nothing.  Every conflict is listed once, what can be
drafted are the trees of the roots that no other tree composes, and every
composition that leaves the services is warned of once. -/
theorem collectDrafts_exact (m : Model) :
    (∀ root findings levels, m.RootsDraft root → m.definitions.length ≤ levels →
      m.visitDraft levels root { root, findings } =
        m.visitDraft m.definitions.length root { root, findings }) ∧
    (∃ conflicts : List (String × String), conflicts.Nodup ∧
      (∀ root target, (root, target) ∈ conflicts ↔ m.DraftConflict root target) ∧
      m.collectDrafts.conflicts.Perm
        (conflicts.map fun c => DraftTree.conflictMessage c.1 c.2)) ∧
    (∀ name, name ∈ m.collectDrafts.enabled ↔
      ∃ root, m.RootsDraft root ∧ (∀ other, ¬ m.DraftConflict other root) ∧
        m.InDraftTree root name) ∧
    (∃ crossings : List Crossing, crossings.Nodup ∧
      (∀ c, c ∈ crossings ↔ m.LeavesService c) ∧
      (Diagnostic.warnings m.collectDrafts.diagnostics).Perm
        (crossings.map Crossing.warning)) := by
  rcases htrees : m.draftTrees m.draftRoots {} with ⟨trees, findings⟩
  obtain ⟨hroots, hexact, hconf, hconfl, hwarn⟩ :=
    draftTrees_exact m.draftRoots {} (fun _ hr => mem_draftRoots_iff.mp hr) htrees
  have h : m.DraftTreesExact trees := ⟨hroots, hexact⟩
  have hcollect : m.collectDrafts =
      ⟨DraftCollection.ascending
        ((trees.filter fun tree => !findings.conflicting.contains tree.root).flatMap (·.visited)),
        findings.conflicts, findings.diagnostics⟩ := by
    rw [collectDrafts, htrees]
  rw [hcollect]
  refine ⟨fun root findings levels hr => visitDraft_root_eq hr findings, ?_, ?_, ?_⟩
  · refine ⟨treeConflicts trees, treeConflicts_nodup h, fun _ _ => mem_treeConflicts h, ?_⟩
    rw [hconf, treeConflicts, List.map_flatMap]
    simp only [List.map_map, List.nil_append]
    exact List.Perm.refl _
  · intro name
    rw [mem_ascending]
    exact mem_keptTrees h (by simpa using hconfl)
  · refine ⟨trees.flatMap m.treeCrossings, crossings_nodup h, fun _ => mem_crossings h, ?_⟩
    have hnone : Diagnostic.warnings ({} : DraftFindings).diagnostics = [] := rfl
    rwa [hnone, List.nil_append] at hwarn

end Model

end SchemaTypes
