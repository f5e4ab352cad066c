import Mathlib.Data.List.Induction
import Mathlib.Data.List.Pairwise
import SchemaTypes.Code.RuntimeStub

/-!
# Statements of the runtime stub

The direct form of the runtime stub is a list of statements, of which those that
export a name assign to a path below `module.exports` (`runtimeStub_direct`).  A path can
be assigned to once all paths in front of it were, so statements are in order where
parents come first (`ParentsFirst`).  Then they run to their end
(`stubRuns_iff_parentsFirst`).

Whether parents come first depends on the paths alone (`parentsFirst_iff`), and these
come in groups: a group may add what has its prefixes in the groups before it
(`PrefixesFirst.append_flatMap`).  Entities come by the length of their scopes
(`pairwise_byScope`).
-/

namespace SchemaTypes

/-! ## Statements -/

/-- A statement of the direct form of a runtime stub. -/
inductive StubStatement
  /-- A comment, or a statement that exports no name. -/
  | other (text : String)
  /-- The value is assigned to a path below `module.exports`. -/
  | assign (target : List String) (value : String)

namespace StubStatement

/-- How a statement is written. -/
def text : StubStatement → String
  | .other text => text
  | .assign target value => exportPath target ++ " = " ++ value

/-- The path that is assigned to, if there is one. -/
def target? : StubStatement → Option (List String)
  | .other _ => none
  | .assign target _ => some target

end StubStatement

/-- The text of a stub with the given statements. -/
def stubText (statements : List StubStatement) : String :=
  Text.join "\n" (statements.map StubStatement.text) ++ "\n"

/-- The path an alias is exported under. -/
def Alias.target (a : Alias) : List String := a.scope ++ [a.name]

/-- The paths an entity is exported under. -/
def InflectionRecord.targets (r : InflectionRecord) : List (List String) :=
  r.aliases.map Alias.target

/-- The path an enum is exported under. -/
def EnumStub.target (stub : EnumStub) : List String := Text.splitOn '.' stub.name

namespace SourceFile

/-- The statement that exports an alias. -/
def aliasStatement (a : Alias) : StubStatement :=
  let source := "csn[" ++ Naming.quote (scopedName a.scope a.runtimeName) ++ "]"
  .assign a.target
    (if a.singular then "\x7b is_singular: true, __proto__: " ++ source ++ " \x7d" else source)

/-- The statements that export an entity. -/
def recordStatements (r : InflectionRecord) : List StubStatement :=
  .other (recordHeading r) :: r.aliases.map aliasStatement

/-- The statement that exports an enum. -/
def enumStatement (stub : EnumStub) : StubStatement :=
  let entries := stub.entries.map fun entry => Naming.propertyKey entry.1 ++ ": " ++ entry.2
  .assign stub.target ("\x7b " ++ Text.join ", " entries ++ " \x7d")

/-- The statement that exports an operation. -/
def operationStatement (entry : String × String) : StubStatement :=
  .assign [entry.1] (Naming.quote entry.2)

/-- The statement that exports the name of the service. -/
def serviceStatements (file : SourceFile) : List StubStatement :=
  file.service.toList.map fun name => .other
    ("Object.defineProperty(module.exports, 'name', \x7b value: " ++ Naming.quote name ++ " \x7d)")

/-- The statements that export the enums. -/
def enumStatements (file : SourceFile) : List StubStatement :=
  if file.enumStubs.isEmpty then [] else .other "// enums" :: file.enumStubs.map enumStatement

/-- The statements that export the operations. -/
def operationStatements (file : SourceFile) : List StubStatement :=
  if file.operationNames.isEmpty then []
  else .other "// actions" :: file.operationNames.map operationStatement

/-- The statements of the direct form. -/
def statements (file : SourceFile) : List StubStatement :=
  [.other banner, .other "const cds = require('@sap/cds')",
    .other ("const csn = cds.entities(" ++ Naming.quote file.path.dotted ++ ")")] ++
  (byScope file.inflections).flatMap recordStatements ++
  file.serviceStatements ++ file.enumStatements ++ file.operationStatements

/-! ## Their text -/

theorem aliasStatement_text (a : Alias) : (aliasStatement a).text = aliasAssignment a := by
  have hopening : " = \x7b is_singular: true, __proto__: " =
      " = " ++ "\x7b is_singular: true, __proto__: " := rfl
  simp only [aliasStatement, StubStatement.text, aliasAssignment, Alias.target, hopening]
  split <;> simp only [String.append_assoc]

theorem enumStatement_text (stub : EnumStub) : (enumStatement stub).text = enumAssignment stub := by
  simp only [enumStatement, StubStatement.text, enumAssignment, EnumStub.target,
    String.append_assoc]
  rfl

/-- The code of a statement. -/
def statementCode (s : StubStatement) : Code := .line s.text

theorem recordStatements_code (r : InflectionRecord) :
    (recordStatements r).map statementCode =
      .line (recordHeading r) :: r.aliases.map fun a => .line (aliasAssignment a) := by
  simp only [recordStatements, statementCode, List.map_cons, List.map_map, Function.comp_def,
    aliasStatement_text]
  rfl

theorem serviceStatements_code (file : SourceFile) :
    file.serviceStatements.map statementCode = file.serviceLines := by
  cases hs : file.service <;>
    simp [serviceStatements, serviceLines, hs, statementCode, StubStatement.text]

theorem enumStatements_code (file : SourceFile) :
    file.enumStatements.map statementCode = file.enumLines := by
  rw [enumStatements, enumLines]
  split
  · rfl
  · simp only [statementCode, List.map_cons, List.map_map, Function.comp_def, enumStatement_text]
    rfl

theorem operationStatements_code (file : SourceFile) :
    file.operationStatements.map statementCode = file.operationLines := by
  rw [operationStatements, operationLines]
  split
  · rfl
  · simp only [List.map_cons, List.map_map]
    rfl

/-- The code of the direct form is that of its statements. -/
theorem statements_code (file : SourceFile) :
    file.statements.map statementCode =
      [.line banner] ++ file.directLines ++ file.serviceLines ++ file.enumLines ++
        file.operationLines := by
  simp only [statements, List.map_append, List.map_flatMap, recordStatements_code,
    serviceStatements_code, enumStatements_code, operationStatements_code]
  rfl

/-- The direct form of the runtime stub is the text of its statements. -/
theorem runtimeStub_direct (file : SourceFile) (base : Path) :
    file.runtimeStub false base = stubText file.statements := by
  have hlines : Code.lines (file.statements.map statementCode) =
      file.statements.map StubStatement.text := by
    have hmap : file.statements.map statementCode =
        (file.statements.map StubStatement.text).map Code.line := by
      simp [statementCode, Function.comp_def]
    rw [hmap, Code.lines_map_line]
  rw [stubText, ← hlines, statements_code]
  rfl

/-! ## Paths in their order -/

/-- The paths that entities are exported under, in order. -/
def entityTargets (records : List InflectionRecord) : List (List String) :=
  (byScope records).flatMap InflectionRecord.targets

/-- The paths that are assigned to, in order. -/
def exportTargets (file : SourceFile) : List (List String) :=
  entityTargets file.inflections ++ file.enumStubs.map EnumStub.target ++
    file.operationNames.map fun entry => [entry.1]

theorem recordStatements_targets (r : InflectionRecord) :
    (recordStatements r).filterMap StubStatement.target? = r.targets := by
  rw [recordStatements, List.filterMap_cons_none rfl, List.filterMap_map]
  exact List.filterMap_eq_map (f := Alias.target) ▸ rfl

theorem serviceStatements_targets (file : SourceFile) :
    file.serviceStatements.filterMap StubStatement.target? = [] := by
  rw [serviceStatements]
  cases file.service <;> rfl

theorem enumStatements_targets (file : SourceFile) :
    file.enumStatements.filterMap StubStatement.target? = file.enumStubs.map EnumStub.target := by
  rw [enumStatements]
  split
  · next hempty => simp [List.isEmpty_iff.mp hempty]
  · rw [List.filterMap_cons_none rfl, List.filterMap_map]
    exact List.filterMap_eq_map (f := EnumStub.target) ▸ rfl

theorem operationStatements_targets (file : SourceFile) :
    file.operationStatements.filterMap StubStatement.target? =
      file.operationNames.map fun entry => [entry.1] := by
  rw [operationStatements]
  split
  · next hempty => simp [List.isEmpty_iff.mp hempty]
  · rw [List.filterMap_cons_none rfl, List.filterMap_map]
    exact List.filterMap_eq_map (f := fun entry : String × String => [entry.1]) ▸ rfl

theorem statements_targets (file : SourceFile) :
    file.statements.filterMap StubStatement.target? = file.exportTargets := by
  simp only [statements, List.filterMap_append, List.filterMap_flatMap, recordStatements_targets,
    serviceStatements_targets, enumStatements_targets, operationStatements_targets, List.append_nil,
    exportTargets, entityTargets]
  rfl

end SourceFile

/-- Before a path is assigned to, every path in front of it is. -/
def ParentsFirst (statements : List StubStatement) : Prop :=
  ∀ before target value after, statements = before ++ .assign target value :: after →
    ∀ k, 0 < k → k < target.length → ∃ value', .assign (target.take k) value' ∈ before

/-- Every path comes after the paths in front of it. -/
def PrefixesFirst (targets : List (List String)) : Prop :=
  ∀ before target after, targets = before ++ target :: after →
    ∀ k, 0 < k → k < target.length → target.take k ∈ before

theorem mem_targets_iff {statements : List StubStatement} {target : List String} :
    target ∈ statements.filterMap StubStatement.target? ↔
      ∃ value, .assign target value ∈ statements := by
  rw [List.mem_filterMap]
  constructor
  · rintro ⟨statement, hmem, htarget⟩
    cases statement with
    | other => cases htarget
    | assign t value =>
      cases htarget
      exact ⟨value, hmem⟩
  · rintro ⟨value, hmem⟩
    exact ⟨_, hmem, rfl⟩

/-- Parents come first among the statements if they do among the paths. -/
theorem parentsFirst_iff {statements : List StubStatement} :
    ParentsFirst statements ↔
      PrefixesFirst (statements.filterMap StubStatement.target?) := by
  constructor
  · intro h before target after hsplit k hpos hk
    obtain ⟨front, back, rfl, rfl, hback⟩ := List.filterMap_eq_append_iff.mp hsplit
    obtain ⟨skipped, statement, rest, rfl, hskipped, htarget, rfl⟩ :=
      List.filterMap_eq_cons_iff.mp hback
    cases statement with
    | other => cases htarget
    | assign t value =>
      cases htarget
      have hvalue := h (front ++ skipped) target value rest (by simp) k hpos hk
      have hnone : skipped.filterMap StubStatement.target? = [] :=
        List.filterMap_eq_nil_iff.mpr hskipped
      simpa [hnone] using mem_targets_iff.mpr hvalue
  · rintro h before target value after rfl k hpos hk
    refine mem_targets_iff.mp (h _ target (after.filterMap StubStatement.target?) ?_ k hpos hk)
    rw [List.filterMap_append]
    rfl

/-! ## Running statements -/

/-- Whether statements run to their end once some paths were assigned to.  A property
can be assigned to where what it is a property of was assigned to. -/
def stubRuns : List (List String) → List StubStatement → Bool
  | _, [] => true
  | known, .other _ :: rest => stubRuns known rest
  | known, .assign target _ :: rest =>
      (target.dropLast.isEmpty || known.contains target.dropLast) &&
        stubRuns (target :: known) rest

theorem stubRuns_iff {statements : List StubStatement} {known : List (List String)} :
    stubRuns known statements = true ↔
      ∀ before target value after, statements = before ++ .assign target value :: after →
        target.dropLast = [] ∨ target.dropLast ∈ known ∨
          ∃ value', .assign target.dropLast value' ∈ before := by
  induction statements generalizing known with
  | nil => simp [stubRuns]
  | cons statement rest ih =>
    cases statement with
    | other text =>
      rw [stubRuns, ih]
      constructor
      · intro h before target value after hsplit
        cases before with
        | nil => cases hsplit
        | cons first before =>
          obtain ⟨rfl, rfl⟩ := List.cons.inj hsplit
          simpa using h before target value after rfl
      · rintro h before target value after rfl
        simpa using h (.other text :: before) target value after rfl
    | assign first text =>
      simp only [stubRuns, Bool.and_eq_true, Bool.or_eq_true, List.isEmpty_iff,
        List.contains_iff_mem, ih]
      constructor
      · rintro ⟨hfirst, h⟩ before target value after hsplit
        cases before with
        | nil =>
          cases hsplit
          exact hfirst.imp_right Or.inl
        | cons statement before =>
          obtain ⟨rfl, rfl⟩ := List.cons.inj hsplit
          rcases h before target value after rfl with hroot | hknown | ⟨value', hvalue⟩
          · exact Or.inl hroot
          · rcases List.mem_cons.mp hknown with heq | hknown
            · exact Or.inr (Or.inr ⟨text, heq ▸ List.mem_cons_self⟩)
            · exact Or.inr (Or.inl hknown)
          · exact Or.inr (Or.inr ⟨value', List.mem_cons_of_mem _ hvalue⟩)
      · intro h
        refine ⟨(h [] first text rest rfl).imp_right fun hknown => by simpa using hknown, ?_⟩
        rintro before target value after rfl
        rcases h (.assign first text :: before) target value after rfl with
          hroot | hknown | ⟨value', hvalue⟩
        · exact Or.inl hroot
        · exact Or.inr (Or.inl (List.mem_cons_of_mem _ hknown))
        · rcases List.mem_cons.mp hvalue with heq | hvalue
          · obtain ⟨heq, -⟩ := StubStatement.assign.inj heq
            exact Or.inr (Or.inl (heq ▸ List.mem_cons_self))
          · exact Or.inr (Or.inr ⟨value', hvalue⟩)

/-- Statements run to their end if and only if parents come first: a path whose parent
was assigned to has all paths in front of it assigned to. -/
theorem stubRuns_iff_parentsFirst {statements : List StubStatement} :
    stubRuns [] statements = true ↔ ParentsFirst statements := by
  rw [stubRuns_iff]
  constructor
  · intro h
    have climb : ∀ (n : Nat) before target value after,
        statements = before ++ .assign target value :: after →
        ∀ k, 0 < k → k + n + 1 = target.length →
          ∃ value', .assign (target.take k) value' ∈ before := by
      intro n
      induction n with
      | zero =>
        intro before target value after hsplit k hpos hk
        have hparent : target.dropLast = target.take k := by
          rw [List.dropLast_eq_take, ← hk, Nat.add_zero, Nat.add_sub_cancel]
        rcases h before target value after hsplit with hroot | hknown | hvalue
        · rw [hparent, List.take_eq_nil_iff] at hroot
          rcases hroot with rfl | rfl
          · exact absurd hpos (Nat.lt_irrefl 0)
          · simp at hk
        · exact absurd hknown List.not_mem_nil
        · rwa [hparent] at hvalue
      | succ n ih =>
        intro before target value after hsplit k hpos hk
        rcases h before target value after hsplit with hroot | hknown | ⟨value', hvalue⟩
        · have hlength := congrArg List.length hroot
          rw [List.length_dropLast, List.length_nil] at hlength
          omega
        · exact absurd hknown List.not_mem_nil
        · obtain ⟨front, back, rfl⟩ := List.append_of_mem hvalue
          obtain ⟨value'', hvalue''⟩ := ih front target.dropLast value'
            (back ++ .assign target value :: after) (by rw [hsplit]; simp) k hpos
            (by rw [List.length_dropLast]; omega)
          refine ⟨value'', List.mem_append_left _ ?_⟩
          rwa [List.dropLast_eq_take, List.take_take, Nat.min_eq_left (by omega)] at hvalue''
    intro before target value after hsplit k hpos hk
    exact climb (target.length - k - 1) before target value after hsplit k hpos (by omega)
  · intro h before target value after hsplit
    by_cases hroot : target.length ≤ 1
    · left
      rw [← List.length_eq_zero_iff, List.length_dropLast]
      omega
    · right; right
      have hparent := h before target value after hsplit (target.length - 1) (by omega) (by omega)
      rwa [← List.dropLast_eq_take] at hparent

namespace PrefixesFirst

variable {α : Type} {targets : List (List String)}

theorem nil : PrefixesFirst [] := by
  intro before target after h
  simp at h

/-- Paths are added whose prefixes are there already. -/
theorem append {more : List (List String)} (h : PrefixesFirst targets)
    (hmore : ∀ target ∈ more, ∀ k, 0 < k → k < target.length → target.take k ∈ targets) :
    PrefixesFirst (targets ++ more) := by
  intro before target after hsplit k hpos hk
  rcases List.append_eq_append_iff.mp hsplit with ⟨front, rfl, hrest⟩ | ⟨front, rfl, hrest⟩
  · -- The path is one of those that are added.
    have hmem : target ∈ more := by rw [hrest]; simp
    exact List.mem_append_left _ (hmore target hmem k hpos hk)
  · cases front with
    | nil =>
      have hmem : target ∈ more := by
        rw [← List.nil_append more, ← hrest]
        exact List.mem_cons_self
      simpa using hmore target hmem k hpos hk
    | cons first rest =>
      obtain ⟨rfl, rfl⟩ := List.cons.inj hrest
      exact h before target rest rfl k hpos hk

/-- Things are gone through in order, each of which adds paths whose prefixes come from
what was there or from what was gone through before. -/
theorem append_flatMap {xs : List α} {paths : α → List (List String)} (h : PrefixesFirst targets)
    (hxs : ∀ before x after, xs = before ++ x :: after → ∀ target ∈ paths x,
      ∀ k, 0 < k → k < target.length → target.take k ∈ targets ++ before.flatMap paths) :
    PrefixesFirst (targets ++ xs.flatMap paths) := by
  induction xs using List.reverseRecOn with
  | nil => simpa using h
  | append_singleton rest x ih =>
    rw [List.flatMap_append, List.flatMap_singleton, ← List.append_assoc]
    refine append (ih fun before y after hsplit => ?_) (hxs rest x [] rfl)
    exact hxs before y (after ++ [x]) (by rw [hsplit]; simp)

end PrefixesFirst

/-! ## Entities by scope -/

namespace SourceFile

variable {records : List InflectionRecord}

theorem length_le_deepestScope {r : InflectionRecord} (h : r ∈ records) :
    r.scope.length ≤ deepestScope records := by
  induction records with
  | nil => cases h
  | cons first rest ih =>
    have hstep : deepestScope (first :: rest) = max first.scope.length (deepestScope rest) := rfl
    rw [hstep]
    rcases List.mem_cons.mp h with rfl | h
    · exact Nat.le_max_left _ _
    · exact Nat.le_trans (ih h) (Nat.le_max_right _ _)

theorem mem_byScope {r : InflectionRecord} : r ∈ byScope records ↔ r ∈ records := by
  simp only [byScope, List.mem_flatMap, List.mem_range, List.mem_filter, beq_iff_eq]
  constructor
  · rintro ⟨_, _, h, _⟩
    exact h
  · exact fun h => ⟨_, Nat.lt_succ_of_le (length_le_deepestScope h), h, rfl⟩

/-- Outer scopes come before inner ones. -/
theorem pairwise_byScope (records : List InflectionRecord) :
    (byScope records).Pairwise fun r r' => r.scope.length ≤ r'.scope.length := by
  rw [byScope, List.pairwise_flatMap]
  constructor
  · intro depth _
    refine List.pairwise_of_forall_mem_list fun r hr r' hr' => ?_
    have h := (List.mem_filter.mp hr).2
    have h' := (List.mem_filter.mp hr').2
    rw [beq_iff_eq] at h h'
    omega
  · refine List.pairwise_lt_range.imp fun {depth depth'} hlt r hr r' hr' => ?_
    have h := (List.mem_filter.mp hr).2
    have h' := (List.mem_filter.mp hr').2
    rw [beq_iff_eq] at h h'
    omega

/-- An entity of a shorter scope has come before. -/
theorem mem_before_of_shorter {before after : List InflectionRecord} {r parent : InflectionRecord}
    (hsplit : byScope records = before ++ r :: after) (hparent : parent ∈ records)
    (hshorter : parent.scope.length < r.scope.length) : parent ∈ before := by
  have hmem := mem_byScope.mpr hparent
  have hsorted := pairwise_byScope records
  rw [hsplit] at hmem hsorted
  rcases List.mem_append.mp hmem with hbefore | hrest
  · exact hbefore
  rcases List.mem_cons.mp hrest with rfl | hafter
  · exact absurd hshorter (Nat.lt_irrefl _)
  · have hle := (List.pairwise_cons.mp (List.pairwise_append.mp hsorted).2.1).1 parent hafter
    omega

end SourceFile

end SchemaTypes
