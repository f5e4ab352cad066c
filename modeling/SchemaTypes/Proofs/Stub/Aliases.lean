import SchemaTypes.Proofs.Code.Printing
import SchemaTypes.Proofs.Stub.Reading

/-!
# One table in both forms of the stub

The two forms of the runtime stub export the same aliases.  Which ones these are is said
of the records alone: they are ordered by the length of their scopes and keep
their order where that is the same (`OrderedByScope`), which leaves one order
(`OrderedByScope.eq_byScope`), and each is written out as its aliases
(`InflectionRecord.expansion`).

The lines of either form are read on their own.  What is read from the
direct form are the aliases, and what is read from the other form are the entries that tell
them (`SourceFile.runtimeStub_aliases`).  An entry tells its alias where no name
holds a dot.
-/

namespace SchemaTypes

/-! ## The order of the records -/

/-- Records in the order of the lengths of their scopes.  Those of one length are in the order
they had. -/
structure OrderedByScope (ordered records : List InflectionRecord) : Prop where
  /-- No record precedes one with a shorter scope. -/
  outerFirst : ordered.Pairwise fun r r' => r.scope.length ≤ r'.scope.length
  /-- The records of one length are the same, in the same order. -/
  stable : ∀ depth, ordered.filter (fun r => r.scope.length == depth) =
    records.filter fun r => r.scope.length == depth
  /-- No record is lost, and none is repeated. -/
  perm : ordered.Perm records

namespace SourceFile

/-- Of the groups that records form by the lengths of their scopes, one holds those of a
given length. -/
theorem filter_flatMap_range (records : List InflectionRecord) (bound depth : Nat) :
    ((List.range bound).flatMap fun n => records.filter fun r => r.scope.length == n).filter
        (fun r => r.scope.length == depth) =
      if depth < bound then records.filter fun r => r.scope.length == depth else [] := by
  induction bound with
  | zero => rfl
  | succ bound ih =>
    have hnext : (records.filter fun r => r.scope.length == bound).filter
        (fun r => r.scope.length == depth) =
          if depth = bound then records.filter fun r => r.scope.length == depth else [] := by
      rw [List.filter_filter]
      split
      · next heq => simp only [heq, Bool.and_self]
      · next hne =>
        refine List.filter_eq_nil_iff.mpr fun r _ h => hne ?_
        rw [Bool.and_eq_true, beq_iff_eq, beq_iff_eq] at h
        exact h.1.symm.trans h.2
    rw [List.range_succ, List.flatMap_append, List.flatMap_singleton, List.filter_append, ih, hnext]
    rcases Nat.lt_trichotomy depth bound with hlt | rfl | hgt
    · rw [if_pos hlt, if_neg (by omega), if_pos (by omega), List.append_nil]
    · rw [if_neg (Nat.lt_irrefl _), if_pos rfl, if_pos (by omega), List.nil_append]
    · rw [if_neg (by omega), if_neg (by omega), if_neg (by omega), List.append_nil]

/-- The records of one length stay in their order. -/
theorem filter_byScope (records : List InflectionRecord) (depth : Nat) :
    (byScope records).filter (fun r => r.scope.length == depth) =
      records.filter fun r => r.scope.length == depth := by
  rw [byScope, filter_flatMap_range]
  split
  · rfl
  · next hdeep =>
    symm
    rw [List.filter_eq_nil_iff]
    intro r hr
    have hle := length_le_deepestScope hr
    rw [beq_iff_eq]
    omega

/-- A record stands among those of its length as often before as after. -/
theorem perm_byScope (records : List InflectionRecord) : (byScope records).Perm records := by
  refine List.perm_iff_count.mpr fun r => ?_
  have hkept : ∀ xs : List InflectionRecord,
      (xs.filter fun r' => r'.scope.length == r.scope.length).count r = xs.count r :=
    fun _ => List.count_filter (beq_self_eq_true r.scope.length)
  rw [← hkept (byScope records), filter_byScope, hkept]

theorem orderedByScope (records : List InflectionRecord) :
    OrderedByScope (byScope records) records where
  outerFirst := pairwise_byScope records
  stable := filter_byScope records
  perm := perm_byScope records

end SourceFile

/-- Where shorter scopes come first, the records of one length follow all shorter ones. -/
theorem filter_length_lt_succ {ordered : List InflectionRecord}
    (h : ordered.Pairwise fun r r' => r.scope.length ≤ r'.scope.length) (depth : Nat) :
    ordered.filter (fun r => decide (r.scope.length < depth + 1)) =
      ordered.filter (fun r => decide (r.scope.length < depth)) ++
        ordered.filter fun r => r.scope.length == depth := by
  induction ordered with
  | nil => rfl
  | cons r rest ih =>
    obtain ⟨hfirst, hrest⟩ := List.pairwise_cons.mp h
    have ih := ih hrest
    rcases Nat.lt_trichotomy r.scope.length depth with hlt | heq | hgt
    · rw [List.filter_cons_of_pos (by simp; omega), List.filter_cons_of_pos (by simpa using hlt),
        List.filter_cons_of_neg (by simp; omega), ih, List.cons_append]
    · have hnone : rest.filter (fun r => decide (r.scope.length < depth)) = [] := by
        refine List.filter_eq_nil_iff.mpr fun r' hr' hlt => ?_
        have hle := hfirst r' hr'
        rw [decide_eq_true_eq] at hlt
        omega
      rw [List.filter_cons_of_pos (by simp; omega), List.filter_cons_of_neg (by simp; omega),
        List.filter_cons_of_pos (by simpa using heq), ih, hnone, List.nil_append, List.nil_append]
    · rw [List.filter_cons_of_neg (by simp; omega), List.filter_cons_of_neg (by simp; omega),
        List.filter_cons_of_neg (by simp; omega), ih]

/-- Records have one such order. -/
theorem OrderedByScope.eq_byScope {ordered records : List InflectionRecord}
    (h : OrderedByScope ordered records) : ordered = SourceFile.byScope records := by
  have hgroups : ∀ bound, ordered.filter (fun r => decide (r.scope.length < bound)) =
      (List.range bound).flatMap fun depth => records.filter fun r => r.scope.length == depth := by
    intro bound
    induction bound with
    | zero => simp
    | succ bound ih =>
      rw [filter_length_lt_succ h.outerFirst, ih, h.stable, List.range_succ, List.flatMap_append,
        List.flatMap_singleton]
  have hall : ordered.filter
      (fun r => decide (r.scope.length < SourceFile.deepestScope records + 1)) = ordered := by
    refine List.filter_eq_self.mpr fun r hr => decide_eq_true ?_
    exact Nat.lt_succ_of_le (SourceFile.length_le_deepestScope (h.perm.mem_iff.mp hr))
  rw [← hall, hgroups]
  rfl

/-! ## The aliases of a record -/

/-- The aliases of an entity: one for the singular, one for the plural, and one for its own
name if that is neither. -/
def InflectionRecord.expansion (r : InflectionRecord) : List Alias :=
  let names := [(r.singular, true), (r.plural, false), (r.runtimeName, false)]
  let third := r.runtimeName != r.singular && r.runtimeName != r.plural
  (names.take (if third then 3 else 2)).map fun name => ⟨r.scope, name.1, r.runtimeName, name.2⟩

theorem InflectionRecord.aliases_eq (r : InflectionRecord) : r.aliases = r.expansion := by
  rw [aliases, expansion]
  by_cases hthird : r.runtimeName = r.singular ∨ r.runtimeName = r.plural
  · have hnone : (r.runtimeName != r.singular && r.runtimeName != r.plural) = false := by
      rwa [Bool.and_eq_false_iff, bne_eq_false_iff_eq, bne_eq_false_iff_eq]
    rw [if_pos hthird, hnone]
    rfl
  · have hsome : (r.runtimeName != r.singular && r.runtimeName != r.plural) = true := by
      simpa using hthird
    rw [if_neg hthird, hsome]
    rfl

/-! ## The two forms -/

/-- Whether a line is a comment. -/
def isComment (line : String) : Bool := "// ".toList.isPrefixOf line.toList

namespace SourceFile

/-- What follows the aliases, in both forms. -/
def otherExports (file : SourceFile) : List String :=
  Code.lines (file.serviceLines ++ file.enumLines ++ file.operationLines)

/-- The text of the direct form with lines for its aliases. -/
def directForm (file : SourceFile) (lines : List String) : String :=
  Text.join "\n" ([banner, "const cds = require('@sap/cds')",
    "const csn = cds.entities(" ++ Naming.quote file.path.dotted ++ ")"] ++ lines ++
      file.otherExports) ++ "\n"

/-- The text of the form for the proxy with lines for its aliases. -/
def proxyForm (file : SourceFile) (base : Path) (lines : List String) : String :=
  Text.join "\n" ([banner, "const \x7b createEntitiesProxy \x7d = require(" ++
      Naming.quote (base.specifierFrom file.path) ++ ")",
    "module.exports = createEntitiesProxy(" ++ Naming.quote file.path.dotted ++ ", \x7b"] ++
      lines ++ ["\x7d)"] ++ file.otherExports) ++ "\n"

/-- The lines of the direct form for an entity. -/
def assignmentLines (r : InflectionRecord) : List String :=
  recordHeading r :: r.aliases.map aliasAssignment

theorem runtimeStub_directForm (file : SourceFile) (base : Path) :
    file.runtimeStub false base =
      file.directForm ((byScope file.inflections).flatMap assignmentLines) := by
  have hlines : [.line banner] ++ file.directLines =
      ([banner, "const cds = require('@sap/cds')",
        "const csn = cds.entities(" ++ Naming.quote file.path.dotted ++ ")"] ++
          (byScope file.inflections).flatMap assignmentLines).map Code.line := by
    simp [directLines, assignmentLines, List.map_flatMap, Function.comp_def]
  rw [runtimeStub_eq, stubCode, if_neg Bool.false_ne_true, hlines, List.append_assoc,
    List.append_assoc, Code.lines_append, Code.lines_map_line]
  simp only [directForm, otherExports, List.append_assoc]

theorem runtimeStub_proxyForm (file : SourceFile) (base : Path) :
    file.runtimeStub true base =
      file.proxyForm base (file.aliasTable.map fun a => indented 1 (proxyEntry a)) := by
  have hentries : Code.linesAllAt 1 (file.aliasTable.map fun a => .line (proxyEntry a)) =
      file.aliasTable.map fun a => indented 1 (proxyEntry a) := by
    have h := Code.linesAllAt_map_line 1 (file.aliasTable.map proxyEntry)
    simpa [Function.comp_def] using h
  have hlines : Code.lines ([.line banner] ++ file.proxyLines base) =
      [banner, "const \x7b createEntitiesProxy \x7d = require(" ++
          Naming.quote (base.specifierFrom file.path) ++ ")",
        "module.exports = createEntitiesProxy(" ++ Naming.quote file.path.dotted ++ ", \x7b"] ++
          (file.aliasTable.map fun a => indented 1 (proxyEntry a)) ++ ["\x7d)"] := by
    simp [proxyLines, Code.lines, Code.linesAllAt, Code.linesAt, indented_zero, hentries]
  rw [runtimeStub_eq, stubCode, if_pos rfl, List.append_assoc, List.append_assoc,
    Code.lines_append, hlines]
  simp only [proxyForm, otherExports, List.append_assoc]

/-- The lines for an entity, but for the comment, are read as its aliases. -/
theorem read_assignmentLines (r : InflectionRecord) :
    ((assignmentLines r).filter fun line => !isComment line).map Stub.readAssignment? =
      r.aliases.map some := by
  have hheading : isComment (recordHeading r) = true := by
    rw [isComment, recordHeading, String.toList_append, List.isPrefixOf_iff_prefix]
    exact List.prefix_append _ _
  have hassignment : ∀ a, isComment (aliasAssignment a) = false := by
    intro a
    rw [isComment, aliasAssignment]
    split <;> simp [exportPath, List.isPrefixOf]
  have hkept : (r.aliases.map aliasAssignment).filter (fun line => !isComment line) =
      r.aliases.map aliasAssignment := by
    refine List.filter_eq_self.mpr fun line hline => ?_
    obtain ⟨a, -, rfl⟩ := List.mem_map.mp hline
    rw [hassignment]
    rfl
  rw [assignmentLines, List.filter_cons_of_neg (by simp [hheading]), hkept, List.map_map]
  exact List.map_congr_left fun a _ => Stub.readAssignment?_aliasAssignment a

/-- Both forms of the stub carry one table.  It is read from the assignments of
the direct form.  The entries of the other form tell it, and it is read from
them where no name holds a dot. -/
theorem runtimeStub_aliases (file : SourceFile) (base : Path) :
    ∃ (direct proxy : List String) (table : List Alias) (ordered : List InflectionRecord),
      file.runtimeStub false base = file.directForm direct ∧
      file.runtimeStub true base = file.proxyForm base proxy ∧
      (direct.filter fun line => !isComment line).map Stub.readAssignment? = table.map some ∧
      proxy.map Stub.readTableLine? = table.map (fun a => some (Stub.entryOf a)) ∧
      ((∀ a ∈ table, ∀ s ∈ a.target, '.' ∉ s.toList) →
        proxy.map (fun line => (Stub.readTableLine? line).bind Stub.Entry.alias?) =
          table.map some) ∧
      OrderedByScope ordered file.inflections ∧
      table = ordered.flatMap InflectionRecord.expansion := by
  have hentries : (file.aliasTable.map fun a => indented 1 (proxyEntry a)).map Stub.readTableLine? =
      file.aliasTable.map fun a => some (Stub.entryOf a) := by
    rw [List.map_map]
    exact List.map_congr_left fun a _ => Stub.readTableLine?_proxyEntry 1 a
  refine ⟨_, _, file.aliasTable, byScope file.inflections, runtimeStub_directForm file base,
    runtimeStub_proxyForm file base, ?_, hentries, fun hdots => ?_,
    orderedByScope file.inflections, ?_⟩
  · simp only [List.filter_flatMap, List.map_flatMap, read_assignmentLines]
    rw [← List.map_flatMap]
    rfl
  · rw [List.map_map]
    refine List.map_congr_left fun a ha => ?_
    rw [Function.comp_apply, Stub.readTableLine?_proxyEntry, Option.bind_some]
    exact Stub.alias?_entryOf (hdots a ha)
  · exact List.flatMap_congr fun r _ => r.aliases_eq

/-- A file with texts of books, and books. -/
def bookFile : SourceFile where
  path := Path.ofDotted "shop"
  inflections := [⟨["Books"], "text", "texts", "texts"⟩, ⟨[], "Book", "Books", "Books"⟩]

/-- The aliases of books, and those of their texts. -/
def bookAliases : List Alias :=
  [⟨[], "Book", "Books", true⟩, ⟨[], "Books", "Books", false⟩,
    ⟨["Books"], "text", "texts", true⟩, ⟨["Books"], "texts", "texts", false⟩]

theorem runtimeStub_aliases_books :
    ∃ direct proxy : List String, bookFile.runtimeStub false basePath = bookFile.directForm direct ∧
      bookFile.runtimeStub true basePath = bookFile.proxyForm basePath proxy ∧
      (direct.filter fun line => !isComment line).map Stub.readAssignment? =
        bookAliases.map some ∧
      proxy.map (fun line => (Stub.readTableLine? line).bind Stub.Entry.alias?) =
        bookAliases.map some := by
  obtain ⟨direct, proxy, table, ordered, hdirect, hproxy, hread, -, hdots, hordered, htable⟩ :=
    runtimeStub_aliases bookFile basePath
  have hbooks : table = bookAliases := by
    rw [htable, hordered.eq_byScope]
    decide +kernel
  subst hbooks
  exact ⟨direct, proxy, hdirect, hproxy, hread, hdots (by decide +kernel)⟩

end SourceFile

end SchemaTypes
