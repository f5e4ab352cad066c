import SchemaTypes.Proofs.Code.Extension
import SchemaTypes.Proofs.Code.Fault
import SchemaTypes.Proofs.Options.Compile

/-!
# What files consist of

A file holds what the emissions of its namespace have put into it, in their order,
and nothing else (`SourceFile.Collects`).  Its records for the runtime are theirs,
one after the other, and a section is what is left when their placements for the
section are written into an empty buffer.

An emission goes into one file of a store (`Store.emit_eq_ok`), so after a run every
file collects the emissions of its namespace (`Store.emitAll_collects`).
-/

namespace SchemaTypes

variable {c : Config}

/-! ## Sections -/

namespace Section

/-- The buffer of a section that nothing was written to. -/
def blank : Section → Buffer
  | .nested name => SourceFile.openedNamespace name
  | _ => {}

/-- Writes the placements that go to a section, one after the other. -/
def write (c : Config) (t : Section) : List Placement → Buffer → Except Fault Buffer
  | [], b => .ok b
  | p :: rest, b =>
      if p.target = t then do
        let b ← b.append (p.code c)
        write c t rest b
      else write c t rest b

theorem write_append (t : Section) (ps qs : List Placement) (b : Buffer) :
    t.write c (ps ++ qs) b = t.write c ps b >>= t.write c qs := by
  induction ps generalizing b with
  | nil => rfl
  | cons p rest ih =>
    simp only [List.cons_append, write]
    split
    · simp only [ih, bind_assoc]
    · exact ih b

end Section

/-! ## Files -/

namespace SourceFile

variable {file file' : SourceFile} {es : List Emission} {e : Emission}

theorem place_write {ps : List Placement} (h : file.place c ps = .ok file') (t : Section) :
    t.write c ps (file.buffer t) = .ok (file'.buffer t) := by
  induction ps generalizing file with
  | nil =>
    cases h
    rfl
  | cons p rest ih =>
    rw [place] at h
    obtain ⟨middle, hfirst, h⟩ := Except.bind_eq_ok h
    rw [append] at hfirst
    obtain ⟨b, hb, hfirst⟩ := Except.bind_eq_ok hfirst
    cases hfirst
    have hrest := ih h
    rw [buffer_setBuffer] at hrest
    rw [Section.write]
    split
    · next htarget =>
      rw [if_pos htarget] at hrest
      subst htarget
      rw [hb]
      exact hrest
    · next htarget => rwa [if_neg htarget] at hrest

/-- A file holds what emissions have put into it, and nothing else. -/
structure Collects (c : Config) (es : List Emission) (file : SourceFile) : Prop where
  path : ∃ e ∈ es, e.path = file.path
  inflections : file.inflections = es.flatMap (·.inflections)
  enumStubs : file.enumStubs = es.flatMap (·.enumStubs)
  operationNames : file.operationNames = es.flatMap (·.operationNames)
  leveled : file.Leveled
  holds : ∀ e ∈ es, ∀ p ∈ e.placements, file.Holds c p
  sections : ∀ t, Section.write c t (es.flatMap (·.placements)) t.blank = .ok (file.buffer t)

@[simp] theorem buffer_addImports (targets : List Path) (t : Section) :
    (file.addImports targets).buffer t = file.buffer t := by
  induction targets generalizing file with
  | nil => rfl
  | cons target rest ih => exact ih.trans (buffer_addImport target t)

/-- Imports are no records. -/
theorem addImports_records (file : SourceFile) (targets : List Path) :
    (file.addImports targets).inflections = file.inflections ∧
      (file.addImports targets).enumStubs = file.enumStubs ∧
      (file.addImports targets).operationNames = file.operationNames := by
  induction targets generalizing file with
  | nil => exact ⟨rfl, rfl, rfl⟩
  | cons target rest ih =>
    have hfirst : (file.addImport target).inflections = file.inflections ∧
        (file.addImport target).enumStubs = file.enumStubs ∧
        (file.addImport target).operationNames = file.operationNames := by
      simp only [addImport]
      split <;> exact ⟨rfl, rfl, rfl⟩
    obtain ⟨hinflections, hstubs, hnames⟩ := ih (file.addImport target)
    exact ⟨hinflections.trans hfirst.1, hstubs.trans hfirst.2.1, hnames.trans hfirst.2.2⟩

/-- What an emission adds to a file. -/
theorem emit_adds (h : file.emit c e = .ok file') :
    file'.path = file.path ∧ file'.inflections = file.inflections ++ e.inflections ∧
      file'.enumStubs = file.enumStubs ++ e.enumStubs ∧
      file'.operationNames = file.operationNames ++ e.operationNames ∧
      ∀ t, Section.write c t e.placements (file.buffer t) = .ok (file'.buffer t) := by
  have hframe := frame_emit h
  have hrecords := file.frame.addImports_records e.imports
  refine ⟨(emit_extends h).path, ?_, ?_, ?_, fun t => ?_⟩
  · exact (congrArg inflections hframe).trans (congrArg (· ++ e.inflections) hrecords.1)
  · exact (congrArg enumStubs hframe).trans (congrArg (· ++ e.enumStubs) hrecords.2.1)
  · exact (congrArg operationNames hframe).trans (congrArg (· ++ e.operationNames) hrecords.2.2)
  · obtain ⟨placed, hplaced, rfl⟩ := emit_eq_ok h
    have hwrite := place_write hplaced t
    rw [buffer_addImports] at hwrite
    rw [hwrite]
    cases t <;> rfl

/-- The placements of an emission stand in the file it is added to. -/
theorem emit_holds (hlevel : file.Leveled) (h : file.emit c e = .ok file') :
    file'.Leveled ∧ ∀ p ∈ e.placements, file'.Holds c p := by
  obtain ⟨placed, hplaced, rfl⟩ := emit_eq_ok h
  have himported : (file.addImports e.imports).Leveled := fun t => by
    rw [buffer_addImports]
    exact hlevel t
  obtain ⟨-, hleveled, -, hholds⟩ := place_grows himported hplaced
  have hsame := placed.addRecords_sameText e
  refine ⟨fun t => ?_, fun p hp => (hholds p hp).mono hsame.grows⟩
  rw [hsame.buffer t]
  exact hleveled t

theorem Collects.emit (h : file.Collects c es) (he : file.emit c e = .ok file') :
    file'.Collects c (es ++ [e]) := by
  obtain ⟨hpath, hinflections, hstubs, hnames, hsections⟩ := emit_adds he
  obtain ⟨hleveled, hholds⟩ := emit_holds h.leveled he
  obtain ⟨first, hfirst, hfile⟩ := h.path
  refine ⟨⟨first, List.mem_append_left _ hfirst, hfile.trans hpath.symm⟩, ?_, ?_, ?_, hleveled,
    fun e' he' p hp => ?_, fun t => ?_⟩
  · simp [hinflections, h.inflections]
  · simp [hstubs, h.enumStubs]
  · simp [hnames, h.operationNames]
  · rcases List.mem_append.mp he' with he' | he'
    · exact (h.holds e' he' p hp).mono (emit_extends he).toGrows
    · exact hholds p (List.mem_singleton.mp he' ▸ hp)
  · rw [List.flatMap_append, Section.write_append, h.sections t, List.flatMap_singleton]
    exact hsections t

theorem start_emit_collects (he : (start e.path).emit c e = .ok file') :
    file'.Collects c [e] := by
  have hblank : ∀ t, (start e.path).buffer t = t.blank := by
    intro t
    rw [start, buffer_addImport]
    cases t <;> rfl
  have hrecords : (start e.path).inflections = [] ∧ (start e.path).enumStubs = [] ∧
      (start e.path).operationNames = [] :=
    addImports_records { path := e.path } [basePath]
  have hstart : (start e.path).path = e.path := path_addImport basePath
  have hlevel : (start e.path).Leveled := fun t => by
    rw [hblank]
    cases t <;> rfl
  obtain ⟨hpath, hinflections, hstubs, hnames, hsections⟩ := emit_adds he
  obtain ⟨hleveled, hholds⟩ := emit_holds hlevel he
  refine ⟨⟨e, List.mem_singleton.mpr rfl, (hpath.trans hstart).symm⟩, ?_, ?_, ?_, hleveled,
    fun e' he' p hp => hholds p (List.mem_singleton.mp he' ▸ hp), fun t => ?_⟩
  · simp [hinflections, hrecords.1]
  · simp [hstubs, hrecords.2.1]
  · simp [hnames, hrecords.2.2]
  · rw [List.flatMap_singleton, ← hblank t]
    exact hsections t

end SourceFile

/-! ## Stores -/

namespace Store

variable {store store' : Store} {e : Emission}

/-- The emissions of a namespace. -/
def emissionsOf (space : String) (es : List Emission) : List Emission :=
  es.filter fun e => e.path.dotted = space

/-- Every file collects the emissions of its namespace, and every namespace has one
file. -/
structure Collects (c : Config) (es : List Emission) (store : Store) : Prop where
  files : ∀ file ∈ store, file.Collects c (emissionsOf file.path.dotted es)
  spaces : store.spaces = (es.map fun e => e.path.dotted).eraseDups

theorem Collects.emit {es : List Emission} (h : store.Collects c es)
    (he : store.emit c e = .ok store') : store'.Collects c (es ++ [e]) := by
  have hspaces : store'.spaces = ((es ++ [e]).map fun e => e.path.dotted).eraseDups := by
    have hone : store.emitAll c [e] = .ok store' := by
      rw [emitAll, he]
      rfl
    simpa using emitAll_spaces h.spaces hone
  have hold : ∀ {file : SourceFile}, file ∈ store → file.path.dotted ≠ e.path.dotted →
      file.Collects c (emissionsOf file.path.dotted (es ++ [e])) := by
    intro file hfile hother
    have hskip : emissionsOf file.path.dotted [e] = [] := by
      simp [emissionsOf, Ne.symm hother]
    have hfilter : emissionsOf file.path.dotted (es ++ [e]) = emissionsOf file.path.dotted es := by
      rw [emissionsOf, List.filter_append]
      exact (congrArg _ hskip).trans (List.append_nil _)
    rw [hfilter]
    exact h.files file hfile
  have hnew : emissionsOf e.path.dotted (es ++ [e]) = emissionsOf e.path.dotted es ++ [e] := by
    simp [emissionsOf, List.filter_append]
  refine ⟨fun file hfile => ?_, hspaces⟩
  rcases emit_eq_ok he with ⟨before, old, after, new, rfl, -, hdotted, hemit, rfl⟩ |
      ⟨hnotMem, new, hemit, rfl⟩
  · have hnodup : (Store.spaces (before ++ old :: after)).Nodup := nodup_of_eraseDups h.spaces
    have hothers : e.path.dotted ∉ Store.spaces before ∧ e.path.dotted ∉ Store.spaces after := by
      simp only [Store.spaces, List.map_append, List.map_cons] at hnodup ⊢
      obtain ⟨-, hafter, hdisjoint⟩ := List.nodup_append.mp hnodup
      rw [← hdotted]
      exact ⟨fun hmem => hdisjoint _ hmem _ List.mem_cons_self rfl, (List.nodup_cons.mp hafter).1⟩
    rcases List.mem_append.mp hfile with hbefore | hrest
    · refine hold (List.mem_append_left _ hbefore) fun heq => hothers.1 ?_
      exact heq ▸ List.mem_map_of_mem hbefore
    rcases List.mem_cons.mp hrest with rfl | hafter
    · have hpath : file.path.dotted = e.path.dotted := by
        rw [(SourceFile.emit_adds hemit).1, hdotted]
      rw [hpath, hnew]
      have hmem : old ∈ before ++ old :: after := by simp
      exact (hdotted ▸ h.files old hmem).emit hemit
    · refine hold (List.mem_append_right _ (List.mem_cons_of_mem _ hafter)) fun heq => hothers.2 ?_
      exact heq ▸ List.mem_map_of_mem hafter
  · rcases List.mem_append.mp hfile with hfile | hfile
    · refine hold hfile fun heq => hnotMem ?_
      exact heq ▸ List.mem_map_of_mem hfile
    · obtain rfl := List.mem_singleton.mp hfile
      have hpath : file.path.dotted = e.path.dotted := by
        rw [(SourceFile.emit_adds hemit).1]
        exact congrArg Path.dotted (SourceFile.path_addImport basePath)
      have hfirst : emissionsOf e.path.dotted es = [] := by
        rw [h.spaces, List.mem_eraseDups] at hnotMem
        refine List.filter_eq_nil_iff.mpr fun e' he' heq => hnotMem ?_
        exact List.mem_map.mpr ⟨e', he', of_decide_eq_true heq⟩
      rw [hpath, hnew, hfirst]
      exact SourceFile.start_emit_collects hemit

theorem emitAll_collects {es done : List Emission} (h : store.Collects c done)
    (hrun : store.emitAll c es = .ok store') : store'.Collects c (done ++ es) := by
  induction es generalizing store done with
  | nil =>
    cases hrun
    simpa using h
  | cons e rest ih =>
    rw [emitAll] at hrun
    obtain ⟨middle, hfirst, hrun⟩ := Except.bind_eq_ok hrun
    simpa using ih (h.emit hfirst) hrun

end Store

/-- What does not depend on the nested namespaces is the same after finishing. -/
theorem Store.map_eq_of_closes {α : Type} {f : SourceFile → α} {files sources : Store}
    (hf : ∀ (file : SourceFile) nested, f { file with namespaces := nested } = f file)
    (h : List.Forall₂ SourceFile.Closes files sources) : sources.map f = files.map f := by
  induction h with
  | nil => rfl
  | cons hfirst _ ih => rw [List.map_cons, List.map_cons, ih, hfirst.rest, hf]

/-- A finished file is one that was written. -/
theorem Store.exists_closes {files sources : Store}
    (h : List.Forall₂ SourceFile.Closes files sources) {source : SourceFile}
    (hsource : source ∈ sources) : ∃ file ∈ files, file.Closes source := by
  induction h with
  | nil => cases hsource
  | @cons file closed _ _ hcloses _ ih =>
    rcases List.mem_cons.mp hsource with rfl | hsource
    · exact ⟨file, List.mem_cons_self, hcloses⟩
    · obtain ⟨other, hother, hcloses⟩ := ih hsource
      exact ⟨other, List.mem_cons_of_mem _ hother, hcloses⟩

namespace Plan

variable {plan : Plan} {sources : Store}

/-- The files of a plan collect its emissions, and closing their nested namespaces is
all that finishing adds. -/
theorem sources_collect (h : plan.sources c = .ok sources) :
    ∃ files : Store, files.Collects c plan.emissions ∧
      List.Forall₂ SourceFile.Closes files sources := by
  obtain ⟨files, hfiles, -, sources', hfinished, hcloses⟩ :=
    Store.emitAll_finished c plan.emissions
  have hempty : Store.Collects c [] [] := ⟨by simp, rfl⟩
  rw [Plan.sources_eq, hfiles] at h
  obtain rfl : sources' = sources := Except.ok.inj (hfinished.symm.trans h)
  exact ⟨files, Store.emitAll_collects hempty hfiles, hcloses⟩

/-- The namespaces of the files of a plan, in the order in which they came up. -/
def fileSpaces (plan : Plan) : List String :=
  (plan.emissions.map fun e => e.path.dotted).eraseDups

/-- What can be read off a file from the emissions of its namespace can be read off the
plan. -/
theorem map_sources {α : Type} {f : SourceFile → α} {g : List Emission → α}
    (hf : ∀ (file : SourceFile) nested, f { file with namespaces := nested } = f file)
    (hg : ∀ {file : SourceFile} {es : List Emission}, file.Collects c es → f file = g es)
    (h : plan.sources c = .ok sources) :
    sources.map f =
      plan.fileSpaces.map fun space => g (Store.emissionsOf space plan.emissions) := by
  obtain ⟨files, hcollects, hcloses⟩ := sources_collect h
  rw [Store.map_eq_of_closes hf hcloses, fileSpaces, ← hcollects.spaces, Store.spaces,
    List.map_map]
  exact List.map_congr_left fun file hfile => hg (hcollects.files file hfile)

theorem render_diagnostics {o : Output} (h : plan.render c = .ok o) :
    o.diagnostics = plan.diagnostics := by
  obtain ⟨sources, -, h⟩ := Except.bind_eq_ok h
  cases h
  rfl

end Plan

/-- A plan for one namespace that needs no library is written to one file, besides the one
with the base types. -/
theorem compile_oneFile {m : Model} {plan : Plan} {space : String} (c : Config)
    (hplan : Plan.ofModel m = .ok plan) (hspaces : plan.fileSpaces = [space])
    (hlibraries : plan.libraries = []) :
    ∃ (o : Output) (file source : SourceFile), compile m c = .ok o ∧
      o.diagnostics = plan.diagnostics ∧ Store.Collects c plan.emissions [file] ∧
      file.Closes source ∧ file.path.dotted = space ∧ o.files = [baseFile, source.file c] := by
  obtain ⟨o, ho, hrender⟩ := compile_written c hplan
  obtain ⟨sources, hsources, hfiles⟩ := Plan.render_eq_ok hrender
  obtain ⟨files, hcollects, hcloses⟩ := Plan.sources_collect hsources
  obtain ⟨file, rfl, hdotted⟩ := List.map_eq_singleton_iff.mp (hcollects.spaces.trans hspaces)
  obtain ⟨source, _, hclosed, hrest, rfl⟩ := List.forall₂_cons_left_iff.mp hcloses
  obtain rfl := List.forall₂_nil_left_iff.mp hrest
  rw [hlibraries] at hfiles
  exact ⟨o, file, source, ho, Plan.render_diagnostics hrender, hcollects, hclosed, hdotted, hfiles⟩

end SchemaTypes
