import SchemaTypes.Proofs.Code.Fault
import SchemaTypes.Proofs.Code.Store
import SchemaTypes.Proofs.Options.Layout

/-!
# What the options change

A plan says everything that is generated, and it does not depend on the
options.  They come in when the plan is written out, in two places: in the code
of declarations and in the form of the runtime stub.

So two configurations are compared by two runs of the same emissions.  The
runs keep the same frame: the namespaces, the imports and the records for the
runtime are equal at every point, whatever is written to the sections
(`Store.emitAll_frames`).  The runtime stub reads nothing but the frame.  Where
the configurations write types the same way, the runs are one
(`Plan.sources_congr`).

`compile_options` puts this together for whole compilations.
-/

namespace SchemaTypes

variable {c c' : Config}

namespace SourceFile

variable {file file' : SourceFile}

/-! ## Frames -/

/-- A file without what is written to its sections. -/
def frame (file : SourceFile) : SourceFile where
  path := file.path
  imports := file.imports
  inflections := file.inflections
  enumStubs := file.enumStubs
  operationNames := file.operationNames
  service := file.service

/-- The runtime stub reads the frame only. -/
theorem runtimeStub_frame (file : SourceFile) (useProxy : Bool) (base : Path) :
    file.frame.runtimeStub useProxy base = file.runtimeStub useProxy base := rfl

theorem frame_setBuffer (b : Buffer) (t : Section) : (file.setBuffer b t).frame = file.frame := by
  cases t <;> rfl

theorem frame_append {t : Section} {code : List Code} (h : file.append t code = .ok file') :
    file'.frame = file.frame := by
  rw [append] at h
  obtain ⟨b, -, h⟩ := Except.bind_eq_ok h
  cases h
  exact frame_setBuffer b t

theorem frame_place {placements : List Placement} (h : file.place c placements = .ok file') :
    file'.frame = file.frame := by
  induction placements generalizing file with
  | nil =>
    cases h
    rfl
  | cons p rest ih =>
    rw [place] at h
    obtain ⟨middle, hfirst, h⟩ := Except.bind_eq_ok h
    exact (ih h).trans (frame_append hfirst)

theorem frame_addImport (target : Path) :
    (file.addImport target).frame = file.frame.addImport target := by
  have hlacks : file.frame.lacksImport target = file.lacksImport target := rfl
  simp only [addImport, hlacks]
  split <;> rfl

theorem frame_addImports (targets : List Path) :
    (file.addImports targets).frame = file.frame.addImports targets := by
  induction targets generalizing file with
  | nil => rfl
  | cons target rest ih =>
    have hstep : ∀ f : SourceFile, f.addImports (target :: rest) = (f.addImport target).addImports rest :=
      fun _ => rfl
    rw [hstep, hstep, ih, frame_addImport]

/-- What an emission does to the frame does not depend on the options. -/
theorem frame_emit {e : Emission} (h : file.emit c e = .ok file') :
    file'.frame = (file.frame.addImports e.imports).addRecords e := by
  obtain ⟨placed, hplaced, rfl⟩ := emit_eq_ok h
  have hframe : placed.frame = file.frame.addImports e.imports :=
    (frame_place hplaced).trans (frame_addImports e.imports)
  exact congrArg (fun f => f.addRecords e) hframe

theorem frame_finished (h : file.finished = .ok file') : file'.frame = file.frame := by
  simp only [finished, finish] at h
  split at h
  · next hfinish =>
    cases h
    rw [← (Prod.mk.inj hfinish).1]
    rfl
  · cases h

end SourceFile

/-! ## Runs -/

namespace Store

variable {store store' run run' : Store}

/-- The frames of the files. -/
def frames (store : Store) : List SourceFile := store.map SourceFile.frame

/-- An emission that goes into stores with the same frames leaves the same
frames behind. -/
theorem emit_frames {e : Emission} (hframes : store.frames = run.frames)
    (h : store.emit c e = .ok store') (h' : run.emit c' e = .ok run') :
    store'.frames = run'.frames := by
  induction store generalizing run store' run' with
  | nil =>
    obtain rfl : run = [] := by simpa [frames] using hframes
    rw [Store.emit] at h h'
    obtain ⟨file, hfile, h⟩ := Except.bind_eq_ok h
    obtain ⟨file', hfile', h'⟩ := Except.bind_eq_ok h'
    cases h
    cases h'
    simp only [frames, List.map_cons, List.map_nil, SourceFile.frame_emit hfile,
      SourceFile.frame_emit hfile']
  | cons first rest ih =>
    obtain ⟨first', rest', rfl, hfirst, hrest⟩ := List.map_eq_cons_iff.mp hframes.symm
    have hpath : first'.path = first.path := (congrArg SourceFile.path hfirst :)
    rw [Store.emit] at h h'
    rw [hpath] at h'
    split at h
    · next hdotted =>
      rw [if_pos hdotted] at h'
      obtain ⟨file, hfile, h⟩ := Except.bind_eq_ok h
      obtain ⟨file', hfile', h'⟩ := Except.bind_eq_ok h'
      cases h
      cases h'
      simp only [frames, List.map_cons, SourceFile.frame_emit hfile,
        SourceFile.frame_emit hfile', hfirst, hrest]
    · next hdotted =>
      rw [if_neg hdotted] at h'
      obtain ⟨others, hothers, h⟩ := Except.bind_eq_ok h
      obtain ⟨others', hothers', h'⟩ := Except.bind_eq_ok h'
      cases h
      cases h'
      exact congrArg₂ List.cons hfirst.symm (ih hrest.symm hothers hothers')

/-- Two runs of the same emissions keep the same frames. -/
theorem emitAll_frames {es : List Emission} (hframes : store.frames = run.frames)
    (h : store.emitAll c es = .ok store') (h' : run.emitAll c' es = .ok run') :
    store'.frames = run'.frames := by
  induction es generalizing store run with
  | nil =>
    cases h
    cases h'
    exact hframes
  | cons e rest ih =>
    rw [emitAll] at h h'
    obtain ⟨middle, hfirst, h⟩ := Except.bind_eq_ok h
    obtain ⟨middle', hfirst', h'⟩ := Except.bind_eq_ok h'
    exact ih (emit_frames hframes hfirst hfirst') h h'

theorem finished_frames (h : store.finished = .ok store') : store'.frames = store.frames := by
  induction store generalizing store' with
  | nil =>
    cases h
    rfl
  | cons file rest ih =>
    rw [finished] at h
    obtain ⟨file', hfile, h⟩ := Except.bind_eq_ok h
    obtain ⟨rest', hrest, h⟩ := Except.bind_eq_ok h
    cases h
    exact congrArg₂ List.cons (SourceFile.frame_finished hfile) (ih hrest)

end Store

theorem Plan.sources_frames {plan : Plan} {sources sources' : Store}
    (h : plan.sources c = .ok sources) (h' : plan.sources c' = .ok sources') :
    sources.frames = sources'.frames := by
  rw [Plan.sources_eq] at h h'
  obtain ⟨store, hstore, h⟩ := Except.bind_eq_ok h
  obtain ⟨store', hstore', h'⟩ := Except.bind_eq_ok h'
  rw [Store.finished_frames h, Store.finished_frames h']
  exact Store.emitAll_frames rfl hstore hstore'

/-! ## One run for two configurations -/

theorem SourceFile.emit_congr (h : c.SameTypes c') : SourceFile.emit c = SourceFile.emit c' := by
  have hplace : ∀ (placements : List Placement) (file : SourceFile),
      file.place c placements = file.place c' placements := by
    intro placements
    induction placements with
    | nil => exact fun _ => rfl
    | cons p rest ih =>
      intro file
      simp only [place, p.code_congr h, ih]
  funext file e
  simp only [emit, hplace]

theorem Store.emitAll_congr (h : c.SameTypes c') (es : List Emission) (store : Store) :
    store.emitAll c es = store.emitAll c' es := by
  have hemit : ∀ (e : Emission) (store : Store), store.emit c e = store.emit c' e := by
    intro e store
    induction store with
    | nil => simp only [Store.emit, SourceFile.emit_congr h]
    | cons file rest ih => simp only [Store.emit, SourceFile.emit_congr h, ih]
  induction es generalizing store with
  | nil => rfl
  | cons e rest ih => simp only [emitAll, hemit, ih]

theorem Plan.sources_congr (h : c.SameTypes c') (plan : Plan) :
    plan.sources c = plan.sources c' := by
  simp only [Plan.sources_eq, Store.emitAll_congr h]

/-! ## Outputs -/

/-- What two outputs for one model have in common, given the configurations. -/
structure Output.Alike (c c' : Config) (o o' : Output) : Prop where
  paths : o.files.map (·.path) = o'.files.map (·.path)
  diagnostics : o.diagnostics = o'.diagnostics
  types : c.SameTypes c' → o.files.map (·.types) = o'.files.map (·.types)
  runtime : c.entitiesProxy = c'.entitiesProxy →
    o.files.map (·.runtime) = o'.files.map (·.runtime)

theorem Plan.render_alike {plan : Plan} {o o' : Output} (h : plan.render c = .ok o)
    (h' : plan.render c' = .ok o') : o.Alike c c' o' := by
  rw [Plan.render] at h h'
  obtain ⟨sources, hsources, h⟩ := Except.bind_eq_ok h
  obtain ⟨sources', hsources', h'⟩ := Except.bind_eq_ok h'
  cases h
  cases h'
  have hframes : sources.frames = sources'.frames := Plan.sources_frames hsources hsources'
  -- What is read off the frame of a file is the same in both runs.
  have hread : ∀ {α : Type} {f : SourceFile → α}, (∀ file, f file.frame = f file) →
      sources.map f = sources'.map f := by
    intro α f hf
    have hmapped := congrArg (List.map f) hframes
    simpa only [Store.frames, List.map_map, Function.comp_def, hf] using hmapped
  refine ⟨?_, rfl, fun htypes => ?_, fun hproxy => ?_⟩
  · simpa [SourceFile.file, Function.comp_def] using hread (f := SourceFile.path) fun _ => rfl
  · rw [Plan.sources_congr htypes, hsources'] at hsources
    cases hsources
    simp [SourceFile.file, Function.comp_def]
  · have hstub := hread (f := fun file => some (file.runtimeStub c'.entitiesProxy basePath))
      fun file => by rw [file.runtimeStub_frame]
    simpa [SourceFile.file, Function.comp_def, hproxy] using hstub

/-- Under two configurations a compilation fails for the same cause, or it succeeds
under both and the outputs differ at most where the options say so. -/
theorem compile_options (m : Model) (c c' : Config) :
    (∃ e, compile m c = .error (.cause e) ∧ compile m c' = .error (.cause e)) ∨
      ∃ o o', compile m c = .ok o ∧ compile m c' = .ok o' ∧ o.Alike c c' o' := by
  cases hplan : Plan.ofModel m with
  | error e => exact Or.inl ⟨e, by simp only [compile, hplan], by simp only [compile, hplan]⟩
  | ok plan =>
    obtain ⟨o, ho⟩ := plan.render_ok c
    obtain ⟨o', ho'⟩ := plan.render_ok c'
    exact Or.inr ⟨o, o', by simp only [compile, hplan, ho], by simp only [compile, hplan, ho'],
      Plan.render_alike ho ho'⟩

end SchemaTypes
