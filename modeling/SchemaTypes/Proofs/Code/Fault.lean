import SchemaTypes.Proofs.Code.SourceTable

/-!
# Writing never faults

While emissions are written, every buffer takes lines, and the buffer of a nested
namespace is one level deep below the line that opens it (`SourceFile.Open`).  So
nothing is written into a closed buffer, and finishing leaves every nested
namespace once and closes it behind a brace (`SourceFile.Closes`).  A compilation
fails with a cause or not at all (`compile_ne_fault`).
-/

namespace SchemaTypes

namespace Buffer

/-- A buffer takes lines at a depth. -/
def OpenAt (depth : Nat) (b : Buffer) : Prop := b.closed = false ∧ b.depth = depth

variable {b : Buffer} {depth : Nat}

theorem add_ok (h : b.OpenAt depth) (line : String) :
    ∃ b', b.add line = .ok b' ∧ b'.OpenAt depth := by
  simp only [add]
  simp only [h.1, Bool.false_eq_true, if_false]
  exact ⟨_, rfl, rfl, h.2⟩

theorem addAll_ok (h : b.OpenAt depth) (lines : List String) :
    ∃ b', b.addAll lines = .ok b' ∧ b'.OpenAt depth := by
  induction lines generalizing b with
  | nil => exact ⟨b, rfl, h⟩
  | cons line rest ih =>
    obtain ⟨middle, hadd, hmiddle⟩ := add_ok h line
    obtain ⟨b', hrest, hb'⟩ := ih hmiddle
    refine ⟨b', ?_, hb'⟩
    rw [addAll, hadd]
    exact hrest

theorem append_ok (h : b.OpenAt depth) (code : List Code) :
    ∃ b', b.append code = .ok b' ∧ b'.OpenAt depth := by
  simp only [append]
  split
  · exact addAll_ok h _
  · obtain ⟨middle, hadd, hmiddle⟩ := add_ok h ""
    obtain ⟨b', hlines, hb'⟩ := addAll_ok hmiddle (Text.lines (Text.join "\n" (Code.lines code)))
    refine ⟨b', ?_, hb'⟩
    rw [hadd]
    exact hlines

end Buffer

namespace SourceFile

variable {file : SourceFile} {c : Config}

/-- A nested namespace that takes lines: it was opened and entered. -/
structure NestedOpen (name : String) (b : Buffer) : Prop where
  openAt : b.OpenAt 1
  opening : (openedNamespace name).lines <+: b.lines

/-- A nested namespace that is finished. -/
structure NestedClosed (name : String) (b : Buffer) : Prop where
  closed : b.closed = true
  depth : b.depth = 0
  opening : b.lines.head? = some ("export namespace " ++ name ++ " \x7b")
  closing : b.lines.getLast? = some "\x7d"

/-- Every section takes lines, and nested namespaces are entered. -/
structure Open (file : SourceFile) : Prop where
  preamble : file.preamble.OpenAt 0
  types : file.types.OpenAt 0
  enums : file.enums.OpenAt 0
  nested : ∀ entry ∈ file.namespaces, NestedOpen entry.1 entry.2
  aspects : file.aspects.OpenAt 0
  classes : file.classes.OpenAt 0
  operations : file.operations.OpenAt 0

theorem Open.nestedOpen (h : file.Open) (name : String) :
    NestedOpen name (file.buffer (.nested name)) := by
  have hbuffer : file.buffer (.nested name) =
      (Table.get? file.namespaces name).getD (openedNamespace name) := rfl
  rw [hbuffer]
  cases hget : Table.get? file.namespaces name with
  | none => exact ⟨⟨rfl, rfl⟩, List.prefix_refl _⟩
  | some b => exact h.nested _ (Table.mem_of_get? hget)

/-- A section takes lines, and the file stays open with more lines there. -/
theorem Open.buffer (h : file.Open) (t : Section) : ∃ depth, (file.buffer t).OpenAt depth ∧
    ∀ b : Buffer, b.OpenAt depth → (file.buffer t).lines <+: b.lines →
      (file.setBuffer b t).Open := by
  cases t with
  | preamble => exact ⟨0, h.preamble, fun b hb _ => { h with preamble := hb }⟩
  | types => exact ⟨0, h.types, fun b hb _ => { h with types := hb }⟩
  | enums => exact ⟨0, h.enums, fun b hb _ => { h with enums := hb }⟩
  | aspects => exact ⟨0, h.aspects, fun b hb _ => { h with aspects := hb }⟩
  | classes => exact ⟨0, h.classes, fun b hb _ => { h with classes := hb }⟩
  | operations => exact ⟨0, h.operations, fun b hb _ => { h with operations := hb }⟩
  | nested name =>
    have hnested := h.nestedOpen name
    refine ⟨1, hnested.openAt, fun b hb hlines => { h with nested := fun entry hentry => ?_ }⟩
    rcases Table.mem_put hentry with hentry | rfl
    · exact h.nested entry hentry
    · exact ⟨hb, hnested.opening.trans hlines⟩

theorem append_ok (h : file.Open) (t : Section) (code : List Code) :
    ∃ file', file.append t code = .ok file' ∧ file'.Open := by
  obtain ⟨depth, hopen, hset⟩ := h.buffer t
  obtain ⟨b, hb, hb'⟩ := Buffer.append_ok hopen code
  refine ⟨file.setBuffer b t, ?_, hset b hb' (Buffer.append_keeps hb)⟩
  rw [append, hb]
  rfl

theorem place_ok (h : file.Open) (placements : List Placement) :
    ∃ file', file.place c placements = .ok file' ∧ file'.Open := by
  induction placements generalizing file with
  | nil => exact ⟨file, rfl, h⟩
  | cons p rest ih =>
    obtain ⟨middle, hfirst, hmiddle⟩ := append_ok h p.target (p.code c)
    obtain ⟨file', hrest, hfile'⟩ := ih hmiddle
    refine ⟨file', ?_, hfile'⟩
    rw [place, hfirst]
    exact hrest

theorem Open.addImport (h : file.Open) (target : Path) : (file.addImport target).Open := by
  simp only [SourceFile.addImport]
  split
  · exact { h with }
  · exact h

theorem Open.addImports (h : file.Open) (targets : List Path) : (file.addImports targets).Open := by
  induction targets generalizing file with
  | nil => exact h
  | cons target rest ih => exact ih (h.addImport target)

theorem start_open (path : Path) : (start path).Open := by
  have hempty : ({ path } : SourceFile).Open := by
    constructor <;> simp [Buffer.OpenAt]
  exact hempty.addImport basePath

theorem emit_ok (h : file.Open) (e : Emission) :
    ∃ file', file.emit c e = .ok file' ∧ file'.Open := by
  obtain ⟨placed, hplaced, hopen⟩ := place_ok (c := c) (h.addImports e.imports) e.placements
  rw [emit, hplaced]
  exact ⟨_, rfl, { hopen with }⟩

theorem finishBuffer_ok {name : String} {b : Buffer} (h : NestedOpen name b) :
    ∃ b', finishBuffer b = .ok b' ∧ NestedClosed name b' := by
  obtain ⟨hclosed, hdepth⟩ := h.openAt
  have hfinish : finishBuffer b =
      .ok { b with lines := b.lines ++ ["\x7d"], depth := 0, closed := true } := by
    simp only [finishBuffer, Buffer.outdent, hclosed, hdepth]
    rfl
  refine ⟨_, hfinish, rfl, rfl, ?_, List.getLast?_concat⟩
  obtain ⟨rest, hrest⟩ := h.opening
  rw [← hrest]
  rfl

example : (finishBuffer (openedNamespace "Books")).toOption =
    some { lines := ["export namespace Books \x7b", "\x7d"], closed := true } := by
  decide

theorem finishAll_ok {namespaces : Table Buffer}
    (h : ∀ entry ∈ namespaces, NestedOpen entry.1 entry.2) :
    ∃ closed, finishAll namespaces = (closed, none) ∧
      Table.names closed = Table.names namespaces ∧
      ∀ entry ∈ closed, NestedClosed entry.1 entry.2 := by
  induction namespaces with
  | nil => exact ⟨[], rfl, rfl, by simp⟩
  | cons entry rest ih =>
    obtain ⟨b', hb', hclosed⟩ := finishBuffer_ok (h entry List.mem_cons_self)
    obtain ⟨closed, hrest, hnames, hall⟩ := ih fun e he => h e (List.mem_cons_of_mem _ he)
    refine ⟨(entry.1, b') :: closed, ?_, ?_, List.forall_mem_cons.mpr ⟨hclosed, hall⟩⟩
    · rw [finishAll, hb', hrest]
    · rw [Table.names_cons, hnames]
      rfl

/-- A finished file: nothing but its nested namespaces has changed, and these are
closed.  What was written to them is still there. -/
structure Closes (file file' : SourceFile) : Prop where
  rest : file' = { file with namespaces := file'.namespaces }
  names : Table.names file'.namespaces = Table.names file.namespaces
  nested : ∀ entry ∈ file'.namespaces, NestedClosed entry.1 entry.2
  grows : file.Grows file'

theorem finished_ok (h : file.Open) : ∃ file', file.finished = .ok file' ∧ file.Closes file' := by
  obtain ⟨closed, hall, hnames, hclosed⟩ := finishAll_ok h.nested
  have hfinished : file.finished = .ok { file with namespaces := closed } := by
    rw [finished, finish, hall]
  exact ⟨_, hfinished, rfl, hnames, hclosed, (finished_grows hfinished).1⟩

end SourceFile

namespace Store

variable {store : Store} {c : Config}

theorem emit_ok (h : ∀ file ∈ store, file.Open) (e : Emission) :
    ∃ store', store.emit c e = .ok store' ∧ ∀ file ∈ store', file.Open := by
  induction store with
  | nil =>
    obtain ⟨file, hfile, hopen⟩ := SourceFile.emit_ok (c := c) (SourceFile.start_open e.path) e
    refine ⟨[file], ?_, by simpa using hopen⟩
    rw [Store.emit, hfile]
    rfl
  | cons first rest ih =>
    have hrest : ∀ file ∈ rest, file.Open := fun file hf => h file (List.mem_cons_of_mem _ hf)
    rw [Store.emit]
    split
    · obtain ⟨file, hfile, hopen⟩ := SourceFile.emit_ok (c := c) (h first List.mem_cons_self) e
      refine ⟨file :: rest, ?_, List.forall_mem_cons.mpr ⟨hopen, hrest⟩⟩
      rw [hfile]
      rfl
    · obtain ⟨rest', hemit, hopen⟩ := ih hrest
      refine ⟨first :: rest', ?_,
        List.forall_mem_cons.mpr ⟨h first List.mem_cons_self, hopen⟩⟩
      rw [hemit]
      rfl

theorem emitAll_ok (h : ∀ file ∈ store, file.Open) (es : List Emission) :
    ∃ store', store.emitAll c es = .ok store' ∧ ∀ file ∈ store', file.Open := by
  induction es generalizing store with
  | nil => exact ⟨store, rfl, h⟩
  | cons e rest ih =>
    obtain ⟨middle, hfirst, hmiddle⟩ := emit_ok (c := c) h e
    obtain ⟨store', hrest, hopen⟩ := ih hmiddle
    refine ⟨store', ?_, hopen⟩
    rw [emitAll, hfirst]
    exact hrest

theorem finished_ok (h : ∀ file ∈ store, file.Open) :
    ∃ store', store.finished = .ok store' ∧ List.Forall₂ SourceFile.Closes store store' := by
  induction store with
  | nil => exact ⟨[], rfl, .nil⟩
  | cons file rest ih =>
    obtain ⟨file', hfile, hcloses⟩ := SourceFile.finished_ok (h file List.mem_cons_self)
    obtain ⟨rest', hrest, hall⟩ := ih fun f hf => h f (List.mem_cons_of_mem _ hf)
    refine ⟨file' :: rest', ?_, .cons hcloses hall⟩
    rw [finished, hfile]
    simp only [bind, Except.bind, hrest]
    rfl

/-- Emissions can be written one after the other, and the files can be finished at
any time. -/
theorem emitAll_finished (c : Config) (es : List Emission) :
    ∃ files, Store.emitAll c [] es = .ok files ∧ (∀ file ∈ files, file.Open) ∧
      ∃ sources, files.finished = .ok sources ∧ List.Forall₂ SourceFile.Closes files sources := by
  have hempty : ∀ file ∈ ([] : Store), file.Open := by simp
  obtain ⟨files, hfiles, hopen⟩ := emitAll_ok (c := c) hempty es
  exact ⟨files, hfiles, hopen, finished_ok hopen⟩

end Store

/-! ## Compilations -/

theorem Plan.sources_ok (c : Config) (plan : Plan) : ∃ sources, plan.sources c = .ok sources := by
  obtain ⟨files, hfiles, -, sources, hsources, -⟩ := Store.emitAll_finished c plan.emissions
  refine ⟨sources, ?_⟩
  rw [Plan.sources_eq, hfiles]
  exact hsources

theorem Plan.render_ok (c : Config) (plan : Plan) : ∃ o, plan.render c = .ok o := by
  obtain ⟨sources, hsources⟩ := plan.sources_ok c
  rw [Plan.render, hsources]
  exact ⟨_, rfl⟩

/-- Where there is a plan, the output is what it is written out to. -/
theorem compile_written {m : Model} {plan : Plan} (c : Config) (h : Plan.ofModel m = .ok plan) :
    ∃ o, compile m c = .ok o ∧ plan.render c = .ok o := by
  obtain ⟨o, ho⟩ := plan.render_ok c
  exact ⟨o, by rw [compile, h]; simp only [ho], ho⟩

/-- There is an output wherever there is a plan. -/
theorem compile_ok {m : Model} {plan : Plan} (c : Config) (h : Plan.ofModel m = .ok plan) :
    ∃ o, compile m c = .ok o := by
  obtain ⟨o, ho, -⟩ := compile_written c h
  exact ⟨o, ho⟩

/-- A compilation that fails has a cause. -/
theorem compile_ne_fault (m : Model) (c : Config) (fault : Fault) :
    compile m c ≠ .error (.fault fault) := by
  cases hplan : Plan.ofModel m with
  | error e => simp [compile, hplan]
  | ok plan =>
    obtain ⟨o, ho⟩ := compile_ok c hplan
    simp [ho]

end SchemaTypes
