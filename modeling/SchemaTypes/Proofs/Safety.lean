import SchemaTypes.Proofs.Code.Printing
import SchemaTypes.Proofs.Visit

/-!
# Writing stays within bounds

Whatever the model and the options, a compilation comes to an output or to a
cause why there is none, and no buffer is misused on the way.  This is so at
every stage: after the definitions that were visited so far, and after the edits
that a printer has made before it gave up (`Model.safe`).

The names of the functions of ancestors are found by cutting the name of a class
off its qualified name.  The cut is always within the name, and between two of
its characters (`Aspect.cutBase?_eq`).
-/

namespace SchemaTypes

/-! ## Cutting names -/

namespace Text

/-- What stands before the last bytes of a text.  Nothing, where there are not so
many bytes or the cut is not between two characters. -/
def cutEnd? (text : String) (bytes : Nat) : Option String :=
  if bytes ≤ text.utf8ByteSize then
    (text.pos? ⟨text.utf8ByteSize - bytes⟩).map fun p => (text.sliceTo p).copy
  else none

theorem pos?_eq {text : String} {offset : String.Pos.Raw} (h : offset.IsValid text) :
    text.pos? offset = some (text.pos offset h) := by
  rw [String.pos?, String.Slice.pos?,
    dif_pos (String.Pos.Raw.isValidForSlice_eq_true_iff.mpr h.toSlice)]
  rfl

theorem cutEnd?_append (front back : String) :
    cutEnd? (front ++ back) back.utf8ByteSize = some front := by
  have hvalid : front.rawEndPos.IsValid (front ++ back) :=
    String.Pos.Raw.IsValid.append_right String.Pos.Raw.isValid_rawEndPos back
  have hsplits : ((front ++ back).pos front.rawEndPos hvalid).Splits front back := ⟨rfl, rfl⟩
  have hoffset : (⟨(front ++ back).utf8ByteSize - back.utf8ByteSize⟩ : String.Pos.Raw) =
      front.rawEndPos := by
    simp [String.Pos.Raw.ext_iff]
  rw [cutEnd?, if_pos (by simp), hoffset, pos?_eq hvalid, Option.map_some]
  exact congrArg some (String.Pos.splits _ |>.eq_left hsplits)

end Text

namespace Aspect

/-- The base class with the properties of all ancestors added, where the qualifier
of an ancestor is what is left of its qualified name without its name. -/
def cutBase? (ancestors : List UserDefined) : Option String :=
  ancestors.foldlM (fun inner u =>
    (Text.cutEnd? u.singular u.names.singular.utf8ByteSize).map fun qualifier =>
      qualifier ++ aspectName u.names.singular ++ "(" ++ inner ++ ")") "Base"

/-- No cut goes wrong, and what is left is the qualifier. -/
theorem cutBase?_eq (ancestors : List UserDefined) : cutBase? ancestors = some (base ancestors) := by
  simp only [cutBase?, base, UserDefined.singular, Text.cutEnd?_append, Option.map_some]
  exact List.foldlM_pure

end Aspect

/-! ## Compilations -/

/-- Nothing goes wrong with a buffer, or with the name of an ancestor. -/
structure Model.Safe (m : Model) (c : Config) : Prop where
  /-- There is an output, or a cause why there is none. -/
  compiles : ∀ fault, compile m c ≠ .error (.fault fault)
  /-- After any visits, all files can be written on, and finishing them closes every
  nested namespace. -/
  visits : ∀ visited : Table Definition,
    (∃ e, m.filesAfter c visited = .error (.cause e)) ∨
      ∃ files, m.filesAfter c visited = .ok files ∧ (∀ file ∈ files, file.Open) ∧
        ∃ sources, files.finished = .ok sources ∧ List.Forall₂ SourceFile.Closes files sources
  /-- The files of a plan are those after all visits, finished. -/
  sources : ∀ plan, Plan.ofModel m = .ok plan → ∃ files sources,
    m.filesAfter c m.definitions = .ok files ∧ plan.sources c = .ok sources ∧
      List.Forall₂ SourceFile.Closes files sources
  /-- Any declarations can be written on in a file. -/
  places : ∀ (file : SourceFile) (placements : List Placement), file.Open →
    ∃ file', file.place c placements = .ok file' ∧ file'.Open
  /-- Every declaration is printed without going wrong, as far as printing comes. -/
  declarations : ∀ d : Declaration, Code.Prints (d.code c)
  /-- So is every runtime stub. -/
  stubs : ∀ (file : SourceFile) (base : Path), Code.Prints (file.stubCode c.entitiesProxy base)
  /-- The name of every ancestor is cut within its qualified name. -/
  ancestors : ∀ us : List UserDefined, Aspect.cutBase? us = some (Aspect.base us)

theorem Model.sources_closed {m : Model} (c : Config) {plan : Plan}
    (h : Plan.ofModel m = .ok plan) : ∃ files sources,
      m.filesAfter c m.definitions = .ok files ∧ plan.sources c = .ok sources ∧
        List.Forall₂ SourceFile.Closes files sources := by
  obtain ⟨enabled, s, hdrafts, hrun, -⟩ := Plan.ofModel_eq_ok h
  obtain ⟨files, hfiles, -, sources, hsources, hcloses⟩ :=
    Store.emitAll_finished c plan.emissions
  obtain ⟨table, hafter, -, -, rfl⟩ := mapAfter_of_emitAll hdrafts hrun hfiles
  refine ⟨table.entries, sources, ?_, ?_, hcloses⟩
  · rw [filesAfter, hafter]
    rfl
  · rw [Plan.sources_eq, hfiles]
    exact hsources

/-- Every compilation is safe, whatever the model and the options. -/
theorem Model.safe (m : Model) (c : Config) : m.Safe c where
  compiles := compile_ne_fault m c
  visits := m.filesAfter_open c
  sources := fun _ h => sources_closed c h
  places := fun _ placements hopen => SourceFile.place_ok hopen placements
  declarations := fun d => Code.prints (d.code c)
  stubs := fun file base => Code.prints (file.stubCode c.entitiesProxy base)
  ancestors := Aspect.cutBase?_eq

end SchemaTypes
