import SchemaTypes.Proofs.Files.Directories

/-!
# What is written stays below

A directory that is pushed onto another one lies inside it if it is no absolute path and
does not climb.  No directory of an output climbs, since a segment of a namespace holds no
dot.  But a segment may start with a separator, and then it starts the directory anew, or
the whole directory may start with a backslash, which is written as a separator.

So what is written lies inside every output directory exactly if the namespaces of the
model start below (`compile_below`), and there are models where they do not
(`compile_above`).
-/

namespace SchemaTypes

namespace Directory

/-! ## Absolute paths -/

theorem isAbsolute_append (a b : String) :
    isAbsolute (a ++ b) = (isAbsolute a || (a == "" && isAbsolute b)) := by
  by_cases ha : a = ""
  · subst ha
    simp [isAbsolute]
  · obtain ⟨c, cs, hc⟩ := List.exists_cons_of_ne_nil (l := a.toList) (by simpa using ha)
    simp [isAbsolute, hc, ha]

theorem isAbsolute_push (a s : String) : isAbsolute (push a s) = (isAbsolute a || isAbsolute s) := by
  by_cases hs : isAbsolute s = true
  · simp [push, hs]
  · rw [Bool.not_eq_true] at hs
    have hlead : isAbsolute (lead a) = isAbsolute a := by
      rw [lead]
      split
      · rfl
      · next ha =>
        have hne : a ≠ "" := by
          rintro rfl
          exact ha rfl
        simp [isAbsolute_append, hne]
    rw [push_eq_lead hs, isAbsolute_append, hs, hlead, Bool.and_false]

/-- A path is absolute if one of its names is. -/
theorem isAbsolute_foldl_push (names : List String) :
    ∀ a, isAbsolute (names.foldl push a) = (isAbsolute a || names.any isAbsolute) := by
  induction names with
  | nil => simp
  | cons s rest ih =>
    intro a
    rw [List.foldl_cons, ih, isAbsolute_push, List.any_cons, Bool.or_assoc]

theorem head?_push {a s : String} (h : isAbsolute s = false) :
    (push a s).toList.head? = a.toList.head?.or s.toList.head? := by
  by_cases ha : a = ""
  · subst ha
    simp [push, h]
  · obtain ⟨c, cs, hc⟩ := List.exists_cons_of_ne_nil (l := a.toList) (by simpa using ha)
    rw [push_eq_lead h, lead]
    split <;> simp [hc]

/-- Separators are only put after other characters. -/
theorem head?_foldl_push {names : List String} (h : ∀ s ∈ names, isAbsolute s = false) :
    ∀ a : String, (names.foldl push a).toList.head? =
      a.toList.head?.or (names.flatMap String.toList).head? := by
  induction names with
  | nil => simp
  | cons s rest ih =>
    intro a
    rw [List.foldl_cons, ih fun x hx => h x (List.mem_cons_of_mem _ hx),
      head?_push (h s List.mem_cons_self), List.flatMap_cons, List.head?_append, Option.or_assoc]

theorem mem_push {a s : String} {c : Char} (h : c ∈ (push a s).toList) :
    c ∈ a.toList ∨ c ∈ s.toList ∨ c = '/' := by
  simp only [push] at h
  split at h
  · exact .inr (.inl h)
  · split at h
    · simp only [String.toList_append, List.mem_append] at h
      exact h.imp_right .inl
    · simp only [String.toList_append, List.mem_append] at h
      rcases h with (h | h) | h
      · exact .inl h
      · exact .inr (.inr (List.mem_singleton.mp h))
      · exact .inr (.inl h)

theorem mem_foldl_push {names : List String} {c : Char} :
    ∀ {a : String}, c ∈ (names.foldl push a).toList →
      c ∈ a.toList ∨ c = '/' ∨ ∃ s ∈ names, c ∈ s.toList := by
  induction names with
  | nil => exact fun h => .inl h
  | cons s rest ih =>
    intro a h
    rw [List.foldl_cons] at h
    rcases ih h with h | h | ⟨t, ht, h⟩
    · rcases mem_push h with h | h | h
      · exact .inl h
      · exact .inr (.inr ⟨s, List.mem_cons_self, h⟩)
      · exact .inr (.inl h)
    · exact .inr (.inl h)
    · exact .inr (.inr ⟨t, List.mem_cons_of_mem _ ht, h⟩)

/-! ## Components of what is pushed -/

/-- A path lies inside a directory: it goes on by names. -/
def Inside (below path : String) : Prop :=
  ∃ names : List String, names ≠ [] ∧
    components path = components below ++ names.map .name

theorem components_append_sep (front rest : String) :
    components (front ++ "/" ++ rest) =
      components (front ++ "/") ++ (Text.splitOn '/' rest).filterMap Component.ofName? := by
  have hsep : "/" = String.singleton '/' := rfl
  have hsplit := Text.splitOn_append_sep '/' front rest
  have hfront : Text.splitOn '/' (front ++ "/") = Text.splitOn '/' front ++ [""] := by
    have hempty := Text.splitOn_append_sep '/' front ""
    rwa [String.append_empty] at hempty
  rw [← hsep] at hsplit
  have hleading : leading (front ++ "/" ++ rest) = leading (front ++ "/") := by
    have hne : (front ++ "/" == "") = false := by simp
    obtain ⟨piece, pieces, hpieces⟩ :=
      List.exists_cons_of_ne_nil (Model.splitOn_ne_nil '/' front)
    rw [leading, leading, isAbsolute_append (front ++ "/"), hne, Bool.false_and, Bool.or_false,
      hsplit, hfront, hpieces]
    rfl
  have hnone : [""].filterMap Component.ofName? = [] := rfl
  rw [components, components, hleading, hsplit, hfront, List.filterMap_append,
    List.filterMap_append, hnone, List.append_nil, List.append_assoc]

theorem components_sep {below : String} (h : below ≠ "") :
    components (below ++ "/") = components below := by
  have hsplit : Text.splitOn '/' (below ++ "/") = Text.splitOn '/' below ++ [""] := by
    have hempty := Text.splitOn_append_sep '/' below ""
    rwa [String.append_empty] at hempty
  obtain ⟨piece, pieces, hpieces⟩ := List.exists_cons_of_ne_nil (Model.splitOn_ne_nil '/' below)
  have hleading : leading (below ++ "/") = leading below := by
    rw [leading, leading, isAbsolute_append, hsplit, hpieces]
    simp [h]
  rw [components, components, hleading, hsplit, List.filterMap_append]
  simp [Component.ofName?]

/-- What is pushed onto a path follows its components, if it leads nowhere else. -/
theorem components_push {below rest : String} (h : leading rest = []) :
    components (push below rest) = components below ++ components rest := by
  have habs : isAbsolute rest = false := by
    rw [leading] at h
    split at h
    · exact absurd h (List.cons_ne_nil _ _)
    · next habs => simpa using habs
  have hrest : components rest = (Text.splitOn '/' rest).filterMap Component.ofName? := by
    rw [components, h, List.nil_append]
  rw [push_eq_lead habs, hrest]
  by_cases hempty : below = ""
  · subst hempty
    have hnone : components "" = [] := by decide
    rw [hnone, List.nil_append, ← hrest, lead, if_pos (by rfl), String.empty_append]
  · by_cases hend : endsWithSeparator below = true
    · obtain ⟨front, hfront⟩ : ∃ front : String, below = front ++ "/" := by
        rw [endsWithSeparator, beq_iff_eq, List.getLast?_eq_some_iff] at hend
        obtain ⟨front, hfront⟩ := hend
        exact ⟨String.ofList front, String.toList_inj.mp (by simp [hfront])⟩
      rw [lead, if_pos (by simp [hend]), hfront, components_append_sep]
    · rw [lead, if_neg (by simp [hempty, hend]), components_append_sep, components_sep hempty]

/-- A text without dots has no other components than the root and names. -/
theorem components_of_noDot {path : String} (h : '.' ∉ path.toList) :
    leading path = (if isAbsolute path then [.root] else []) ∧
      ∃ names : List String, components path = leading path ++ names.map .name := by
  have hpiece : ∀ s ∈ Text.splitOn '/' path, '.' ∉ s.toList := by
    intro s hs hdot
    refine h ?_
    have hjoin := @Text.isInfix_join_of_mem "/" _ _ hs
    have hwhole : Text.join "/" (Text.splitOn '/' path) = path := Text.join_splitOn '/' path
    rw [hwhole] at hjoin
    exact hjoin.subset hdot
  constructor
  · rw [leading]
    split
    · rfl
    · split
      · next hhead =>
        rw [beq_iff_eq] at hhead
        exact absurd (by decide) (hpiece "." (List.mem_of_head? hhead))
      · rfl
  · refine ⟨(Text.splitOn '/' path).filter (· ≠ ""), ?_⟩
    rw [components]
    congr 1
    generalize Text.splitOn '/' path = pieces at hpiece
    induction pieces with
    | nil => rfl
    | cons s rest ih =>
      have hs := hpiece s List.mem_cons_self
      have hdot : s ≠ "." := by
        rintro rfl
        exact hs (by decide)
      have hdots : s ≠ ".." := by
        rintro rfl
        exact hs (by decide)
      rw [List.filterMap_cons, ih fun x hx => hpiece x (List.mem_cons_of_mem _ hx)]
      by_cases hempty : s = ""
      · simp [Component.ofName?, hempty]
      · simp [Component.ofName?, hempty, hdot, hdots]

end Directory

namespace Path

open Directory

/-! ## Directories of namespaces -/

/-- The directory of the namespace starts below the output directory: no segment starts
anew with a separator, and the first character of all is no backslash. -/
def StartsBelow (p : Path) : Prop :=
  (∀ s ∈ p.segments, isAbsolute s = false) ∧
    (p.segments.flatMap String.toList).head? ≠ some '\\'

instance (p : Path) : Decidable p.StartsBelow := inferInstanceAs (Decidable (_ ∧ _))

theorem outputDirectory_def (p : Path) :
    p.outputDirectory = withForwardSlashes (joinNames p.segments) := rfl

theorem isAbsolute_withForwardSlashes (text : String) :
    isAbsolute (withForwardSlashes text) =
      (isAbsolute text || text.toList.head? == some '\\') := by
  simp only [isAbsolute, withForwardSlashes, String.toList_ofList]
  cases text.toList with
  | nil => rfl
  | cons c cs =>
    by_cases hback : c = '\\'
    · subst hback
      rfl
    · simp [hback]

/-- The directory is a relative path exactly if the namespace starts below. -/
theorem outputDirectory_relative_iff (p : Path) :
    isAbsolute p.outputDirectory = false ↔ p.StartsBelow := by
  have habs : isAbsolute (joinNames p.segments) = p.segments.any isAbsolute := by
    rw [joinNames, isAbsolute_foldl_push]
    rfl
  rw [outputDirectory_def, isAbsolute_withForwardSlashes, Bool.or_eq_false_iff, habs, StartsBelow]
  have hany : p.segments.any isAbsolute = false ↔ ∀ s ∈ p.segments, isAbsolute s = false := by
    simp
  rw [hany]
  refine and_congr_right fun h => ?_
  have hhead : (joinNames p.segments).toList.head? =
      (p.segments.flatMap String.toList).head? := head?_foldl_push h ""
  rw [hhead, beq_eq_false_iff_ne]

/-- No segment holds a dot. -/
def DotFree (p : Path) : Prop := ∀ s ∈ p.segments, '.' ∉ s.toList

theorem Plain.dotFree {p : Path} (h : p.Plain) : p.DotFree := fun s hs => (h s hs).noDot

theorem Plain.startsBelow {p : Path} (h : p.Plain) : p.StartsBelow := by
  refine ⟨fun s hs => (PlainSegment.solid (h s hs)).not_absolute, fun hhead => ?_⟩
  obtain ⟨s, hs, hback⟩ := List.mem_flatMap.mp (List.mem_of_head? hhead)
  exact (h s hs).noBackslash hback

theorem ofDotted_dotFree (text : String) : (ofDotted text).DotFree := by
  intro s hs
  rw [ofDotted] at hs
  split at hs
  · exact absurd hs List.not_mem_nil
  · exact Text.notMem_of_mem_splitOn hs

theorem DotFree.outputDirectory {p : Path} (h : p.DotFree) : '.' ∉ p.outputDirectory.toList := by
  intro hdot
  rw [outputDirectory_def, withForwardSlashes, String.toList_ofList, List.mem_map] at hdot
  obtain ⟨c, hc, hmap⟩ := hdot
  have hc' : c = '.' := by
    split at hmap
    · exact absurd hmap (by decide)
    · exact hmap
  subst hc'
  rcases mem_foldl_push hc with hc | hc | ⟨s, hs, hc⟩
  · exact absurd hc (by decide)
  · exact absurd hc (by decide)
  · exact h s hs hc

/-- Such a namespace can be read off its dotted text, unless it is the one above all
others. -/
theorem DotFree.eq_splitOn {p : Path} (h : p.DotFree) :
    p = root ∨ p = ⟨Text.splitOn '.' p.dotted⟩ := by
  obtain ⟨segments⟩ := p
  cases segments with
  | nil => exact .inl rfl
  | cons s rest =>
    have hsplit : Text.splitOn '.' (⟨s :: rest⟩ : Path).dotted = s :: rest :=
      @Text.splitOn_join '.' _ (List.cons_ne_nil s rest) h
    exact .inr (congrArg _ hsplit.symm)

/-- Namespaces of one dotted text start below together. -/
theorem DotFree.startsBelow_iff {p q : Path} (hp : p.DotFree) (hq : q.DotFree)
    (h : p.dotted = q.dotted) : p.StartsBelow ↔ q.StartsBelow := by
  have hsplit : ∀ {p : Path}, p.DotFree →
      (p.StartsBelow ↔ (⟨Text.splitOn '.' p.dotted⟩ : Path).StartsBelow) := by
    intro p hp
    rcases hp.eq_splitOn with rfl | heq
    · decide
    · rw [← heq]
  rw [hsplit hp, hsplit hq, h]

end Path

/-! ## What is written -/

namespace GeneratedFile

open Directory

variable {f : GeneratedFile} {below : String}

/-- A file is written in its directory, as `index.ts` or `index.js`. -/
theorem of_mem_writes {w : FileWrite} (h : w ∈ f.writes below) :
    w.directory = push below f.directory ∧ (w.name = "index.ts" ∨ w.name = "index.js") := by
  rcases List.mem_cons.mp h with rfl | h
  · exact ⟨rfl, .inl rfl⟩
  · cases hr : f.runtime with
    | none => simp [hr] at h
    | some text =>
      rw [hr] at h
      obtain rfl := List.mem_singleton.mp h
      exact ⟨rfl, .inr rfl⟩

theorem directory_not_parent (h : f.path.DotFree) : .parent ∉ components f.directory := by
  have hdots : '.' ∉ f.directory.toList := h.outputDirectory
  obtain ⟨hleading, names, hnames⟩ := components_of_noDot hdots
  rw [hnames, hleading]
  split <;> simp

/-- What is written for a namespace that starts below lies inside the output directory. -/
theorem writes_inside (hdots : f.path.DotFree) (h : f.path.StartsBelow) :
    ∀ w ∈ f.writes below, Inside below w.path := by
  intro w hw
  obtain ⟨hdirectory, hname⟩ := of_mem_writes hw
  have habs : isAbsolute f.directory = false := f.path.outputDirectory_relative_iff.mpr h
  obtain ⟨hleading, names, hnames⟩ := components_of_noDot hdots.outputDirectory
  have hleading : leading f.directory = [] := by
    have hdirectory : f.directory = f.path.outputDirectory := rfl
    rw [hdirectory, hleading, ← hdirectory, habs, if_neg Bool.false_ne_true]
  have hfile : leading w.name = [] ∧ components w.name = [.name w.name] := by
    rcases hname with hname | hname <;> rw [hname] <;> decide
  refine ⟨names ++ [w.name], by simp, ?_⟩
  have hcomponents : components f.directory = names.map .name := by
    have hnames : components f.directory = leading f.directory ++ names.map .name := hnames
    rw [hnames, hleading, List.nil_append]
  rw [FileWrite.path, components_push hfile.1, hfile.2, hdirectory, components_push hleading,
    hcomponents, List.map_append, List.append_assoc]
  rfl

/-- What is written for another namespace is written where its directory says, whatever
the output directory. -/
theorem writes_above (h : isAbsolute f.directory = true) : f.writes below = f.writes "" := by
  simp [writes, push, h]

/-- What is written for a file lies inside every output directory exactly if its namespace
starts below. -/
theorem writes_inside_iff (hdots : f.path.DotFree) :
    (∀ below, ∀ w ∈ f.writes below, Inside below w.path) ↔ f.path.StartsBelow := by
  constructor
  · intro h
    rw [← Path.outputDirectory_relative_iff, ← Bool.not_eq_true]
    intro habs
    -- The type layer goes to the same absolute path for every output directory.
    have hmem : ⟨push "" f.directory, "index.ts", f.types⟩ ∈ f.writes "gen" := by
      rw [writes_above habs]
      exact List.mem_cons_self
    obtain ⟨names, -, hnames⟩ := h "gen" _ hmem
    have hroot : (components (FileWrite.path ⟨push "" f.directory, "index.ts", f.types⟩)).head? =
        some .root := by
      have habs : isAbsolute f.directory = true := habs
      simp [components, leading, FileWrite.path, isAbsolute_push, habs]
    have hgen : components "gen" = [.name "gen"] := by decide
    rw [hnames, hgen] at hroot
    cases hroot
  · exact fun h _ => writes_inside hdots h

end GeneratedFile

/-! ## The output for a model -/

theorem Model.spaces_dotFree {m : Model} {p : Path} (h : p ∈ m.spaces) : p.DotFree := by
  obtain ⟨⟨name, d⟩, -, hspace⟩ := List.mem_filterMap.mp h
  have hnames : (m.nameParts name).path.DotFree := by
    intro s hs
    have happend := m.splitNamespace_append (Text.splitOn '.' name) []
    rw [List.nil_append] at happend
    refine Text.notMem_of_mem_splitOn (s := name) (happend ▸ List.mem_append_left _ ?_)
    exact hs
  simp only [fileSpace?] at hspace
  split at hspace
  · cases hspace
  · split at hspace <;> cases hspace
    all_goals first | exact hnames | exact Path.ofDotted_dotFree name

/-- The files of an output are for the base namespace, for libraries or for namespaces of
the model, and every namespace of the model has one. -/
theorem compile_paths {m : Model} {c : Config} {o : Output} (h : compile m c = .ok o) :
    (∀ f ∈ o.files, f.path.Plain ∨ f.path ∈ m.spaces) ∧
      ∀ p ∈ m.spaces, ∃ f ∈ o.files, f.path.DotFree ∧ f.path.dotted = p.dotted := by
  obtain ⟨plan, hplan, hrender⟩ := compile_eq_ok h
  obtain ⟨sources, hsources, hfiles⟩ := Plan.render_eq_ok hrender
  obtain ⟨-, hmem, hfile⟩ := Plan.sources_spaces hplan hsources
  obtain ⟨r, hr, hreferenced⟩ := Plan.libraries_eq hplan
  rw [hfiles]
  constructor
  · intro f hf
    rcases List.mem_append.mp hf with hf | hf
    · rcases List.mem_cons.mp hf with rfl | hf
      · exact .inl basePath_plain
      · obtain ⟨lib, hlib, rfl⟩ := List.mem_map.mp hf
        exact .inl (Registry.standard_plain hr ⟨lib, hreferenced ▸ hlib, rfl⟩)
    · obtain ⟨file, hsource, rfl⟩ := List.mem_map.mp hf
      exact .inr (hmem _ (List.mem_map_of_mem hsource))
  · intro p hp
    obtain ⟨q, hq, hdotted⟩ := hfile p hp
    obtain ⟨file, hsource, rfl⟩ := List.mem_map.mp hq
    exact ⟨file.file c, List.mem_append_right _ (List.mem_map_of_mem hsource),
      Model.spaces_dotFree (hmem _ hq), hdotted⟩

open Directory in
/-- No directory of an output climbs.  A directory is a relative path, and everything that
is written for its file lies inside the output directory, whichever that is, exactly if its
namespace starts below.  All files do so exactly if the namespaces of the model do. -/
theorem compile_below {m : Model} {c : Config} {o : Output} (h : compile m c = .ok o) :
    (∀ f ∈ o.files, .parent ∉ components f.directory ∧
      (isAbsolute f.directory = false ↔ f.path.StartsBelow) ∧
      ((∀ below, ∀ w ∈ f.writes below, Inside below w.path) ↔ f.path.StartsBelow)) ∧
    ((∀ f ∈ o.files, f.path.StartsBelow) ↔ ∀ p ∈ m.spaces, p.StartsBelow) := by
  obtain ⟨hpaths, hspaces⟩ := compile_paths h
  have hdots : ∀ f ∈ o.files, f.path.DotFree := fun f hf =>
    (hpaths f hf).elim Path.Plain.dotFree Model.spaces_dotFree
  refine ⟨fun f hf => ⟨f.directory_not_parent (hdots f hf), ?_, ?_⟩, fun hall p hp => ?_,
    fun hall f hf => ?_⟩
  · exact f.path.outputDirectory_relative_iff
  · exact GeneratedFile.writes_inside_iff (hdots f hf)
  · obtain ⟨f, hf, hdot, hdotted⟩ := hspaces p hp
    exact (hdot.startsBelow_iff (Model.spaces_dotFree hp) hdotted).mp (hall f hf)
  · exact (hpaths f hf).elim Path.Plain.startsBelow (hall _)

open Directory in
theorem compile_below_shelf :
    ∃ o, compile shelf {} = .ok o ∧ ∀ f ∈ o.files, .parent ∉ components f.directory ∧
      isAbsolute f.directory = false ∧ ∀ below, ∀ w ∈ f.writes below, Inside below w.path := by
  have hspaces : ∀ p ∈ shelf.spaces, p.StartsBelow := by decide
  obtain ⟨plan, hplan⟩ := Except.exists_eq_ok (x := Plan.ofModel shelf) (by decide +kernel)
  obtain ⟨o, ho⟩ := compile_ok {} hplan
  obtain ⟨hfiles, hbelow⟩ := compile_below ho
  refine ⟨o, ho, fun f hf => ?_⟩
  obtain ⟨hparent, hrelative, hinside⟩ := hfiles f hf
  have hstarts := hbelow.mpr hspaces f hf
  exact ⟨hparent, hrelative.mpr hstarts, hinside.mpr hstarts⟩

/-- Books in a namespace whose segment starts with a separator. -/
def rootBooks : Model where
  definitions :=
    [("/abs.Books", {
        kind := some .entity
        elements := some [("ID", { type := some (.name "cds.UUID"), key := true })] })]

open Directory in
/-- The file of the books is written to a directory at the root, whatever the output
directory. -/
theorem compile_above :
    ∃ o, compile rootBooks {} = .ok o ∧ ∃ f ∈ o.files, f.directory = "/abs" ∧
      (∀ below, ∃ w ∈ o.writes below, w.path = "/abs/index.ts") ∧
      ¬ Inside "gen" "/abs/index.ts" := by
  obtain ⟨plan, hplan⟩ := Except.exists_eq_ok (x := Plan.ofModel rootBooks) (by decide +kernel)
  obtain ⟨o, ho⟩ := compile_ok {} hplan
  have hspace : (⟨["/abs"]⟩ : Path) ∈ rootBooks.spaces := by decide
  obtain ⟨f, hf, hdots, hdotted⟩ := (compile_paths ho).2 _ hspace
  have hdirectory : f.directory = "/abs" := by
    have hpath : f.path = ⟨["/abs"]⟩ := by
      rcases hdots.eq_splitOn with hroot | hsplit
      · rw [hroot] at hdotted
        exact absurd hdotted (by decide)
      · rw [hsplit, hdotted]
        decide
    have habs : (⟨["/abs"]⟩ : Path).outputDirectory = "/abs" := by decide
    rw [GeneratedFile.directory, hpath, habs]
  have hfile : push "/abs" "index.ts" = "/abs/index.ts" := by decide
  refine ⟨o, ho, f, hf, hdirectory, fun below => ?_, ?_⟩
  · refine ⟨⟨"/abs", "index.ts", f.types⟩, List.mem_flatMap.mpr ⟨f, hf, ?_⟩, hfile⟩
    have hpush : push below "/abs" = "/abs" := rfl
    rw [GeneratedFile.writes, hdirectory, hpush]
    exact List.mem_cons_self
  · rintro ⟨names, -, hnames⟩
    have hgen : components "gen" = [.name "gen"] := by decide
    have hroot : (components "/abs/index.ts").head? = some .root := by decide
    rw [hnames, hgen] at hroot
    cases hroot

end SchemaTypes
